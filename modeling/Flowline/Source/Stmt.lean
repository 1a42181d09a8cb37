import Flowline.Source.Expr

/-!
# Statements

Statements of action bodies and of controls.  As with expressions, a call that applies a table is
an `apply` once its table is known.

A statement is printed at an indentation, four blanks for each level; only blocks and switches
break lines.
-/

namespace Flowline.Source

mutual

/-- A statement. -/
inductive Stmt where
  | block (stmts : List Stmt)
  | ifThen (cond : Expr) (thn : Stmt)
  | ifElse (cond : Expr) (thn els : Stmt)
  | switch (subject : Expr) (cases : List Case)
  | apply (t : TableRef)
  | exit
  | ret
  | empty
  | assign (left right : Expr)
  | call (target : Option Text) (method : Text) (args : List Expr)

/-- A case of a switch: a label that shares the body of the next case that has one, or a label with
its own body. -/
inductive Case where
  | bare (label : Text)
  | arm (label : Text) (body : List Stmt)

end

instance : Inhabited Stmt := ⟨.empty⟩

/-- The label of a case. -/
def Case.label : Case → Text
  | .bare l => l
  | .arm l _ => l

namespace Stmt

/-- The blanks in front of a line. -/
def pad (indent : Nat) : Text := String.ofList (List.replicate (4 * indent) ' ')

mutual

/-- A statement in program text, the lines after its first at the given indentation. -/
def textAt (indent : Nat) : Stmt → Text
  | block stmts => blockText indent stmts
  | ifThen cond thn => "if (" ++ cond.text ++ ") " ++ thn.textAt indent
  | ifElse cond thn els =>
    "if (" ++ cond.text ++ ") " ++ thn.textAt indent ++ " else " ++ els.textAt indent
  | switch subject cases =>
    "switch (" ++ subject.text ++ ") \x7b\n" ++ casesText (indent + 1) cases ++ pad indent ++ "\x7d"
  | apply t => t.name ++ ".apply();"
  | exit => "exit;"
  | ret => "return;"
  | empty => ";"
  | assign left right => left.text ++ " = " ++ right.text ++ ";"
  | call target method args => (Expr.call target method args).text ++ ";"

/-- A block in program text. -/
def blockText (indent : Nat) : List Stmt → Text
  | [] => "\x7b\x7d"
  | s :: ss => "\x7b\n" ++ linesText (indent + 1) (s :: ss) ++ pad indent ++ "\x7d"

/-- Statements one to a line. -/
def linesText (indent : Nat) : List Stmt → Text
  | [] => ""
  | s :: ss => pad indent ++ s.textAt indent ++ "\n" ++ linesText indent ss

/-- The cases of a switch, one to a line. -/
def casesText (indent : Nat) : List Case → Text
  | [] => ""
  | .bare label :: cs => pad indent ++ label ++ ":\n" ++ casesText indent cs
  | .arm label body :: cs =>
    pad indent ++ label ++ ": " ++ blockText indent body ++ "\n" ++ casesText indent cs

end

/-- A statement in program text. -/
def text (s : Stmt) : Text := s.textAt 0

end Stmt

end Flowline.Source
