import Flowline.Ddlog.Syntax

/-!
# The text of DDlog programs

Every node has one text.  Strings are quoted with escapes for the backslash, the quote and the line
break only; a comment stands on the line in front of its rule.
-/

namespace Flowline.Ddlog

/-! ## Types -/

mutual

/-- A type. -/
def Ty.text : Ty → Text
  | .bit width true => "signed<" ++ Numeral.word width ++ ">"
  | .bit width false => "bit<" ++ Numeral.word width ++ ">"
  | .bool => "bool"
  | .string => "string"
  | .tuple elems => "(" ++ ", ".intercalate (tyTexts elems) ++ ")"
  | .option elem => "Option<" ++ elem.text ++ ">"
  | .named name => name
  | .ctor v => v.text
  | .sum alts => " | ".intercalate (variantTexts alts)

/-- The texts of types. -/
def tyTexts : List Ty → List Text
  | [] => []
  | t :: ts => t.text :: tyTexts ts

/-- A constructor with its fields. -/
def Variant.text : Variant → Text
  | .mk name fields => name ++ "\x7b" ++ ", ".intercalate (columnTexts fields) ++ "\x7d"

/-- The texts of constructors. -/
def variantTexts : List Variant → List Text
  | [] => []
  | v :: vs => v.text :: variantTexts vs

/-- A column. -/
def Column.text : Column → Text
  | .mk name type => name ++ ": " ++ type.text

/-- The texts of columns. -/
def columnTexts : List Column → List Text
  | [] => []
  | c :: cs => c.text :: columnTexts cs

end

/-- Columns with commas between them. -/
def columnsText (cs : List Column) : Text := ", ".intercalate (columnTexts cs)

/-! ## Expressions -/

/-- The escaped form of a character of a string. -/
def escapeChar (c : Char) : List Char :=
  if c = '\\' then ['\\', '\\']
  else if c = '"' then ['\\', '"']
  else if c = '\n' then ['\\', 'n']
  else [c]

/-- A quoted string. -/
def stringText (t : Text) : Text :=
  "\"" ++ String.ofList (t.toList.flatMap escapeChar) ++ "\""

mutual

/-- An expression. -/
def Expr.text : Expr → Text
  | .var name => name
  | .str value => stringText value
  | .int digits => digits
  | .bool true => "true"
  | .bool false => "false"
  | .wildcard => "_"
  | .choose subject cases =>
    "match(" ++ subject.text ++ ") \x7b\n" ++ ",\n".intercalate (caseTexts cases) ++ "\n\x7d"
  | .ctor name args => name ++ "\x7b" ++ ", ".intercalate (exprTexts args) ++ "\x7d"
  | .call func args => func ++ "(" ++ ", ".intercalate (exprTexts args) ++ ")"
  | .apply left method args =>
    left.text ++ "." ++ method ++ "(" ++ ", ".intercalate (exprTexts args) ++ ")"
  | .binary op left right => "(" ++ left.text ++ " " ++ op ++ " " ++ right.text ++ ")"
  | .cast e type => "(" ++ e.text ++ " as " ++ type.text ++ ")"
  | .ifElse cond thn els =>
    "if (" ++ cond.text ++ ") \x7b " ++ thn.text ++ " \x7d else \x7b " ++ els.text ++ " \x7d"
  | .tuple elems => "(" ++ ", ".intercalate (exprTexts elems) ++ ")"

/-- The texts of expressions. -/
def exprTexts : List Expr → List Text
  | [] => []
  | e :: es => e.text :: exprTexts es

/-- A case of a choice. -/
def Case.text : Case → Text
  | .mk pattern result => "    " ++ pattern.text ++ " -> " ++ result.text

/-- The texts of cases. -/
def caseTexts : List Case → List Text
  | [] => []
  | c :: cs => c.text :: caseTexts cs

end

/-! ## Rules and declarations -/

/-- A relation applied to expressions. -/
def Atom.text (a : Atom) : Text :=
  a.relation ++ "(" ++ ", ".intercalate (exprTexts a.args) ++ ")"

/-- A term of a body. -/
def Term.text : Term → Text
  | .atom a => a.text
  | .assign name value => "var " ++ name ++ " = " ++ value.text
  | .cond e => e.text

/-- The word for who fills a relation. -/
def Direction.text : Direction → Text
  | .internal => ""
  | .input => "input "
  | .output => "output "

/-- A relation. -/
def Relation.text (r : Relation) : Text :=
  r.direction.text ++ "relation " ++ r.name ++ "(" ++ columnsText r.columns ++ ")"

/-- A function. -/
def Function.text (f : Function) : Text :=
  "function " ++ f.name ++ "(" ++ columnsText f.params ++ "): " ++ f.result.text ++ " \x7b\n    " ++
    f.body.text ++ "\n\x7d"

/-- A rule. -/
def Rule.text (r : Rule) : Text :=
  (if r.comment = "" then "" else "// " ++ r.comment ++ "\n") ++ r.head.text ++
    (if r.body.isEmpty then "" else " :- " ++ ",\n   ".intercalate (r.body.map Term.text)) ++ ".\n"

/-- A declaration. -/
def Decl.text : Decl → Text
  | .typedef name type => "typedef " ++ name ++ " = " ++ type.text
  | .relation r => r.text
  | .function f => f.text
  | .rule r => r.text
  | .comment t => "// " ++ t

/-- Declarations, each with a line break behind it. -/
def Program.text (p : Program) : Text := String.join (p.map fun d => d.text ++ "\n")

end Flowline.Ddlog
