import Flowline.Pipeline.Storage
import Flowline.Source.Literal

/-!
# Expressions

Expressions of conditions, keys and assignments, before and after their names are resolved.  The
parser leaves dotted paths, calls and members; resolution turns them into fields, locals,
parameters, validity tests and outcomes of tables.  Keys of constant entries are never resolved,
so both kinds meet in one type.

Where the parser found no operand it leaves `missing`.
-/

namespace Flowline.Source

/-- The operators between two operands. -/
inductive BinaryOp where
  | or
  | and
  | eq
  | ne
  /-- A value and the mask under which it is compared. -/
  | mask
  deriving DecidableEq, Repr

/-- An operator in program text. -/
def BinaryOp.symbol : BinaryOp → Text
  | .or => "||"
  | .and => "&&"
  | .eq => "=="
  | .ne => "!="
  | .mask => "&&&"

/-- An expression. -/
inductive Expr where
  /-- An operand that the parser did not find. -/
  | missing
  /-- A dotted name not yet resolved. -/
  | path (name : Text)
  /-- A call, of a method of `target` or of a function of its own. -/
  | call (target : Option Text) (method : Text) (args : List Expr)
  /-- A member of the result of a call. -/
  | member (base : Expr) (name : Text)
  | field (f : Field)
  | localVar (l : Local)
  /-- A parameter of the action with the given full name. -/
  | param (p : Param) (action : Text)
  /-- A header is present. -/
  | valid (h : HeaderRef)
  /-- Applying a table hit, or, if `expected` is false, missed. -/
  | hit (t : TableRef) (expected : Bool)
  /-- The action that applying a table ran. -/
  | actionRun (t : TableRef)
  | literal (l : Literal)
  | truth (value : Bool)
  | binary (op : BinaryOp) (left right : Expr)
  | negation (e : Expr)
  /-- The bits `low` to `high` of a value. -/
  | slice (e : Expr) (high low : Int64)
  | cast (type : ValueType) (e : Expr)
  /-- A key that matches everything. -/
  | any
  deriving Repr, Inhabited

namespace Expr

mutual

/-- An expression in program text, without parentheses. -/
def text : Expr → Text
  | missing => "%!s(<nil>)"
  | path name => name
  | call none method args => method ++ "(" ++ ", ".intercalate (texts args) ++ ")"
  | call (some target) method args =>
    target ++ "." ++ method ++ "(" ++ ", ".intercalate (texts args) ++ ")"
  | member base name => base.text ++ "." ++ name
  | field f => f.name
  | localVar l => l.name
  | param p _ => p.name
  | valid h => "hdr." ++ h.name ++ ".isValid()"
  | hit t true => t.name ++ ".apply().hit"
  | hit t false => t.name ++ ".apply().miss"
  | actionRun t => t.name ++ ".apply().action_run"
  | literal l => l.text
  | truth true => "true"
  | truth false => "false"
  | binary op left right => left.text ++ " " ++ op.symbol ++ " " ++ right.text
  | negation e => "!" ++ e.text
  | slice e high low => e.text ++ "[" ++ Numeral.word high ++ ":" ++ Numeral.word low ++ "]"
  | cast type e => "(" ++ type.text ++ ")" ++ e.text
  | any => "_"

/-- The texts of a list of expressions. -/
def texts : List Expr → List Text
  | [] => []
  | e :: es => e.text :: texts es

end

/-- A list of expressions in program text. -/
def listText (es : List Expr) : Text := ", ".intercalate (texts es)

/-- The type of a resolved expression.  Unsized literals have width zero. -/
def type : Expr → ValueType
  | field f => f.type
  | localVar l => l.type
  | param p _ => p.type
  | literal l => { width := l.width, isSigned := l.isSigned }
  | truth _ => .truth
  | valid _ => .truth
  | hit _ _ => .truth
  | binary .mask left _ => left.type
  | binary _ _ _ => .truth
  | negation _ => .truth
  | slice _ high low => { width := high - low + 1 }
  | cast t _ => t
  | _ => {}

/-- Whether an expression denotes a place that can be written: a field or a local, or a part of
one. -/
def isStorage : Expr → Bool
  | field _ => true
  | localVar _ => true
  | slice e _ _ => e.isStorage
  | cast _ e => e.isStorage
  | _ => false

end Expr

end Flowline.Source
