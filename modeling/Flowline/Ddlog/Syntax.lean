import Flowline.Text.Numeral
import Flowline.Text.Bytes

/-!
# DDlog programs

The part of DDlog that describes flows: types, relations, helper functions and rules.  A rule
without a body is a fact.
-/

namespace Flowline.Ddlog

/-! ## Types -/

mutual

/-- A type. -/
inductive Ty where
  | bit (width : Int64) (isSigned : Bool)
  | bool
  | string
  | tuple (elems : List Ty)
  | option (elem : Ty)
  | named (name : Text)
  | ctor (v : Variant)
  | sum (alts : List Variant)

/-- A constructor with its fields. -/
inductive Variant where
  | mk (name : Text) (fields : List Column)

/-- A column of a relation, a field of a constructor or a parameter of a function. -/
inductive Column where
  | mk (name : Text) (type : Ty)

end

/-- The name of a column. -/
def Column.name : Column → Text
  | .mk name _ => name

/-- The type of a column. -/
def Column.type : Column → Ty
  | .mk _ type => type

/-- The name of a constructor. -/
def Variant.name : Variant → Text
  | .mk name _ => name

/-- The fields of a constructor. -/
def Variant.fields : Variant → List Column
  | .mk _ fields => fields

/-- Bits that are read without a sign. -/
def Ty.bits (width : Int64) : Ty := .bit width false

/-! ## Expressions -/

mutual

/-- An expression or a pattern. -/
inductive Expr where
  | var (name : Text)
  /-- A string, in which variables may be interpolated. -/
  | str (value : Text)
  | int (digits : Text)
  | bool (value : Bool)
  | wildcard
  | choose (subject : Expr) (cases : List Case)
  | ctor (name : Text) (args : List Expr)
  | call (func : Text) (args : List Expr)
  | apply (left : Expr) (method : Text) (args : List Expr)
  | binary (op : Text) (left right : Expr)
  | cast (e : Expr) (type : Ty)
  | ifElse (cond thn els : Expr)
  | tuple (elems : List Expr)

/-- A case of a choice. -/
inductive Case where
  | mk (pattern result : Expr)

end

/-! ## Rules and declarations -/

/-- A relation applied to expressions or patterns. -/
structure Atom where
  relation : Text
  args : List Expr

/-- A condition or a binding in the body of a rule. -/
inductive Term where
  | atom (a : Atom)
  | assign (name : Text) (value : Expr)
  | cond (e : Expr)

/-- Who fills a relation. -/
inductive Direction where
  | internal
  | input
  | output
  deriving DecidableEq, Repr

/-- A relation with its columns. -/
structure Relation where
  direction : Direction
  name : Text
  columns : List Column

/-- A helper function. -/
structure Function where
  name : Text
  params : List Column
  result : Ty
  body : Expr

/-- A rule, with a comment in front of it unless that is empty. -/
structure Rule where
  comment : Text
  head : Atom
  body : List Term

/-- A declaration. -/
inductive Decl where
  | typedef (name : Text) (type : Ty)
  | relation (r : Relation)
  | function (f : Function)
  | rule (r : Rule)
  | comment (text : Text)

/-- The relation that a declaration declares. -/
def Decl.relation? : Decl → Option Relation
  | .relation r => some r
  | _ => none

/-- The rule that a declaration is. -/
def Decl.rule? : Decl → Option Rule
  | .rule r => some r
  | _ => none

/-- A program: declarations in order. -/
abbrev Program := List Decl

namespace Program

/-- The declared relations, in order. -/
def relations (p : Program) : List Relation := p.filterMap Decl.relation?

/-- The rules and facts of a relation. -/
def rules (p : Program) (relation : Text) : List Rule :=
  (p.filterMap Decl.rule?).filter fun r => r.head.relation == relation

end Program

end Flowline.Ddlog
