import Flowline.Source.Stmt

/-!
# Pipelines

A resolved program: packet headers, metadata, and two controls.  A control has locals, actions and
tables, and a body that applies them.  A table matches a key and runs one of its actions; entries
are constant or come from the control plane at run time.
-/

namespace Flowline.Pipeline

open Source (Expr Stmt)

/-- How an element of a key is matched. -/
inductive MatchKind where
  | exact
  | ternary
  /-- By the longest prefix. -/
  | lpm
  | range
  | optional
  deriving DecidableEq, Repr

namespace MatchKind

/-- The name of a kind. -/
def name : MatchKind → Text
  | exact => "exact"
  | ternary => "ternary"
  | lpm => "lpm"
  | range => "range"
  | optional => "optional"

/-- All kinds. -/
def all : List MatchKind := [exact, ternary, lpm, range, optional]

/-- The kind of a name. -/
def ofName? (name : Text) : Option MatchKind := all.find? fun k => k.name == name

end MatchKind

/-- A packet header. -/
structure Header where
  name : Text
  /-- Match text that tells whether the header is present. -/
  protocol : Option Text
  fields : List Field

/-- An action of a control. -/
structure Action where
  control : Text
  name : Text
  params : List Param
  body : List Stmt

/-- The name of an action with that of its control. -/
def Action.fullName (a : Action) : Text := a.control ++ "." ++ a.name

/-- An action that a table may run, for its entries only, as its default only, or both. -/
structure ActionRef where
  action : Action
  tableOnly : Bool
  defaultOnly : Bool

/-- An element of a key. -/
structure Key where
  /-- The name that the control plane uses. -/
  name : Text
  expr : Expr
  kind : MatchKind

/-- A constant entry.  Priority zero leaves the choice to the order of the entries. -/
structure Entry where
  keys : List Expr
  action : Action
  args : List Expr
  priority : Int64

/-- The action of a packet that no entry matches. -/
structure DefaultAction where
  action : Action
  args : List Expr
  isConst : Bool

/-- A table. -/
structure Table where
  control : Text
  name : Text
  keys : List Key := []
  actions : List ActionRef := []
  default? : Option DefaultAction := none
  entries : List Entry := []
  /-- Its entries are the constant ones, even if there are none. -/
  hasConstEntries : Bool := false

namespace Table

/-- The name of a table with that of its control. -/
def fullName (t : Table) : Text := t.control ++ "." ++ t.name

/-- The first of a table's actions that has the given name. -/
def action? (t : Table) (name : Text) : Option ActionRef :=
  t.actions.find? fun r => r.action.name == name

end Table

/-- A control. -/
structure Control where
  name : Text
  params : List Text
  locals : List Local
  actions : List Action
  tables : List Table
  body : List Stmt

namespace Control

/-- The first table of a name. -/
def table? (c : Control) (name : Text) : Option Table := c.tables.find? fun t => t.name == name

/-- The first action of a name. -/
def action? (c : Control) (name : Text) : Option Action := c.actions.find? fun a => a.name == name

end Control

/-- A program. -/
structure Program where
  headers : List Header
  metadata : List Field
  standard : List Field
  ingress : Option Control
  egress : Option Control

/-- The controls that are there, in the order in which packets meet them. -/
def Program.controls (p : Program) : List Control := p.ingress.toList ++ p.egress.toList

end Flowline.Pipeline
