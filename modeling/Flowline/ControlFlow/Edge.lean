import Flowline.Source.Expr

/-!
# Edges between stages

A stage of a control is the application of a table, a condition, or a point where nothing happens.
Edges leave a stage always, on a truth value, or on the name of the action that a table ran.

A vertex is told from others by its position in the graph.  As a destination, however, two
applications of one table are the same.
-/

namespace Flowline.ControlFlow

open Source (Expr)

/-- What happens at a stage. -/
inductive Role where
  /-- A table is applied, given by its name in the control. -/
  | table (name : Option Text)
  | cond (e : Expr)
  | dummy

namespace Role

/-- The name of a role in listings. -/
def name : Role → Text
  | table _ => "table"
  | cond _ => "if"
  | dummy => "dummy"

/-- The table that is applied. -/
def table? : Role → Option Text
  | table t => t
  | _ => none

end Role

/-- A stage, as edges refer to it. -/
structure Vertex where
  /-- The place among the nodes of its graph. -/
  position : Nat
  /-- The number of the stage on the switch. -/
  id : Int64
  name : Text
  role : Role

/-- Whether two vertices are one destination: the same vertex, or applications of the same
table. -/
def Vertex.sameDestination (a b : Vertex) : Bool :=
  a.position == b.position || (a.role.table?.isSome && a.role.table? == b.role.table?)

/-- When an edge is taken. -/
inductive EdgeKind where
  | always
  | onTrue
  | onFalse
  | onLabel
  deriving DecidableEq, Repr

/-- An edge, seen from one of its ends: the vertex at the other one, and when it is taken. -/
structure Edge where
  node : Vertex
  kind : EdgeKind := .always
  /-- The name of an action; only edges on a label have a use for it. -/
  label : Text := ""

namespace Edge

/-- An edge in listings. -/
def text (e : Edge) : Text :=
  match e.kind with
  | .always => e.node.name
  | .onTrue => e.node.name ++ "(true)"
  | .onFalse => e.node.name ++ "(false)"
  | .onLabel => e.node.name ++ "(" ++ e.label ++ ")"

/-- Whether two edges are the same. -/
def same (e o : Edge) : Bool :=
  e.node.position == o.node.position && e.kind == o.kind && e.label == o.label

/-- Whether two edges lead to the same destination in the same case. -/
def equivalent (e o : Edge) : Bool :=
  e.kind == o.kind && e.label == o.label && e.node.sameDestination o.node

/-- The edge taken on a truth value. -/
def onTruth (v : Vertex) (b : Bool) : Edge := ⟨v, if b then .onTrue else .onFalse, ""⟩

end Edge

/-- Edges without repetition, in the order in which they were added. -/
abbrev EdgeSet := List Edge

namespace EdgeSet

/-- Adds an edge that is not there yet. -/
def add (s : EdgeSet) (e : Edge) : EdgeSet := if s.any (·.same e) then s else s ++ [e]

/-- Adds all edges of another set. -/
def merge (s : EdgeSet) (other : List Edge) : EdgeSet := other.foldl EdgeSet.add s

/-- Whether an edge leads to a vertex. -/
def isDestination (s : EdgeSet) (v : Vertex) : Bool := s.any fun e => e.node.sameDestination v

/-- Where the first edge of a kind leads; of edges on labels, the first with the given one. -/
def target? (s : EdgeSet) (kind : EdgeKind) (label : Text) : Option Vertex :=
  (s.find? fun e => e.kind == kind && (kind != .onLabel || e.label == label)).map (·.node)

/-- A set in listings. -/
def text (s : EdgeSet) : Text := " ".intercalate (s.map Edge.text)

/-- Leaves out edges that are equivalent to one before them. -/
def distinct (es : List Edge) : EdgeSet :=
  es.foldl (fun s e => if s.any (·.equivalent e) then s else s ++ [e]) []

end EdgeSet

end Flowline.ControlFlow
