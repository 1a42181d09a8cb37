import Flowline.Text.Bytes

/-!
# Document nodes

A document is a tree of scalars, sequences and mappings, each with the line on which it starts and
the tag that it was given, if any.  The order of a mapping is that of the text.

A node can stand for another one that was given a name.  It may even stand for one that it is a
part of, so it holds the number of that node, and the document keeps the named nodes by number.
-/

namespace Flowline.Yaml

/-- A node of a document. -/
inductive Node where
  /-- A scalar, plain or quoted. -/
  | scalar (line : Nat) (tag : Option Text) (plain : Bool) (value : Text)
  | seq (line : Nat) (tag : Option Text) (items : List Node)
  | map (line : Nat) (tag : Option Text) (entries : List (Node × Node))
  /-- A node that stands for another, with a number of its own and that of the other. -/
  | reference (line : Nat) (name : Text) (own target : Nat)
  deriving Repr, Inhabited

/-- The line on which a node starts. -/
def Node.line : Node → Nat
  | scalar l _ _ _ => l
  | seq l _ _ => l
  | map l _ _ => l
  | reference l _ _ _ => l

/-- A missing node. -/
def Node.nothing (line : Nat) : Node := .scalar line none true ""

/-- A tree, and the nodes in it that were given names. -/
structure Document where
  root : Node
  named : List (Nat × Node) := []
  /-- Bounds the steps from node to node that do not go round in a circle. -/
  size : Nat := 0
  deriving Repr

/-- The node that a node stands for. -/
def Document.target (d : Document) : Node → Node
  | .reference line _ _ target => (d.named.lookup target).getD (.nothing line)
  | n => n

end Flowline.Yaml
