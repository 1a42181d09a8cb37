import Flowline.ControlFlow.Basic
import Flowline.Problem

/-!
# Checking a graph

Packets only move on: no stage may be its own successor, and there must be no cycle.  Applying a
table right behind itself counts as going back to it.

Cycles are reported as components: sets of two or more stages of which each is reachable from all
others.  Components come before those that are reachable from them.
-/

namespace Flowline.ControlFlow

namespace Graph

/-- The numbers of the stages, each once. -/
def ids (g : Graph) : List Int64 := (g.nodes.map fun n => n.vertex.id).eraseDups

/-- The numbers of the other stages that edges lead to from stages with a number. -/
def nextIds (g : Graph) (id : Int64) : List Int64 :=
  (g.nodes.filter fun n => n.vertex.id == id).flatMap fun n =>
    (n.succs.map fun e => e.node.id).filter (· != id)

/-- Adds numbers reachable from a queue to those seen, in at most the given number of steps. -/
def closure (g : Graph) : Nat → List Int64 → List Int64 → List Int64
  | 0, _, seen => seen
  | _ + 1, [], seen => seen
  | n + 1, i :: queue, seen =>
    if seen.contains i then closure g n queue seen
    else closure g n (g.nextIds i ++ queue) (i :: seen)

/-- The numbers reachable from a number in one step or more. -/
def after (g : Graph) (id : Int64) : List Int64 :=
  g.closure (g.size + (g.nextIds id).length + 1) (g.nextIds id) []

/-- A component with what is reachable from it. -/
structure Component where
  members : List Int64
  reached : List Int64

/-- The stages on a cycle through others, with what is reachable from them. -/
def cyclic (g : Graph) : List (Int64 × List Int64) :=
  (g.ids.map fun i => (i, g.after i)).filter fun (i, reached) => reached.contains i

/-- The components of stages on cycles, each found at its least number. -/
def components (g : Graph) : List Component :=
  let cyclic := g.cyclic.mergeSort fun a b => a.1 ≤ b.1
  cyclic.filterMap fun (i, reached) =>
    let members :=
      (cyclic.filter fun (j, back) => reached.contains j && back.contains i).map (·.1)
    if members.head? == some i then some ⟨members, reached⟩ else none

/-- The components, each in front of those reachable from it. -/
def orderedComponents (g : Graph) : List (List Int64) :=
  let cs := g.components
  let before (c : Component) : Nat :=
    (cs.filter fun d => c.members.head?.any fun i => d.reached.contains i).length
  (cs.mergeSort fun a b => before a ≤ before b).map (·.members)

/-- Components in a message; too many of them are only counted. -/
def componentsText (cs : List (List Int64)) : Text :=
  let members := cs.flatten.length
  if 10 < members then
    toString members ++ " nodes in " ++ toString cs.length ++ " cyclic components"
  else
    "cyclic components: [" ++
      " ".intercalate (cs.map fun c => "[" ++ " ".intercalate (c.map Numeral.word) ++ "]") ++ "]"

/-- The stages that lead back to themselves. -/
def loops (g : Graph) : Report :=
  (g.nodes.filter fun n => n.succs.isDestination n.vertex).map fun n =>
    .diagnostic ⟨.structural, n.vertex.name,
      "node " ++ Numeral.word n.vertex.id ++ " is its own successor"⟩

/-- The cycles through several stages, as one problem. -/
def cycles (g : Graph) : Report :=
  match g.orderedComponents with
  | [] => []
  | cs =>
    [.diagnostic ⟨.structural, "cfg(" ++ g.control ++ ")",
      "control flow contains a cycle: topo: no topological ordering: " ++ componentsText cs⟩]

/-- Whether two nodes have the same number. -/
def hasRepeatedId (g : Graph) : Bool := g.ids.length != g.nodes.length

/-- What keeps packets from always moving on. -/
def verify (g : Graph) : Report :=
  if g.hasRepeatedId then [.fault .repeatedNode] else g.loops ++ g.cycles

end Graph

end Flowline.ControlFlow
