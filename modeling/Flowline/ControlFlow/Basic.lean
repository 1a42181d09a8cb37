import Flowline.ControlFlow.Edge

/-!
# Graphs of stages

The graph of a control.  It is built from predecessors: every node knows from where, and in which
case, packets come to it.  Successors are read off the predecessors of all nodes; of two edges that
lead to one destination in one case, the first is kept.

* `Graph.ofPreds` finds the successors.
* `Graph.reachable` lists the vertices that packets can come to, by number.
-/

namespace Flowline.ControlFlow

/-- A stage with its edges. -/
structure Node where
  vertex : Vertex
  preds : EdgeSet
  succs : EdgeSet

/-- A stage with the edges that lead to it. -/
abbrev Incoming := Vertex × EdgeSet

/-- The edges that leave a vertex. -/
def successors (nodes : List Incoming) (v : Vertex) : EdgeSet :=
  EdgeSet.distinct (nodes.flatMap fun (n, preds) =>
    (preds.filter fun e => e.node.position == v.position).map fun e => ⟨n, e.kind, e.label⟩)

/-- The graph of a control. -/
structure Graph where
  control : Text
  /-- The nodes, each at its position. -/
  nodes : List Node
  entry : Vertex
  exit : Vertex

namespace Graph

/-- The graph of nodes whose predecessors are known. -/
def ofPreds (control : Text) (nodes : List Incoming) (entry exit : Vertex) : Graph :=
  { control
    nodes := nodes.map fun (v, preds) => ⟨v, preds, successors nodes v⟩
    entry
    exit }

/-- The edges that leave a vertex. -/
def succs (g : Graph) (v : Vertex) : EdgeSet :=
  match g.nodes[v.position]? with
  | some n => n.succs
  | none => []

/-- The first node with a number. -/
def find? (g : Graph) (id : Int64) : Option Node := g.nodes.find? fun n => n.vertex.id == id

/-- The destinations of a vertex with numbers that are not yet seen. -/
def ahead (g : Graph) (seen : List Vertex) (v : Vertex) : List Vertex :=
  ((g.succs v).map (·.node)).filter fun w => !seen.any (·.id == w.id)

/-- Visits the vertices of a queue and what is reachable from them, each number once, in at most
the given number of steps. -/
def visit (g : Graph) : Nat → List Vertex → List Vertex → List Vertex
  | 0, _, seen => seen
  | _ + 1, [], seen => seen
  | n + 1, v :: queue, seen =>
    if seen.any (·.id == v.id) then visit g n queue seen
    else visit g n (queue ++ g.ahead (seen ++ [v]) v) (seen ++ [v])

/-- The number of edges. -/
def size (g : Graph) : Nat := (g.nodes.flatMap fun n => n.succs).length

/-- Puts a vertex in front of the first that does not have a smaller number. -/
def insertById (v : Vertex) : List Vertex → List Vertex
  | [] => [v]
  | w :: ws => if v.id ≤ w.id then v :: w :: ws else w :: insertById v ws

/-- The vertices reachable from the entry, by number.  Every step takes a vertex from the queue,
and every edge puts one there at most once. -/
def reachable (g : Graph) : List Vertex :=
  (g.visit (g.size + 2) [g.entry] []).foldr insertById []

/-- The line of a node in listings. -/
def nodeText (n : Node) : Text :=
  "  " ++ Numeral.word n.vertex.id ++ ": " ++ n.vertex.role.name ++ " " ++ n.vertex.name ++ " =>" ++
    (if n.succs.isEmpty then "" else " " ++ n.succs.text) ++ "\n"

/-- A graph, one node to a line. -/
def text (g : Graph) : Text :=
  "cfg " ++ g.control ++ " \x7b\n" ++ String.join (g.nodes.map nodeText) ++ "\x7d\nentry: " ++
    Numeral.word g.entry.id ++ "\n"

end Graph

end Flowline.ControlFlow
