import Flowline.ControlFlow.Basic
import Flowline.Pipeline.Program
import Flowline.Problem

/-!
# The graph of a control

The statements of a control are walked in order with the set of live edges: those whose
destination is the next stage.  Leaving the control makes them edges to the exit instead.

A test of the outcome of a table is made by the table itself, so it becomes a table node with edges
on truth values.  A switch leaves its table on labels; labels without a body join the next body,
and those behind the last body join what comes behind the switch.
-/

namespace Flowline.ControlFlow

open Pipeline (Control)
open Source (Expr Stmt Case)

/-- A graph under construction. -/
structure Draft where
  /-- The number of the next node. -/
  next : Int64
  nodes : List Incoming := []
  /-- The edges to the exit. -/
  exits : EdgeSet := []
  problems : Report := []

namespace Draft

/-- Adds a node behind some edges.  A node without a name is named by its number. -/
def push (d : Draft) (name : Text) (role : Role) (preds : EdgeSet) : Vertex × Draft :=
  let name := if name = "" then "node_" ++ Numeral.word d.next else name
  let v : Vertex := ⟨d.nodes.length, d.next, name, role⟩
  (v, { d with next := d.next + 1, nodes := d.nodes ++ [(v, preds)] })

/-- Adds the application of a table. -/
def pushTable (d : Draft) (t : TableRef) (preds : EdgeSet) : Vertex × Draft :=
  d.push t.name (.table (some t.name)) preds

/-- Adds a condition. -/
def pushCond (d : Draft) (cond : Expr) (preds : EdgeSet) : Vertex × Draft :=
  d.push "" (.cond cond) preds

/-- Makes edges lead to the exit. -/
def leave (d : Draft) (live : EdgeSet) : Draft := { d with exits := EdgeSet.merge d.exits live }

/-- Adds a problem. -/
def refuse (d : Draft) (p : Problem) : Draft := { d with problems := d.problems ++ [p] }

end Draft

/-- The table whose outcome is tested, and whether the test holds on a hit. -/
def hitTest : Expr → Option (TableRef × Bool)
  | .hit t expected => some (t, expected)
  | .negation e => (hitTest e).map fun (t, expected) => (t, !expected)
  | _ => none

/-- Adds the node of a test, with the truth value of the edge to its first branch. -/
def Draft.pushTest (d : Draft) (cond : Expr) (live : EdgeSet) : (Vertex × Bool) × Draft :=
  match hitTest cond with
  | some (t, expected) =>
    let (v, d) := d.pushTable t live
    ((v, expected), d)
  | none =>
    let (v, d) := d.pushCond cond live
    ((v, true), d)

mutual

/-- Walks a statement from live edges to the live edges behind it. -/
def walk : Stmt → EdgeSet → Draft → EdgeSet × Draft
  | .block ss, live, d => walkAll ss live d
  | .empty, live, d => (live, d)
  | .exit, live, d => ([], d.leave live)
  | .ret, live, d => ([], d.leave live)
  | .apply t, live, d =>
    let (v, d) := d.pushTable t live
    ([⟨v, .always, ""⟩], d)
  | .ifThen cond thn, live, d =>
    let ((v, onThen), d) := d.pushTest cond live
    let (after, d) := walk thn [Edge.onTruth v onThen] d
    (EdgeSet.add after (Edge.onTruth v !onThen), d)
  | .ifElse cond thn els, live, d =>
    let ((v, onThen), d) := d.pushTest cond live
    let (after, d) := walk thn [Edge.onTruth v onThen] d
    let (afterElse, d) := walk els [Edge.onTruth v !onThen] d
    (EdgeSet.merge after afterElse, d)
  | .switch (.actionRun t) cases, live, d =>
    let (v, d) := d.pushTable t live
    walkCases v cases [] [⟨v, .always, ""⟩] d
  | .switch subject _, live, d =>
    (live, d.refuse (.diagnostic ⟨.structural, subject.text,
      "switch must select on a table's action_run"⟩))
  | .assign left right, live, d =>
    (live, d.refuse (.unsupported (Stmt.assign left right).text
      "only table applications, if, switch, exit and return are allowed in a control body"))
  | .call target method args, live, d =>
    (live, d.refuse (.unsupported (Stmt.call target method args).text
      "only table applications, if, switch, exit and return are allowed in a control body"))

/-- Walks statements one after the other. -/
def walkAll : List Stmt → EdgeSet → Draft → EdgeSet × Draft
  | [], live, d => (live, d)
  | s :: ss, live, d =>
    let (live, d) := walk s live d
    walkAll ss live d

/-- Walks the cases of a switch over a table, with the labels that wait for a body and the edges
that have left the switch. -/
def walkCases (v : Vertex) : List Case → EdgeSet → EdgeSet → Draft → EdgeSet × Draft
  | [], labels, after, d => (EdgeSet.merge after labels, d)
  | .bare label :: cs, labels, after, d =>
    walkCases v cs (EdgeSet.add labels ⟨v, .onLabel, label⟩) after d
  | .arm label body :: cs, labels, after, d =>
    let (live, d) := walkAll body (EdgeSet.add labels ⟨v, .onLabel, label⟩) d
    walkCases v cs [] (EdgeSet.merge after live) d

end

/-- The graph of a control whose entry has the given number, and the next number.  The numbers are
used even if there is no graph. -/
def build (c : Control) (first : Int64) : Except Report Graph × Int64 :=
  let (entry, d) := Draft.push { next := first } (c.name ++ ".entry") .dummy []
  let (live, d) := walkAll c.body [⟨entry, .always, ""⟩] d
  let (exit, d) := d.push (c.name ++ ".exit") .dummy (EdgeSet.merge d.exits live)
  match d.problems with
  | [] => (.ok (.ofPreds c.name d.nodes entry exit), d.next)
  | problems => (.error problems, d.next)

end Flowline.ControlFlow
