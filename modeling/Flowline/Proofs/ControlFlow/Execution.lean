import Flowline.ControlFlow.Build
import Flowline.ControlFlow.Walk

/-!
# Executing a control

A packet passes a control in two ways.  The statements say in which order tables are applied and
conditions are tested; the graph says the same by its edges.  Both are defined here against one
`Oracle`, which decides what every application of a table and every condition gives, and both leave
the list of visits that the packet makes.

## What the oracle knows

The contents of tables and the values of fields change from packet to packet, and the actions of
one table change the fields that a later condition reads.  The oracle therefore sees all visits
made so far, so that no assumption is made about how outcomes depend on each other.

## Statements against edges

* `execute` runs statements.  A test of the outcome of a table is evaluated on the outcome, and a
  switch looks for its label among the cases; neither looks at the graph.
* `Graph.follow` goes from stage to stage, and has a result only if it comes to the exit.
-/

namespace Flowline.ControlFlow

open Source (Expr Stmt Case)

/-- What a packet meets: a table, by its name in the control, or a condition. -/
inductive Visit where
  | table (name : Text)
  | cond (e : Expr)

/-- What applying a table gave.  The action is the one that ran; its name is empty if a miss ran
none. -/
structure Outcome where
  isHit : Bool
  action : Text

/-- The outcome of every table and the value of every condition, given the visits before. -/
structure Oracle where
  outcome : List Visit → Text → Outcome
  truth : List Visit → Expr → Bool

/-! ## Statements -/

/-- The table whose outcome a condition tests, behind any number of negations. -/
def tested? : Expr → Option TableRef
  | .hit t _ => some t
  | .negation e => tested? e
  | _ => none

/-- The value of a test of a table that hit or missed. -/
def testValue (isHit : Bool) : Expr → Bool
  | .hit _ expected => isHit == expected
  | .negation e => !testValue isHit e
  | _ => false

/-- The value of the condition of a statement, and the visits with the one made for it. -/
def Oracle.test (o : Oracle) (cond : Expr) (h : List Visit) : Bool × List Visit :=
  match tested? cond with
  | some t => (testValue (o.outcome h t.name).isHit cond, h ++ [.table t.name])
  | none => (o.truth h cond, h ++ [.cond cond])

/-- The visits made up to some point, and whether the control goes on from there. -/
structure Progress where
  visits : List Visit
  goesOn : Bool

mutual

/-- Executes a statement.  Statements that a control body cannot have do nothing. -/
def execute (o : Oracle) : Stmt → List Visit → Progress
  | .block ss, h => executeAll o ss h
  | .exit, h => ⟨h, false⟩
  | .ret, h => ⟨h, false⟩
  | .apply t, h => ⟨h ++ [.table t.name], true⟩
  | .ifThen cond thn, h =>
    let (b, h) := o.test cond h
    if b then execute o thn h else ⟨h, true⟩
  | .ifElse cond thn els, h =>
    let (b, h) := o.test cond h
    if b then execute o thn h else execute o els h
  | .switch (.actionRun t) cases, h =>
    let action := (o.outcome h t.name).action
    let h := h ++ [.table t.name]
    match executeCase o action cases h with
    | some p => p
    | none =>
      match executeCase o "default" cases h with
      | some p => p
      | none => ⟨h, true⟩
  | .switch _ _, h => ⟨h, true⟩
  | .empty, h => ⟨h, true⟩
  | .assign _ _, h => ⟨h, true⟩
  | .call _ _ _, h => ⟨h, true⟩

/-- Executes statements one after the other, up to the first that leaves the control. -/
def executeAll (o : Oracle) : List Stmt → List Visit → Progress
  | [], h => ⟨h, true⟩
  | s :: ss, h =>
    let p := execute o s h
    if p.goesOn then executeAll o ss p.visits else p

/-- Executes what a label stands for, if one of the cases has it: the body of that case or, if it
has none, the next body. -/
def executeCase (o : Oracle) (label : Text) : List Case → List Visit → Option Progress
  | [], _ => none
  | .bare l :: cs, h =>
    if l = label then some (executeBody o cs h) else executeCase o label cs h
  | .arm l body :: cs, h =>
    if l = label then some (executeAll o body h) else executeCase o label cs h

/-- Executes the first body of some cases, if there is one. -/
def executeBody (o : Oracle) : List Case → List Visit → Progress
  | [], h => ⟨h, true⟩
  | .bare _ :: cs, h => executeBody o cs h
  | .arm _ body :: _, h => executeAll o body h

end

/-! ## Stages -/

namespace Graph

/-- The stage behind a stage, and the visits with the one made there. -/
def step (g : Graph) (o : Oracle) (v : Vertex) (h : List Visit) : Vertex × List Visit :=
  match v.role with
  | .dummy => (g.next v [(.always, "")], h)
  | .cond e => (g.afterTest v (o.truth h e), h ++ [.cond e])
  | .table t =>
    let name := t.getD ""
    let out := o.outcome h name
    (if out.isHit then g.afterHit v out.action else g.afterMiss v out.action, h ++ [.table name])

/-- Goes from a stage to the exit in at most the given number of steps. -/
def follow (g : Graph) (o : Oracle) : Nat → Vertex → List Visit → Option (List Visit)
  | 0, v, h => if v.position = g.exit.position then some h else none
  | n + 1, v, h =>
    if v.position = g.exit.position then some h
    else
      let (w, h) := g.step o v h
      follow g o n w h

end Graph

end Flowline.ControlFlow
