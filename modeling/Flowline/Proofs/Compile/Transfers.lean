import Flowline.Proofs.Compile.Actions
import Flowline.Proofs.Lower.Steps

/-!
# Every action transfers once

The flow of an action is the loads and moves of its body, with one transfer behind them: to the exit
stage if an `exit` is reached before any `return`, and to the next stage otherwise.  Whatever the
parameters stand for, simplifying leaves exactly this (`runAction_leaves`), so the text of the flow
is never empty.
-/

namespace Flowline.Compile

open Flow.Action (cutOff_append refined)
open ControlFlow (Graph Vertex)
open Lower
open Source (Stmt)
open Switch (Allocator)

/-- Of two transfers, only the first stays. -/
theorem cutOff_transfers (e : Ending) (exitStage next : Int64) :
    Flow.Action.cutOff ((e.stage? exitStage).toList.map .resubmit ++ [.resubmit next]) =
      [.resubmit ((e.stage? exitStage).getD next)] := by
  cases e <;> rfl

/-- What stays of an action is a load or a move for each of its steps, and one transfer. -/
theorem ensures_runAction_kept {sub : Substitution} {R : Layout → Stmt → Flow.Action → Prop}
    (hR : Lays sub R) (g : Graph) (act : Pipeline.Action) (next : Vertex) :
    Ensures (runAction sub g act next) fun L flow =>
      ∃ stores, List.Forall₂ (R L) (stepsIn act.body) stores ∧ (∀ x ∈ stores, x.isStore = true) ∧
        flow.kept = stores.map refined ++
          [.resubmit (((endingIn act.body).stage? g.exit.id).getD next.id)] := by
  refine (ensures_body_laid hR g.exit.id act.body).bind fun body => ensures_pure fun L hbody => ?_
  obtain ⟨stores, hsteps, hstores, hdoing⟩ := hbody
  have hgoes : stores.any Flow.Action.terminates = false := by
    rw [List.any_eq_false]
    intro x hx
    rw [Flow.Action.terminates_of_isStore (hstores x hx)]
    exact Bool.false_ne_true
  have hall : (Flow.Action.all [body, goTo next]).doing = stores ++
      (((endingIn act.body).stage? g.exit.id).toList.map .resubmit ++ [.resubmit next.id]) := by
    rw [← List.append_assoc, ← hdoing]
    exact Flow.Action.doing_seq body (goTo next)
  refine ⟨stores, hsteps, hstores, ?_⟩
  rw [Flow.Action.kept_simplify, Flow.Action.kept, hall, cutOff_append, hgoes,
    if_neg Bool.false_ne_true, cutOff_transfers, List.map_append]
  rfl

theorem isStore_refined {x : Flow.Action} (h : x.isStore = true) : x.refined.isStore = true := by
  cases x <;> first | rfl | cases h

/-- The flow of an action is loads and moves, and one transfer. -/
theorem runAction_leaves {sub : Substitution} {g : Graph} {act : Pipeline.Action} {next : Vertex}
    {flow : Flow.Action} {a a' : Allocator} (h : Yields (runAction sub g act next) a flow a') :
    ∃ stores, (∀ x ∈ stores, x.isStore = true) ∧
      flow.leaves = stores ++
        [.resubmit (((endingIn act.body).stage? g.exit.id).getD next.id)] := by
  obtain ⟨stores, -, hstores, hkept⟩ :=
    (ensures_runAction_kept (lays_drops sub) g act next).holds h (Grows.refl _)
  simp only [runAction, yields_bind, yields_pure] at h
  obtain ⟨body, b, -, rfl, -⟩ := h
  rw [Flow.Action.kept_simplify] at hkept
  refine ⟨stores.map refined, List.forall_mem_map.mpr fun x hx => isStore_refined (hstores x hx), ?_⟩
  rw [Flow.Action.leaves_simplify, Flow.Action.tidied, hkept]
  cases stores.map refined <;> rfl

theorem text_ne_of_isStore {x : Flow.Action} (h : x.isStore = true) : x.text ≠ "" := by
  cases x with
  | load src dst | move src dst => simp [Flow.Action.text]
  | _ => cases h

theorem text_resubmit_ne (stage : Int64) : (Flow.Action.resubmit stage).text ≠ "" := by
  simp [Flow.Action.text]

/-- **Every action transfers once.**  Whenever an action has a flow, whatever its parameters stand
for, the last leaf of the flow is a transfer, and there is no other.  It goes to the exit stage if
the first of all `exit` and `return` statements, at any depth of blocks, is an `exit`, and to the
next stage otherwise.  Every leaf has a text, and the text of the flow is the texts of the leaves
with commas between them. -/
theorem runAction_transfers_once {sub : Substitution} {g : Graph} {act : Pipeline.Action}
    {next : Vertex} {flow : Flow.Action} {a a' : Allocator}
    (h : Yields (runAction sub g act next) a flow a') :
    (∃ init, flow.leaves = init ++
        [.resubmit (((endingIn act.body).stage? g.exit.id).getD next.id)] ∧
      ∀ stage, .resubmit stage ∉ init) ∧
    (∀ leaf ∈ flow.leaves, leaf.text ≠ "") ∧
    flow.text = ", ".intercalate (flow.leaves.map Flow.Action.text) ∧ flow.text ≠ "" := by
  obtain ⟨stores, hstores, hleaves⟩ := runAction_leaves h
  have htexts : ∀ leaf ∈ flow.leaves, leaf.text ≠ "" := by
    rw [hleaves, List.forall_mem_append, List.forall_mem_singleton]
    exact ⟨fun x hx => text_ne_of_isStore (hstores x hx), text_resubmit_ne _⟩
  have hfilter : (flow.leaves.map Flow.Action.text).filter (· ≠ "") =
      flow.leaves.map Flow.Action.text := by
    rw [List.filter_eq_self, List.forall_mem_map]
    exact fun x hx => decide_eq_true (htexts x hx)
  refine ⟨⟨stores, hleaves, fun stage hmem => ?_⟩, htexts, ?_, ?_⟩
  · exact Bool.false_ne_true (hstores _ hmem)
  · rw [flow.text_eq, Flow.Action.joined, hfilter]
  · rw [flow.text_eq, ne_eq, Flow.Action.joined_eq_empty, hfilter, List.map_eq_nil_iff]
    exact flow.leaves_ne_nil

/-- Sets the metadata field, and returns from a block in a block, in front of two exits. -/
def returningAction : Pipeline.Action where
  control := "Ingress"
  name := "set"
  params := []
  body :=
    [.block [.assign sampleMeta (.literal { value := 3 }), .block [.empty, .ret], .exit], .exit]

/-- One action leaves by its `exit`, and the other goes on at the next stage. -/
theorem runAction_transfers_once_samples :
    (∃ flow a', Yields (runAction sampleArguments sampleGraph sampleAction sampleNext) portFile
        flow a' ∧ flow.text ≠ "" ∧
      ∃ init, flow.leaves = init ++ [.resubmit 9] ∧ ∀ stage, .resubmit stage ∉ init) ∧
    ∃ flow a', Yields (runAction [] sampleGraph returningAction sampleNext) portFile flow a' ∧
      flow.text ≠ "" ∧
      ∃ init, flow.leaves = init ++ [.resubmit 5] ∧ ∀ stage, .resubmit stage ∉ init := by
  have hexits : Yields (runAction sampleArguments sampleGraph sampleAction sampleNext) portFile _ _ :=
    rfl
  have hreturns : Yields (runAction [] sampleGraph returningAction sampleNext) portFile _ _ := rfl
  obtain ⟨hlast, -, -, htext⟩ := runAction_transfers_once hexits
  obtain ⟨hlast', -, -, htext'⟩ := runAction_transfers_once hreturns
  exact ⟨⟨_, _, hexits, htext, hlast⟩, _, _, hreturns, htext', hlast'⟩

end Flowline.Compile
