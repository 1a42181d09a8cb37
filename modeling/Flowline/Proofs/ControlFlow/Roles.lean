import Flowline.Proofs.ControlFlow.Branching
import Flowline.Proofs.Lower.Requests

/-!
# The conditions of a graph

Between the entry and the exit, a stage does what the body of the control has it do
(`cases_of_mem_reachable`), so the stages of a graph use no storage but that of the control's
statements.  The search of a graph finds nothing but nodes of its draft.
-/

namespace Flowline.ControlFlow

open Lower (StmtsUse Uses)
open Pipeline (Control)
open Source (Expr Stmt)
open Switch.Allocator (Request)

variable {S : Request → Prop}

/-- What happens at a stage uses storage of a kind. -/
def Role.Uses (S : Request → Prop) : Role → Prop
  | cond e => Lower.Uses S e
  | table _ | dummy => True

theorem uses_testRole {e : Expr} (he : Lower.Uses S e) : (testRole e).Uses S := by
  unfold testRole
  split
  · trivial
  · exact he

theorem uses_forksAll {ss : List Stmt} (h : StmtsUse S ss) : ∀ f ∈ forksAll ss, f.role.Uses S := by
  refine each_forksAll (fun {s} h f hf => ?_) ss h
  cases s with
  | ifThen | ifElse =>
    cases List.mem_singleton.mp hf
    exact uses_testRole h
  | apply =>
    cases List.mem_singleton.mp hf
    trivial
  | switch subject =>
    cases subject with
    | actionRun =>
      cases List.mem_singleton.mp hf
      trivial
    | _ => cases hf
  | _ => cases hf

/-- The nodes of a graph are all that a search can find. -/
theorem mem_vertices_of_mem_reachable {c : Control} {first : Int64} {v : Vertex}
    (hv : v ∈ (graphOf c first).reachable) : v ∈ (nodesOf c first).map (·.1) := by
  cases Graph.reaches_of_mem_reachable hv with
  | entry =>
    refine List.mem_map_of_mem (f := fun n : Incoming => n.1) (a := (entryOf c first, [])) ?_
    exact List.mem_append_left _ ((walkBody_passes c first).nodes.subset List.mem_cons_self)
  | step _ he =>
    obtain ⟨preds, hmem, -⟩ := succs_graphOf c first _ _ he
    exact List.mem_map_of_mem (f := fun n : Incoming => n.1) hmem

/-- Between the entry and the exit are the stages of the body. -/
theorem cases_of_mem_reachable {c : Control} {first : Int64} {v : Vertex}
    (hv : v ∈ (graphOf c first).reachable) :
    v = entryOf c first ∨ v = exitOf c first ∨ ∃ f ∈ forksAll c.body, v.role = f.role := by
  obtain ⟨n, hn, rfl⟩ := List.mem_map.mp (mem_vertices_of_mem_reachable hv)
  obtain ⟨rest, hrest⟩ := (walkBody_passes c first).nodes
  have hroles := walkAll_roles c.body [⟨entryOf c first, .always, ""⟩] (Draft.start c first)
  rw [Draft.roles, ← walkBody, ← hrest, List.map_append, ← Draft.roles] at hroles
  rw [nodesOf, ← hrest, List.mem_append, List.mem_append, List.mem_singleton] at hn
  rcases hn with (hn | hn) | rfl
  · cases List.mem_singleton.mp hn
    exact .inl rfl
  · have hmem := List.mem_map_of_mem (f := fun n : Incoming => n.1.role) hn
    rw [List.append_cancel_left hroles] at hmem
    obtain ⟨f, hf, hrole⟩ := List.mem_map.mp hmem
    exact .inr (.inr ⟨f, hf, hrole.symm⟩)
  · exact .inr (.inl rfl)

/-- Stages that packets can come to use the storage of the control's statements. -/
theorem uses_of_mem_reachable {c : Control} (h : StmtsUse S c.body) {first : Int64} {v : Vertex}
    (hv : v ∈ (graphOf c first).reachable) : v.role.Uses S := by
  rcases cases_of_mem_reachable hv with rfl | rfl | ⟨f, hf, hrole⟩
  · trivial
  · trivial
  · exact hrole ▸ uses_forksAll h f hf

end Flowline.ControlFlow
