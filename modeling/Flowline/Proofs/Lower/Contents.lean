import Flowline.Lower.Condition
import Flowline.Proofs.Flow.Contents
import Flowline.Proofs.Lower.Forms

/-!
# What lowered values and actions mention

Variables come from the substitution only, and an `exit` is the only transfer in a body.  Conditions
have no variables, and ask for no stage.
-/

namespace Flowline.Lower

open Flowline.Flow (Action Match)
open Source (Expr Literal Stmt)

/-- The variables that parameters stand for. -/
def Substitution.vars (sub : Substitution) : List Text := sub.flatMap fun q => q.2.vars

theorem Substitution.vars_subset_of_lookup {sub : Substitution} {q : Text} {v : Flow.Expr}
    (h : sub.lookup q = some v) : v.vars ⊆ sub.vars := by
  obtain ⟨l, l', rfl, -⟩ := List.lookup_eq_some_iff.mp h
  intro x hx
  exact List.mem_flatMap.mpr ⟨(q, v), by simp, hx⟩

variable {sub : Substitution}

/-! ## Values -/

theorem ValueOf.vars_subset {L : Layout} {e : Expr} {v : Flow.Expr} (h : ValueOf L sub e v) :
    v.vars ⊆ sub.vars := by
  induction h with
  | param hv => exact Substitution.vars_subset_of_lookup hv
  | field | localVar | literal | truth | cutConst | castConst => exact List.nil_subset _
  | cut _ _ _ _ _ ih | castSame _ _ _ ih | castNarrow _ _ _ _ ih => exact ih

theorem ensures_value_nil (e : Expr) : Ensures (value [] e) fun _ v => v.vars = [] :=
  (ensures_valueOf [] e).mono fun _ _ hv => List.subset_nil.mp hv.vars_subset

/-! ## Bodies -/

theorem ensures_assignment_within (targets : List Int64) (left right : Expr) :
    Ensures (assignment sub left right) fun _ a => a.Within targets sub.vars :=
  (ensures_assignmentOf sub left right).mono fun _ a ha => by
    obtain ⟨dst, src, hdst, hsrc, hstore⟩ := ha.exists_store
    cases hstore with
    | load => exact .load hsrc.vars_subset hdst.vars_subset
    | move => exact .move hsrc.vars_subset hdst.vars_subset

theorem ensures_call_within (targets : List Int64) (names : List Text) (target : Option Text)
    (method : Text) (args : List Expr) :
    Ensures (call target method args) fun _ a => a.Within targets names :=
  (ensures_call_drop target method args).mono fun _ a ha => by
    obtain ⟨-, r, -, rfl⟩ := ha
    exact .load (List.nil_subset _) (List.nil_subset _)

mutual

theorem ensures_statement_within (exitStage : Int64) (s : Stmt) :
    Ensures (statement sub exitStage s) fun _ r => r.1.Within [exitStage] sub.vars := by
  match s with
  | .empty | .ret => exact ensures_pure fun _ => .empty
  | .exit => exact ensures_pure fun _ => .resubmit List.mem_cons_self
  | .block ss =>
    exact (ensures_statements_within exitStage ss).bind fun r => ensures_pure fun _ hr => .all hr
  | .assign left right =>
    exact (ensures_assignment_within _ left right).bind fun a => ensures_pure fun _ ha => ha
  | .call target method args =>
    exact (ensures_call_within _ _ target method args).bind fun a => ensures_pure fun _ ha => ha
  | .ifThen .. | .ifElse .. | .switch .. | .apply _ => exact ensures_refuse _ _

theorem ensures_statements_within (exitStage : Int64) (ss : List Stmt) :
    Ensures (statements sub exitStage ss) fun _ r =>
      ∀ a ∈ r.1, a.Within [exitStage] sub.vars := by
  match ss with
  | [] => exact ensures_pure fun _ => nofun
  | s :: ss =>
    refine (ensures_statement_within exitStage s).bind fun (act, done) => ?_
    dsimp only
    split
    · exact ensures_pure fun _ hs => by simpa using hs
    · refine (ensures_statements_within exitStage ss).bind fun r => ensures_pure fun _ hr hs => ?_
      exact List.forall_mem_cons.mpr ⟨hs, hr⟩

end

/-- A body leads to the exit stage only, and its variables are those of the substitution. -/
theorem ensures_body_within (sub : Substitution) (exitStage : Int64) (ss : List Stmt) :
    Ensures (body sub exitStage ss) fun _ a => a.Within [exitStage] sub.vars :=
  (ensures_statements_within exitStage ss).bind fun _ => ensures_pure fun _ hr => .all hr

/-! ## Conditions -/

/-- A match on fields only. -/
structure Bare (m : Match) : Prop where
  stages : m.stages = []
  priorities : m.priorities = []
  vars : m.vars = []

theorem Bare.foldl {m : Match} {ms : List Match} (hm : Bare m) (hms : ∀ x ∈ ms, Bare x) :
    Bare (ms.foldl .seq m) where
  stages := by
    rw [Match.stages_foldl, hm.stages, List.nil_append, List.flatMap_eq_nil_iff]
    exact fun x hx => (hms x hx).stages
  priorities := by
    rw [Match.priorities_foldl, hm.priorities, List.nil_append, List.flatMap_eq_nil_iff]
    exact fun x hx => (hms x hx).priorities
  vars := by
    rw [Match.vars_foldl, hm.vars, List.nil_append, List.flatMap_eq_nil_iff]
    exact fun x hx => (hms x hx).vars

theorem Bare.seq {l r : Match} (hl : Bare l) (hr : Bare r) : Bare (.seq l r) :=
  ⟨List.append_eq_nil_iff.mpr ⟨hl.stages, hr.stages⟩,
    List.append_eq_nil_iff.mpr ⟨hl.priorities, hr.priorities⟩,
    List.append_eq_nil_iff.mpr ⟨hl.vars, hr.vars⟩⟩

theorem bare_of_mem_prereqs {e : Expr} {m : Match} (h : m ∈ prereqs e) : Bare m := by
  obtain ⟨t, -, rfl⟩ := List.mem_map.mp h
  exact ⟨rfl, rfl, rfl⟩

theorem bare_equals {l r : Flow.Expr} (hl : l.vars = []) (hr : r.vars = []) :
    Bare (.equals l r none) :=
  ⟨rfl, rfl, by simp [Match.vars, hl, hr]⟩

theorem ensures_comparison_bare (e storage other : Expr) :
    Ensures (comparison e storage other) fun _ m => Bare m := by
  refine (ensures_value_nil storage).bind fun l => (ensures_value_nil other).bind fun r => ?_
  exact (ensures_checkFits _ _ _).bind fun _ => ensures_pure fun _ _ hr hl => bare_equals hl hr

theorem ensures_equation_bare (e left right : Expr) :
    Ensures (equation e left right) fun _ m => Bare m := by
  unfold equation
  split
  · exact ensures_comparison_bare _ _ _
  · split
    · exact ensures_comparison_bare _ _ _
    · exact ensures_refuse _ _

theorem ensures_truthOf_bare (e : Expr) :
    Ensures (some <$> truthOf e) fun _ m => ∀ x ∈ m, Bare x := by
  have h : Ensures (truthOf e) fun _ m => Bare m := by
    unfold truthOf
    split
    · exact (ensures_value_nil e).bind fun v => ensures_pure fun _ hv => bare_equals hv rfl
    · exact ensures_refuse _ _
  exact h.map fun _ m hm => by simpa using hm

theorem bare_both {l r : Option Match} (hl : ∀ x ∈ l, Bare x) (hr : ∀ x ∈ r, Bare x) :
    ∀ x ∈ both l r, Bare x := by
  cases l with
  | none => simpa [both] using hr
  | some l =>
    cases r with
    | none => simpa [both] using hl
    | some r =>
      have hseq : Bare (.seq l r) := .seq (hl l rfl) (hr r rfl)
      simpa [both] using hseq

theorem ensures_bareCondition_bare (e : Expr) :
    Ensures (bareCondition e) fun _ m => ∀ x ∈ m, Bare x := by
  match e with
  | .truth true => exact ensures_pure fun _ => nofun
  | .truth false => exact ensures_refuse _ _
  | .valid h =>
    rw [bareCondition]
    split
    · exact ensures_pure fun _ x hx => by
        cases hx
        exact ⟨rfl, rfl, rfl⟩
    · exact ensures_refuse _ _
  | .binary .and left right =>
    refine (ensures_bareCondition_bare left).bind fun l => ?_
    exact (ensures_bareCondition_bare right).bind fun r =>
      ensures_pure fun _ hr hl => bare_both hl hr
  | .binary .eq left right =>
    exact (ensures_equation_bare _ left right).bind fun m =>
      ensures_pure fun _ hm => by simpa using hm
  | .field f | .localVar l | .slice e high low | .cast type e => exact ensures_truthOf_bare _
  | .binary .or _ _ | .binary .ne _ _ | .binary .mask _ _
  | .missing | .path _ | .call .. | .member .. | .param .. | .hit .. | .actionRun _
  | .literal _ | .negation _ | .any => exact ensures_refuse _ _

/-- The match of a condition has no variables and asks for no stage. -/
theorem ensures_condition_bare (e : Expr) :
    Ensures (condition e) fun _ m => ∀ x ∈ m, Bare x := by
  refine (ensures_bareCondition_bare e).bind fun m => ensures_pure fun _ hm => ?_
  cases m with
  | none => exact nofun
  | some m =>
    intro x hx
    have hall : ∀ y ∈ prereqs e ++ [m], Bare y := by
      intro y hy
      rcases List.mem_append.mp hy with hy | hy
      · exact bare_of_mem_prereqs hy
      · cases List.mem_singleton.mp hy
        exact hm m rfl
    rw [Option.bind_some] at hx
    unfold Match.all? at hx
    split at hx
    · cases hx
    · next y ys heq =>
      cases hx
      rw [heq, List.forall_mem_cons] at hall
      exact .foldl hall.1 hall.2

end Flowline.Lower
