import Flowline.Pipeline.Resolve
import Mathlib.Data.List.Forall2

/-!
# Reports

Loading reports what it cannot do and goes on.  `Loads` is for what holds of a result if nothing was
reported on the way.
-/

namespace Flowline.Pipeline

variable {α β : Type}

/-- A computation only adds to the report, and if it adds nothing its result is as said. -/
structure Loads (x : Reporting α) (P : α → Prop) : Prop where
  reports : ∀ r, r <+: (x.run r).2
  finds : ∀ r, (x.run r).2 = r → P (x.run r).1

theorem loads_pure {P : α → Prop} {v : α} (h : P v) : Loads (pure v) P :=
  ⟨fun r => List.prefix_refl r, fun _ _ => h⟩

/-- A computation that reports something has no result to speak of. -/
theorem loads_report (p : Problem) : Loads (report p) fun _ => False where
  reports r := List.prefix_append r [p]
  finds r h := by
    have hsame : r ++ [p] = r := h
    simp at hsame

theorem loads_refuse (reason : Text) : Loads (refuse reason) fun _ => False := loads_report _

namespace Loads

variable {x : Reporting α} {P : α → Prop} {Q : β → Prop}

theorem mono {P' : α → Prop} (hx : Loads x P) (h : ∀ v, P v → P' v) : Loads x P' :=
  ⟨hx.reports, fun r hr => h _ (hx.finds r hr)⟩

theorem bind {f : α → Reporting β} (hx : Loads x P) (hf : ∀ v, Loads (f v) fun w => P v → Q w) :
    Loads (x >>= f) Q where
  reports r := (hx.reports r).trans ((hf _).reports _)
  finds r hr := by
    have hback : (x.run r).2 <+: r := by
      have h := (hf (x.run r).1).reports (x.run r).2
      rwa [show ((f (x.run r).1).run (x.run r).2).2 = r from hr] at h
    have hfirst : (x.run r).2 = r :=
      hback.eq_of_length (Nat.le_antisymm hback.length_le (hx.reports r).length_le)
    exact (hf _).finds _ (hr.trans hfirst.symm) (hx.finds r hfirst)

/-- Nothing is said of what comes behind a report. -/
theorem refused {P' : α → Prop} (hx : Loads x P) (reason : Text) :
    Loads (refuse reason >>= fun _ => x) P' :=
  (loads_refuse reason).bind fun _ => hx.mono fun _ _ => False.elim

/-- A computation that is only made under a condition, and then reports something. -/
theorem bind_unless {c : Prop} [Decidable c] {x : Reporting PUnit} {f : PUnit → Reporting β}
    (hx : Loads x fun _ => False) (hf : Loads (f ⟨⟩) fun w => ¬c → Q w) :
    Loads (if c then x >>= f else f ⟨⟩) Q := by
  split
  · exact hx.bind fun _ => hf.mono fun _ _ => False.elim
  · next hc => exact hf.mono fun w hw => hw hc

/-- A loop relates each value to its result. -/
theorem forall₂ {f : α → Reporting β} {R : α → β → Prop} (hf : ∀ v, Loads (f v) (R v))
    (vs : List α) : Loads (vs.mapM f) (List.Forall₂ R vs) := by
  induction vs with
  | nil => exact loads_pure .nil
  | cons v vs ih =>
    rw [List.mapM_cons]
    exact (hf v).bind fun w => ih.bind fun ws => loads_pure fun hws hw => .cons hw hws

/-- Where something comes of each member of a kind, a list of that kind loses none. -/
theorem collect_of {f : α → Reporting (Option β)} {W : α → Prop} {R : α → β → Prop}
    (hf : ∀ v, Loads (f v) fun r => W v → ∃ w, r = some w ∧ R v w) (vs : List α) :
    Loads (collect f vs) fun ws => (∀ v ∈ vs, W v) → List.Forall₂ R vs ws := by
  induction vs with
  | nil => exact loads_pure fun _ => .nil
  | cons v vs ih =>
    refine (hf v).bind fun r => ih.bind fun ws => loads_pure fun hws hr hvs => ?_
    rw [List.forall_mem_cons] at hvs
    obtain ⟨w, rfl, hw⟩ := hr hvs.1
    exact .cons hw (hws hvs.2)

theorem collect {f : α → Reporting (Option β)} {R : α → β → Prop}
    (hf : ∀ v, Loads (f v) fun r => ∃ w, r = some w ∧ R v w) (vs : List α) :
    Loads (collect f vs) (List.Forall₂ R vs) :=
  (collect_of (W := fun _ => True) (fun v => (hf v).mono fun _ h _ => h) vs).mono fun _ h =>
    h fun _ _ => trivial

end Loads

/-- A computation that has only reported something has no result. -/
theorem loads_refused {P : α → Prop} (reason : Text) (v : α) :
    Loads (refuse reason >>= fun _ => pure v) P :=
  (loads_pure (P := fun _ => True) trivial).refused reason

/-- A loop that reports each member of a list. -/
theorem loads_forIn {f : α → Reporting PUnit} (hf : ∀ v, Loads (f v) fun _ => False) (vs : List α) :
    Loads (forIn vs PUnit.unit fun v _ => do
      f v
      pure (ForInStep.yield PUnit.unit)) fun _ => vs = [] := by
  induction vs with
  | nil => exact loads_pure rfl
  | cons v vs ih =>
    rw [List.forIn_cons]
    have hround : Loads (do
        f v
        pure (ForInStep.yield PUnit.unit)) fun _ => False :=
      (hf v).bind fun _ => loads_pure False.elim
    refine hround.bind fun r => ?_
    cases r with
    | done => exact loads_pure False.elim
    | yield => exact ih.mono fun _ _ => False.elim

/-- What holds of each result of a relation holds of all results. -/
theorem forall_of_forall₂ {R : α → β → Prop} {P : β → Prop} (hR : ∀ a b, R a b → P b) {as : List α}
    {bs : List β} (h : List.Forall₂ R as bs) : ∀ b ∈ bs, P b := by
  induction h with
  | nil => exact nofun
  | cons h _ ih => exact List.forall_mem_cons.mpr ⟨hR _ _ h, ih⟩

end Flowline.Pipeline
