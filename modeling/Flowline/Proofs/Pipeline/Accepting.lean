import Flowline.Pipeline.Loader

/-!
# Descriptions that are accepted

Whether a description is accepted, and its program passes a test, is computed (`accepts`).  Samples
are descriptions, so that texts are read only where a condition, a key or a body is one.
-/

namespace Flowline.Pipeline

/-- Whether a description is accepted, and its program passes a test. -/
def accepts (d : Description.Program) (test : Program → Bool) : Bool :=
  (ofDescription d).toOption.any test

theorem exists_of_accepts (d : Description.Program) (test : Program → Bool)
    (h : accepts d test = true) : ∃ p, ofDescription d = .ok p ∧ test p = true := by
  unfold accepts at h
  cases hd : ofDescription d with
  | error =>
    rw [hd] at h
    cases h
  | ok p =>
    rw [hd] at h
    exact ⟨p, rfl, h⟩

theorem exists_action_of_accepts (d : Description.Program) (test : Action → Bool)
    (h : accepts d (fun p => p.controls.any fun c => c.actions.any test) = true) :
    ∃ p c act, ofDescription d = .ok p ∧ c ∈ p.controls ∧ act ∈ c.actions ∧ test act = true := by
  obtain ⟨p, hload, htest⟩ := exists_of_accepts d _ h
  obtain ⟨c, hc, htest⟩ := List.any_eq_true.mp htest
  obtain ⟨act, hact, htest⟩ := List.any_eq_true.mp htest
  exact ⟨p, c, act, hload, hc, hact, htest⟩

/-- A control that does nothing. -/
def idleControl : Description.Control := { params := ["h", "m", "s"] }

end Flowline.Pipeline
