import Flowline.Proofs.Pipeline.Scoping

/-!
# The storage and the parameters of an assignment

An assignment in the body of an action that loads takes parts of fields and locals that the program
declares, and of parameters of the action (`names_of_ofDescription`).
-/

namespace Flowline.Pipeline

open Source (Expr)

theorem Names.mono {fields : List Field} {locals locals' : List Local} {params : List Param}
    (hlocals : locals ⊆ locals') {e : Expr} (h : Names fields locals params e) :
    Names fields locals' params e := by
  cases e with
  | localVar l => exact hlocals h
  | slice e _ _ | cast _ e => exact Names.mono (e := e) hlocals h
  | field _ | param => exact h
  | _ => trivial

/-- **Assignments name what is declared.**  In an accepted program, the sides of each assignment of
an action that is reached take parts of fields and locals of the program, and of parameters of the
action that are the first of their name. -/
theorem names_of_ofDescription {d : Description.Program} {p : Program}
    (h : ofDescription d = .ok p) {c : Control} (hc : c ∈ p.controls) {a : Action}
    (ha : a ∈ c.actions) : a.Names p.fields p.locals := by
  obtain ⟨-, -, hsound⟩ := holds_of_ofDescription loads_resolve h
  intro left right hassign
  have hlocals : c.locals ⊆ p.locals := fun l hl => List.mem_flatMap.mpr ⟨c, hc, hl⟩
  obtain ⟨hleft, hright⟩ := (hsound c hc).names a ha left right hassign
  exact ⟨hleft.mono hlocals, hright.mono hlocals⟩

end Flowline.Pipeline
