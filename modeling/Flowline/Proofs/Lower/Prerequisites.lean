import Flowline.Proofs.Flow.Separators
import Flowline.Proofs.Lower.Conditions
import Flowline.Proofs.Lower.Contents

/-!
# Prerequisites stand in front of comparisons

A field may only be compared in packets of a certain kind, and declares a prerequisite for it.
`Guarded` says of the conditions of a match, read from left to right, which expressions they compare,
and that the prerequisites of all fields in such an expression have been seen when it is compared.
It is threaded through lists of conditions like the invariant of a scan: what has been seen only
grows (`Guarded.mono`), so lists can be put one behind the other (`Guarded.append`).

A condition compares the storage in its conjuncts, in their order (`compared_bareCondition`).
-/

namespace Flowline.Flow

/-- The text of a prerequisite. -/
def Match.prereq? : Match → Option Text
  | prereq t => some t
  | _ => none

/-- The prerequisites in a match, in order. -/
def Match.required (m : Match) : List Text := m.conditions.filterMap Match.prereq?

end Flowline.Flow

namespace Flowline.Lower

open Flowline.Flow (Match)
open Source (Expr)
open Switch (Allocator)

variable {a : Allocator}

/-! ## What is compared -/

/-- An expression compares storage: itself, or a side of an equation. -/
inductive ComparesStorage : Expr → Expr → Prop
  | own (e : Expr) : ComparesStorage e e
  | left (l r : Expr) : ComparesStorage (.binary .eq l r) l
  | right (l r : Expr) : ComparesStorage (.binary .eq l r) r

/-- The left side of a comparison is the register of storage that an expression compares, perhaps
folded. -/
def Examines (a : Allocator) (e : Expr) (left : Flow.Expr) : Prop :=
  ∃ storage v, ComparesStorage e storage ∧ Gives a (value [] storage) v ∧ left.fold.1 = v.fold.1

theorem Examines.fold {e : Expr} {left : Flow.Expr} (h : Examines a e left) :
    Examines a e left.fold.1 := by
  obtain ⟨storage, v, he, hv, hfold⟩ := h
  exact ⟨storage, v, he, hv, by rw [left.fold_settled, hfold]⟩

theorem examines_of_gives {e : Expr} {left : Flow.Expr} (h : Gives a (value [] e) left) :
    Examines a e left :=
  ⟨e, left, .own e, h, rfl⟩

/-- Conditions that compare expressions, in their order, and ask for protocols in between. -/
inductive Compared (a : Allocator) : List Match → List Expr → Prop
  | nil : Compared a [] []
  | protocol {t : Text} {ms : List Match} {es : List Expr} (h : Compared a ms es) :
      Compared a (.protocol t :: ms) es
  | comparison {e : Expr} {left right : Flow.Expr} {mask : Option Flow.Expr} {ms : List Match}
      {es : List Expr} (he : Examines a e left) (h : Compared a ms es) :
      Compared a (.equals left right mask :: ms) (e :: es)

namespace Compared

variable {ms ms' : List Match} {es es' : List Expr}

theorem append (h : Compared a ms es) (h' : Compared a ms' es') :
    Compared a (ms ++ ms') (es ++ es') := by
  induction h with
  | nil => exact h'
  | protocol _ ih => exact .protocol ih
  | comparison he _ ih => exact .comparison he ih

theorem simplify (h : Compared a ms es) : Compared a (ms.map Match.simplify) es := by
  induction h with
  | nil => exact .nil
  | protocol _ ih => exact .protocol ih
  | comparison he _ ih =>
    rw [List.map_cons, Match.simplify_eq_pass]
    exact .comparison he.fold ih

theorem flatMap_conditions (h : Compared a ms es) : ms.flatMap Match.conditions = ms := by
  induction h with
  | nil => rfl
  | protocol _ ih | comparison _ _ ih => exact congrArg (_ :: ·) ih

theorem prereq?_eq_none (h : Compared a ms es) : ∀ m ∈ ms, m.prereq? = none := by
  induction h with
  | nil => exact List.forall_mem_nil _
  | protocol _ ih | comparison _ _ ih => exact List.forall_mem_cons.mpr ⟨rfl, ih⟩

end Compared

/-! ## What is seen before -/

/-- An expression reads a field that declares a prerequisite. -/
def Declares (e : Expr) (t : Text) : Prop := ∃ f ∈ fieldsRead e, f.prereq = some t

/-- All prerequisites that an expression needs are among some texts. -/
def Covered (seen : List Text) (e : Expr) : Prop := ∀ t, Declares e t → t ∈ seen

/-- Conditions that compare expressions, in their order, each behind the prerequisites of all fields
that it reads; some prerequisites have been seen before. -/
inductive Guarded (a : Allocator) : List Text → List Match → List Expr → Prop
  | nil {seen : List Text} : Guarded a seen [] []
  | stage {seen : List Text} {n : Int64} {ms : List Match} {es : List Expr}
      (h : Guarded a seen ms es) : Guarded a seen (.table n :: ms) es
  | priority {seen : List Text} {n : Flow.Expr} {ms : List Match} {es : List Expr}
      (h : Guarded a seen ms es) : Guarded a seen (.priority n :: ms) es
  | protocol {seen : List Text} {t : Text} {ms : List Match} {es : List Expr}
      (h : Guarded a seen ms es) : Guarded a seen (.protocol t :: ms) es
  | prereq {seen : List Text} {t : Text} {ms : List Match} {es : List Expr}
      (h : Guarded a (t :: seen) ms es) : Guarded a seen (.prereq t :: ms) es
  | comparison {seen : List Text} {e : Expr} {left right : Flow.Expr} {mask : Option Flow.Expr}
      {ms : List Match} {es : List Expr} (he : Examines a e left) (hseen : Covered seen e)
      (h : Guarded a seen ms es) : Guarded a seen (.equals left right mask :: ms) (e :: es)

namespace Guarded

variable {seen seen' : List Text} {ms ms' : List Match} {es es' : List Expr}

theorem mono (h : Guarded a seen ms es) (hsub : seen ⊆ seen') : Guarded a seen' ms es := by
  induction h generalizing seen' with
  | nil => exact .nil
  | stage _ ih => exact .stage (ih hsub)
  | priority _ ih => exact .priority (ih hsub)
  | protocol _ ih => exact .protocol (ih hsub)
  | prereq _ ih => exact .prereq (ih (List.cons_subset_cons _ hsub))
  | comparison he hseen _ ih =>
    exact .comparison he (fun t ht => hsub (hseen t ht)) (ih hsub)

theorem append (h : Guarded a seen ms es) (h' : Guarded a seen ms' es') :
    Guarded a seen (ms ++ ms') (es ++ es') := by
  induction h with
  | nil => exact h'
  | stage _ ih => exact .stage (ih h')
  | priority _ ih => exact .priority (ih h')
  | protocol _ ih => exact .protocol (ih h')
  | prereq _ ih => exact .prereq (ih (h'.mono (List.subset_cons_self _ _)))
  | comparison he hseen _ ih => exact .comparison he hseen (ih h')

/-- Prerequisites in front are seen from then on. -/
theorem prereqs {ts : List Text} (h : Guarded a (ts ++ seen) ms es) :
    Guarded a seen (ts.map .prereq ++ ms) es := by
  induction ts generalizing seen with
  | nil => exact h
  | cons t ts ih =>
    refine .prereq (ih (h.mono fun x hx => ?_))
    rcases List.mem_cons.mp hx with rfl | hx
    · exact List.mem_append_right _ List.mem_cons_self
    · exact (List.mem_append.mp hx).elim (List.mem_append_left _)
        fun hx => List.mem_append_right _ (List.mem_cons_of_mem _ hx)

/-- No other match is interpolated. -/
theorem written (h : Guarded a seen ms es) : ∀ m ∈ ms, m.Written := by
  induction h with
  | nil => exact List.forall_mem_nil _
  | stage _ ih | priority _ ih | protocol _ ih | prereq _ ih | comparison _ _ _ ih =>
    exact List.forall_mem_cons.mpr ⟨fun name => by simp, ih⟩

end Guarded

theorem Compared.guarded {ms : List Match} {es : List Expr} (h : Compared a ms es)
    {seen : List Text} (hseen : ∀ e ∈ es, Covered seen e) : Guarded a seen ms es := by
  induction h with
  | nil => exact .nil
  | protocol _ ih => exact .protocol (ih hseen)
  | comparison he _ ih =>
    rw [List.forall_mem_cons] at hseen
    exact .comparison he hseen.1 (ih hseen.2)

/-! ## Conditions -/

/-- The parts of a condition that compare storage, in order: the conjuncts that are neither constant
nor validity tests. -/
def conjuncts : Expr → List Expr
  | .binary .and left right => conjuncts left ++ conjuncts right
  | .truth _ => []
  | .valid _ => []
  | e => [e]

/-- A condition reads no fields besides those that it compares. -/
theorem flatMap_fieldsRead_conjuncts (e : Expr) :
    (conjuncts e).flatMap fieldsRead = fieldsRead e := by
  fun_induction conjuncts e with
  | case1 left right ihl ihr => rw [List.flatMap_append, ihl, ihr, fieldsRead]
  | case2 | case3 => rfl
  | case4 e => rw [List.flatMap_singleton]

theorem declares_iff_conjuncts {e : Expr} {t : Text} :
    Declares e t ↔ ∃ c ∈ conjuncts e, Declares c t := by
  rw [Declares, ← flatMap_fieldsRead_conjuncts]
  simp only [List.mem_flatMap, Declares]
  constructor
  · rintro ⟨f, ⟨c, hc, hf⟩, ht⟩
    exact ⟨c, hc, f, hf, ht⟩
  · rintro ⟨c, hc, f, hf, ht⟩
    exact ⟨f, ⟨c, hc, hf⟩, ht⟩

theorem conditions_both (l r : Option Match) :
    (both l r).elim [] Match.conditions =
      l.elim [] Match.conditions ++ r.elim [] Match.conditions := by
  cases l with
  | none => rfl
  | some l =>
    cases r with
    | none => exact (List.append_nil _).symm
    | some r => rfl

section

variable {e c : Expr} {m : Match}

theorem compared_comparison {storage other : Expr} (hc : ComparesStorage c storage)
    (h : Gives a (comparison e storage other) m) : Compared a m.conditions [c] := by
  obtain ⟨b, b', hyields, hgrows⟩ := h
  simp only [comparison, yields_bind, yields_pure] at hyields
  obtain ⟨l, b₁, hl, r, b₂, hr, _, b₃, hfits, rfl, rfl⟩ := hyields
  have hlater : Grows b₁ a := (((ensures_value_nil other).grows hr).trans
    ((ensures_checkFits _ _ _).grows hfits)).trans hgrows
  exact .comparison ⟨storage, l, hc, ⟨b, b₁, hl, hlater⟩, rfl⟩ .nil

theorem compared_equation {left right : Expr} (h : Gives a (equation e left right) m) :
    Compared a m.conditions [.binary .eq left right] := by
  unfold equation at h
  split at h
  · exact compared_comparison (.left left right) h
  · split at h
    · exact compared_comparison (.right left right) h
    · obtain ⟨b, b', hyields, -⟩ := h
      exact absurd hyields not_yields_refuse

theorem compared_truthOf {m : Option Match} (h : Gives a (some <$> truthOf e) m) :
    Compared a (m.elim [] Match.conditions) [e] := by
  obtain ⟨b, b', hyields, hgrows⟩ := h
  unfold truthOf at hyields
  split at hyields
  · simp only [yields_map, yields_bind, yields_pure] at hyields
    obtain ⟨x, ⟨v, b₁, hv, rfl, rfl⟩, rfl⟩ := hyields
    exact .comparison (examines_of_gives ⟨b, b₁, hv, hgrows⟩) .nil
  · obtain ⟨x, hx, -⟩ := yields_map.mp hyields
    exact absurd hx not_yields_refuse

end

/-- **A condition compares its conjuncts**, in their order. -/
theorem compared_bareCondition {e : Expr} {m : Option Match} (h : Gives a (bareCondition e) m) :
    Compared a (m.elim [] Match.conditions) (conjuncts e) := by
  obtain ⟨b, b', hyields, hgrows⟩ := h
  match e with
  | .truth true =>
    obtain ⟨rfl, -⟩ := yields_pure.mp hyields
    exact .nil
  | .truth false => exact absurd hyields not_yields_refuse
  | .valid header =>
    unfold bareCondition at hyields
    split at hyields
    · obtain ⟨rfl, -⟩ := yields_pure.mp hyields
      exact .protocol .nil
    · exact absurd hyields not_yields_refuse
  | .binary .and left right =>
    simp only [bareCondition, yields_bind, yields_pure] at hyields
    obtain ⟨l, b₁, hl, r, b₂, hr, rfl, rfl⟩ := hyields
    have hlater := ((ensures_bareCondition_bare right).grows hr).trans hgrows
    rw [conditions_both, conjuncts]
    exact (compared_bareCondition ⟨b, b₁, hl, hlater⟩).append
      (compared_bareCondition ⟨b₁, b₂, hr, hgrows⟩)
  | .binary .eq left right =>
    simp only [bareCondition, yields_bind, yields_pure] at hyields
    obtain ⟨x, b₁, hx, rfl, rfl⟩ := hyields
    exact compared_equation ⟨b, b₁, hx, hgrows⟩
  | .field f | .localVar l | .slice e high low | .cast type e =>
    exact compared_truthOf ⟨b, b', hyields, hgrows⟩
  | .binary .or _ _ | .binary .ne _ _ | .binary .mask _ _
  | .missing | .path _ | .call .. | .member .. | .param .. | .hit .. | .actionRun _
  | .literal _ | .negation _ | .any => exact absurd hyields not_yields_refuse

/-! ## Lists of prerequisites -/

theorem mem_prereqTexts {e : Expr} {t : Text} : t ∈ prereqTexts e ↔ Declares e t := by
  rw [prereqTexts_eq]
  constructor
  · intro h
    obtain ⟨f, hf, ht⟩ := List.mem_flatMap.mp h
    exact ⟨f, hf, Option.mem_toList.mp ht⟩
  · rintro ⟨f, hf, ht⟩
    exact List.mem_flatMap.mpr ⟨f, hf, Option.mem_toList.mpr ht⟩

theorem mem_prereqs {e : Expr} {m : Match} : m ∈ prereqs e ↔ ∃ t, Declares e t ∧ m = .prereq t := by
  rw [prereqs, List.mem_map]
  constructor
  · rintro ⟨t, ht, rfl⟩
    exact ⟨t, mem_prereqTexts.mp (List.mem_eraseDups.mp ht), rfl⟩
  · rintro ⟨t, ht, rfl⟩
    exact ⟨t, List.mem_eraseDups.mpr (mem_prereqTexts.mpr ht), rfl⟩

end Flowline.Lower
