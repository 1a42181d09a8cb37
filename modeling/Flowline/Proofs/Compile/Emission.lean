import Flowline.Compile.Check
import Flowline.Proofs.Lower.Running
import Mathlib.Data.List.Forall2

/-!
# Runs of an emission

`Emits x P` says what a step of a compilation does if it reports no problem: it keeps the flows so
far and adds some, and these and the result are as `P` says.  Problems are only ever added
(`Emits.reports`), so a compilation that ends without one had none at any step, and `Emits` is kept
by sequencing (`Emits.bind`).

The registers behind a flow are known from the end of everything: `P` speaks about any later state
(`Later`), in which owners have the registers that they have now.

Checks report nothing themselves.  `Checks x P` says what is right if nothing is found wrong.
-/

namespace Flowline.Compile

open Flowline.Flow (Action Line Match)
open Lower (Ensures Gives Grows Layout Lowering Yields outcome)
open Switch (Allocator)

variable {α β : Type}

/-- What a step gives, and the state that it leaves. -/
def after (x : Emit α) (s : State) : α × State := x.run s

@[simp] theorem after_pure (v : α) (s : State) : after (pure v) s = (v, s) := rfl

@[simp] theorem after_bind (x : Emit α) (f : α → Emit β) (s : State) :
    after (x >>= f) s = after (f (after x s).1) (after x s).2 := rfl

@[simp] theorem after_get (s : State) : after get s = (s, s) := rfl

@[simp] theorem after_report (r : Report) (s : State) :
    after (report r) s = ((), { s with problems := s.problems ++ r }) := rfl

@[simp] theorem after_note (line : Text) (s : State) :
    after (note line) s = ((), { s with trace := s.trace ++ [line] }) := rfl

/-- A state that keeps the registers and the masks of another one. -/
structure Later (s s' : State) : Prop where
  grows : Grows s.allocator s'.allocator
  widths : s.prefixWidths ⊆ s'.prefixWidths

namespace Later

variable {s s' s'' : State}

theorem refl (s : State) : Later s s := ⟨Grows.refl _, List.Subset.refl _⟩

theorem trans (h : Later s s') (h' : Later s' s'') : Later s s'' :=
  ⟨h.grows.trans h'.grows, List.Subset.trans h.widths h'.widths⟩

end Later

/-- A step only adds problems.  If it adds none, it has only added to registers, masks and flows,
and the flows and the result are as they should be in every later state. -/
structure Emits (x : Emit α) (P : State → α → List StageFlow → Prop) : Prop where
  reports : ∀ s, s.problems <+: (after x s).2.problems
  runs : ∀ s, (after x s).2.problems = s.problems →
    Later s (after x s).2 ∧
      ∃ fs, (after x s).2.flows = s.flows ++ fs ∧
        ∀ b, Later (after x s).2 b → P b (after x s).1 fs

theorem emits_pure {P : State → α → List StageFlow → Prop} {v : α} (h : ∀ b, P b v []) :
    Emits (pure v) P where
  reports _ := List.prefix_refl _
  runs s _ := ⟨Later.refl s, [], (List.append_nil _).symm, fun b _ => h b⟩

theorem emits_get : Emits get fun b s fs => Later s b ∧ fs = [] where
  reports _ := List.prefix_refl _
  runs s _ := ⟨Later.refl s, [], (List.append_nil _).symm, fun _ hb => ⟨hb, rfl⟩⟩

theorem emits_note (line : Text) : Emits (note line) fun _ _ fs => fs = [] where
  reports _ := List.prefix_refl _
  runs _ _ := ⟨⟨Grows.refl _, List.Subset.refl _⟩, [], (List.append_nil _).symm, fun _ _ => rfl⟩

/-- A report that goes unnoticed is empty. -/
theorem emits_report (r : Report) : Emits (report r) fun _ _ fs => r = [] ∧ fs = [] where
  reports _ := List.prefix_append _ _
  runs _ h := by
    have hr : r = [] := List.append_right_eq_self.mp h
    exact ⟨⟨Grows.refl _, List.Subset.refl _⟩, [], (List.append_nil _).symm, fun _ _ => ⟨hr, rfl⟩⟩

theorem emits_emitAll (fs : List StageFlow) : Emits (emitAll fs) fun _ _ fs' => fs' = fs where
  reports _ := List.prefix_refl _
  runs _ _ := ⟨⟨Grows.refl _, List.Subset.refl _⟩, _, rfl, fun _ _ => rfl⟩

theorem emits_emit (comment : Text) (guard : Match) (action : Action) (bindings : List Binding) :
    Emits (emit comment guard action bindings) fun _ _ fs =>
      fs = [flowOf comment guard action bindings] :=
  emits_emitAll _

theorem emits_emitFact (comment : Text) (guard : Match) (action : Action) :
    Emits (emitFact comment guard action) fun _ _ fs => fs = [flowOf comment guard action []] :=
  emits_emit comment guard action []

theorem emits_usePrefixMask (width : Int64) :
    Emits (usePrefixMask width) fun b _ fs => width ∈ b.prefixWidths ∧ fs = [] where
  reports _ := List.prefix_refl _
  runs _ _ := by
    refine ⟨⟨Grows.refl _, List.subset_append_left _ _⟩, [], (List.append_nil _).symm, ?_⟩
    exact fun b hb => ⟨hb.widths (List.mem_append_right _ List.mem_cons_self), rfl⟩

namespace Emits

variable {x : Emit α} {P : State → α → List StageFlow → Prop}
  {Q : State → β → List StageFlow → Prop}

theorem mono {P' : State → α → List StageFlow → Prop} (hx : Emits x P)
    (h : ∀ b v fs, P b v fs → P' b v fs) : Emits x P' where
  reports := hx.reports
  runs s hs := by
    obtain ⟨hlater, fs, hfs, hP⟩ := hx.runs s hs
    exact ⟨hlater, fs, hfs, fun b hb => h _ _ _ (hP b hb)⟩

/-- Where two steps together report nothing, neither does the first. -/
theorem first_problems {f : α → Emit β} (hx : Emits x P)
    (hf : ∀ v s, s.problems <+: (after (f v) s).2.problems) {s : State}
    (hs : (after (x >>= f) s).2.problems = s.problems) :
    (after x s).2.problems = s.problems := by
  rw [after_bind] at hs
  refine (List.IsPrefix.eq_of_length (hx.reports s) ?_).symm
  have hle := (hf (after x s).1 (after x s).2).length_le
  rw [hs] at hle
  exact Nat.le_antisymm (hx.reports s).length_le hle

/-- What the first step says stays true while the second runs. -/
theorem bind {f : α → Emit β} (hx : Emits x P)
    (hf : ∀ v, Emits (f v) fun b w gs => ∀ fs, P b v fs → Q b w (fs ++ gs)) :
    Emits (x >>= f) Q where
  reports s := (hx.reports s).trans ((hf _).reports _)
  runs s hs := by
    have hnone := hx.first_problems (fun v => (hf v).reports) hs
    rw [after_bind] at hs ⊢
    obtain ⟨hlater, fs, hfs, hP⟩ := hx.runs s hnone
    obtain ⟨hlater', gs, hgs, hQ⟩ := (hf (after x s).1).runs (after x s).2 (hs.trans hnone.symm)
    refine ⟨hlater.trans hlater', fs ++ gs, ?_, fun b hb => ?_⟩
    · rw [hgs, hfs, List.append_assoc]
    · exact hQ b hb fs (hP b (hlater'.trans hb))

/-- A step that emits nothing, and has a result unless it reports a problem. -/
theorem bind_some {x : Emit (Option α)} {R : State → α → Prop} {f : Option α → Emit β} {w : β}
    (hx : Emits x fun b r fs => ∃ v, r = some v ∧ R b v ∧ fs = []) (hnone : f none = pure w)
    (hf : ∀ v, Emits (f (some v)) fun b w gs => R b v → Q b w gs) : Emits (x >>= f) Q := by
  refine hx.bind fun r => ?_
  cases r with
  | none =>
    rw [hnone]
    exact emits_pure fun _ _ h => by simp at h
  | some v =>
    refine (hf v).mono fun b w gs h => ?_
    rintro _ ⟨_, ⟨⟩, hv, rfl⟩
    exact h hv

theorem bind_if {c : Prop} [Decidable c] {x : Emit PUnit} {f : PUnit → Emit β}
    {P : State → PUnit → List StageFlow → Prop} (hx : Emits (if c then x else pure ⟨⟩) P)
    (hf : Emits (f ⟨⟩) fun b w gs => ∀ fs, P b ⟨⟩ fs → Q b w (fs ++ gs)) :
    Emits (if c then x >>= f else f ⟨⟩) Q := by
  have heq : (if c then x >>= f else f ⟨⟩) = (if c then x else pure ⟨⟩) >>= f := by
    split <;> rfl
  rw [heq]
  exact hx.bind fun _ => hf

/-- A loop emits one block of flows for each member of its list. -/
theorem forM {f : α → Emit PUnit} {R : State → α → List StageFlow → Prop}
    (hf : ∀ v, Emits (f v) fun b _ fs => R b v fs) (vs : List α) :
    Emits (vs.forM f) fun b _ fs =>
      ∃ blocks, fs = blocks.flatten ∧ List.Forall₂ (R b) vs blocks := by
  induction vs with
  | nil => exact emits_pure fun b => ⟨[], rfl, .nil⟩
  | cons v vs ih =>
    -- the loop is its first round and then the others, by definition
    refine (hf v).bind fun _ => ih.mono ?_
    rintro b - gs ⟨blocks, rfl, hblocks⟩ fs hfs
    exact ⟨fs :: blocks, rfl, .cons hfs hblocks⟩

/-- A loop that emits nothing gives one result for each member of its list. -/
theorem mapM {f : α → Emit β} {R : State → α → β → Prop}
    (hf : ∀ v, Emits (f v) fun b w fs => R b v w ∧ fs = []) (vs : List α) :
    Emits (vs.mapM f) fun b ws fs => List.Forall₂ (R b) vs ws ∧ fs = [] := by
  induction vs with
  | nil => exact emits_pure fun b => ⟨.nil, rfl⟩
  | cons v vs ih =>
    rw [List.mapM_cons]
    refine (hf v).bind fun w => ih.bind fun ws => emits_pure fun b => ?_
    rintro _ ⟨hws, rfl⟩ _ ⟨hw, rfl⟩
    exact ⟨.cons hw hws, rfl⟩

end Emits

/-- A loop of steps that emit nothing emits nothing, and what each of them says holds at its end. -/
theorem Emits.forM_nil {f : α → Emit PUnit} {R : State → α → Prop}
    (hf : ∀ v, Emits (f v) fun b _ fs => R b v ∧ fs = []) (vs : List α) :
    Emits (vs.forM f) fun b _ fs => (∀ v ∈ vs, R b v) ∧ fs = [] := by
  induction vs with
  | nil => exact emits_pure fun _ => ⟨nofun, rfl⟩
  | cons v vs ih =>
    refine (hf v).bind fun _ => ih.mono ?_
    rintro b - _ ⟨hvs, rfl⟩ _ ⟨hv, rfl⟩
    exact ⟨List.forall_mem_cons.mpr ⟨hv, hvs⟩, rfl⟩

theorem exists_of_mem_left {R : α → β → Prop} {vs : List α} {ws : List β}
    (h : List.Forall₂ R vs ws) {v : α} (hv : v ∈ vs) : ∃ w ∈ ws, R v w := by
  induction h with
  | nil => cases hv
  | cons hvw _ ih =>
    rcases List.mem_cons.mp hv with rfl | hv
    · exact ⟨_, List.mem_cons_self, hvw⟩
    · obtain ⟨w, hw, hvw⟩ := ih hv
      exact ⟨w, List.mem_cons_of_mem _ hw, hvw⟩

theorem exists_of_mem_right {R : α → β → Prop} {vs : List α} {ws : List β}
    (h : List.Forall₂ R vs ws) {w : β} (hw : w ∈ ws) : ∃ v ∈ vs, R v w :=
  exists_of_mem_left h.flip hw

/-! ## Lowering -/

/-- A lowering that succeeds only adds to the register file, and its result can be had from every
later one. -/
theorem later_lower {m : Lowering α} {P : Layout → α → Prop} (hm : Ensures m P) {s : State} {v : α}
    (h : (after (lower m) s).1 = .ok v) :
    Later s (after (lower m) s).2 ∧
      ∀ b, Later (after (lower m) s).2 b → Gives b.allocator m v := by
  have hyields : Yields m s.allocator v (after (lower m) s).2.allocator := Prod.ext h rfl
  exact ⟨⟨hm.grows hyields, List.Subset.refl _⟩, fun b hb => ⟨_, _, hyields, hb.grows⟩⟩

theorem emits_lower? {m : Lowering α} {P : Layout → α → Prop} (hm : Ensures m P) :
    Emits (lower? m) fun b r fs => ∃ v, r = some v ∧ Gives b.allocator m v ∧ fs = [] where
  reports s := by
    unfold lower?
    rw [after_bind]
    cases (after (lower m) s).1 with
    | ok v => exact List.prefix_refl _
    | error p => exact List.prefix_append _ _
  runs s hs := by
    unfold lower? at hs ⊢
    rw [after_bind] at hs ⊢
    cases h : (after (lower m) s).1 with
    | ok v =>
      obtain ⟨hlater, hgives⟩ := later_lower hm h
      exact ⟨hlater, [], (List.append_nil _).symm, fun b hb => ⟨v, rfl, hgives b hb, rfl⟩⟩
    | error p =>
      rw [h] at hs
      have hne : s.problems ++ [p] = s.problems := hs
      simp at hne

/-! ## Checks -/

/-- A check leaves problems and flows alone.  If it finds nothing, it has only added to the
registers, and all is right in every later state. -/
structure Checks (x : Emit Report) (P : State → Prop) : Prop where
  problems : ∀ s, (after x s).2.problems = s.problems
  flows : ∀ s, (after x s).2.flows = s.flows
  finds : ∀ s, (after x s).1 = [] →
    Later s (after x s).2 ∧ ∀ b, Later (after x s).2 b → P b

theorem checks_pure {P : State → Prop} {r : Report} (h : r = [] → ∀ b, P b) :
    Checks (pure r) P where
  problems _ := rfl
  flows _ := rfl
  finds s hr := ⟨Later.refl s, fun b _ => h hr b⟩

theorem checks_refusal {m : Lowering α} {P : Layout → α → Prop} (hm : Ensures m P) :
    Checks (refusal m) fun b => ∃ v, Gives b.allocator m v where
  problems s := by
    unfold refusal
    rw [after_bind]
    cases (after (lower m) s).1 <;> rfl
  flows s := by
    unfold refusal
    rw [after_bind]
    cases (after (lower m) s).1 <;> rfl
  finds s hr := by
    unfold refusal at hr ⊢
    rw [after_bind] at hr ⊢
    cases h : (after (lower m) s).1 with
    | ok v =>
      obtain ⟨hlater, hgives⟩ := later_lower hm h
      exact ⟨hlater, fun b hb => ⟨v, hgives b hb⟩⟩
    | error p =>
      rw [h] at hr
      cases hr

namespace Checks

variable {x : Emit Report} {P Q : State → Prop}

theorem mono (hx : Checks x P) (h : ∀ b, P b → Q b) : Checks x Q where
  problems := hx.problems
  flows := hx.flows
  finds s hr := ⟨(hx.finds s hr).1, fun b hb => h b ((hx.finds s hr).2 b hb)⟩

/-- A check followed by another one, whose report holds that of the first. -/
theorem bind {f : Report → Emit Report} (hx : Checks x P) (hf : ∀ r, Checks (f r) fun b =>
    r = [] ∧ (P b → Q b)) : Checks (x >>= f) Q where
  problems s := ((hf _).problems _).trans (hx.problems s)
  flows s := ((hf _).flows _).trans (hx.flows s)
  finds s hr := by
    obtain ⟨hlater', hQ⟩ := (hf (after x s).1).finds (after x s).2 hr
    obtain ⟨hlater, hP⟩ := hx.finds s (hQ _ (Later.refl _)).1
    exact ⟨hlater.trans hlater', fun b hb => (hQ b hb).2 (hP b (hlater'.trans hb))⟩

end Checks

theorem checks_checkAll {check : α → Emit Report} {P : State → α → Prop}
    (h : ∀ v, Checks (check v) fun b => P b v) (vs : List α) :
    Checks (checkAll check vs) fun b => ∀ v ∈ vs, P b v := by
  induction vs with
  | nil => exact checks_pure fun _ _ => nofun
  | cons v vs ih =>
    refine (h v).bind fun r => ih.bind fun rs => checks_pure fun hnil b => ?_
    obtain ⟨hr, hrs⟩ := List.append_eq_nil_iff.mp hnil
    exact ⟨hrs, fun hvs => ⟨hr, fun hv => List.forall_mem_cons.mpr ⟨hv, hvs⟩⟩⟩

end Flowline.Compile
