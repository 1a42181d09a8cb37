import Flowline.Lower.Value
import Flowline.Proofs.Switch.Allocation
import Mathlib.Data.List.Infix

/-!
# Runs of a lowering

`Yields x a v a'` says that a lowering succeeds: from the register file `a` it gives `v` and leaves
`a'`.  The lemmas `yields_bind` and the like take the success of a lowering apart, so that no later
proof looks at the monad.

A lowering only adds to the register file (`Grows`): owners keep their registers.  So the register
of a field is known from any later register file, in particular from the one at the end of the
lowering (`Layout.of`).  `Ensures` states what a lowering gives in this way, once for all later
register files, and is kept by sequencing (`Ensures.bind`).  `Gives` is for those who only know the
register file at the end of everything.
-/

namespace Flowline.Lower

open Switch (Allocator Register Target)

variable {a a' : Allocator} {α β : Type}

/-- What a lowering gives, and the register file that it leaves. -/
def outcome (x : Lowering α) (a : Allocator) : Except Problem α × Allocator := x.run a

/-- A lowering succeeds. -/
def Yields (x : Lowering α) (a : Allocator) (v : α) (a' : Allocator) : Prop :=
  outcome x a = (.ok v, a')

theorem outcome_bind (x : Lowering α) (f : α → Lowering β) (a : Allocator) :
    outcome (x >>= f) a =
      match outcome x a with
      | (.ok v, a') => outcome (f v) a'
      | (.error p, a') => (.error p, a') := by
  unfold outcome ExceptT.run
  simp only [bind, ExceptT.bind, ExceptT.mk, StateT.bind, ExceptT.bindCont]
  rcases x a with ⟨p | v, a'⟩ <;> rfl

variable {r : Register} {v w : α} {name : Text}

@[simp] theorem yields_pure : Yields (pure v) a w a' ↔ v = w ∧ a = a' := by
  show ((Except.ok v, a) : Except Problem α × Allocator) = (.ok w, a') ↔ _
  simp

@[simp] theorem yields_bind {x : Lowering α} {f : α → Lowering β} {a'' : Allocator} {w : β} :
    Yields (x >>= f) a w a'' ↔ ∃ v a', Yields x a v a' ∧ Yields (f v) a' w a'' := by
  unfold Yields
  rw [outcome_bind]
  rcases outcome x a with ⟨p | v, a'⟩
  · simp
  · constructor
    · intro h
      exact ⟨v, a', rfl, h⟩
    · rintro ⟨w, b, heq, h⟩
      cases heq
      exact h

@[simp] theorem yields_map {x : Lowering α} {f : α → β} {w : β} :
    Yields (f <$> x) a w a' ↔ ∃ v, Yields x a v a' ∧ f v = w := by
  rw [← bind_pure_comp, yields_bind]
  constructor
  · rintro ⟨v, b, hv, hw⟩
    obtain ⟨rfl, rfl⟩ := yields_pure.1 hw
    exact ⟨v, hv, rfl⟩
  · rintro ⟨v, hv, rfl⟩
    exact ⟨v, a', hv, yields_pure.2 ⟨rfl, rfl⟩⟩

@[simp] theorem not_yields_throw {p : Problem} : ¬Yields (throw p) a w a' := by
  show ¬((Except.error p, a) : Except Problem α × Allocator) = (.ok w, a')
  simp

@[simp] theorem not_yields_refuse {construct reason : Text} :
    ¬Yields (refuse construct reason) a w a' :=
  not_yields_throw

@[simp] theorem yields_get {s : Allocator} : Yields get a s a' ↔ a = s ∧ a = a' := by
  show ((Except.ok a, a) : Except Problem Allocator × Allocator) = (.ok s, a') ↔ _
  simp

@[simp] theorem yields_set {s : Allocator} {u : PUnit} : Yields (set s) a u a' ↔ s = a' := by
  show ((Except.ok PUnit.unit, s) : Except Problem PUnit × Allocator) = (.ok u, a') ↔ _
  simp

@[simp] theorem yields_ofExcept {x : Except Problem α} :
    Yields (ofExcept x) a v a' ↔ x = .ok v ∧ a = a' := by
  cases x with
  | ok w | error p => simp [ofExcept]

/-- A constant is cut where the machine can shift by the width, and the register file is only looked
at. -/
@[simp] theorem yields_cutConstant {n : Int} {base width : Int64} {e : Flow.Expr} :
    Yields (cutConstant n base width) a e a' ↔
      a.target.limits.canShift width = true ∧ .const (lowPart n width) base = e ∧ a = a' := by
  simp only [cutConstant, yields_bind, yields_get]
  constructor
  · rintro ⟨s, b, ⟨rfl, rfl⟩, h⟩
    split at h
    · next hshift => exact ⟨hshift, yields_pure.1 h⟩
    · exact absurd h not_yields_throw
  · rintro ⟨hshift, rfl, rfl⟩
    refine ⟨a, a, ⟨rfl, rfl⟩, ?_⟩
    rw [if_pos hshift]
    exact yields_pure.2 ⟨rfl, rfl⟩

/-! ## The register file only grows -/

/-- A register file that keeps the owners of another one. -/
structure Grows (a a' : Allocator) : Prop where
  target_eq : a'.target = a.target
  owners : a.owners <+: a'.owners

namespace Grows

variable {a'' : Allocator}

theorem refl (a : Allocator) : Grows a a := ⟨rfl, List.prefix_refl _⟩

theorem trans (h : Grows a a') (h' : Grows a' a'') : Grows a a'' :=
  ⟨h'.target_eq.trans h.target_eq, h.owners.trans h'.owners⟩

theorem lookup (h : Grows a a') (hr : a.lookup name = some r) : a'.lookup name = some r := by
  obtain ⟨more, hmore⟩ := h.owners
  unfold Allocator.lookup at hr ⊢
  rw [← hmore, List.lookup_append, hr]
  rfl

end Grows

theorem yields_allocate_iff {declared minimum : Int64} {isBool : Bool} :
    Yields (allocate name declared minimum isBool) a r a' ↔
      a.allocate name declared minimum isBool = .ok (r, a') := by
  simp only [allocate, yields_bind, yields_get]
  constructor
  · rintro ⟨s, b, ⟨rfl, rfl⟩, h⟩
    split at h
    · next hcall =>
      simp only [yields_bind, yields_set, yields_pure] at h
      obtain ⟨-, c, rfl, rfl, rfl⟩ := h
      exact hcall
    · exact absurd h not_yields_throw
  · intro h
    refine ⟨a, a, ⟨rfl, rfl⟩, ?_⟩
    rw [h]
    exact yields_bind.2 ⟨⟨⟩, a', yields_set.2 rfl, yields_pure.2 ⟨rfl, rfl⟩⟩

/-- A name that gets a register owned it, or owns it from now on. -/
theorem yields_allocate {declared minimum : Int64} {isBool : Bool}
    (h : Yields (allocate name declared minimum isBool) a r a') :
    Grows a a' ∧ a'.lookup name = some r := by
  rcases Allocator.allocate_eq_ok (yields_allocate_iff.1 h) with ⟨hold, rfl⟩ | ⟨hnew, -, hplace⟩
  · exact ⟨Grows.refl _, hold⟩
  · obtain ⟨_, _, _, -, -, -, -, rfl⟩ := Allocator.place_eq_ok hplace
    exact ⟨⟨rfl, List.prefix_append _ _⟩, Allocator.lookup_give_self hnew _ r⟩

theorem allocate_of_lookup (h : a.lookup name = some r) (declared minimum : Int64) (isBool : Bool) :
    Yields (allocate name declared minimum isBool) a r a := by
  refine yields_allocate_iff.2 ?_
  rw [Allocator.allocate, h]

theorem reserved_mono (h : Grows a a') {owner : Text} {f : Field}
    (hr : reserved a owner f = .ok r) : reserved a' owner f = .ok r := by
  unfold reserved at hr ⊢
  split at hr
  · cases hr
  · next s hs =>
    rw [h.lookup hs]
    exact hr

theorem yields_fieldRegister {f : Field} (h : Yields (fieldRegister f) a r a') :
    Grows a a' ∧ ∀ {b : Allocator}, Grows a' b → Yields (fieldRegister f) b r b := by
  unfold fieldRegister at h ⊢
  cases hbuiltin : f.builtin with
  | outputPort | multicastGroup =>
    simp only [hbuiltin, yields_bind, yields_get, yields_ofExcept] at h ⊢
    obtain ⟨s, b, ⟨rfl, rfl⟩, hr, rfl⟩ := h
    exact ⟨Grows.refl a, fun hb => ⟨_, _, ⟨rfl, rfl⟩, reserved_mono hb hr, rfl⟩⟩
  | none =>
    simp only [hbuiltin] at h ⊢
    cases hpacket : f.packet with
    | some packet =>
      simp only [hpacket, yields_ofExcept] at h ⊢
      obtain ⟨hr, rfl⟩ := h
      exact ⟨Grows.refl a, fun _ => ⟨hr, trivial⟩⟩
    | none =>
      simp only [hpacket] at h ⊢
      obtain ⟨hgrows, hlookup⟩ := yields_allocate h
      exact ⟨hgrows, fun hb => allocate_of_lookup (hb.lookup hlookup) _ _ _⟩

theorem yields_localRegister {l : Local} (h : Yields (localRegister l) a r a') :
    Grows a a' ∧ ∀ {b : Allocator}, Grows a' b → Yields (localRegister l) b r b := by
  obtain ⟨hgrows, hlookup⟩ := yields_allocate h
  exact ⟨hgrows, fun hb => allocate_of_lookup (hb.lookup hlookup) _ _ _⟩

/-! ## Layouts -/

/-- Where storage is. -/
structure Layout where
  target : Target
  ofField : Field → Option Register
  ofLocal : Local → Option Register
  /-- The register that holds the output port. -/
  port : Option Register

/-- The result of a lowering, if it succeeds. -/
def result? (x : Lowering α) (a : Allocator) : Option α := (outcome x a).1.toOption

/-- The layout that a register file gives to storage. -/
def Layout.of (a : Allocator) : Layout where
  target := a.target
  ofField f := result? (fieldRegister f) a
  ofLocal l := result? (localRegister l) a
  port := a.lookup outputPort

theorem Yields.result? {x : Lowering α} (h : Yields x a v a') : result? x a = some v := by
  unfold Lower.result?
  rw [h]
  rfl

/-! ## What a lowering ensures -/

/-- Whenever a lowering succeeds, it has only added to the register file, and its result is as it
should be in the layout of every later register file. -/
structure Ensures (x : Lowering α) (P : Layout → α → Prop) : Prop where
  grows : ∀ {a v a'}, Yields x a v a' → Grows a a'
  holds : ∀ {a v a'}, Yields x a v a' → ∀ {b}, Grows a' b → P (Layout.of b) v

theorem ensures_pure {P : Layout → α → Prop} (h : ∀ L, P L v) : Ensures (pure v) P where
  grows hv := by
    obtain ⟨-, rfl⟩ := yields_pure.1 hv
    exact Grows.refl _
  holds hv b _ := by
    obtain ⟨rfl, -⟩ := yields_pure.1 hv
    exact h _

theorem ensures_throw {P : Layout → α → Prop} (p : Problem) : Ensures (throw p) P :=
  ⟨fun h => absurd h not_yields_throw, fun h => absurd h not_yields_throw⟩

theorem ensures_refuse {P : Layout → α → Prop} (construct reason : Text) :
    Ensures (refuse construct reason) P :=
  ensures_throw _

namespace Ensures

variable {x : Lowering α} {P : Layout → α → Prop} {Q : Layout → β → Prop}

theorem mono {P' : Layout → α → Prop} (hx : Ensures x P) (h : ∀ L v, P L v → P' L v) :
    Ensures x P' :=
  ⟨hx.grows, fun hv _ hb => h _ _ (hx.holds hv hb)⟩

/-- What the first step ensures stays true while the second runs. -/
theorem bind {f : α → Lowering β} (hx : Ensures x P)
    (hf : ∀ v, Ensures (f v) fun L w => P L v → Q L w) : Ensures (x >>= f) Q where
  grows h := by
    obtain ⟨v, b, hv, hw⟩ := yields_bind.1 h
    exact (hx.grows hv).trans ((hf v).grows hw)
  holds h b hb := by
    obtain ⟨v, c, hv, hw⟩ := yields_bind.1 h
    exact (hf v).holds hw hb (hx.holds hv (((hf v).grows hw).trans hb))

theorem map {f : α → β} (hx : Ensures x P) (h : ∀ L v, P L v → Q L (f v)) :
    Ensures (f <$> x) Q := by
  rw [← bind_pure_comp]
  exact hx.bind fun v => ensures_pure fun L => h L v

end Ensures

/-- A lowering succeeded with a result, on the way to a register file. -/
def Gives (b : Allocator) (x : Lowering α) (v : α) : Prop :=
  ∃ a a', Yields x a v a' ∧ Grows a' b

theorem Ensures.of_gives {x : Lowering α} {P : Layout → α → Prop} (hx : Ensures x P) {b : Allocator}
    (h : Gives b x v) : P (Layout.of b) v := by
  obtain ⟨a, a', hv, hb⟩ := h
  exact hx.holds hv hb

/-- A register file that is looked at agrees with every later one. -/
theorem ensures_get : Ensures get fun L s =>
    L.target = s.target ∧ ∀ r, s.lookup outputPort = some r → L.port = some r where
  grows h := by
    obtain ⟨-, rfl⟩ := yields_get.1 h
    exact Grows.refl _
  holds h b hb := by
    obtain ⟨rfl, rfl⟩ := yields_get.1 h
    exact ⟨hb.target_eq, fun r hr => hb.lookup hr⟩

/-- The layout of every later register file has the register of a field. -/
theorem ensures_fieldRegister (f : Field) :
    Ensures (fieldRegister f) fun L r => L.ofField f = some r :=
  ⟨fun h => (yields_fieldRegister h).1, fun h _ hb => ((yields_fieldRegister h).2 hb).result?⟩

theorem ensures_localRegister (l : Local) :
    Ensures (localRegister l) fun L r => L.ofLocal l = some r :=
  ⟨fun h => (yields_localRegister h).1, fun h _ hb => ((yields_localRegister h).2 hb).result?⟩

end Flowline.Lower
