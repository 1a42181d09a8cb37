import Flowline.Proofs.Lower.Requests
import Flowline.Proofs.Lower.Values
import Flowline.Proofs.Switch.Ledger

/-!
# Where the register of an expression lies

Storage is in a register that lies inside its bundle or packet field, and so is every part of it
that slices and casts take (`ensures_value_lodged`).

The bounds of a slice are checked against the type of what it cuts, which may be wider than its
register, and the sum of two words may wrap around.  A part that has wrapped around ends before the
start of its bundle, and parts of it do so too.  That is the only exception.
-/

namespace Flowline.Switch.Register

variable {r s : Register}

/-- The width of a register that lies inside its base is counted without wrapping around. -/
theorem Inside.covers_width (h : r.Inside) (hle : r.low.toInt ≤ r.high.toInt) :
    r.Covers r.width ∧ r.width.toInt = r.high.toInt - r.low.toInt + 1 := by
  have hlow := h.low_nonneg
  have hlt := h.high_lt_size
  have hsize := r.size.toInt_lt
  have hwidth : r.width.toInt = r.high.toInt - r.low.toInt + 1 :=
    Word.toInt_sub_succ (by omega) (by omega)
  exact ⟨⟨by omega, by omega⟩, hwidth⟩

/-- A part of a register that lies inside its base does so too, unless it ends before the start. -/
theorem Inside.slice (h : r.Inside) {low high : Int64} (hs : r.slice low high = some s)
    (hend : 0 ≤ s.high.toInt) (t : Target) :
    s.Inside ∧
      s.places t = ((r.places t).drop low.toInt.toNat).take (high - low + 1).toInt.toNat := by
  have hrlow := h.low_nonneg
  have hrhigh := h.high_lt_size
  have hbound := r.size.toInt_lt
  obtain ⟨hlow, hle, hhigh, rfl⟩ := slice_eq_some hs
  have hend' : 0 ≤ (r.low + high).toInt := hend
  -- a sum of two numbers that are not negative is negative if it wraps around
  have hsumHigh : (r.low + high).toInt = r.low.toInt + high.toInt := by
    have hrlow' := r.low.toInt_lt
    have hhigh' := high.toInt_lt
    rw [Int64.toInt_add, Int.bmod_def] at hend' ⊢
    omega
  have hsumLow : (r.low + low).toInt = r.low.toInt + low.toInt :=
    Word.toInt_add (by omega) (by omega)
  obtain ⟨hcovers, hword⟩ := h.covers_width (by omega)
  obtain ⟨s', hs', -, hplaces⟩ := hcovers.slice t hlow hle (by omega)
  cases hs.symm.trans hs'
  refine ⟨⟨?_, ?_⟩, hplaces⟩
  · show 0 ≤ (r.low + low).toInt
    omega
  · show (r.low + high).toInt < r.size.toInt
    omega

/-- A part ends where its register does, or before. -/
theorem high_le_of_slice {low high : Int64} (hs : r.slice low high = some s) :
    s.high.toInt ≤ r.high.toInt := by
  obtain ⟨-, -, hhigh, rfl⟩ := slice_eq_some hs
  exact hhigh

end Flowline.Switch.Register

/-- An annotation describes a part of its packet field that has the width of the field. -/
structure Flowline.SliceNote.Fits (s : Flowline.SliceNote) (width : Int64) : Prop where
  low_nonneg : 0 ≤ s.low.toInt
  low_le_high : s.low.toInt ≤ s.high.toInt
  high_lt_size : s.high.toInt < s.size.toInt
  width_eq : s.high.toInt - s.low.toInt + 1 = width.toInt

namespace Flowline.Lower

open Source (Expr)
open Switch (Allocator Register Word.toInt_pred Word.toInt_sub_succ)
open Switch.Allocator (Ledger Request)

/-! ## Storage -/

/-- All storage of a layout that has a width lies inside its bundle or packet field. -/
structure Layout.Roomy (L : Layout) : Prop where
  ofField : ∀ f r, L.ofField f = some r → 0 < f.type.width.toInt → r.Inside
  ofLocal : ∀ l r, L.ofLocal l = some r → r.Inside

section

variable {S : Request → Prop} {a a' : Allocator} {r : Register}

theorem exists_yields_of_result? {α : Type} {x : Lowering α} {v : α} (h : result? x a = some v) :
    ∃ a', Yields x a v a' := by
  unfold result? at h
  rcases hrun : outcome x a with ⟨p | w, a'⟩
  · rw [hrun] at h
    cases h
  · rw [hrun] at h
    cases h
    exact ⟨a', hrun⟩

theorem Asks.ledger {α : Type} {x : Lowering α} {v : α} (hx : Asks S x) (ha : Ledger S a)
    (h : Yields x a v a') : Ledger S a' := by
  obtain ⟨qs, hqs, heq⟩ := hx a
  rw [h] at heq
  have heq' : a' = a.serve qs := heq
  exact heq' ▸ ha.serve hqs

theorem inside_of_reserved (ha : Ledger S a) {owner : Text} {f : Field}
    (h : reserved a owner f = .ok r) : r.Inside := by
  unfold reserved at h
  split at h
  · cases h
  · next s hs =>
    split at h
    · cases h
    · cases h
      exact ha.inside_of_lookup hs

/-- Inside a packet field the width of a part does not wrap around. -/
theorem toInt_width_note {s : SliceNote} (hlow : 0 ≤ s.low.toInt) (hle : s.low.toInt ≤ s.high.toInt)
    (hlt : s.high.toInt < s.size.toInt) :
    (s.high - s.low + 1).toInt = s.high.toInt - s.low.toInt + 1 := by
  have hbound := s.size.toInt_lt
  exact Word.toInt_sub_succ (by omega) (by omega)

theorem slicedField_eq_ok_iff {f : Field} {packet : Text} {s : SliceNote} :
    slicedField f packet s = .ok r ↔
      s.Fits f.type.width ∧ r = .ofField packet s.size s.low s.high := by
  unfold slicedField
  simp only [gt_iff_lt, ge_iff_le, Int64.lt_iff_toInt_lt, Int64.le_iff_toInt_le, Int64.toInt_zero]
  split
  · next hrange =>
    refine iff_of_false nofun fun ⟨⟨hlow, hle, hlt, _⟩, _⟩ => ?_
    omega
  · next hrange =>
    simp only [not_or, not_lt, not_le] at hrange
    obtain ⟨hlow, hle, hlt⟩ := hrange
    have hwidth := toInt_width_note hlow hle hlt
    split
    · next hne =>
      refine iff_of_false nofun fun h => hne ?_
      rw [← Int64.toInt_inj, hwidth, h.1.width_eq]
    · next hsame =>
      have hfits : s.Fits f.type.width := ⟨hlow, hle, hlt, by rw [← hwidth, not_not.mp hsame]⟩
      rw [Except.ok.injEq, and_iff_right hfits]
      exact eq_comm

theorem inside_of_packetField {f : Field} {packet : Text} (hpos : 0 < f.type.width.toInt)
    (h : packetField f packet = .ok r) : r.Inside := by
  unfold packetField at h
  split at h
  · cases h
    have hbound := f.type.width.toInt_lt
    refine ⟨Int.le_refl 0, ?_⟩
    show (f.type.width - 1).toInt < f.type.width.toInt
    rw [Word.toInt_pred (by omega)]
    omega
  · obtain ⟨hfits, rfl⟩ := slicedField_eq_ok_iff.mp h
    exact ⟨hfits.low_nonneg, hfits.high_lt_size⟩

theorem inside_of_fieldRegister (ha : Ledger (fun _ => True) a) {f : Field}
    (hpos : 0 < f.type.width.toInt) (h : Yields (fieldRegister f) a r a') : r.Inside := by
  have ha' : Ledger (fun _ => True) a' :=
    (asks_fieldRegister fun _ _ => trivial).ledger ha h
  unfold fieldRegister at h
  cases hbuiltin : f.builtin with
  | outputPort | multicastGroup =>
    simp only [hbuiltin, yields_bind, yields_get, yields_ofExcept] at h
    obtain ⟨s, b, ⟨rfl, rfl⟩, hr, rfl⟩ := h
    exact inside_of_reserved ha hr
  | none =>
    simp only [hbuiltin] at h
    cases hpacket : f.packet with
    | some packet =>
      simp only [hpacket, yields_ofExcept] at h
      exact inside_of_packetField hpos h.1
    | none =>
      simp only [hpacket] at h
      exact ha'.inside_of_lookup (yields_allocate h).2

/-- A register file that has served calls has room for all its storage. -/
theorem roomy_of_ledger (ha : Ledger (fun _ => True) a) : (Layout.of a).Roomy where
  ofField f r h hpos := by
    obtain ⟨a', hyields⟩ := exists_yields_of_result? h
    exact inside_of_fieldRegister ha hpos hyields
  ofLocal l r h := by
    obtain ⟨a', hyields⟩ := exists_yields_of_result? h
    have ha' : Ledger (fun _ => True) a' := (asks_localRegister trivial).ledger ha hyields
    exact ha'.inside_of_lookup (yields_allocate hyields).2

end

/-! ## Parts of storage -/

/-- The register of an expression lies inside its base and has the places of the expression, but for
those that a cast to its own width leaves out. -/
structure Lodged (L : Layout) (e : Expr) (r : Register) : Prop where
  inside : r.Inside
  places : L.places e = r.places L.target ∨
    L.places e = (r.places L.target).take e.type.width.toInt.toNat

section

variable {L : Layout} {e : Expr} {r s : Register}

/-- A register as wide as the expression has its places. -/
theorem Lodged.places_eq (h : Lodged L e r) (hr : r.Covers e.type.width) :
    L.places e = r.places L.target := by
  refine h.places.elim id fun hplaces => hplaces.trans (List.take_of_length_le ?_)
  rw [Register.length_places, hr.width_eq]

theorem Lodged.take_places (h : Lodged L e r) {n : Nat} (hn : n ≤ e.type.width.toInt.toNat) :
    (L.places e).take n = (r.places L.target).take n := by
  rcases h.places with hplaces | hplaces
  · rw [hplaces]
  · rw [hplaces, List.take_take, Nat.min_eq_left hn]

theorem Lodged.slice (h : Lodged L e r) {low high : Int64} (hs : r.slice low high = some s)
    (hend : 0 ≤ s.high.toInt) (hlow : 0 ≤ low.toInt) (hle : low.toInt ≤ high.toInt)
    (hlt : high.toInt < e.type.width.toInt) :
    s.Inside ∧ ((L.places e).drop low.toInt.toNat).take (high - low + 1).toInt.toNat =
      s.places L.target := by
  obtain ⟨hinside, hplaces⟩ := h.inside.slice hs hend L.target
  have hbound := e.type.width.toInt_lt
  have hcount : (high - low + 1).toInt = high.toInt - low.toInt + 1 :=
    Word.toInt_sub_succ (by omega) (by omega)
  refine ⟨hinside, ?_⟩
  rw [hplaces, List.take_drop, List.take_drop, h.take_places (by omega)]

end

theorem ValueOf.lodged {L : Layout} {e : Expr} {v : Flow.Expr} (h : ValueOf L [] e v)
    (hroomy : L.Roomy) : 0 < e.type.width.toInt →
      ∀ r, v.asRegister = some r → 0 ≤ r.high.toInt → Lodged L e r := by
  induction h with
  | @field f r hr =>
    intro hpos s hs _
    cases hs
    refine ⟨hroomy.ofField f r hr hpos, Or.inl ?_⟩
    rw [Layout.places, hr]
    rfl
  | @localVar l r hr =>
    intro hpos s hs _
    cases hs
    refine ⟨hroomy.ofLocal l r hr, Or.inl ?_⟩
    rw [Layout.places, hr]
    rfl
  | param hv => cases hv
  | literal | truth | cutConst | castConst => exact fun _ r hr => by cases hr
  | cut _ _ hlow hle hlt ih =>
    intro hpos s hs hend
    obtain ⟨r, hr, hs⟩ := Option.bind_eq_some_iff.mp hs
    have hlodged := ih (by omega) r hr (hend.trans (Register.high_le_of_slice hs))
    obtain ⟨hinside, hplaces⟩ := hlodged.slice hs hend hlow hle hlt
    exact ⟨hinside, Or.inl hplaces⟩
  | castSame _ _ hwidth ih =>
    intro hpos r hr hend
    have hlodged := ih (hwidth ▸ hpos) r hr hend
    exact ⟨hlodged.inside, Or.inr (hlodged.take_places (hwidth ▸ le_refl _))⟩
  | @castNarrow e v type _ _ _ hwider ih =>
    intro hpos s hs hend
    obtain ⟨r, hr, hs⟩ := Option.bind_eq_some_iff.mp hs
    rw [gt_iff_lt, Int64.lt_iff_toInt_lt] at hwider
    have hpos' : 0 < type.width.toInt := hpos
    have hlodged := ih (by omega) r hr (hend.trans (Register.high_le_of_slice hs))
    have hbound := type.width.toInt_lt
    have hlast : (type.width - 1).toInt = type.width.toInt - 1 := Word.toInt_pred (by omega)
    have hzero : (0 : Int64).toInt = 0 := rfl
    obtain ⟨hinside, hplaces⟩ := hlodged.slice hs hend (by omega) (by omega) (by omega)
    have hlength : type.width - 1 - 0 + 1 = type.width := by grind
    rw [hlength] at hplaces
    exact ⟨hinside, Or.inl hplaces⟩

/-- Whatever slices and casts take of storage lies inside its base, unless it ends before the start
of the base. -/
theorem ensures_value_lodged (e : Expr) :
    Ensures (value [] e) fun L v => L.Roomy → 0 < e.type.width.toInt →
      ∀ r, v.asRegister = some r → 0 ≤ r.high.toInt → Lodged L e r :=
  (ensures_valueOf [] e).mono fun _ _ hv => hv.lodged

end Flowline.Lower
