import Flowline.Proofs.Flow.Folding

/-!
# Parts inside their register

A slice is checked against the register that it is cut from, with sums of machine words.  Where no
sum wraps around, the parts of a part stay inside the register that they begin with.  A sum that
wraps is negative, so that the check lets it pass, and the part then ends before it begins.

* `Expr.ends`: the bits that the slices of a value ask for last, counted in the base on integers.
* `Expr.within_of_endsFit`, `Expr.high_neg_of_not_endsFit`: the two kinds of nested slices.
-/

namespace Flowline.Switch

/-- The bits of a register are among those of another one, and there are some. -/
structure Register.Within (r b : Register) : Prop where
  low_le : b.low ≤ r.low
  low_le_high : r.low ≤ r.high
  high_le : r.high ≤ b.high

/-- A sum of two words that are not negative, beyond the largest word, is negative. -/
theorem Word.toInt_add_neg {a b : Int64} (hover : 2 ^ 63 ≤ a.toInt + b.toInt) :
    (a + b).toInt < 0 := by
  have ha := a.toInt_lt
  have hb := b.toInt_lt
  rw [Int64.toInt_add, Int.bmod_def]
  split <;> omega

namespace Register

variable {q s : Register} {low high : Int64}

theorem eq_of_slice (h : q.slice low high = some s) :
    0 ≤ low.toInt ∧ low.toInt ≤ high.toInt ∧ s.low = q.low + low ∧ s.high = q.low + high ∧
      s.high.toInt ≤ q.high.toInt := by
  unfold slice at h
  split at h
  · cases h
  · next hfits =>
    cases h
    rw [not_or, not_or] at hfits
    obtain ⟨hlow, hle, hhigh⟩ := hfits
    refine ⟨?_, ?_, rfl, rfl, ?_⟩
    · exact Int.not_lt.mp fun h => hlow (Int64.lt_iff_toInt_lt.mpr h)
    · exact Int.not_lt.mp fun h => hle (Int64.lt_iff_toInt_lt.mpr h)
    · exact Int.not_lt.mp fun h => hhigh (Int64.lt_iff_toInt_lt.mpr h)

/-- A slice whose end is a word is inside. -/
theorem within_of_slice (hq : 0 ≤ q.low.toInt) (h : q.slice low high = some s)
    (hend : q.low.toInt + high.toInt < 2 ^ 63) :
    s.Within q ∧ s.low.toInt = q.low.toInt + low.toInt := by
  obtain ⟨hlow, hle, hslow, hshigh, hhigh⟩ := eq_of_slice h
  have hlow' : s.low.toInt = q.low.toInt + low.toInt := by
    rw [hslow]
    exact Word.toInt_add (by omega) (by omega)
  have hhigh' : s.high.toInt = q.low.toInt + high.toInt := by
    rw [hshigh]
    exact Word.toInt_add (by omega) (by omega)
  refine ⟨⟨?_, ?_, ?_⟩, hlow'⟩
  · exact Int64.le_iff_toInt_le.mpr (by omega)
  · exact Int64.le_iff_toInt_le.mpr (by omega)
  · exact Int64.le_iff_toInt_le.mpr hhigh

/-- A slice whose end is beyond the words ends below zero. -/
theorem high_neg_of_slice (h : q.slice low high = some s)
    (hend : 2 ^ 63 ≤ q.low.toInt + high.toInt) : s.high.toInt < 0 := by
  obtain ⟨-, -, -, hshigh, -⟩ := eq_of_slice h
  rw [hshigh]
  exact Word.toInt_add_neg hend

theorem Within.trans {r b : Register} (hs : s.Within r) (hr : r.Within b) : s.Within b :=
  ⟨Int64.le_trans hr.low_le hs.low_le, hs.low_le_high, Int64.le_trans hs.high_le hr.high_le⟩

end Register

end Flowline.Switch

namespace Flowline.Flow

open Switch

namespace Expr

/-- The distance from the start of the base to the start of a nested value. -/
def offset (e : Expr) : Int := (e.slices.map fun q => q.1.toInt).sum

/-- The bits that the slices of a value ask for last, the outermost first, where the base begins at
`start`. -/
def ends (start : Int) : Expr → List Int
  | slice e _ high => (start + e.offset + high.toInt) :: e.ends start
  | _ => []

/-- The ends of the slices are machine words. -/
def EndsFit (start : Int) (e : Expr) : Prop := ∀ n ∈ e.ends start, n < 2 ^ 63

variable {b r : Register}

theorem endsFit_slice {start : Int} {e : Expr} {low high : Int64} :
    (slice e low high).EndsFit start ↔
      start + e.offset + high.toInt < 2 ^ 63 ∧ e.EndsFit start :=
  List.forall_mem_cons

/-- Slices whose ends are words are inside the base, at the distance that they say. -/
theorem within_of_endsFit (hlow : 0 ≤ b.low) (hrange : b.low ≤ b.high) {e : Expr}
    (hbase : e.base = .reg b) (h : e.asRegister = some r) (hends : e.EndsFit b.low.toInt) :
    r.Within b ∧ r.low.toInt = b.low.toInt + e.offset := by
  induction e generalizing r with
  | reg r' =>
    cases hbase
    cases h
    exact ⟨⟨Int64.le_refl _, hrange, Int64.le_refl _⟩, (Int.add_zero _).symm⟩
  | const | var => cases h
  | slice e low high ih =>
    obtain ⟨q, hq, hslice⟩ := Option.bind_eq_some_iff.mp h
    obtain ⟨hend, hinner⟩ := endsFit_slice.mp hends
    obtain ⟨hwithin, hstart⟩ := ih hbase hq hinner
    have hnonneg : 0 ≤ q.low.toInt :=
      (Int64.le_iff_toInt_le.mp hlow).trans (Int64.le_iff_toInt_le.mp hwithin.low_le)
    rw [← hstart] at hend
    obtain ⟨hs, hslow⟩ := Register.within_of_slice hnonneg hslice hend
    refine ⟨hs.trans hwithin, ?_⟩
    have hoffset : (slice e low high).offset = low.toInt + e.offset := rfl
    omega

/-- Of other nested slices the last bit is below zero: one sum wraps around, and the slices around it
end no later. -/
theorem high_neg_of_not_endsFit (hlow : 0 ≤ b.low) (hrange : b.low ≤ b.high) {e : Expr}
    (hbase : e.base = .reg b) (h : e.asRegister = some r) (hends : ¬e.EndsFit b.low.toInt) :
    r.high.toInt < 0 := by
  induction e generalizing r with
  | reg r' => exact absurd (List.forall_mem_nil _) hends
  | const | var => cases h
  | slice e low high ih =>
    obtain ⟨q, hq, hslice⟩ := Option.bind_eq_some_iff.mp h
    by_cases hinner : e.EndsFit b.low.toInt
    · obtain ⟨-, hstart⟩ := within_of_endsFit (e := e) hlow hrange hbase hq hinner
      refine Register.high_neg_of_slice hslice ?_
      rw [hstart]
      exact Int.not_lt.mp fun hend => hends (endsFit_slice.mpr ⟨hend, hinner⟩)
    · have hneg := ih hbase hq hinner
      obtain ⟨-, -, -, -, hle⟩ := Register.eq_of_slice hslice
      exact Int.lt_of_le_of_lt hle hneg

/-- A slice never ends behind the end of the base. -/
theorem high_le_of_asRegister {e : Expr} (hbase : e.base = .reg b) (h : e.asRegister = some r) :
    r.high ≤ b.high := by
  induction e generalizing r with
  | reg r' =>
    cases hbase
    cases h
    exact Int64.le_refl _
  | const | var => cases h
  | slice e low high ih =>
    obtain ⟨q, hq, hslice⟩ := Option.bind_eq_some_iff.mp h
    obtain ⟨-, -, -, -, hle⟩ := Register.eq_of_slice hslice
    exact Int64.le_trans (Int64.le_iff_toInt_le.mpr hle) (ih hbase hq)

end Expr

/-- **Slices stay inside their register unless a bound wraps around.**  A register that nested slices
cut out of one with proper bounds never ends behind it; its bits are among those of the base if and
only if each slice ends at a bit whose number, counted in the base, is a machine word. -/
theorem slices_within_iff {b r : Register} (hlow : 0 ≤ b.low) (hrange : b.low ≤ b.high) {e : Expr}
    (hbase : e.base = .reg b) (h : e.asRegister = some r) :
    r.high ≤ b.high ∧ (r.Within b ↔ e.EndsFit b.low.toInt) := by
  refine ⟨Expr.high_le_of_asRegister hbase h, fun hwithin => ?_, fun hends => ?_⟩
  · by_contra hends
    have hneg := Expr.high_neg_of_not_endsFit hlow hrange hbase h hends
    have hle := Int64.le_iff_toInt_le.mp
      (Int64.le_trans hlow (Int64.le_trans hwithin.low_le hwithin.low_le_high))
    exact absurd hneg (Int.not_lt.mpr hle)
  · exact (Expr.within_of_endsFit hlow hrange hbase h hends).1

/-- The second byte of a base register. -/
def secondByte : Register := { number := 0, bundle := 1, size := 32, low := 8, high := 15 }

/-- A bit of the upper half of the byte. -/
def upperBit : Expr := .slice (.slice (.reg secondByte) 4 7) 1 1

/-- The bit is inside the byte. -/
theorem slices_within_iff_upperBit :
    ∃ r, upperBit.asRegister = some r ∧ r.low = 13 ∧ r.high = 13 ∧ r.Within secondByte := by
  have hends : upperBit.EndsFit secondByte.low.toInt :=
    Expr.endsFit_slice.mpr ⟨by decide, Expr.endsFit_slice.mpr ⟨by decide, List.forall_mem_nil _⟩⟩
  refine ⟨_, rfl, rfl, rfl, ?_⟩
  exact (slices_within_iff (e := upperBit) (by decide) (by decide) rfl rfl).2.mpr hends

/-- All bits from the first to the largest word are granted, although the byte has eight. -/
theorem slice_outside_secondByte :
    0 ≤ secondByte.low ∧ secondByte.low ≤ secondByte.high ∧ secondByte.high < secondByte.size ∧
      ∃ r, (Expr.slice (.reg secondByte) 0 9223372036854775807).asRegister = some r ∧
        r.low = 8 ∧ r.high = -9223372036854775801 ∧ ¬r.Within secondByte := by
  refine ⟨by decide, by decide, by decide, _, rfl, rfl, rfl, fun h => ?_⟩
  exact absurd h.low_le_high (by decide)

end Flowline.Flow
