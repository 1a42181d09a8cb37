import Flowline.Proofs.Flow.Comparing
import Mathlib.Data.List.DropRight

/-!
# Masks and ranges of bits

The mask of a register has the bits from its lowest to its highest place (`mask_eq_bitRange`), and
`maskRange` finds the two places again.  It finds a range for no other number, so masks and ranges
determine each other (`maskRange_eq_iff`).

In the text of a match the mask of the last comparison stands behind the last slash (`lastMask?`).
-/

namespace Flowline.Flow

open Switch

/-- The number whose bits are those from `low` to `high`. -/
def bitRange (low high : Nat) : Nat := 2 ^ (high + 1) - 2 ^ low

theorem testBit_bitRange (low high i : Nat) :
    (bitRange low high).testBit i = decide (low ≤ i ∧ i ≤ high) := by
  rcases Nat.le_total low (high + 1) with hle | hgt
  · obtain ⟨k, hk⟩ := Nat.exists_eq_add_of_le hle
    have hshift : bitRange low high = (2 ^ k - 1) <<< low := by
      rw [bitRange, hk, Nat.shiftLeft_eq, Nat.sub_mul, Nat.one_mul, Nat.pow_add, Nat.mul_comm]
    rw [hshift, Nat.testBit_shiftLeft, Nat.testBit_two_pow_sub_one, ← Bool.decide_and]
    exact decide_eq_decide.mpr (by omega)
  · have hzero : bitRange low high = 0 :=
      Nat.sub_eq_zero_of_le (Nat.pow_le_pow_right (by omega) hgt)
    rw [hzero, Nat.zero_testBit]
    exact (decide_eq_false (by omega)).symm

/-- Two runs of low bits differ in the bits between their ends. -/
theorem xor_lowBits_eq_bitRange {low high : Nat} (h : low ≤ high + 1) :
    (1 <<< (high + 1) - 1) ^^^ (1 <<< low - 1) = bitRange low high := by
  refine Nat.eq_of_testBit_eq fun i => ?_
  rw [Nat.testBit_xor, Nat.one_shiftLeft, Nat.one_shiftLeft, Nat.testBit_two_pow_sub_one,
    Nat.testBit_two_pow_sub_one, testBit_bitRange]
  rcases Nat.lt_or_ge i low with hi | hi
  · rw [decide_eq_true (lt_of_lt_of_le hi h), decide_eq_true hi, decide_eq_false (by omega)]
    rfl
  · rw [decide_eq_false (not_lt.mpr hi), Bool.xor_false]
    exact decide_eq_decide.mpr (by omega)

theorem bitRange_pos {low high : Nat} (h : low ≤ high) : 0 < bitRange low high :=
  Nat.sub_pos_of_lt (Nat.pow_lt_pow_right (by omega) (by omega))

theorem log2_bitRange {low high : Nat} (h : low ≤ high) : (bitRange low high).log2 = high := by
  have hpow : 2 ^ low ≤ 2 ^ high := Nat.pow_le_pow_right (by omega) h
  have hlow : 0 < 2 ^ low := Nat.two_pow_pos low
  have hsucc : 2 ^ (high + 1) = 2 ^ high * 2 := Nat.pow_succ 2 high
  refine (Nat.log2_eq_iff (bitRange_pos h).ne').mpr ?_
  unfold bitRange
  omega

/-! ## Finding the range of a mask -/

/-- The lowest bit of a number stands behind its trailing zeros. -/
theorem lowest_trailingZeros {n m : Nat} (hpos : 0 < m) (hlt : m < 2 ^ n) :
    m.testBit (trailingZeros n m) = true ∧ ∀ i < trailingZeros n m, m.testBit i = false := by
  induction n generalizing m with
  | zero => omega
  | succ n ih =>
    rw [trailingZeros]
    split
    · next hodd =>
      exact ⟨Nat.testBit_zero m ▸ decide_eq_true hodd, fun i hi => absurd hi (Nat.not_lt_zero i)⟩
    · next heven =>
      have hhalf : 0 < m / 2 ∧ m / 2 < 2 ^ n := by omega
      obtain ⟨hbit, hbelow⟩ := ih hhalf.1 hhalf.2
      refine ⟨by rwa [Nat.testBit_succ], fun i hi => ?_⟩
      cases i with
      | zero => rw [Nat.testBit_zero, decide_eq_false heven]
      | succ i => rw [Nat.testBit_succ, hbelow i (by omega)]

theorem trailingZeros_bitRange {n low high : Nat} (h : low ≤ high)
    (hlt : bitRange low high < 2 ^ n) : trailingZeros n (bitRange low high) = low := by
  obtain ⟨hbit, hbelow⟩ := lowest_trailingZeros (bitRange_pos h) hlt
  rw [testBit_bitRange, decide_eq_true_iff] at hbit
  refine le_antisymm (not_lt.mp fun hlow => ?_) hbit.1
  -- otherwise the lowest bit of the range would be one of the zeros
  have hzero := hbelow low hlow
  rw [testBit_bitRange, decide_eq_false_iff_not] at hzero
  exact hzero ⟨le_refl low, h⟩

/-- A range is found exactly for the numbers that have the bits of a range. -/
theorem maskRange_eq_iff (m : Int) (low high : Nat) :
    maskRange m = (low, high, true) ↔ low ≤ high ∧ m = bitRange low high := by
  unfold maskRange
  split
  · next hneg =>
    refine iff_of_false (by simp) fun ⟨hle, heq⟩ => ?_
    have hpos := bitRange_pos hle
    omega
  · next hpos =>
    have hsize : m.toNat < 2 ^ (m.toNat.log2 + 1) := Nat.lt_log2_self
    simp only [Prod.mk.injEq, beq_iff_eq]
    constructor
    · rintro ⟨rfl, rfl, hmask⟩
      have hbit := (lowest_trailingZeros (by omega) hsize).1
      have hle : trailingZeros (m.toNat.log2 + 1) m.toNat ≤ m.toNat.log2 :=
        (Nat.le_log2 (by omega)).mpr (Nat.ge_two_pow_of_testBit hbit)
      refine ⟨hle, ?_⟩
      rw [← xor_lowBits_eq_bitRange (Nat.le_succ_of_le hle), hmask, Int.toNat_of_nonneg (by omega)]
    · rintro ⟨hle, rfl⟩
      rw [Int.toNat_natCast] at hsize ⊢
      rw [trailingZeros_bitRange hle hsize, log2_bitRange hle]
      exact ⟨rfl, rfl, xor_lowBits_eq_bitRange (Nat.le_succ_of_le hle)⟩

/-! ## The masks of registers -/

section

variable {r : Register}

/-- Behind every place but the last of all words there is a next one. -/
theorem toInt_succ_high (h : r.high ≠ Int64.maxValue) : (r.high + 1).toInt = r.high.toInt + 1 := by
  have hmost : Int64.maxValue.toInt = 2 ^ 63 - 1 := rfl
  have hne : r.high.toInt ≠ Int64.maxValue.toInt := fun heq => h (Int64.toInt_inj.mp heq)
  have hleast := r.high.le_toInt
  have hbelow := r.high.toInt_lt
  rw [Word.toInt_succ (by omega)]

theorem mask_eq_bitRange (hlow : 0 ≤ r.low) (hle : r.low ≤ r.high)
    (hmost : r.high ≠ Int64.maxValue) :
    r.mask = bitRange r.low.toInt.toNat r.high.toInt.toNat := by
  rw [Int64.le_iff_toInt_le] at hlow hle
  have hnext : (r.high + 1).toInt.toNat = r.high.toInt.toNat + 1 := by
    rw [toInt_succ_high hmost]
    rw [Int64.toInt_zero] at hlow
    omega
  rw [Register.mask, lowBits, lowBits, hnext]
  exact xor_lowBits_eq_bitRange (by omega)

/-- The mask can be formed unless the register reaches too far. -/
theorem hasMask_iff {l : Limits} (hlow : 0 ≤ r.low) (hle : r.low ≤ r.high) :
    r.hasMask l = true ↔ r.high < l.shift := by
  simp only [Register.hasMask, Bool.and_eq_true, Limits.canShift_iff, Int64.le_iff_toInt_le,
    Int64.lt_iff_toInt_lt, Int64.toInt_zero] at hlow hle ⊢
  by_cases hmost : r.high = Int64.maxValue
  · have hbound := l.shift.toInt_lt
    have hmax : Int64.maxValue.toInt = 2 ^ 63 - 1 := rfl
    rw [hmost]
    exact iff_of_false (fun h => absurd h.1.1 (by decide)) (by omega)
  · rw [toInt_succ_high hmost]
    omega

theorem maskRange_mask (hlow : 0 ≤ r.low) (hle : r.low ≤ r.high)
    (hmost : r.high ≠ Int64.maxValue) :
    maskRange r.mask = (r.low.toInt.toNat, r.high.toInt.toNat, true) := by
  refine (maskRange_eq_iff _ _ _).mpr ⟨?_, congrArg Nat.cast (mask_eq_bitRange hlow hle hmost)⟩
  rw [Int64.le_iff_toInt_le] at hle
  omega

end

/-! ## Masks in texts -/

/-- The number behind the last slash of a text. -/
def lastMask? (t : Text) : Option Nat := number? (t.toList.rtakeWhile (· != '/'))

theorem slash_not_mem_hex (n : Nat) : '/' ∉ (Numeral.hex n).toList := by
  rw [Numeral.toList_hex]
  exact Numeral.notMem_toDigits (by decide) (by decide) (by decide)

theorem lastMask?_hex (t : Text) (n : Nat) :
    lastMask? (t ++ ("/0x" ++ Numeral.hex n)) = some n := by
  have hlist : (t ++ ("/0x" ++ Numeral.hex n)).toList =
      (t.toList ++ ['/']) ++ ("0x" ++ Numeral.hex n).toList := by
    simp [String.toList_append]
  have hne : ∀ c ∈ ("0x" ++ Numeral.hex n).toList, (c != '/') = true := by
    intro c hc
    rw [bne_iff_ne]
    rintro rfl
    rw [String.toList_append, List.mem_append] at hc
    exact hc.elim (by decide) (slash_not_mem_hex n)
  rw [lastMask?, hlist, List.rtakeWhile, List.reverse_append,
    List.takeWhile_append_of_pos fun c hc => hne c (List.mem_reverse.mp hc), List.reverse_append,
    List.reverse_reverse, List.reverse_append]
  exact number?_hex n

end Flowline.Flow
