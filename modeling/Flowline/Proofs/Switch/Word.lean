import Mathlib.Algebra.Order.Ring.Int

/-!
# Machine words as integers

Arithmetic on machine words wraps around.  Where a result lies in the range of words it is that of
the integers; the lemmas here say so for the operations that the layout of the register file uses.
-/

namespace Flowline.Switch.Word

variable {a b : Int64}

theorem toInt_add (hl : -2 ^ 63 ≤ a.toInt + b.toInt) (hu : a.toInt + b.toInt < 2 ^ 63) :
    (a + b).toInt = a.toInt + b.toInt := by
  rw [Int64.toInt_add]
  exact Int.bmod_eq_of_le (by omega) (by omega)

theorem toInt_sub (hl : -2 ^ 63 ≤ a.toInt - b.toInt) (hu : a.toInt - b.toInt < 2 ^ 63) :
    (a - b).toInt = a.toInt - b.toInt := by
  rw [Int64.toInt_sub]
  exact Int.bmod_eq_of_le (by omega) (by omega)

theorem toInt_succ (h : a.toInt + 1 < 2 ^ 63) : (a + 1).toInt = a.toInt + 1 := by
  have ha := a.le_toInt
  have hone : (1 : Int64).toInt = 1 := rfl
  rw [toInt_add (by omega) (by omega), hone]

theorem toInt_pred (h : -2 ^ 63 ≤ a.toInt - 1) : (a - 1).toInt = a.toInt - 1 := by
  have ha := a.toInt_lt
  have hone : (1 : Int64).toInt = 1 := rfl
  rw [toInt_sub (by omega) (by omega), hone]

/-- The last of the places that are counted from one on. -/
theorem toInt_add_pred (hl : -2 ^ 63 < a.toInt + b.toInt) (hu : a.toInt + b.toInt < 2 ^ 63) :
    (a + b - 1).toInt = a.toInt + b.toInt - 1 := by
  have hsum : (a + b).toInt = a.toInt + b.toInt := toInt_add hl.le hu
  rw [toInt_pred (by omega), hsum]

/-- The number of places from one to another. -/
theorem toInt_sub_succ (hl : -2 ^ 63 ≤ a.toInt - b.toInt) (hu : a.toInt - b.toInt + 1 < 2 ^ 63) :
    (a - b + 1).toInt = a.toInt - b.toInt + 1 := by
  have hsub : (a - b).toInt = a.toInt - b.toInt := toInt_sub hl (by omega)
  rw [toInt_succ (by omega), hsub]

theorem toInt_mul (hl : -2 ^ 63 ≤ a.toInt * b.toInt) (hu : a.toInt * b.toInt < 2 ^ 63) :
    (a * b).toInt = a.toInt * b.toInt := by
  rw [Int64.toInt_mul]
  exact Int.bmod_eq_of_le (by omega) (by omega)

theorem toInt_ofNat {n : Nat} (h : (n : Int) < 2 ^ 63) : (Int64.ofNat n).toInt = n :=
  Int64.toInt_ofNat_of_lt (by omega)

/-- Counting on from a word, up to the largest. -/
theorem toInt_add_ofNat {n : Nat} (h : a.toInt + n < 2 ^ 63) :
    (a + Int64.ofNat n).toInt = a.toInt + n := by
  have ha := a.le_toInt
  have hsize : Int64.size = 2 ^ 64 := rfl
  rw [Int64.toInt_add, Int64.toInt_ofNat', hsize, Int.add_bmod_bmod]
  exact Int.bmod_eq_of_le (by omega) (by omega)

/-- Words are counted without repetition until they run out. -/
theorem eq_of_ofNat_eq {i j : Nat} (hi : i < 2 ^ 64) (hj : j < 2 ^ 64)
    (h : Int64.ofNat i = Int64.ofNat j) : i = j := by
  have hsize : Int64.size = 2 ^ 64 := rfl
  have hmod := congrArg (fun w : Int64 => w.toInt % (2 ^ 64 : Nat)) h
  rw [Int64.toInt_ofNat', Int64.toInt_ofNat', hsize, Int.bmod_emod, Int.bmod_emod] at hmod
  omega

theorem toInt_div (ha : 0 ≤ a.toInt) : (a / b).toInt = a.toInt / b.toInt := by
  have hne : a ≠ Int64.minValue := by
    rintro rfl
    exact absurd ha (by decide)
  rw [Int64.toInt_div_of_ne_left a b hne, Int.tdiv_eq_ediv_of_nonneg ha]

theorem toInt_mod (ha : 0 ≤ a.toInt) : (a % b).toInt = a.toInt % b.toInt := by
  rw [Int64.toInt_mod, Int.tmod_eq_emod_of_nonneg ha]

theorem shiftLeft_one (b : Int64) : b <<< 1 = b + b := by
  have h : (Int64.toBitVec 1).smod 64 = 1#64 := by decide
  rw [← Int64.toBitVec_inj, Int64.toBitVec_shiftLeft, Int64.toBitVec_add, h]
  apply BitVec.eq_of_toNat_eq
  have hone : (1#64).toNat = 1 := rfl
  rw [BitVec.shiftLeft_eq', BitVec.toNat_shiftLeft, BitVec.toNat_add, hone, Nat.shiftLeft_eq]
  omega

end Flowline.Switch.Word
