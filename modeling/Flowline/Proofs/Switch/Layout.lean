import Flowline.Proofs.Switch.Word
import Flowline.Proofs.Text.Numerals
import Flowline.Switch.Register
import Mathlib.Tactic.Positivity

/-!
# The layout of the register file

A register that lies in the register file (`Register.Lies`) is a range of bits of a bundle: as many
base registers as a power of two, from a multiple of it on.  Its places are computed on machine
words; they are those of the integers and lie in the register file (`bits_toInt`, `mem_bits`).

## Names

The switch knows a bundle by its name alone.  `readBase` reads a name, and `Target.placesNamed`
computes from it the places of a range of bits.  For a register that lies in the register file these
are its places (`placesNamed_baseName`), although a register counts base registers and its name
counts bundles.
-/

namespace Flowline.Switch

variable {t : Target} {r : Register}

/-! ## Usable register files -/

/-- A register file that can be laid out in words: base registers are whole bytes, bundles of every
size up to the largest divide it, and its bits can be numbered. -/
structure Target.Usable (t : Target) : Prop where
  registers_pos : 0 < t.registers.toInt
  byte_le_width : 8 ≤ t.registerWidth.toInt
  width_bytes : t.registerWidth.toInt % 8 = 0
  maxBundle_le : t.maxBundle.toInt ≤ t.registers.toInt
  bits_lt : t.registers.toInt * t.registerWidth.toInt < 2 ^ 63

/-- What is known of constants that pass the check. -/
structure Target.Checked (t : Target) : Prop where
  registers_pos : 0 < t.registers.toInt
  width_pos : 0 < t.registerWidth.toInt
  width_bytes : t.registerWidth.toInt % 8 = 0
  maxBundle_pos : 0 < t.maxBundle.toInt
  bundles_divide : t.registers.toInt % t.maxBundle.toInt = 0

theorem Target.checked_of_validate (h : t.validate = .ok ()) : t.Checked := by
  unfold validate at h
  split at h <;> try contradiction
  rename_i hregs
  split at h <;> try contradiction
  rename_i hwidth
  split at h <;> try contradiction
  rename_i hmax
  split at h <;> try contradiction
  rename_i hdiv
  simp only [not_or, Int64.not_le, Int64.lt_iff_toInt_lt, Int64.toInt_zero] at hregs hwidth hmax
  have hrem : t.registers.toInt % t.maxBundle.toInt = 0 := by
    rw [← Word.toInt_mod hregs.le, not_ne_iff.1 hdiv, Int64.toInt_zero]
  have hbytes : t.registerWidth.toInt % 8 = 0 := by
    have height : (8 : Int64).toInt = 8 := rfl
    rw [← height, ← Word.toInt_mod hwidth.1.le, not_ne_iff.1 hwidth.2, Int64.toInt_zero]
  exact ⟨hregs, hwidth.1, hbytes, hmax.1, hrem⟩

/-- The constants that pass the check describe a usable register file. -/
theorem Target.usable_of_validate (h : t.validate = .ok ())
    (hbits : t.registers.toInt * t.registerWidth.toInt < 2 ^ 63) : t.Usable := by
  have hc := checked_of_validate h
  have hwidth := hc.width_pos
  have hbytes := hc.width_bytes
  exact ⟨hc.registers_pos, by omega, hbytes,
    Int.le_of_dvd hc.registers_pos (Int.dvd_of_emod_eq_zero hc.bundles_divide), hbits⟩

namespace Target.Usable

theorem width_pos (ht : t.Usable) : 0 < t.registerWidth.toInt := by
  have := ht.byte_le_width
  omega

/-- A range of base registers has no more bits than the register file. -/
theorem mul_width_le (ht : t.Usable) {n : Int} (hn : n ≤ t.registers.toInt) :
    n * t.registerWidth.toInt ≤ t.registers.toInt * t.registerWidth.toInt :=
  Int.mul_le_mul_of_nonneg_right hn ht.width_pos.le

/-- As a base register has a byte at least, the number of base registers can be doubled. -/
theorem registers_lt (ht : t.Usable) : t.registers.toInt < 2 ^ 60 := by
  have hbyte : t.registers.toInt * 8 ≤ t.registers.toInt * t.registerWidth.toInt :=
    Int.mul_le_mul_of_nonneg_left ht.byte_le_width ht.registers_pos.le
  have hlt := ht.bits_lt
  omega

theorem totalBits_toInt (ht : t.Usable) :
    t.totalBits.toInt = t.registers.toInt * t.registerWidth.toInt := by
  have hpos := Int.mul_pos ht.registers_pos ht.width_pos
  exact Word.toInt_mul (by omega) ht.bits_lt

theorem mul_toInt (ht : t.Usable) {b : Int64} (hb : 0 ≤ b.toInt)
    (hle : b.toInt ≤ t.registers.toInt) :
    (b * t.registerWidth).toInt = b.toInt * t.registerWidth.toInt := by
  have hpos := Int.mul_nonneg hb ht.width_pos.le
  have hmax := ht.mul_width_le hle
  have hlt := ht.bits_lt
  exact Word.toInt_mul (by omega) (by omega)

end Target.Usable

/-! ## Places -/

/-- The place of bit `k` of the bundle of `count` base registers from `first` on, in a register file
whose base registers have `width` bits. -/
def placeOf (width first count k : Int) : Int := (first + count - 1 - k / width) * width + k % width

/-- The bits of a bundle lie between its first and its last base register. -/
theorem placeOf_bounds (first : Int) {width count k : Int} (hw : 0 < width) (hk : 0 ≤ k)
    (hlt : k < count * width) :
    first * width ≤ placeOf width first count k ∧
      placeOf width first count k < (first + count) * width := by
  have hq : 0 ≤ k / width := Int.ediv_nonneg hk hw.le
  have hq' : k / width < count := Int.ediv_lt_of_lt_mul hw hlt
  have hr : 0 ≤ k % width := Int.emod_nonneg k hw.ne'
  have hr' : k % width < width := Int.emod_lt_of_pos k hw
  have hlow : first * width ≤ (first + count - 1 - k / width) * width :=
    Int.mul_le_mul_of_nonneg_right (by omega) hw.le
  have hhigh : (first + count - 1 - k / width + 1) * width ≤ (first + count) * width :=
    Int.mul_le_mul_of_nonneg_right (by omega) hw.le
  rw [Int.add_mul, Int.one_mul] at hhigh
  unfold placeOf
  omega

/-- Computed on words, the place of a bit of a bundle is that of the integers. -/
theorem Target.Usable.bit_toInt (ht : t.Usable) {first bundle k : Int64} (hfirst : 0 ≤ first.toInt)
    (hbundle : 0 ≤ bundle.toInt) (hfit : first.toInt + bundle.toInt ≤ t.registers.toInt)
    (hk : 0 ≤ k.toInt) (hlt : k.toInt < bundle.toInt * t.registerWidth.toInt) :
    (t.bit first bundle k).toInt =
      placeOf t.registerWidth.toInt first.toInt bundle.toInt k.toInt := by
  have hregs := t.registers.toInt_lt
  have hbounds := placeOf_bounds first.toInt ht.width_pos hk hlt
  have hnonneg := Int.mul_nonneg hfirst ht.width_pos.le
  have hmax := ht.mul_width_le hfit
  have hbits := ht.bits_lt
  have hdiv : (k / t.registerWidth).toInt = k.toInt / t.registerWidth.toInt := Word.toInt_div hk
  have hmod : (k % t.registerWidth).toInt = k.toInt % t.registerWidth.toInt := Word.toInt_mod hk
  have hq : 0 ≤ k.toInt / t.registerWidth.toInt := Int.ediv_nonneg hk ht.width_pos.le
  have hq' : k.toInt / t.registerWidth.toInt < bundle.toInt :=
    Int.ediv_lt_of_lt_mul ht.width_pos hlt
  have hr := Int.emod_nonneg k.toInt ht.width_pos.ne'
  have hlast : (first + bundle - 1).toInt = first.toInt + bundle.toInt - 1 :=
    Word.toInt_add_pred (by omega) (by omega)
  have hbase : (first + bundle - 1 - k / t.registerWidth).toInt =
      first.toInt + bundle.toInt - 1 - k.toInt / t.registerWidth.toInt := by
    rw [Word.toInt_sub (by omega) (by omega), hlast, hdiv]
  have hrow : 0 ≤ (first.toInt + bundle.toInt - 1 - k.toInt / t.registerWidth.toInt) *
      t.registerWidth.toInt := Int.mul_nonneg (by omega) ht.width_pos.le
  unfold placeOf at hbounds ⊢
  have hprod : ((first + bundle - 1 - k / t.registerWidth) * t.registerWidth).toInt =
      (first.toInt + bundle.toInt - 1 - k.toInt / t.registerWidth.toInt) *
        t.registerWidth.toInt := by
    rw [Word.toInt_mul (by rw [hbase]; omega) (by rw [hbase]; omega), hbase]
  unfold Target.bit
  rw [Word.toInt_add (by omega) (by omega), hprod, hmod]

/-! ## Registers in the register file -/

/-- A register that is a range of bits of a bundle of the register file. -/
structure Register.Lies (t : Target) (r : Register) : Prop where
  field_eq : r.field = none
  bundle_eq : ∃ c i : Nat, r.bundle.toInt = 2 ^ c ∧ r.number.toInt = i * 2 ^ c
  fits : r.number.toInt + r.bundle.toInt ≤ t.registers.toInt
  size_eq : r.size.toInt = r.bundle.toInt * t.registerWidth.toInt
  low_nonneg : 0 ≤ r.low.toInt
  low_le_high : r.low.toInt ≤ r.high.toInt
  high_lt_size : r.high.toInt < r.size.toInt

namespace Register.Lies

theorem number_nonneg (hr : r.Lies t) : 0 ≤ r.number.toInt := by
  obtain ⟨c, i, -, hi⟩ := hr.bundle_eq
  rw [hi]
  exact Int.mul_nonneg (Int.natCast_nonneg i) (by positivity)

theorem bundle_nonneg (hr : r.Lies t) : 0 ≤ r.bundle.toInt := by
  obtain ⟨c, i, hc, -⟩ := hr.bundle_eq
  rw [hc]
  positivity

theorem width_toInt (hr : r.Lies t) : r.width.toInt = r.high.toInt - r.low.toInt + 1 := by
  have hlow := hr.low_nonneg
  have hle := hr.low_le_high
  have hlt := hr.high_lt_size
  have hsize := r.size.toInt_lt
  exact Word.toInt_sub_succ (by omega) (by omega)

/-- The places of a register are those of its bits in the integers. -/
theorem bits_toInt (ht : t.Usable) (hr : r.Lies t) :
    (t.bits r).map Int64.toInt =
      (List.range (r.high.toInt - r.low.toInt + 1).toNat).map fun i : Nat =>
        placeOf t.registerWidth.toInt r.number.toInt r.bundle.toInt (r.low.toInt + i) := by
  have hlow := hr.low_nonneg
  have hlt := hr.high_lt_size
  have hsize := r.size.toInt_lt
  unfold Target.bits
  simp only [hr.field_eq, List.map_map, hr.width_toInt]
  refine List.map_congr_left fun i hi => ?_
  have hi' : (i : Int) < r.high.toInt - r.low.toInt + 1 := by
    rw [List.mem_range] at hi
    omega
  have hk : (r.low + Int64.ofNat i).toInt = r.low.toInt + i := Word.toInt_add_ofNat (by omega)
  have hsize_eq := hr.size_eq
  rw [Function.comp_apply, ht.bit_toInt hr.number_nonneg hr.bundle_nonneg hr.fits (by omega)
    (by omega), hk]

theorem mem_bits (ht : t.Usable) (hr : r.Lies t) {p : Int64} (hp : p ∈ t.bits r) :
    0 ≤ p ∧ p < t.totalBits := by
  have hmem : p.toInt ∈ (t.bits r).map Int64.toInt := List.mem_map_of_mem hp
  rw [hr.bits_toInt ht, List.mem_map] at hmem
  obtain ⟨i, hi, hplace⟩ := hmem
  rw [List.mem_range] at hi
  have hlow := hr.low_nonneg
  have hlt := hr.high_lt_size
  have hsize := hr.size_eq
  have hk : r.low.toInt + i < r.bundle.toInt * t.registerWidth.toInt := by omega
  have hbounds := placeOf_bounds r.number.toInt ht.width_pos (by omega) hk
  have hfirst := Int.mul_nonneg hr.number_nonneg ht.width_pos.le
  have hlast := ht.mul_width_le hr.fits
  rw [Int64.le_iff_toInt_le, Int64.lt_iff_toInt_lt, ht.totalBits_toInt, Int64.toInt_zero]
  omega

end Register.Lies

/-! ## Names -/

/-- The bundle of a name: how many letters `x` stand in front, and the number at the end. -/
def readBase : List Char → Option (Nat × Nat)
  | 'x' :: cs => (readBase cs).map fun (c, n) => (c + 1, n)
  | 'r' :: 'e' :: 'g' :: cs => (Numeral.natural? 10 cs).map fun n => (0, n)
  | _ => none

/-- The places of the bits `low` to `high` of the bundle of a name. -/
def Target.placesNamed (t : Target) (name : Text) (low high : Int) : Option (List Int) :=
  (readBase name.toList).map fun (c, n) =>
    (List.range (high - low + 1).toNat).map fun i : Nat =>
      placeOf t.registerWidth.toInt (n * 2 ^ c) (2 ^ c) (low + i)

theorem readBase_replicate (c : Nat) (n : Nat) :
    readBase (List.replicate c 'x' ++ "reg".toList ++ Nat.toDigits 10 n) = some (c, n) := by
  induction c with
  | zero =>
    show (Numeral.natural? 10 (Nat.toDigits 10 n)).map _ = _
    rw [Numeral.natural?_toDigits (by decide) (by decide), Option.map_some]
  | succ c ih =>
    show (readBase (List.replicate c 'x' ++ "reg".toList ++ Nat.toDigits 10 n)).map _ = _
    rw [ih, Option.map_some]

/-- The number of base registers of a bundle is read off its halvings. -/
theorem Register.halvings_eq {c : Nat} (hc : r.bundle.toInt = 2 ^ c) : r.halvings = c := by
  have hnat : r.bundle.toInt.toNat = 2 ^ c := by
    rw [hc]
    exact Int.toNat_natCast (2 ^ c)
  unfold Register.halvings
  split
  · rw [hnat, Nat.log2_two_pow]
  · next hle =>
    rw [Int64.not_lt, Int64.le_iff_toInt_le, hc] at hle
    have hone : (2 : Int) ^ c ≤ 2 ^ 0 := hle
    have := (pow_le_pow_iff_right₀ (by omega)).1 hone
    omega

/-- The name of a bundle says which base registers it has. -/
theorem Register.Lies.readBase_baseName (hr : r.Lies t) {c i : Nat} (hc : r.bundle.toInt = 2 ^ c)
    (hi : r.number.toInt = i * 2 ^ c) : readBase r.baseName.toList = some (c, i) := by
  have hdiv : r.number.toInt.tdiv (1 <<< c : Nat) = i := by
    rw [hi, Nat.one_shiftLeft, Nat.cast_pow, Nat.cast_ofNat]
    exact Int.mul_tdiv_cancel _ (by positivity)
  unfold Register.baseName
  rw [hr.field_eq, Register.halvings_eq hc, hdiv]
  have hdigits : (Numeral.decimal i).toList = Nat.toDigits 10 i := Nat.toList_repr
  show readBase (_ ++ _ ++ Numeral.decimal i).toList = _
  rw [String.toList_append, String.toList_append, String.toList_ofList, hdigits]
  exact readBase_replicate c i

/-- The places that the switch computes from the name of a register are its places. -/
theorem Register.Lies.placesNamed_baseName (ht : t.Usable) (hr : r.Lies t) :
    t.placesNamed r.baseName r.low.toInt r.high.toInt = some ((t.bits r).map Int64.toInt) := by
  obtain ⟨c, i, hc, hi⟩ := hr.bundle_eq
  rw [hr.bits_toInt ht, Target.placesNamed, hr.readBase_baseName hc hi, Option.map_some, hc, hi]

end Flowline.Switch
