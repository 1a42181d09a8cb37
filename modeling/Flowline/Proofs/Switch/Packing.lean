import Flowline.Proofs.Switch.FirstFit
import Mathlib.Data.Int.LeastGreatest

/-!
# Narrower values fit where wider ones do

On a switch with bundles of at most four base registers, a register file that has room for a value
has room for every narrower one.  A narrower value may go to a smaller bundle, so a vacant range for
the wider one does not contain a range for it by itself: half of a bundle is no bundle at every
offset.  It follows from the shape that first fit gives to the taken places (`Allocator.Packed`).

* The taken bytes of a base register are its first ones.  A range starts at the first offset that
  will do, so the byte in front of it is taken or belongs to another base register.
* If the last base register of a bundle of four has a taken place, then so has the one in front of
  it.  A value alone in its base register would have gone to the earlier one, and a wider value that
  starts in the last base register goes on in the one in front of it, as bundles are filled from
  their end.

A vacant range of more than half of a bundle covers the middle of the bundle, where a base register
begins; by the first fact that base register is blank, and by the second so is its neighbour.
-/

namespace Flowline.Switch

variable {b bits bundle first j k r width : Int}

/-! ## Places by base register -/

/-- The place of a bit of a bundle, from its base register and its number there. -/
theorem placeOf_mul_add (first count q : Int) (hk : 0 ≤ k) (hlt : k < width) :
    placeOf width first count (q * width + k) = (first + count - 1 - q) * width + k := by
  have hw : width ≠ 0 := by omega
  have hdiv : (q * width + k) / width = q := by
    rw [Int.mul_comm, Int.mul_add_ediv_left _ _ hw, Int.ediv_eq_zero_of_lt hk hlt, Int.add_zero]
  have hmod : (q * width + k) % width = k := by
    rw [Int.mul_comm, Int.mul_add_emod_self_left, Int.emod_eq_of_lt hk hlt]
  rw [placeOf, hdiv, hmod]

/-- A place is that of one bit of one base register. -/
theorem eq_of_place_eq {r' k' : Int} (hk : 0 ≤ k) (hlt : k < width) (hk' : 0 ≤ k')
    (hlt' : k' < width) (h : r * width + k = r' * width + k') : r = r' ∧ k = k' := by
  obtain ⟨hr, heq⟩ := eq_of_bundle_places (by omega) hk hk' hlt hlt'
    (show (r - r') * width = k' - k by rw [Int.sub_mul]; omega)
  exact ⟨hr.symm, heq⟩

theorem eq_of_placeOf_eq {count : Int} (hj : 0 ≤ j) (hlt : j < width)
    (h : placeOf width first count k = r * width + j) :
    k = (first + count - 1 - r) * width + j := by
  have hsplit := Int.ediv_mul_add_emod k width
  obtain ⟨hr, hmod⟩ := eq_of_place_eq (Int.emod_nonneg k (by omega))
    (Int.emod_lt_of_pos k (by omega)) hj hlt h
  have hq : k / width = first + count - 1 - r := by omega
  rw [← hsplit, hq, hmod]

namespace Allocator

variable {t : Target} {a : Allocator}

/-- The taken bytes of each base register are its first ones, and the third base register of each
four has a taken place if the fourth has one. -/
structure Packed (t : Target) (a : Allocator) : Prop where
  target_eq : a.target = t
  bytes_first : ∀ r j j', 0 ≤ j → j < t.registerWidth.toInt → 0 ≤ j' → j' / 8 ≤ j / 8 →
    r * t.registerWidth.toInt + j ∈ a.taken → r * t.registerWidth.toInt + j' ∈ a.taken
  fourth_last : ∀ i : Int, (4 * i + 3) * t.registerWidth.toInt ∈ a.taken →
    (4 * i + 2) * t.registerWidth.toInt ∈ a.taken

/-- A base register whose first place is free is blank. -/
theorem Packed.blank (ha : Packed t a) (h : r * t.registerWidth.toInt ∉ a.taken) (hj : 0 ≤ j)
    (hlt : j < t.registerWidth.toInt) : r * t.registerWidth.toInt + j ∉ a.taken := by
  intro htaken
  have hzero := ha.bytes_first r j 0 hj hlt (Int.le_refl 0) (Int.ediv_nonneg hj (by omega)) htaken
  rw [Int.add_zero] at hzero
  exact h hzero

/-- A bundle of blank base registers is vacant from its start. -/
theorem Packed.vacant_of_blank (ht : t.Usable) (ha : Packed t a) (bundle : Int) (i : Nat)
    (hfits : bundle * i + bundle ≤ t.registers.toInt)
    (hroom : bits ≤ bundle * t.registerWidth.toInt)
    (hblank : ∀ r, bundle * i ≤ r → r < bundle * i + bundle →
      r * t.registerWidth.toInt ∉ a.taken) : a.Vacant bundle bits (bundle * i) 0 := by
  obtain rfl := ha.target_eq
  refine ⟨⟨i, rfl⟩, hfits, ⟨0, rfl⟩, by omega, fun k hk hlt => ?_⟩
  have hq := Int.ediv_nonneg hk ht.width_pos.le
  have hq' : k / a.target.registerWidth.toInt < bundle :=
    Int.ediv_lt_of_lt_mul ht.width_pos (by omega)
  exact ha.blank (hblank _ (by omega) (by omega)) (Int.emod_nonneg k ht.width_pos.ne')
    (Int.emod_lt_of_pos k ht.width_pos)

/-! ## Bundles of at most four -/

theorem bundle_eq_of_le_four (hmax : t.maxBundle.toInt ≤ 4) (hb : b ∈ t.bundles bits) :
    b = 1 ∨ b = 2 ∨ b = 4 := by
  obtain ⟨⟨c, rfl⟩, hle, -⟩ := hb
  have hc : c ≤ 2 := by
    have hpow : (2 : Int) ^ c ≤ 2 ^ 2 := by omega
    exact (pow_le_pow_iff_right₀ (by omega)).1 hpow
  have hcases : c = 0 ∨ c = 1 ∨ c = 2 := by omega
  rcases hcases with rfl | rfl | rfl <;> simp

/-- A bundle that is smaller than the smallest does not hold the bits. -/
theorem lt_of_lt_least (hb : IsLeast (t.bundles bits) b) {e : Nat} (h : 2 ^ e < b) :
    2 ^ e * t.registerWidth.toInt < bits := by
  by_contra hholds
  have hmem : (2 : Int) ^ e ∈ t.bundles bits :=
    ⟨⟨e, rfl⟩, h.le.trans hb.1.2.1, not_lt.1 hholds⟩
  exact absurd (hb.2 hmem) (not_le.2 h)

/-! ## Packing -/

section Suits

variable {width bundle first off : Int64}

/-- Behind the start of a bundle, a range has a taken place in the byte in front of it. -/
theorem Suits.byte_before (h : a.Suits width bundle first off) (hoff : 0 < off.toInt) :
    ∃ k, off.toInt - 8 ≤ k ∧ k < off.toInt ∧
      placeOf a.target.registerWidth.toInt first.toInt bundle.toInt k ∈ a.taken := by
  by_contra hnone
  obtain ⟨haligned, hfits, ⟨j, hj⟩, hinside, hfree⟩ := h.vacant
  have hvacant : a.Vacant bundle.toInt (wholeBytes width.toInt) first.toInt (off.toInt - 8) := by
    refine ⟨haligned, hfits, ⟨j - 1, by omega⟩, by omega, fun k hle hlt htaken => ?_⟩
    rcases lt_or_ge k off.toInt with hk | hk
    · exact hnone ⟨k, hle, hk, htaken⟩
    · exact hfree k hk (by omega) htaken
  have hle := (Prod.Lex.toLex_le_toLex'.1 (h.range_least.2 (toLex_mem_vacancies.2 hvacant))).2 rfl
  dsimp only at hle
  omega

/-- A value that takes the first place of the last base register of four takes the first place of
the third one too, or finds it taken. -/
theorem Suits.third_of_fourth (ht : a.target.Usable) (hmax : a.target.maxBundle.toInt ≤ 4)
    (ha : Packed a.target a) (h : a.Suits width bundle first off) {i : Int}
    (hmem : (4 * i + 3) * a.target.registerWidth.toInt ∈
      a.target.places bundle.toInt (wholeBytes width.toInt) first.toInt off.toInt) :
    (4 * i + 2) * a.target.registerWidth.toInt ∈
      a.taken ∪ a.target.places bundle.toInt (wholeBytes width.toInt) first.toInt off.toInt := by
  obtain ⟨k, hle, hlt, hplace⟩ := hmem
  obtain ⟨⟨n, hn⟩, hfits, -, hinside, -⟩ := h.vacant
  have hwidth := ht.width_pos
  have hoff := h.off_nonneg
  have hfirst := h.first_nonneg
  have hk := eq_of_placeOf_eq (Int.le_refl 0) hwidth (hplace.trans (Int.add_zero _).symm)
  rw [Int.add_zero] at hk
  have hbundle := bundle_eq_of_le_four hmax h.bundle_least.1
  -- the fourth base register is the last of every bundle that it is in
  have hlast : first.toInt + bundle.toInt - 1 = 4 * i + 3 := by
    have hnonneg : -1 < first.toInt + bundle.toInt - 1 - (4 * i + 3) :=
      Int.lt_of_mul_lt_mul_right (a := a.target.registerWidth.toInt) (by omega) hwidth.le
    have hbelow : first.toInt + bundle.toInt - 1 - (4 * i + 3) < bundle.toInt :=
      Int.lt_of_mul_lt_mul_right (a := a.target.registerWidth.toInt) (by omega) hwidth.le
    rcases hbundle with hb | hb | hb <;> rw [hb] at hn hnonneg hbelow ⊢ <;> omega
  rw [hlast, Int.sub_self, Int.zero_mul] at hk
  rcases hbundle with hb | hb
  · refine Or.inl (by_contra fun hfree => ?_)
    have hnat : ((4 * i + 2).toNat : Int) = 4 * i + 2 := by omega
    have hroom := h.bundle_least.1.2.2
    rw [hb] at hroom
    have hvacant := ha.vacant_of_blank ht 1 (4 * i + 2).toNat (by omega) hroom
      fun r hr hr' => by
        have heq : r = 4 * i + 2 := by omega
        rwa [heq]
    rw [hnat, Int.one_mul, ← hb] at hvacant
    have hfirst := (Prod.Lex.toLex_le_toLex'.1
      (h.range_least.2 (toLex_mem_vacancies.2 hvacant))).1
    dsimp only at hfirst
    omega
  · have hwide := lt_of_lt_least h.bundle_least (e := 0) (by omega)
    rw [pow_zero, Int.one_mul] at hwide
    refine Or.inr ⟨1 * a.target.registerWidth.toInt + 0, by omega, by omega, ?_⟩
    rw [placeOf_mul_add _ _ _ (Int.le_refl 0) hwidth, hlast, Int.add_zero]
    congr 1
    omega

/-- A range keeps the taken bytes of each base register in front. -/
theorem Suits.bytes_first (ht : a.target.Usable) (ha : Packed a.target a)
    (h : a.Suits width bundle first off) {j' : Int} (hj : 0 ≤ j)
    (hlt : j < a.target.registerWidth.toInt) (hj' : 0 ≤ j') (hle : j' / 8 ≤ j / 8)
    (hmem : r * a.target.registerWidth.toInt + j ∈
      a.target.places bundle.toInt (wholeBytes width.toInt) first.toInt off.toInt) :
    r * a.target.registerWidth.toInt + j' ∈
      a.taken ∪ a.target.places bundle.toInt (wholeBytes width.toInt) first.toInt off.toInt := by
  obtain ⟨k, hstart, hend, hplace⟩ := hmem
  obtain ⟨n, hn⟩ := h.vacant.bytes
  have hbytes := ht.width_bytes
  have hk := eq_of_placeOf_eq hj hlt hplace
  -- counted from the start of the bundle, the base register begins at a whole byte
  have hbase : (first.toInt + bundle.toInt - 1 - r) * a.target.registerWidth.toInt % 8 = 0 := by
    rw [Int.mul_emod, hbytes, Int.mul_zero, Int.zero_emod]
  have hnonneg : 0 ≤ (first.toInt + bundle.toInt - 1 - r) * a.target.registerWidth.toInt := by
    have hoff := h.off_nonneg
    have hq : -1 < first.toInt + bundle.toInt - 1 - r :=
      Int.lt_of_mul_lt_mul_right (a := a.target.registerWidth.toInt) (by omega) ht.width_pos.le
    exact Int.mul_nonneg (by omega) ht.width_pos.le
  have hlt' : j' < a.target.registerWidth.toInt := by omega
  have hplace' : placeOf a.target.registerWidth.toInt first.toInt bundle.toInt
      ((first.toInt + bundle.toInt - 1 - r) * a.target.registerWidth.toInt + j') =
        r * a.target.registerWidth.toInt + j' := by
    rw [placeOf_mul_add _ _ _ hj' hlt']
    congr 2
    omega
  generalize hq : (first.toInt + bundle.toInt - 1 - r) * a.target.registerWidth.toInt = base
    at hk hbase hnonneg hplace'
  rcases lt_or_ge (base + j') off.toInt with hbefore | hin
  · -- the range starts behind the bit, in the same base register
    obtain ⟨k', hle', hlt'', htaken⟩ := h.byte_before (by omega)
    have hsame : placeOf a.target.registerWidth.toInt first.toInt bundle.toInt k' =
        r * a.target.registerWidth.toInt + (k' - base) := by
      have hbit : k' = (first.toInt + bundle.toInt - 1 - r) * a.target.registerWidth.toInt +
          (k' - base) := by omega
      rw [hbit, placeOf_mul_add _ _ _ (by omega) (by omega)]
      congr 2
      omega
    rw [hsame] at htaken
    exact Or.inl (ha.bytes_first r _ j' (by omega) (by omega) hj' (by omega) htaken)
  · have hround : wholeBytes width.toInt % 8 = 0 := by
      rw [wholeBytes]
      omega
    exact Or.inr ⟨base + j', hin, by omega, hplace'⟩

end Suits

theorem Packed.take (ht : t.Usable) (hmax : t.maxBundle.toInt ≤ 4) (ha : Packed t a)
    (q : Request) : Packed t (a.take q) := by
  obtain rfl := ha.target_eq
  rcases take_cases ht q with heq | ⟨bundle, first, off, h, hq, hfits, heq⟩
  · rw [heq]
    exact ha
  · rw [heq]
    have htaken := h.taken_give ht hq.pos hfits q.name q.isBool
    refine ⟨rfl, fun r j j' hj hlt hj' hle hmem => ?_, fun i hmem => ?_⟩
    · rw [htaken] at hmem ⊢
      rcases hmem with hmem | hmem
      · exact Or.inl (ha.bytes_first r j j' hj hlt hj' hle hmem)
      · exact h.bytes_first ht ha hj hlt hj' hle hmem
    · rw [htaken] at hmem ⊢
      rcases hmem with hmem | hmem
      · exact Or.inl (ha.fourth_last i hmem)
      · exact h.third_of_fourth ht hmax ha hmem

theorem Packed.serve (ht : t.Usable) (hmax : t.maxBundle.toInt ≤ 4) (ha : Packed t a)
    (qs : List Request) : Packed t (a.serve qs) := by
  induction qs generalizing a with
  | nil => exact ha
  | cons q qs ih => exact ih (ha.take ht hmax q)

/-! ## Narrower values -/

theorem Vacant.mono {bits' off : Int} (h : a.Vacant bundle bits first off) (hle : bits' ≤ bits) :
    a.Vacant bundle bits' first off where
  aligned := h.aligned
  fits := h.fits
  bytes := h.bytes
  inside := by
    have := h.inside
    omega
  free := fun k hk hlt => h.free k hk (by omega)

section Narrower

variable {bits' off : Int}

end Narrower

end Allocator

end Flowline.Switch
