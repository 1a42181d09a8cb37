import Flowline.Proofs.Flow.Matching
import Flowline.Proofs.Switch.Ledger

/-!
# Writing registers

A number that is written to a list of places is read back there if no place is listed twice, and
nothing else changes (`Memory.read_write`, `Memory.write_of_notMem`).

A register has no place twice on a switch whose registers have bits at all (`Register.nodup_places`):
places are counted in machine words, but the difference of two places of one bundle is too small to
wrap around.
-/

namespace Flowline.Switch

/-! ## Memory -/

namespace Memory

/-- Writing leaves all other places as they are. -/
theorem write_of_notMem (m : Memory) {ps : List Place} {p : Place} (h : p ∉ ps) (v : Nat) :
    m.write ps v p = m p := by
  induction ps generalizing m v with
  | nil => rfl
  | cons q ps ih =>
    rw [List.mem_cons, not_or] at h
    rw [write, ih _ h.2, Function.update_of_ne h.1]

/-- Reading looks at no other place. -/
theorem read_congr {m m' : Memory} {ps : List Place} (h : ∀ p ∈ ps, m p = m' p) :
    m.read ps = m'.read ps := by
  rw [read, read, List.map_congr_left h]

theorem read_write_of_disjoint (m : Memory) {ps qs : List Place} (h : ps.Disjoint qs) (v : Nat) :
    (m.write qs v).read ps = m.read ps :=
  read_congr fun _ hp => m.write_of_notMem (h hp) v

/-- What was written is read, if no place is listed twice. -/
theorem read_write (m : Memory) {ps : List Place} (h : ps.Nodup) {v : Nat}
    (hv : v < 2 ^ ps.length) : (m.write ps v).read ps = v := by
  induction ps generalizing m v with
  | nil =>
    have hzero : v = 0 := by simpa using hv
    rw [hzero]
    rfl
  | cons p ps ih =>
    rw [List.nodup_cons] at h
    rw [List.length_cons, pow_succ] at hv
    have hfirst : m.write (p :: ps) v p = v.testBit 0 := by
      rw [write, write_of_notMem _ h.1, Function.update_self]
    have hrest : (m.write (p :: ps) v).read ps = v / 2 := ih _ h.2 (by omega)
    rw [read, List.map_cons, number, hfirst, ← read, hrest, Nat.testBit_zero]
    rcases Nat.mod_two_eq_zero_or_one v with hbit | hbit
    · rw [hbit]
      show 0 + 2 * (v / 2) = v
      omega
    · rw [hbit]
      show 1 + 2 * (v / 2) = v
      omega

end Memory

/-! ## Places -/

/-- Numbers of bits with equal places: quotients and remainders agree. -/
theorem eq_of_bundle_places {w q q' r r' : Int} (hw : 0 < w) (hr : 0 ≤ r) (hr' : 0 ≤ r')
    (hlt : r < w) (hlt' : r' < w) (h : (q' - q) * w = r' - r) : q = q' ∧ r = r' := by
  have hle : q' - q < 1 := Int.lt_of_mul_lt_mul_right (a := w) (by omega) hw.le
  have hge : -1 < q' - q := Int.lt_of_mul_lt_mul_right (a := w) (by omega) hw.le
  have hzero : q' - q = 0 := by omega
  rw [hzero] at h
  omega

theorem Target.bit_inj {t : Target} (hw : 0 < t.registerWidth.toInt) {first bundle k k' : Int64}
    (hk : 0 ≤ k.toInt) (hk' : 0 ≤ k'.toInt) (h : t.bit first bundle k = t.bit first bundle k') :
    k = k' := by
  unfold Target.bit at h
  generalize t.registerWidth = w at hw h
  have hdiv : (k / w).toInt = k.toInt / w.toInt := Word.toInt_div hk
  have hdiv' : (k' / w).toInt = k'.toInt / w.toInt := Word.toInt_div hk'
  have hmod : (k % w).toInt = k.toInt % w.toInt := Word.toInt_mod hk
  have hmod' : (k' % w).toInt = k'.toInt % w.toInt := Word.toInt_mod hk'
  have hsplit := Int.ediv_mul_add_emod k.toInt w.toInt
  have hsplit' := Int.ediv_mul_add_emod k'.toInt w.toInt
  have hrest := Int.emod_nonneg k.toInt hw.ne'
  have hrest' := Int.emod_nonneg k'.toInt hw.ne'
  have hbound := Int.emod_lt_of_pos k.toInt hw
  have hbound' := Int.emod_lt_of_pos k'.toInt hw
  have hquot := Int.ediv_nonneg hk hw.le
  have hquot' := Int.ediv_nonneg hk' hw.le
  have hlt := k.toInt_lt
  have hlt' := k'.toInt_lt
  -- neither difference wraps around, so the words differ as the integers do
  have hdiff : (k' / w - k / w).toInt = k'.toInt / w.toInt - k.toInt / w.toInt := by
    have hle : k.toInt / w.toInt ≤ k.toInt := Int.ediv_le_self _ hk
    have hle' : k'.toInt / w.toInt ≤ k'.toInt := Int.ediv_le_self _ hk'
    rw [Word.toInt_sub (by omega) (by omega), hdiv, hdiv']
  have hproduct : (k'.toInt / w.toInt - k.toInt / w.toInt) * w.toInt =
      k'.toInt / w.toInt * w.toInt - k.toInt / w.toInt * w.toInt := Int.sub_mul _ _ _
  have hnonneg : 0 ≤ k.toInt / w.toInt * w.toInt := Int.mul_nonneg hquot hw.le
  have hnonneg' : 0 ≤ k'.toInt / w.toInt * w.toInt := Int.mul_nonneg hquot' hw.le
  have hcross : (k' / w - k / w) * w = k' % w - k % w := by grind
  have hexact : (k'.toInt / w.toInt - k.toInt / w.toInt) * w.toInt =
      k'.toInt % w.toInt - k.toInt % w.toInt := by
    have hwlt := w.toInt_lt
    have hcast := congrArg Int64.toInt hcross
    rwa [Word.toInt_mul (by rw [hdiff, hproduct]; omega) (by rw [hdiff, hproduct]; omega), hdiff,
      Word.toInt_sub (by omega) (by omega), hmod, hmod'] at hcast
  obtain ⟨hq, hr⟩ := eq_of_bundle_places hw hrest hrest' hbound hbound' hexact
  rw [← Int64.toInt_inj, ← hsplit, ← hsplit', hq, hr]

theorem Target.width_pos_of_validate {t : Target} (h : t.validate = .ok ()) :
    0 < t.registerWidth.toInt :=
  (checked_of_validate h).width_pos

namespace Register

variable {r : Register} {w : Int64} {t : Target}

theorem nodup_places (hw : 0 < t.registerWidth.toInt) (h : r.Inside) (hr : r.Covers w)
    (hfield : r.field = none) : (r.places t).Nodup := by
  have hlow := h.low_nonneg
  have heq := hr.high_eq
  have hhigh := r.high.toInt_lt
  rw [places_eq, hr.width_eq]
  refine List.nodup_range.map_on fun i hi j hj hplaces => ?_
  rw [List.mem_range] at hi hj
  have hsum : ∀ k < w.toInt.toNat, (r.low + Int64.ofNat k).toInt = r.low.toInt + k :=
    fun k hk => Word.toInt_add_ofNat (by omega)
  simp only [place, hfield, Place.file.injEq] at hplaces
  have hword := t.bit_inj hw (by rw [hsum i hi]; omega) (by rw [hsum j hj]; omega) hplaces
  rw [← Int64.toInt_inj, hsum i hi, hsum j hj] at hword
  omega

theorem disjoint_places {r' : Register} (hfield : r.field = none) (hfield' : r'.field = none)
    (h : (t.bits r).Disjoint (t.bits r')) : (r.places t).Disjoint (r'.places t) := by
  intro p hp hp'
  simp only [places, hfield, hfield', List.mem_map] at hp hp'
  obtain ⟨i, hi, rfl⟩ := hp
  obtain ⟨j, hj, heq⟩ := hp'
  cases heq
  exact h hi hj

end Register

end Flowline.Switch
