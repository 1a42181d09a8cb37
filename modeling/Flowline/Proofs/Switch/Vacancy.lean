import Flowline.Proofs.Switch.Allocation
import Mathlib.Data.Prod.Lex
import Mathlib.Order.Bounds.Basic

/-!
# Where a value can be placed

The search for a place counts on machine words and stops at the first place that will do.  Here it
is compared with the places there are: the bundles that hold a value (`Target.bundles`), and the
ranges of a bundle that nobody has taken (`Allocator.vacancies`), ordered by their first base
register and then by their offset.  The search finds the least of each, and finds nothing only where
there is nothing (`bundleFor_cases`, `freePlace_cases`).

Neither half follows from the other.  That a place which is found is vacant says nothing of those
that were passed over; that the counting passes over none needs it to reach every aligned bundle and
every byte at which the value still fits.
-/

namespace Flowline.Switch

variable {bits bundle first off : Int64} {n : Nat}

/-- The bundles that hold some bits: powers of two of base registers, up to the largest. -/
def Target.bundles (t : Target) (bits : Int) : Set Int :=
  {b | (∃ c : Nat, b = 2 ^ c) ∧ b ≤ t.maxBundle.toInt ∧ bits ≤ b * t.registerWidth.toInt}

/-- The places of `bits` from offset `off` in the bundle that starts at base register `first`. -/
def Target.places (t : Target) (bundle bits first off : Int) : Set Int :=
  {p | ∃ k, off ≤ k ∧ k < off + bits ∧ placeOf t.registerWidth.toInt first bundle k = p}

namespace Allocator

variable {t : Target} {a : Allocator}

/-! ## Bundles -/

/-- Doubling a bundle finds the smallest that holds the bits, if there is one. -/
theorem bundleFrom_cases (ht : t.Usable) {b : Int64} {c : Nat} (hb : b.toInt = 2 ^ c) (hc : c ≤ 60)
    (hn : 65 ≤ n + c) (hbelow : ∀ d ∈ t.bundles bits.toInt, 2 ^ c ≤ d) :
    (∃ b', bundleFrom t bits n b = .ok (some b') ∧ IsLeast (t.bundles bits.toInt) b'.toInt) ∨
      (bundleFrom t bits n b = .ok none ∧ t.bundles bits.toInt = ∅) := by
  induction n generalizing b c with
  | zero => omega
  | succ n ih =>
    unfold bundleFrom
    have hlt := ht.registers_lt
    split
    · next hle =>
      rw [Int64.le_iff_toInt_le] at hle
      have hregs : b.toInt ≤ t.registers.toInt := hle.trans ht.maxBundle_le
      have hpos : 0 < b.toInt := by
        rw [hb]
        positivity
      split
      · next hfit =>
        rw [Int64.le_iff_toInt_le, ht.mul_toInt hpos.le hregs] at hfit
        exact Or.inl ⟨b, rfl, ⟨⟨c, hb⟩, hle, hfit⟩, fun d hd => hb ▸ hbelow d hd⟩
      · next hfit =>
        rw [Int64.le_iff_toInt_le, ht.mul_toInt hpos.le hregs] at hfit
        have hc' : c < 60 := by
          have hpow : (2 : Int) ^ c < 2 ^ 60 := by omega
          exact (pow_lt_pow_iff_right₀ (by omega)).1 hpow
        refine ih (c := c + 1) ?_ hc' (by omega) fun d hd => ?_
        · rw [Word.shiftLeft_one, Word.toInt_add (by omega) (by omega), hb, pow_succ]
          omega
        · -- a bundle that holds the bits is not the one that was just refused
          obtain ⟨⟨e, rfl⟩, hmax, hholds⟩ := hd
          have hle' := hbelow _ ⟨⟨e, rfl⟩, hmax, hholds⟩
          have hce : c ≤ e := (pow_le_pow_iff_right₀ (by omega)).1 hle'
          have hne : c ≠ e := by
            rintro rfl
            rw [hb] at hfit
            exact hfit hholds
          exact pow_le_pow_right₀ (by omega) (by omega)
    · next hle =>
      rw [Int64.not_le, Int64.lt_iff_toInt_lt] at hle
      refine Or.inr ⟨rfl, Set.eq_empty_of_forall_notMem fun d hd => ?_⟩
      have hmax := hd.2.1
      have := hbelow d hd
      omega

theorem bundleFor_cases (ht : t.Usable) (bits : Int64) :
    (∃ b, bundleFor t bits = .ok (some b) ∧ IsLeast (t.bundles bits.toInt) b.toInt) ∨
      (bundleFor t bits = .ok none ∧ t.bundles bits.toInt = ∅) := by
  refine bundleFrom_cases ht (c := 0) rfl (by omega) (by omega) fun d hd => ?_
  obtain ⟨⟨e, rfl⟩, -⟩ := hd
  exact one_le_pow₀ (by omega)

/-! ## Ranges -/

/-- The places of the register file that are taken. -/
def taken (a : Allocator) : Set Int := {p | ∃ w ∈ a.used, w.toInt = p}

theorem toInt_mem_taken {p : Int64} : p.toInt ∈ a.taken ↔ p ∈ a.used := by
  constructor
  · rintro ⟨w, hw, heq⟩
    rwa [← Int64.toInt_inj.1 heq]
  · exact fun hp => ⟨p, hp, rfl⟩

/-- A range of `bits` from offset `off` in the bundle that starts at base register `first`, of which
no bit is taken.  Bundles start at multiples of their size, and ranges at whole bytes. -/
structure Vacant (a : Allocator) (bundle bits first off : Int) : Prop where
  aligned : ∃ i : Nat, first = bundle * i
  fits : first + bundle ≤ a.target.registers.toInt
  bytes : ∃ j : Nat, off = 8 * j
  inside : off + bits ≤ bundle * a.target.registerWidth.toInt
  free : ∀ k, off ≤ k → k < off + bits →
    placeOf a.target.registerWidth.toInt first bundle k ∉ a.taken

/-- The vacant ranges of a size in bundles of a size, by first base register and offset. -/
def vacancies (a : Allocator) (bundle bits : Int) : Set (Int ×ₗ Int) :=
  {p | a.Vacant bundle bits (ofLex p).1 (ofLex p).2}

theorem toLex_mem_vacancies {bundle bits first off : Int} :
    toLex (first, off) ∈ a.vacancies bundle bits ↔ a.Vacant bundle bits first off :=
  Iff.rfl

/-- Computed on words, the places of a range are those of the integers. -/
theorem mem_map_toInt_span (ht : t.Usable) (hfirst : 0 ≤ first.toInt) (hbundle : 0 ≤ bundle.toInt)
    (hfit : first.toInt + bundle.toInt ≤ t.registers.toInt) (hoff : 0 ≤ off.toInt)
    (hroom : off.toInt + bits.toInt ≤ bundle.toInt * t.registerWidth.toInt) {p : Int} :
    (∃ w ∈ span t first bundle off bits, w.toInt = p) ↔
      p ∈ t.places bundle.toInt bits.toInt first.toInt off.toInt := by
  have hmax := ht.mul_width_le (n := bundle.toInt) (by omega)
  have hlt := ht.bits_lt
  have hbit : ∀ i < bits.toInt.toNat, (t.bit first bundle (off + Int64.ofNat i)).toInt =
      placeOf t.registerWidth.toInt first.toInt bundle.toInt (off.toInt + i) := by
    intro i hi
    have hk : (off + Int64.ofNat i).toInt = off.toInt + i := Word.toInt_add_ofNat (by omega)
    rw [ht.bit_toInt hfirst hbundle hfit (by omega) (by omega), hk]
  constructor
  · rintro ⟨w, hw, rfl⟩
    obtain ⟨i, hi, rfl⟩ := mem_span.1 hw
    exact ⟨off.toInt + i, by omega, by omega, (hbit i hi).symm⟩
  · rintro ⟨k, hle, hlt', rfl⟩
    have hi : (k - off.toInt).toNat < bits.toInt.toNat := by omega
    refine ⟨_, mem_span.2 ⟨_, hi, rfl⟩, ?_⟩
    have hk : off.toInt + ((k - off.toInt).toNat : Int) = k := by omega
    rw [hbit _ hi, hk]

theorem isFree_iff {bits : List Int64} : a.isFree bits = true ↔ ∀ p ∈ bits, p ∉ a.used := by
  simp [isFree]

/-- A range is free if no place of it is taken. -/
theorem isFree_span_iff (ht : a.target.Usable) (hfirst : 0 ≤ first.toInt)
    (hbundle : 0 ≤ bundle.toInt) (hfit : first.toInt + bundle.toInt ≤ a.target.registers.toInt)
    (hoff : 0 ≤ off.toInt)
    (hroom : off.toInt + bits.toInt ≤ bundle.toInt * a.target.registerWidth.toInt) :
    a.isFree (span a.target first bundle off bits) = true ↔
      ∀ k, off.toInt ≤ k → k < off.toInt + bits.toInt →
        placeOf a.target.registerWidth.toInt first.toInt bundle.toInt k ∉ a.taken := by
  have hspan := fun p => mem_map_toInt_span ht hfirst hbundle hfit hoff hroom (p := p)
  rw [isFree_iff]
  constructor
  · intro h k hle hlt htaken
    obtain ⟨w, hw, hp⟩ := (hspan _).2 ⟨k, hle, hlt, rfl⟩
    rw [← hp] at htaken
    exact h w hw (toInt_mem_taken.1 htaken)
  · intro h w hw hused
    obtain ⟨k, hle, hlt, hp⟩ := (hspan _).1 ⟨w, hw, rfl⟩
    refine h k hle hlt ?_
    rw [hp]
    exact toInt_mem_taken.2 hused

/-! ## Nothing is passed over -/

/-- The search for an offset ends at a free one, if there is one among those to be tried. -/
theorem freeOffset_of_isFree {j : Nat} (hj : j < n)
    (hfree : a.isFree (span a.target first bundle (off + 8 * Int64.ofNat j) bits) = true) :
    ∃ j' ≤ j, a.freeOffset first bundle bits n off = some (off + 8 * Int64.ofNat j') := by
  induction n generalizing off j with
  | zero => exact absurd hj (Nat.not_lt_zero j)
  | succ n ih =>
    unfold freeOffset
    split
    · exact ⟨0, Nat.zero_le j, by simp⟩
    · next hnot =>
      cases j with
      | zero => exact absurd (by simpa using hfree) hnot
      | succ j =>
        have hstep : ∀ i : Nat,
            off + 8 * Int64.ofNat (i + 1) = off + 8 + 8 * Int64.ofNat i := by
          intro i
          rw [Int64.ofNat_add]
          grind
        rw [hstep] at hfree
        obtain ⟨j', hle, heq⟩ := ih (Nat.lt_of_succ_lt_succ hj) hfree
        exact ⟨j' + 1, Nat.succ_le_succ hle, by rw [heq, hstep]⟩

/-- The search for a bundle ends no later than at the first one with a free offset. -/
theorem freePlace_of_freeOffset {offsets i : Nat} (hi : i < n)
    (hfound : a.freeOffset (first + bundle * Int64.ofNat i) bundle bits offsets 0 = some off) :
    ∃ i' ≤ i, ∃ off', a.freePlace bundle bits offsets n first =
      some (first + bundle * Int64.ofNat i', off') ∧ (i' = i → off' = off) := by
  induction n generalizing first i with
  | zero => exact absurd hi (Nat.not_lt_zero i)
  | succ n ih =>
    have hzero : first + bundle * Int64.ofNat 0 = first := by simp
    unfold freePlace
    split
    · next off' heq =>
      refine ⟨0, Nat.zero_le i, off', by rw [hzero], ?_⟩
      rintro rfl
      rw [hzero, heq] at hfound
      exact Option.some.inj hfound
    · next hnone =>
      cases i with
      | zero =>
        rw [hzero, hnone] at hfound
        cases hfound
      | succ i =>
        have hstep : ∀ k : Nat,
            first + bundle * Int64.ofNat (k + 1) = first + bundle + bundle * Int64.ofNat k := by
          intro k
          rw [Int64.ofNat_add]
          grind
        rw [hstep] at hfound
        obtain ⟨i', hle, off', heq, hlast⟩ := ih (Nat.lt_of_succ_lt_succ hi) hfound
        exact ⟨i' + 1, Nat.succ_le_succ hle, off', by rw [heq, hstep], fun h => hlast (by omega)⟩

/-! ## The whole search -/

theorem lt_bundleCount (ht : t.Usable) (hpos : 0 < bundle.toInt) {i : Nat}
    (h : bundle.toInt * i + bundle.toInt ≤ t.registers.toInt) : i < bundleCount t bundle := by
  have hquot : (i : Int) + 1 ≤ t.registers.toInt / bundle.toInt := by
    rw [Int.le_ediv_iff_mul_le hpos, Int.add_mul, Int.one_mul, Int.mul_comm]
    exact h
  unfold bundleCount
  rw [Word.toInt_div ht.registers_pos.le]
  omega

/-- Every byte of a bundle at which the bits fit is counted. -/
theorem lt_offsetCount {j : Nat} (h : 8 * j + bits.toInt ≤ (bundle * t.registerWidth).toInt) :
    j < offsetCount t bundle bits := by
  unfold offsetCount
  dsimp only
  rw [if_pos (by rw [Int64.le_iff_toInt_le]; omega)]
  omega

theorem vacant_of_freePlace (ht : a.target.Usable) (hpos : 0 < bundle.toInt)
    (hle : bundle.toInt ≤ a.target.registers.toInt) (hbits : 0 ≤ bits.toInt)
    (h : a.freePlace bundle bits (offsetCount a.target bundle bits)
      (bundleCount a.target bundle) 0 = some (first, off)) :
    a.Vacant bundle.toInt bits.toInt first.toInt off.toInt := by
  obtain ⟨⟨i, hi, rfl⟩, hoffset⟩ := freePlace_eq_some h
  obtain ⟨⟨j, hj, rfl⟩, hfree⟩ := freeOffset_eq_some hoffset
  obtain ⟨hfirst, hfit⟩ := bundle_fits ht hpos hle hi
  obtain ⟨hoff, hroom⟩ := offset_fits hbits hj
  rw [ht.mul_toInt hpos.le hle] at hroom
  have hnonneg : 0 ≤ bundle.toInt * i := Int.mul_nonneg hpos.le (Int.natCast_nonneg i)
  have hplaces := (isFree_span_iff ht (by omega) hpos.le (by omega) (by omega) (by omega)).1 hfree
  rw [hfirst, hoff] at hplaces ⊢
  exact ⟨⟨i, rfl⟩, hfit, ⟨j, rfl⟩, hroom, hplaces⟩

/-- Where a range is vacant, the search finds one that is not behind it. -/
theorem freePlace_of_vacant (ht : a.target.Usable) (hpos : 0 < bundle.toInt)
    (hle : bundle.toInt ≤ a.target.registers.toInt) (hbits : 0 ≤ bits.toInt) {first off : Int}
    (h : a.Vacant bundle.toInt bits.toInt first off) :
    ∃ first' off' : Int64,
      a.freePlace bundle bits (offsetCount a.target bundle bits) (bundleCount a.target bundle) 0 =
        some (first', off') ∧ toLex (first'.toInt, off'.toInt) ≤ toLex (first, off) := by
  obtain ⟨⟨i, rfl⟩, hfit, ⟨j, rfl⟩, hinside, hfree⟩ := h
  have hi := lt_bundleCount ht hpos hfit
  have hj : j < offsetCount a.target bundle bits := by
    apply lt_offsetCount
    rwa [ht.mul_toInt hpos.le hle]
  obtain ⟨hfirst, -⟩ := bundle_fits ht hpos hle hi
  obtain ⟨hoff, -⟩ := offset_fits hbits hj
  have hnonneg : 0 ≤ bundle.toInt * i := Int.mul_nonneg hpos.le (Int.natCast_nonneg i)
  rw [← hfirst, ← hoff] at hfree
  have hspan := (isFree_span_iff ht (by omega) hpos.le (by omega) (by omega) (by omega)).2 hfree
  obtain ⟨j', hj', hfound⟩ := freeOffset_of_isFree hj hspan
  obtain ⟨i', hi', off', hplace, hlast⟩ := freePlace_of_freeOffset hi hfound
  refine ⟨_, _, hplace, Prod.Lex.toLex_le_toLex'.2 ⟨?_, fun heq => ?_⟩⟩
  · show (0 + bundle * Int64.ofNat i').toInt ≤ bundle.toInt * i
    rw [(bundle_fits ht hpos hle (hi'.trans_lt hi)).1]
    exact Int.mul_le_mul_of_nonneg_left (by omega) hpos.le
  · replace heq : (0 + bundle * Int64.ofNat i').toInt = bundle.toInt * i := heq
    rw [(bundle_fits ht hpos hle (hi'.trans_lt hi)).1] at heq
    have hii : i' = i := by exact_mod_cast Int.eq_of_mul_eq_mul_left hpos.ne' heq
    show off'.toInt ≤ 8 * j
    rw [hlast hii, (offset_fits hbits (hj'.trans_lt hj)).1]
    omega

/-- The search finds the first vacant range, if there is one. -/
theorem freePlace_cases (ht : a.target.Usable) (hpos : 0 < bundle.toInt)
    (hle : bundle.toInt ≤ a.target.registers.toInt) (hbits : 0 ≤ bits.toInt) :
    (∃ first off : Int64,
      a.freePlace bundle bits (offsetCount a.target bundle bits) (bundleCount a.target bundle) 0 =
        some (first, off) ∧
      IsLeast (a.vacancies bundle.toInt bits.toInt) (toLex (first.toInt, off.toInt))) ∨
    (a.freePlace bundle bits (offsetCount a.target bundle bits) (bundleCount a.target bundle) 0 =
        none ∧ a.vacancies bundle.toInt bits.toInt = ∅) := by
  have hall := fun p (hp : p ∈ a.vacancies bundle.toInt bits.toInt) =>
    freePlace_of_vacant ht hpos hle hbits hp
  cases h : a.freePlace bundle bits (offsetCount a.target bundle bits)
      (bundleCount a.target bundle) 0 with
  | some place =>
    refine Or.inl ⟨place.1, place.2, rfl, vacant_of_freePlace ht hpos hle hbits h, fun p hp => ?_⟩
    obtain ⟨first', off', heq, hle'⟩ := hall p hp
    rw [h] at heq
    cases heq
    exact hle'
  | none =>
    refine Or.inr ⟨rfl, Set.eq_empty_of_forall_notMem fun p hp => ?_⟩
    obtain ⟨first', off', heq, -⟩ := hall p hp
    rw [h] at heq
    cases heq

end Allocator

end Flowline.Switch
