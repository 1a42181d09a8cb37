import Flowline.Proofs.Switch.Layout
import Flowline.Switch.Allocator
import Mathlib.Data.List.Pairwise
import Mathlib.Tactic.Ring

/-!
# Registers do not overlap

Whatever is asked of a register file that starts empty, no two names share a bit of it.

A search for a place only says that the place is free, so the invariant of a run (`Allocator.Sound`)
ties the taken bits to the registers given out: every bit of a register is taken.  A new register
lies on free bits, hence off every earlier one, whatever the sizes of the two bundles.

The other half is that a place which is found lies in the register file: bundles are counted off in
steps of their own size, and offsets in steps of a byte, and neither count leaves the range of
machine words.
-/

namespace Flowline.Switch.Allocator

variable {bits bundle first off width : Int64} {name : Text} {isBool : Bool} {n : Nat}
  {r : Register} {t : Target} {a : Allocator}

/-! ## Searching -/

/-- A width rounded up to whole bytes, in the integers. -/
def wholeBytes (width : Int) : Int := (width + 7) / 8 * 8

theorem toInt_roundUp (width : Int64) :
    (roundUp width).toInt = (width + 7).toInt.tdiv 8 * 8 := by
  have hle := (width + 7).le_toInt
  have hge := (width + 7).toInt_lt
  have height : (8 : Int64).toInt = 8 := rfl
  have hsign : Int.sign 8 = 1 := rfl
  have hdiv : ((width + 7) / 8).toInt = (width + 7).toInt.tdiv 8 := by
    rw [Int64.toInt_div_of_ne_right _ _ (by decide), height]
  unfold roundUp
  rw [Word.toInt_mul, hdiv, height]
  all_goals
    rw [hdiv, height, Int.tdiv_eq_ediv]
    split <;> omega

theorem roundUp_eq_wholeBytes (hw : 0 < width.toInt) (hfits : width.toInt + 7 < 2 ^ 63) :
    (roundUp width).toInt = wholeBytes width.toInt := by
  have hseven : (7 : Int64).toInt = 7 := rfl
  have hsum : (width + 7).toInt = width.toInt + 7 := Word.toInt_add (by omega) (by omega)
  rw [toInt_roundUp, hsum, Int.tdiv_eq_ediv_of_nonneg (by omega), wholeBytes]

/-- Widths at the end of the range of words wrap around when they are rounded up. -/
theorem roundUp_neg (hwide : 2 ^ 63 ≤ width.toInt + 7) : (roundUp width).toInt < 0 := by
  have hlt := width.toInt_lt
  have hseven : (7 : Int64).toInt = 7 := rfl
  have hsign : Int.sign 8 = 1 := rfl
  have hsum : (width + 7).toInt = width.toInt + 7 - 2 ^ 64 := by
    rw [Int64.toInt_add, hseven, Int.bmod_eq_emod]
    split <;> omega
  rw [toInt_roundUp, hsum, Int.tdiv_eq_ediv]
  split <;> omega

/-- A width that can be rounded up to bytes at all is not larger than the result. -/
theorem le_roundUp (hw : 0 < width.toInt) (h : 0 ≤ (roundUp width).toInt) :
    width.toInt ≤ (roundUp width).toInt := by
  by_cases hfits : width.toInt + 7 < 2 ^ 63
  · rw [roundUp_eq_wholeBytes hw hfits, wholeBytes]
    omega
  · have hneg : (roundUp width).toInt < 0 := roundUp_neg (by omega)
    omega

/-- A bundle that is found is a power of two, not too large, and holds the bits. -/
theorem bundleFrom_eq_some (ht : t.Usable) {b b' : Int64} {c : Nat} (hb : b.toInt = 2 ^ c)
    (h : bundleFrom t bits n b = .ok (some b')) :
    (∃ c' : Nat, b'.toInt = 2 ^ c') ∧ b'.toInt ≤ t.registers.toInt ∧
      bits.toInt ≤ b'.toInt * t.registerWidth.toInt := by
  induction n generalizing b c with
  | zero => cases h
  | succ n ih =>
    unfold bundleFrom at h
    split at h
    · next hle =>
      have hpos : 0 < b.toInt := by
        rw [hb]
        positivity
      have hregs : b.toInt ≤ t.registers.toInt :=
        (Int64.le_iff_toInt_le.1 hle).trans ht.maxBundle_le
      split at h
      · next hfit =>
        cases h
        refine ⟨⟨c, hb⟩, hregs, ?_⟩
        rw [Int64.le_iff_toInt_le, ht.mul_toInt hpos.le hregs] at hfit
        exact hfit
      · have hlt := ht.registers_lt
        refine ih (c := c + 1) ?_ h
        rw [Word.shiftLeft_one, Word.toInt_add (by omega) (by omega), hb, pow_succ]
        omega
    · cases h

/-- An offset that is found is one of those that were tried, and its bits are free. -/
theorem freeOffset_eq_some {off' : Int64} (h : a.freeOffset first bundle bits n off = some off') :
    (∃ j < n, off' = off + 8 * Int64.ofNat j) ∧
      a.isFree (span a.target first bundle off' bits) = true := by
  induction n generalizing off with
  | zero => cases h
  | succ n ih =>
    unfold freeOffset at h
    split at h
    · next hfree =>
      cases h
      exact ⟨⟨0, Nat.succ_pos n, by simp⟩, hfree⟩
    · obtain ⟨⟨j, hj, hoff⟩, hfree⟩ := ih h
      refine ⟨⟨j + 1, Nat.succ_lt_succ hj, ?_⟩, hfree⟩
      rw [hoff, Int64.ofNat_add]
      grind

/-- A place that is found is in one of the bundles that were tried, at the first free offset. -/
theorem freePlace_eq_some {first' : Int64} {offsets : Nat}
    (h : a.freePlace bundle bits offsets n first = some (first', off)) :
    (∃ i < n, first' = first + bundle * Int64.ofNat i) ∧
      a.freeOffset first' bundle bits offsets 0 = some off := by
  induction n generalizing first with
  | zero => cases h
  | succ n ih =>
    unfold freePlace at h
    split at h
    · next hfound =>
      cases h
      exact ⟨⟨0, Nat.succ_pos n, by simp⟩, hfound⟩
    · obtain ⟨⟨i, hi, hfirst⟩, hfound⟩ := ih h
      refine ⟨⟨i + 1, Nat.succ_lt_succ hi, ?_⟩, hfound⟩
      rw [hfirst, Int64.ofNat_add]
      grind

/-! ## Found places -/

/-- Counting off bundles stays inside the register file. -/
theorem bundle_fits (ht : t.Usable) (hpos : 0 < bundle.toInt)
    (hle : bundle.toInt ≤ t.registers.toInt) {i : Nat} (hi : i < bundleCount t bundle) :
    (0 + bundle * Int64.ofNat i).toInt = bundle.toInt * i ∧
      bundle.toInt * i + bundle.toInt ≤ t.registers.toInt := by
  have hlt := ht.registers_lt
  have hi' : (i : Int) < t.registers.toInt / bundle.toInt := by
    unfold bundleCount at hi
    rw [Word.toInt_div ht.registers_pos.le] at hi
    omega
  have hquot : t.registers.toInt / bundle.toInt ≤ t.registers.toInt :=
    Int.ediv_le_self _ ht.registers_pos.le
  have hfit : bundle.toInt * i + bundle.toInt ≤ t.registers.toInt := calc
    bundle.toInt * i + bundle.toInt = bundle.toInt * (i + 1) := by ring
    _ ≤ bundle.toInt * (t.registers.toInt / bundle.toInt) :=
      Int.mul_le_mul_of_nonneg_left (by omega) hpos.le
    _ ≤ t.registers.toInt := Int.mul_ediv_self_le hpos.ne'
  have hnonneg : 0 ≤ bundle.toInt * i := Int.mul_nonneg hpos.le (Int.natCast_nonneg i)
  have hofNat : (Int64.ofNat i).toInt = i := Word.toInt_ofNat (by omega)
  refine ⟨?_, hfit⟩
  rw [Int64.zero_add, Word.toInt_mul (by rw [hofNat]; omega) (by rw [hofNat]; omega), hofNat]

/-- Counting off offsets stays inside the bundle. -/
theorem offset_fits (hbits : 0 ≤ bits.toInt) {j : Nat} (hj : j < offsetCount t bundle bits) :
    (0 + 8 * Int64.ofNat j).toInt = 8 * j ∧
      8 * j + bits.toInt ≤ (bundle * t.registerWidth).toInt := by
  have hwhole := (bundle * t.registerWidth).toInt_lt
  unfold offsetCount at hj
  dsimp only at hj
  split at hj
  · next hle =>
    rw [Int64.le_iff_toInt_le] at hle
    have height : (8 : Int64).toInt = 8 := rfl
    have hofNat : (Int64.ofNat j).toInt = j := Word.toInt_ofNat (by omega)
    refine ⟨?_, by omega⟩
    rw [Int64.zero_add, Word.toInt_mul (by rw [hofNat, height]; omega)
      (by rw [hofNat, height]; omega), hofNat, height]
  · exact absurd hj (Nat.not_lt_zero j)

/-- The register that is given out for a place. -/
def registerAt (t : Target) (name : Text) (bundle first off width : Int64) (isBool : Bool) :
    Register :=
  { number := first, bundle, size := bundle * t.registerWidth, low := off,
    high := off + width - 1, isBool, owner := name }

/-- A register at a place that was counted off lies in the register file. -/
theorem lies_registerAt (ht : t.Usable) (hbundle : ∃ c : Nat, bundle.toInt = 2 ^ c)
    (hle : bundle.toInt ≤ t.registers.toInt) (hw : 0 < width.toInt)
    (hbits : width.toInt ≤ bits.toInt)
    (hfirst : ∃ i < bundleCount t bundle, first = 0 + bundle * Int64.ofNat i)
    (hoff : ∃ j < offsetCount t bundle bits, off = 0 + 8 * Int64.ofNat j) :
    (registerAt t name bundle first off width isBool).Lies t := by
  obtain ⟨c, hc⟩ := hbundle
  obtain ⟨i, hi, rfl⟩ := hfirst
  obtain ⟨j, hj, rfl⟩ := hoff
  have hpos : 0 < bundle.toInt := by
    rw [hc]
    positivity
  obtain ⟨hnumber, hfit⟩ := bundle_fits ht hpos hle hi
  obtain ⟨hlow, hroom⟩ := offset_fits (by omega) hj
  have hwhole := (bundle * t.registerWidth).toInt_lt
  have hhigh : (0 + 8 * Int64.ofNat j + width - 1).toInt = 8 * j + width.toInt - 1 := by
    rw [Word.toInt_add_pred (by omega) (by omega), hlow]
  refine ⟨rfl, ⟨c, i, hc, ?_⟩, ?_, ht.mul_toInt hpos.le hle, ?_, ?_, ?_⟩
  · rw [registerAt, hnumber, hc, Int.mul_comm]
  · rw [registerAt, hnumber]
    exact hfit
  · rw [registerAt, hlow]
    omega
  · rw [registerAt, hlow, hhigh]
    omega
  · rw [registerAt, hhigh]
    show _ < (bundle * t.registerWidth).toInt
    omega

theorem mem_span {p : Int64} :
    p ∈ span t first bundle off bits ↔
      ∃ i < bits.toInt.toNat, t.bit first bundle (off + Int64.ofNat i) = p := by
  have hwidth : off + bits - 1 - off + 1 = bits := by grind
  simp only [span, Target.bits, Register.width, hwidth, List.mem_map, List.mem_range]

theorem mem_bits_registerAt {p : Int64} :
    p ∈ t.bits (registerAt t name bundle first off width isBool) ↔
      p ∈ span t first bundle off width :=
  Iff.rfl

/-- A value that is placed is at a place that the search found, and takes the bits of it. -/
theorem place_eq_ok {a' : Allocator} (h : a.place name width isBool = .ok (r, a')) :
    ∃ bundle first off, bundleFor a.target (roundUp width) = .ok (some bundle) ∧
      a.target.limits.canList (roundUp width) = true ∧
      a.freePlace bundle (roundUp width) (offsetCount a.target bundle (roundUp width))
        (bundleCount a.target bundle) 0 = some (first, off) ∧
      r = registerAt a.target name bundle first off width isBool ∧
      a' = a.give name (roundUp width) r := by
  unfold place at h
  dsimp only at h
  split at h <;> try contradiction
  next bundle hbundle =>
  split at h <;> try contradiction
  next hlist =>
  split at h <;> try contradiction
  next first off hplace =>
  cases h
  exact ⟨bundle, first, off, hbundle, hlist, hplace, rfl, rfl⟩

section Place

variable {a' : Allocator}

theorem lies_of_place (ht : a.target.Usable) (hw : 0 < width.toInt)
    (h : a.place name width isBool = .ok (r, a')) : r.Lies a.target := by
  obtain ⟨bundle, first, off, hbundle, hlist, hplace, rfl, -⟩ := place_eq_ok h
  have hone : (1 : Int64).toInt = 2 ^ 0 := rfl
  obtain ⟨hpower, hle, -⟩ := bundleFrom_eq_some ht hone hbundle
  obtain ⟨hfirst, hoffset⟩ := freePlace_eq_some hplace
  exact lies_registerAt ht hpower hle hw (le_roundUp hw (Limits.canList_iff.1 hlist).1) hfirst
    (freeOffset_eq_some hoffset).1

theorem free_of_place (hw : 0 < width.toInt) (h : a.place name width isBool = .ok (r, a')) :
    a' = a.give name (roundUp width) r ∧
      a.isFree (span a.target r.number r.bundle r.low (roundUp width)) = true ∧
      ∀ p ∈ a.target.bits r, p ∈ span a.target r.number r.bundle r.low (roundUp width) := by
  obtain ⟨bundle, first, off, -, hlist, hplace, rfl, rfl⟩ := place_eq_ok h
  have hround := le_roundUp hw (Limits.canList_iff.1 hlist).1
  refine ⟨rfl, (freeOffset_eq_some (freePlace_eq_some hplace).2).2, fun p hp => ?_⟩
  obtain ⟨i, hi, hbit⟩ := mem_span.1 (mem_bits_registerAt.1 hp)
  exact mem_span.2 ⟨i, by omega, hbit⟩

end Place

/-- A name that gets a register owned it, or had none and is placed. -/
theorem allocate_eq_ok {declared minimum : Int64} {a' : Allocator}
    (h : a.allocate name declared minimum isBool = .ok (r, a')) :
    (a.lookup name = some r ∧ a' = a) ∨
      (a.lookup name = none ∧ 0 < declared.toInt ∧
        a.place name declared isBool = .ok (r, a')) := by
  unfold allocate at h
  split at h
  · next hlookup =>
    cases h
    exact Or.inl ⟨hlookup, rfl⟩
  · next hlookup =>
    split at h <;> try contradiction
    split at h <;> try contradiction
    next hpos =>
    rw [Int64.not_le, Int64.lt_iff_toInt_lt, Int64.toInt_zero] at hpos
    exact Or.inr ⟨hlookup, hpos, h⟩

/-! ## Giving -/

section Give

theorem lookup_give_self (hnew : a.lookup name = none) (bits : Int64) (r : Register) :
    (a.give name bits r).lookup name = some r := by
  rw [lookup, Allocator.give, List.lookup_append, ← lookup, hnew]
  simp

theorem taken_give (ha : ∀ o ∈ a.owners, ∀ p ∈ a.target.bits o.2, p ∈ a.used)
    (hsub : ∀ p ∈ a.target.bits r, p ∈ span a.target r.number r.bundle r.low bits) :
    ∀ o ∈ (a.give name bits r).owners, ∀ p ∈ a.target.bits o.2, p ∈ (a.give name bits r).used := by
  intro o ho p hp
  rcases List.mem_append.1 ho with ho | ho
  · exact List.mem_append_left _ (ha o ho p hp)
  · cases List.mem_singleton.1 ho
    exact List.mem_append_right _ (hsub p hp)

/-- A new register on free bits lies off every other one. -/
theorem disjoint_give (ha : ∀ o ∈ a.owners, ∀ p ∈ a.target.bits o.2, p ∈ a.used)
    (hdisjoint : a.owners.Pairwise fun o o' => (a.target.bits o.2).Disjoint (a.target.bits o'.2))
    (hfree : a.isFree (span a.target r.number r.bundle r.low bits) = true)
    (hsub : ∀ p ∈ a.target.bits r, p ∈ span a.target r.number r.bundle r.low bits) :
    (a.give name bits r).owners.Pairwise fun o o' =>
      (a.target.bits o.2).Disjoint (a.target.bits o'.2) := by
  refine List.pairwise_append.2 ⟨hdisjoint, List.pairwise_singleton _ _, ?_⟩
  intro o ho o' ho' p hp hp'
  cases List.mem_singleton.1 ho'
  have hnew := List.all_eq_true.1 hfree p (hsub p hp')
  simp [ha o ho p hp] at hnew

end Give

/-! ## Runs -/

/-- A call for a register. -/
structure Request where
  name : Text
  declared : Int64
  minimum : Int64
  isBool : Bool

/-- The register file after a call; a call that fails leaves it as it is. -/
def take (a : Allocator) (q : Request) : Allocator :=
  match a.allocate q.name q.declared q.minimum q.isBool with
  | .ok (_, a') => a'
  | .error _ => a

/-- The register file after a sequence of calls. -/
def serve (a : Allocator) (qs : List Request) : Allocator := qs.foldl take a

/-- The registers given out lie in the register file, on taken bits, and off each other. -/
structure Sound (t : Target) (a : Allocator) : Prop where
  target_eq : a.target = t
  lies : ∀ o ∈ a.owners, o.2.Lies t
  taken : ∀ o ∈ a.owners, ∀ p ∈ t.bits o.2, p ∈ a.used
  disjoint : a.owners.Pairwise fun o o' => (t.bits o.2).Disjoint (t.bits o'.2)

theorem sound_fresh (t : Target) : Sound t (fresh t) :=
  ⟨rfl, nofun, nofun, List.Pairwise.nil⟩

theorem Sound.give (ha : Sound t a) (hr : r.Lies t)
    (hfree : a.isFree (span t r.number r.bundle r.low bits) = true)
    (hsub : ∀ p ∈ t.bits r, p ∈ span t r.number r.bundle r.low bits) :
    Sound t (a.give name bits r) := by
  obtain rfl := ha.target_eq
  refine ⟨rfl, ?_, taken_give ha.taken hsub, disjoint_give ha.taken ha.disjoint hfree hsub⟩
  intro o ho
  rcases List.mem_append.1 ho with ho | ho
  · exact ha.lies o ho
  · cases List.mem_singleton.1 ho
    exact hr

/-- A call leaves the register file as it is, or places a new name. -/
theorem take_eq_or_place (a : Allocator) (q : Request) :
    a.take q = a ∨ a.lookup q.name = none ∧ 0 < q.declared.toInt ∧
      ∃ r, a.place q.name q.declared q.isBool = .ok (r, a.take q) := by
  unfold Allocator.take
  split
  · next r a' hcall =>
    rcases allocate_eq_ok hcall with ⟨-, rfl⟩ | ⟨hnew, hpos, hplace⟩
    · exact Or.inl rfl
    · exact Or.inr ⟨hnew, hpos, r, hplace⟩
  · exact Or.inl rfl

theorem Sound.take (ht : t.Usable) (ha : Sound t a) (q : Request) : Sound t (a.take q) := by
  rcases a.take_eq_or_place q with heq | ⟨-, hpos, r, hplace⟩
  · rw [heq]
    exact ha
  · obtain rfl := ha.target_eq
    obtain ⟨heq, hfree, hsub⟩ := free_of_place hpos hplace
    rw [heq]
    exact ha.give (lies_of_place ht hpos hplace) hfree hsub

theorem Sound.serve (ht : t.Usable) (ha : Sound t a) (qs : List Request) :
    Sound t (a.serve qs) := by
  induction qs generalizing a with
  | nil => exact ha
  | cons q qs ih => exact ih (ha.take ht q)

/-- **Registers do not overlap.**  After any sequence of calls on an empty register file, registers
of different names have no place in common.  Each lies in the register file and inside its bundle,
and its places are those that the switch computes from its name. -/
theorem serve_disjoint {t : Target} (h : t.validate = .ok ())
    (hbits : t.registers.toInt * t.registerWidth.toInt < 2 ^ 63) (qs : List Request) :
    (∀ r ∈ ((fresh t).serve qs).allocated, ∀ s ∈ ((fresh t).serve qs).allocated,
      r.owner ≠ s.owner → (t.bits r).Disjoint (t.bits s)) ∧
    ∀ r ∈ ((fresh t).serve qs).allocated,
      (∀ p ∈ t.bits r, 0 ≤ p ∧ p < t.totalBits) ∧ (0 ≤ r.low ∧ r.low ≤ r.high ∧ r.high < r.size) ∧
        t.placesNamed r.baseName r.low.toInt r.high.toInt =
          some ((t.bits r).map Int64.toInt) := by
  have ht := Target.usable_of_validate h hbits
  have hsound := (sound_fresh t).serve ht qs
  constructor
  · intro r hr s hs hne
    obtain ⟨o, ho, rfl⟩ := List.mem_map.1 hr
    obtain ⟨o', ho', rfl⟩ := List.mem_map.1 hs
    have hsymm : Std.Symm fun o o' : Text × Register => (t.bits o.2).Disjoint (t.bits o'.2) :=
      ⟨fun _ _ hd => List.disjoint_symm hd⟩
    exact hsound.disjoint.forall ho ho' fun heq => hne (by rw [heq])
  · intro r hr
    obtain ⟨o, ho, rfl⟩ := List.mem_map.1 hr
    have hlies := hsound.lies o ho
    refine ⟨fun p hp => hlies.mem_bits ht hp, ?_, hlies.placesNamed_baseName ht⟩
    rw [Int64.le_iff_toInt_le, Int64.le_iff_toInt_le, Int64.lt_iff_toInt_lt]
    exact ⟨hlies.low_nonneg, hlies.low_le_high, hlies.high_lt_size⟩

/-- A byte, a value that needs two base registers, one name again, and a value beside the byte. -/
def sampleRequests : List Request :=
  [⟨"a", 8, 8, false⟩, ⟨"b", 40, 40, false⟩, ⟨"a", 16, 16, false⟩, ⟨"c", 1, 1, true⟩]

theorem serve_disjoint_sampleRequests :
    ((fresh {}).serve sampleRequests).allocated.map (fun r => (r.owner, r.baseName, r.low)) =
        [("a", "reg0", 0), ("b", "xreg1", 0), ("c", "reg0", 8)] ∧
      ∀ r ∈ ((fresh {}).serve sampleRequests).allocated,
        ∀ s ∈ ((fresh {}).serve sampleRequests).allocated,
          r.owner ≠ s.owner → (Target.bits {} r).Disjoint (Target.bits {} s) :=
  ⟨by decide +kernel, (serve_disjoint (by decide) (by decide) sampleRequests).1⟩

end Flowline.Switch.Allocator
