import Flowline.Proofs.Switch.Storing
import Flowline.Proofs.Switch.Vacancy
import Mathlib.Algebra.BigOperators.Group.List.Basic
import Mathlib.Order.Interval.Finset.Nat
import Mathlib.Data.Int.Interval

/-!
# First fit

A call for a register is answered by the first vacant range of the smallest bundle that holds the
value, and refused only if there is none (`Allocator.FirstFit`).  A name that owns a register gets
it again, and a call that is refused changes nothing.

The search lists the places of a range before it looks whether they are taken.  So a value that some
bundle holds has no answer at all if its places are too many for a list (`Target.Unlistable`), be
there a vacant range for it or not; this is the one way in which first fit goes wrong.

What a call can do to a register file is said once, in `Allocator.Outcome`, one case for each way
through the search; all else is read off there.

## Counting free bits

The number of free bits is computed from the length of a list of places, so it is right only if no
place is listed twice.  A bundle has no place twice and a vacant range has no taken place, so the
list grows by the size of the range with each register (`Allocator.Accounted`).
-/

namespace Flowline.Switch

open Allocator in
/-- Some bundle holds the bits, but their places are too many for a list. -/
def Target.Unlistable (t : Target) (bits : Int) : Prop :=
  (t.bundles bits).Nonempty ∧ t.limits.places.toInt < bits

namespace Allocator

variable {q : Request} {bundle first off width : Int64} {t : Target} {a : Allocator}

/-! ## One call -/

/-- A range that a value of a width is given: the first vacant one in the smallest bundle that holds
the value. -/
structure Suits (a : Allocator) (width bundle first off : Int64) : Prop where
  bundle_least : IsLeast (a.target.bundles (wholeBytes width.toInt)) bundle.toInt
  range_least : IsLeast (a.vacancies bundle.toInt (wholeBytes width.toInt))
    (toLex (first.toInt, off.toInt))

namespace Suits

variable (h : a.Suits width bundle first off)

include h

theorem vacant : a.Vacant bundle.toInt (wholeBytes width.toInt) first.toInt off.toInt :=
  h.range_least.1

theorem bundle_pos : 0 < bundle.toInt := by
  obtain ⟨c, hc⟩ := h.bundle_least.1.1
  rw [hc]
  positivity

theorem first_nonneg : 0 ≤ first.toInt := by
  obtain ⟨i, hi⟩ := h.vacant.aligned
  rw [hi]
  exact Int.mul_nonneg h.bundle_pos.le (Int.natCast_nonneg i)

theorem off_nonneg : 0 ≤ off.toInt := by
  obtain ⟨j, hj⟩ := h.vacant.bytes
  omega

end Suits

/-- Words that are not negative are listed up to the limit. -/
theorem canList_roundUp_iff {l : Limits} (hw : 0 < width.toInt)
    (hfits : width.toInt + 7 < 2 ^ 63) :
    l.canList (roundUp width) = true ↔ wholeBytes width.toInt ≤ l.places.toInt := by
  have hbytes : 0 ≤ wholeBytes width.toInt := by
    rw [wholeBytes]
    omega
  rw [Limits.canList_iff, roundUp_eq_wholeBytes hw hfits]
  exact and_iff_right hbytes

/-- A value is placed at the range that suits it, if there is one and its places can be listed. -/
theorem place_cases (ht : a.target.Usable) (name : Text) (isBool : Bool) (hw : 0 < width.toInt)
    (hfits : width.toInt + 7 < 2 ^ 63) :
    (∃ bundle first off, a.Suits width bundle first off ∧
      ¬ a.target.Unlistable (wholeBytes width.toInt) ∧ a.place name width isBool =
      .ok (registerAt a.target name bundle first off width isBool,
        a.give name (roundUp width) (registerAt a.target name bundle first off width isBool))) ∨
    (a.place name width isBool = .error (a.exhausted name width) ∧
      ¬ a.target.Unlistable (wholeBytes width.toInt) ∧
      ∀ b, IsLeast (a.target.bundles (wholeBytes width.toInt)) b →
        a.vacancies b (wholeBytes width.toInt) = ∅) ∨
    (a.place name width isBool = .error (.fault .spanLength) ∧
      a.target.Unlistable (wholeBytes width.toInt)) := by
  have hround := roundUp_eq_wholeBytes hw hfits
  have hlist := canList_roundUp_iff (l := a.target.limits) hw hfits
  unfold place
  dsimp only
  rcases bundleFor_cases ht (roundUp width) with ⟨bundle, hfound, hleast⟩ | ⟨hfound, hempty⟩
  · rw [hround] at hleast
    have hpos : 0 < bundle.toInt := by
      obtain ⟨c, hc⟩ := hleast.1.1
      rw [hc]
      positivity
    have hle : bundle.toInt ≤ a.target.registers.toInt := hleast.1.2.1.trans ht.maxBundle_le
    simp only [hfound]
    split
    · next hshort =>
      have hlistable : ¬ a.target.Unlistable (wholeBytes width.toInt) := fun h =>
        absurd (hlist.1 hshort) (not_le.2 h.2)
      rcases freePlace_cases ht hpos hle (Limits.canList_iff.1 hshort).1 with
        ⟨first, off, hplace, hrange⟩ | ⟨hplace, hnone⟩
      · rw [hround] at hrange
        simp only [hplace]
        exact Or.inl ⟨bundle, first, off, ⟨hleast, hrange⟩, hlistable, rfl⟩
      · rw [hround] at hnone
        simp only [hplace]
        refine Or.inr (Or.inl ⟨trivial, hlistable, fun b hb => ?_⟩)
        rwa [hb.unique hleast]
    · next hlong =>
      exact Or.inr (Or.inr ⟨rfl, ⟨_, hleast.1⟩, not_le.1 (mt hlist.2 hlong)⟩)
  · rw [hround] at hempty
    simp only [hfound]
    refine Or.inr (Or.inl ⟨trivial, fun h => ?_, fun b hb => ?_⟩)
    · exact absurd h.1 (hempty ▸ Set.not_nonempty_empty)
    · exact absurd hb.1 (hempty ▸ Set.notMem_empty b)

/-- Only widths that can be rounded up are placed. -/
theorem place_ne_ok {name : Text} {isBool : Bool} (hwide : 2 ^ 63 ≤ width.toInt + 7)
    (x : Register × Allocator) : a.place name width isBool ≠ .ok x := by
  intro h
  obtain ⟨-, -, -, -, hlist, -⟩ := place_eq_ok h
  exact absurd (Limits.canList_iff.1 hlist).1 (not_le.2 (roundUp_neg hwide))

/-! ## One call -/

/-- The answer to a call. -/
def answer (a : Allocator) (q : Request) : Except Problem (Register × Allocator) :=
  a.allocate q.name q.declared q.minimum q.isBool

/-- A call asks for a positive number of bits, and its widths agree. -/
structure Request.Sensible (q : Request) : Prop where
  agree : q.declared = q.minimum
  pos : 0 < q.declared.toInt

/-- What a call can be answered. -/
inductive Outcome (a : Allocator) (q : Request) : Except Problem (Register × Allocator) → Prop where
  /-- The name owns a register, and nothing changes. -/
  | owned {r : Register} (hold : a.lookup q.name = some r) : Outcome a q (.ok (r, a))
  | unsupported (hnew : a.lookup q.name = none) (hbad : ¬ q.Sensible) (reason : Text) :
    Outcome a q (.error (.unsupported q.name reason))
  /-- The range that suits the value is given to the name. -/
  | placed (hnew : a.lookup q.name = none) (hq : q.Sensible)
      (hfits : q.declared.toInt + 7 < 2 ^ 63)
      (hlistable : ¬ a.target.Unlistable (wholeBytes q.declared.toInt)) {bundle first off : Int64}
      (hsuits : a.Suits q.declared bundle first off) :
    Outcome a q (.ok (registerAt a.target q.name bundle first off q.declared q.isBool,
      a.give q.name (roundUp q.declared)
        (registerAt a.target q.name bundle first off q.declared q.isBool)))
  /-- No range suits the value. -/
  | exhausted (hnew : a.lookup q.name = none) (hq : q.Sensible)
      (hlistable : ¬ a.target.Unlistable (wholeBytes q.declared.toInt))
      (hnone : ∀ b, IsLeast (a.target.bundles (wholeBytes q.declared.toInt)) b →
        a.vacancies b (wholeBytes q.declared.toInt) = ∅) :
    Outcome a q (.error (a.exhausted q.name q.declared))
  /-- The places of the value are too many for a list. -/
  | unlistable (hnew : a.lookup q.name = none) (hq : q.Sensible)
      (hlong : a.target.Unlistable (wholeBytes q.declared.toInt)) :
    Outcome a q (.error (.fault .spanLength))
  /-- The width cannot be rounded up. -/
  | wide (hwide : 2 ^ 63 ≤ q.declared.toInt + 7) (p : Problem) : Outcome a q (.error p)

theorem answer_of_owned {r : Register} (hold : a.lookup q.name = some r) :
    a.answer q = .ok (r, a) := by
  rw [answer, allocate, hold]

theorem answer_of_not_sensible (hnew : a.lookup q.name = none) (hbad : ¬ q.Sensible) :
    ∃ reason, a.answer q = .error (.unsupported q.name reason) := by
  rw [answer, allocate, hnew]
  dsimp only
  split
  · exact ⟨_, rfl⟩
  · next heq =>
    have hle : q.declared ≤ 0 := by
      rw [← Int64.not_lt, Int64.lt_iff_toInt_lt, Int64.toInt_zero]
      exact fun hpos => hbad ⟨not_ne_iff.1 heq, hpos⟩
    rw [if_pos hle]
    exact ⟨_, rfl⟩

theorem answer_of_sensible (hnew : a.lookup q.name = none) (hq : q.Sensible) :
    a.answer q = a.place q.name q.declared q.isBool := by
  have hpos : ¬ q.declared ≤ 0 := by
    rw [Int64.not_le, Int64.lt_iff_toInt_lt, Int64.toInt_zero]
    exact hq.pos
  rw [answer, allocate, hnew]
  dsimp only
  rw [if_neg (not_ne_iff.2 hq.agree), if_neg hpos]

/-- Every call is answered in one of these ways. -/
theorem outcome (ht : a.target.Usable) (q : Request) : a.Outcome q (a.answer q) := by
  cases hlookup : a.lookup q.name with
  | some r =>
    rw [answer_of_owned hlookup]
    exact .owned hlookup
  | none =>
    by_cases hq : q.Sensible
    · rw [answer_of_sensible hlookup hq]
      rcases lt_or_ge (q.declared.toInt + 7) (2 ^ 63) with hfits | hwide
      · rcases place_cases ht q.name q.isBool hq.pos hfits with
          ⟨bundle, first, off, hsuits, hlistable, hplace⟩ | ⟨hplace, hlistable, hnone⟩ |
            ⟨hplace, hlong⟩
        · rw [hplace]
          exact .placed hlookup hq hfits hlistable hsuits
        · rw [hplace]
          exact .exhausted hlookup hq hlistable hnone
        · rw [hplace]
          exact .unlistable hlookup hq hlong
      · cases hplace : a.place q.name q.declared q.isBool with
        | ok x => exact absurd hplace (place_ne_ok hwide x)
        | error p => exact .wide hwide p
    · obtain ⟨reason, hanswer⟩ := answer_of_not_sensible hlookup hq
      rw [hanswer]
      exact .unsupported hlookup hq reason

theorem take_eq (a : Allocator) (q : Request) :
    a.take q = match a.answer q with
      | .ok (_, a') => a'
      | .error _ => a :=
  rfl

/-- A call leaves the register file as it is, or gives a new name the range that suits it. -/
theorem take_cases (ht : a.target.Usable) (q : Request) :
    a.take q = a ∨ ∃ bundle first off, a.Suits q.declared bundle first off ∧ q.Sensible ∧
      q.declared.toInt + 7 < 2 ^ 63 ∧
      a.take q = a.give q.name (roundUp q.declared)
        (registerAt a.target q.name bundle first off q.declared q.isBool) := by
  have h := outcome ht q
  rw [take_eq]
  generalize a.answer q = x at h
  cases h with
  | owned | unsupported => exact Or.inl rfl
  | placed _ hq hfits _ hsuits => exact Or.inr ⟨_, _, _, hsuits, hq, hfits, rfl⟩
  | exhausted | unlistable | wide => exact Or.inl rfl

/-! ## Counting free bits -/

theorem width_registerAt (t : Target) (name : Text) (bundle first off width : Int64)
    (isBool : Bool) : (registerAt t name bundle first off width isBool).width = width := by
  simp only [registerAt, Register.width]
  grind

theorem length_span (t : Target) (first bundle off bits : Int64) :
    (span t first bundle off bits).length = bits.toInt.toNat := by
  have hwidth : off + bits - 1 - off + 1 = bits := by grind
  simp only [span, Target.bits, Register.width, hwidth, List.length_map, List.length_range]

theorem nodup_span (ht : t.Usable) {bits : Int64} (hbits : 0 < bits.toInt) (hoff : 0 ≤ off.toInt)
    (hroom : off.toInt + bits.toInt ≤ (bundle * t.registerWidth).toInt) :
    (span t first bundle off bits).Nodup := by
  have hlt := (bundle * t.registerWidth).toInt_lt
  have hhigh : (off + bits - 1).toInt = off.toInt + bits.toInt - 1 :=
    Word.toInt_add_pred (by omega) (by omega)
  have hinside : (registerAt t "" bundle first off bits false).Inside := by
    refine ⟨hoff, ?_⟩
    show (off + bits - 1).toInt < (bundle * t.registerWidth).toInt
    omega
  exact (Register.nodup_places ht.width_pos hinside ⟨hbits, hhigh⟩ rfl).of_map _

/-- No place is listed twice, places lie in the register file, and there are as many as the
registers take in whole bytes. -/
structure Accounted (t : Target) (a : Allocator) : Prop where
  target_eq : a.target = t
  nodup : a.used.Nodup
  inFile : ∀ p ∈ a.used, 0 ≤ p.toInt ∧ p.toInt < t.registers.toInt * t.registerWidth.toInt
  length_eq : (a.used.length : Int) = (a.allocated.map fun r => wholeBytes r.width.toInt).sum

theorem accounted_fresh (t : Target) : Accounted t (fresh t) :=
  ⟨rfl, List.nodup_nil, List.forall_mem_nil _, rfl⟩

section

variable (ht : a.target.Usable) (h : a.Suits width bundle first off) (hw : 0 < width.toInt)
  (hfits : width.toInt + 7 < 2 ^ 63)

include ht h hw hfits

theorem Suits.mem_span_iff {p : Int} :
    (∃ w ∈ span a.target first bundle off (roundUp width), w.toInt = p) ↔
      p ∈ a.target.places bundle.toInt (wholeBytes width.toInt) first.toInt off.toInt := by
  have hround := roundUp_eq_wholeBytes hw hfits
  rw [← hround]
  refine mem_map_toInt_span ht h.first_nonneg h.bundle_pos.le h.vacant.fits h.off_nonneg ?_
  rw [hround]
  exact h.vacant.inside

theorem Suits.notMem_used : ∀ p ∈ span a.target first bundle off (roundUp width), p ∉ a.used := by
  intro p hp hused
  obtain ⟨k, hle, hlt, heq⟩ := (h.mem_span_iff ht hw hfits).1 ⟨p, hp, rfl⟩
  refine h.vacant.free k hle hlt ?_
  rw [heq]
  exact toInt_mem_taken.2 hused

theorem Suits.inFile :
    ∀ p ∈ span a.target first bundle off (roundUp width),
      0 ≤ p.toInt ∧ p.toInt < a.target.registers.toInt * a.target.registerWidth.toInt := by
  intro p hp
  obtain ⟨k, hle, hlt, heq⟩ := (h.mem_span_iff ht hw hfits).1 ⟨p, hp, rfl⟩
  have hoff := h.off_nonneg
  have hinside := h.vacant.inside
  have hbounds := placeOf_bounds first.toInt ht.width_pos (k := k) (by omega)
    (show k < bundle.toInt * _ by omega)
  have hfirst := Int.mul_nonneg h.first_nonneg ht.width_pos.le
  have hlast := ht.mul_width_le h.vacant.fits
  rw [← heq]
  omega

end

/-- A register for a value keeps the account. -/
theorem Accounted.give (ht : t.Usable) (ha : Accounted t a) (hq : q.Sensible)
    (hfits : q.declared.toInt + 7 < 2 ^ 63) (h : a.Suits q.declared bundle first off) :
    Accounted t (a.give q.name (roundUp q.declared)
      (registerAt a.target q.name bundle first off q.declared q.isBool)) := by
  obtain rfl := ha.target_eq
  have hround := roundUp_eq_wholeBytes hq.pos hfits
  have hbytes : 0 < wholeBytes q.declared.toInt := by
    rw [wholeBytes]
    have := hq.pos
    omega
  refine ⟨rfl, ?_, ?_, ?_⟩
  · refine ha.nodup.append (nodup_span ht (by omega) h.off_nonneg ?_) ?_
    · show off.toInt + (roundUp q.declared).toInt ≤ (bundle * a.target.registerWidth).toInt
      rw [hround, ht.mul_toInt h.bundle_pos.le (h.bundle_least.1.2.1.trans ht.maxBundle_le)]
      exact h.vacant.inside
    · exact List.disjoint_right.2 (h.notMem_used ht hq.pos hfits)
  · intro p hp
    rcases List.mem_append.1 hp with hp | hp
    · exact ha.inFile p hp
    · exact h.inFile ht hq.pos hfits p hp
  · rw [Allocator.give, allocated, List.map_append, List.map_append, List.sum_append,
      List.length_append, Nat.cast_add, ha.length_eq, allocated]
    congr 1
    show ((span a.target first bundle off (roundUp q.declared)).length : Int) = _
    rw [length_span, List.map_singleton, List.map_singleton, List.sum_singleton, width_registerAt,
      Int.toNat_of_nonneg (by omega), hround]

theorem Accounted.take (ht : t.Usable) (ha : Accounted t a) (q : Request) :
    Accounted t (a.take q) := by
  rcases take_cases (ha.target_eq ▸ ht) q with heq | ⟨bundle, first, off, hsuits, hq, hfits, heq⟩
  · rw [heq]
    exact ha
  · rw [heq]
    exact ha.give ht hq hfits hsuits

theorem Accounted.serve (ht : t.Usable) (ha : Accounted t a) (qs : List Request) :
    Accounted t (a.serve qs) := by
  induction qs generalizing a with
  | nil => exact ha
  | cons q qs ih => exact ih (ha.take ht q)

/-- There are no more taken places than places. -/
theorem Accounted.length_le (ht : t.Usable) (ha : Accounted t a) :
    (a.used.length : Int) ≤ t.registers.toInt * t.registerWidth.toInt := by
  have hnodup : (a.used.map Int64.toInt).Nodup :=
    ha.nodup.map fun _ _ h => Int64.toInt_inj.1 h
  have hsub : (a.used.map Int64.toInt).toFinset ⊆
      Finset.Ico 0 (t.registers.toInt * t.registerWidth.toInt) := by
    intro p hp
    rw [List.mem_toFinset] at hp
    obtain ⟨w, hw, rfl⟩ := List.mem_map.1 hp
    exact Finset.mem_Ico.2 (ha.inFile w hw)
  have hcard := Finset.card_le_card hsub
  rw [List.toFinset_card_of_nodup hnodup, List.length_map, Int.card_Ico, sub_zero] at hcard
  have := Int.mul_pos ht.registers_pos ht.width_pos
  omega

/-- The free bits are those that the registers leave over. -/
theorem Accounted.freeBits_eq (ht : t.Usable) (ha : Accounted t a) :
    a.freeBits.toInt =
      t.totalBits.toInt - (a.allocated.map fun r => wholeBytes r.width.toInt).sum := by
  have hle := ha.length_le ht
  have hlt := ht.bits_lt
  have htotal := ht.totalBits_toInt
  have hofNat : (Int64.ofNat a.used.length).toInt = a.used.length := Word.toInt_ofNat (by omega)
  unfold freeBits
  rw [ha.target_eq, Word.toInt_sub (by omega) (by omega), hofNat, ha.length_eq]

/-! ## The whole search -/

theorem lookup_give_of_ne {name name' : Text} (hne : name' ≠ name) (bits : Int64) (r : Register) :
    (a.give name bits r).lookup name' = a.lookup name' := by
  rw [lookup, Allocator.give, List.lookup_append, ← lookup, List.lookup_cons,
    beq_false_of_ne hne]
  simp

/-- A call is answered by first fit. -/
structure FirstFit (a : Allocator) (q : Request) : Prop where
  /-- A name that owns a register gets it again, and nothing changes. -/
  owned : ∀ r, a.lookup q.name = some r → a.answer q = .ok (r, a)
  /-- A new name gets a register if its widths are sensible, the places of the value can be listed,
  and the smallest bundle that holds the value has a vacant range. -/
  served_iff : a.lookup q.name = none →
    ((∃ r a', a.answer q = .ok (r, a')) ↔
      q.Sensible ∧ ¬ a.target.Unlistable (wholeBytes q.declared.toInt) ∧
        ∃ b, IsLeast (a.target.bundles (wholeBytes q.declared.toInt)) b ∧
          (a.vacancies b (wholeBytes q.declared.toInt)).Nonempty)
  /-- The register is at the first vacant range, which is now taken, and has the width asked for. -/
  served : a.lookup q.name = none → ∀ r a', a.answer q = .ok (r, a') →
    IsLeast (a.target.bundles (wholeBytes q.declared.toInt)) r.bundle.toInt ∧
    IsLeast (a.vacancies r.bundle.toInt (wholeBytes q.declared.toInt))
      (toLex (r.number.toInt, r.low.toInt)) ∧
    a'.taken = a.taken ∪ a.target.places r.bundle.toInt (wholeBytes q.declared.toInt)
      r.number.toInt r.low.toInt ∧
    r.width = q.declared ∧ a'.lookup q.name = some r ∧
    ∀ name ≠ q.name, a'.lookup name = a.lookup name
  /-- A call that is refused changes nothing. -/
  refused : ∀ p, a.answer q = .error p → a.take q = a ∧
    (¬ q.Sensible → ∃ reason, p = .unsupported q.name reason) ∧
    (q.Sensible → ¬ a.target.Unlistable (wholeBytes q.declared.toInt) →
      p = a.exhausted q.name q.declared)
  /-- A call for a new name has no answer exactly if the places of the value cannot be listed. -/
  crashed_iff : (∃ f, a.answer q = .error (.fault f)) ↔
    a.lookup q.name = none ∧ q.Sensible ∧ a.target.Unlistable (wholeBytes q.declared.toInt)

theorem Suits.taken_give (ht : a.target.Usable) (h : a.Suits width bundle first off)
    (hw : 0 < width.toInt) (hfits : width.toInt + 7 < 2 ^ 63) (name : Text) (isBool : Bool) :
    (a.give name (roundUp width) (registerAt a.target name bundle first off width isBool)).taken =
      a.taken ∪ a.target.places bundle.toInt (wholeBytes width.toInt) first.toInt off.toInt := by
  ext p
  rw [Set.mem_union, ← h.mem_span_iff ht hw hfits]
  simp only [taken, Allocator.give, List.mem_append, Set.mem_ofPred_eq, or_and_right, exists_or]
  rfl

/-- A call for a new name that is refused. -/
theorem firstFit_error {p : Problem} (hnew : a.lookup q.name = none) (hp : a.answer q = .error p)
    (hnone : q.Sensible → ¬ a.target.Unlistable (wholeBytes q.declared.toInt) →
      (∀ b, IsLeast (a.target.bundles (wholeBytes q.declared.toInt)) b →
        a.vacancies b (wholeBytes q.declared.toInt) = ∅) ∧ p = a.exhausted q.name q.declared)
    (hbad : ¬ q.Sensible → ∃ reason, p = .unsupported q.name reason)
    (hfault : (∃ f, p = .fault f) ↔
      q.Sensible ∧ a.target.Unlistable (wholeBytes q.declared.toInt)) : a.FirstFit q where
  owned r hold := by simp [hnew] at hold
  served_iff _ := by
    rw [hp]
    refine iff_of_false nofun ?_
    rintro ⟨hq, hlistable, b, hb, hvacant⟩
    rw [(hnone hq hlistable).1 b hb] at hvacant
    exact Set.not_nonempty_empty hvacant
  served _ r a' heq := by simp [hp] at heq
  refused p' heq := by
    cases hp.symm.trans heq
    exact ⟨by rw [take_eq, hp], hbad, fun hq hlistable => (hnone hq hlistable).2⟩
  crashed_iff := by simp [hp, hnew, hfault]

theorem firstFit_answer (ht : a.target.Usable) (hfits : q.declared.toInt + 7 < 2 ^ 63) :
    a.FirstFit q := by
  have h := outcome ht q
  generalize hx : a.answer q = x at h
  cases h with
  | owned hold => constructor <;> simp [hx, hold]
  | unsupported hnew hbad reason =>
    exact firstFit_error hnew hx (absurd · hbad) (fun _ => ⟨reason, rfl⟩)
      (by simp [hbad, Problem.unsupported])
  | placed hnew hq _ hlistable hsuits =>
    refine ⟨by simp [hnew], fun _ => iff_of_true ⟨_, _, hx⟩ ?_, fun _ r a' heq => ?_, by simp [hx],
      by simp [hx, hlistable]⟩
    · exact ⟨hq, hlistable, _, hsuits.bundle_least, _, hsuits.range_least.1⟩
    · cases hx.symm.trans heq
      exact ⟨hsuits.bundle_least, hsuits.range_least, hsuits.taken_give ht hq.pos hfits _ _,
        width_registerAt _ _ _ _ _ _ _, lookup_give_self hnew _ _,
        fun name hne => lookup_give_of_ne hne _ _⟩
  | exhausted hnew hq hlistable hnone =>
    refine firstFit_error hnew hx (fun _ _ => ⟨hnone, rfl⟩) (absurd hq) ?_
    simp [exhausted, hlistable]
  | unlistable hnew hq hlong =>
    exact firstFit_error hnew hx (fun _ h => absurd hlong h) (absurd hq) (by simp [hq, hlong])
  | wide hwide => omega

/-- **First fit.**  On a register file that has served any calls, a call is answered by the first
vacant range of the smallest bundle that holds the value, and refused without a trace if there is
none, except that it has no answer if a bundle holds the value but its places are too many for a
list; and the free bits are all bits but those that the registers take in whole bytes. -/
theorem serve_firstFit {t : Target} (h : t.validate = .ok ())
    (hbits : t.registers.toInt * t.registerWidth.toInt < 2 ^ 63) (qs : List Request) :
    (∀ q : Request, q.declared.toInt + 7 < 2 ^ 63 → ((fresh t).serve qs).FirstFit q) ∧
    ((fresh t).serve qs).freeBits.toInt =
      t.totalBits.toInt -
        (((fresh t).serve qs).allocated.map fun r => wholeBytes r.width.toInt).sum := by
  have ht := Target.usable_of_validate h hbits
  have ha := (accounted_fresh t).serve ht qs
  have htarget : ((fresh t).serve qs).target.Usable := by
    rw [ha.target_eq]
    exact ht
  exact ⟨fun q hfits => firstFit_answer htarget hfits, ha.freeBits_eq ht⟩

theorem serve_firstFit_sampleRequests :
    ((fresh {}).serve sampleRequests).FirstFit ⟨"d", 24, 24, false⟩ ∧
      ((fresh {}).serve sampleRequests).FirstFit ⟨"e", 129, 129, false⟩ ∧
      ((fresh {}).serve sampleRequests).freeBits.toInt =
        (Target.totalBits {}).toInt -
          (((fresh {}).serve sampleRequests).allocated.map fun r => wholeBytes r.width.toInt).sum ∧
      ((fresh {}).serve sampleRequests).freeBits = 512 - (8 + 40 + 8) :=
  have h := serve_firstFit (t := {}) (by decide) (by decide) sampleRequests
  ⟨h.1 _ (by decide), h.1 _ (by decide), h.2, by decide +kernel⟩

/-- A switch of one base register, which has more bits than a list has places. -/
def loneTarget : Target := { registers := 1, registerWidth := 2305843009213693952, maxBundle := 1 }

/-- The smallest bundle that holds a value of all bits of the register has a vacant range, and yet
the first call has no answer. -/
theorem unlisted_loneTarget :
    loneTarget.validate = .ok () ∧
      loneTarget.registers.toInt * loneTarget.registerWidth.toInt < 2 ^ 63 ∧
      IsLeast (loneTarget.bundles 2305843009213693952) 1 ∧
      ((fresh loneTarget).vacancies 1 2305843009213693952).Nonempty ∧
      (fresh loneTarget).answer ⟨"x", 2305843009213693952, 2305843009213693952, false⟩ =
        .error (.fault .spanLength) := by
  refine ⟨by decide, by decide, ⟨⟨⟨0, rfl⟩, by decide, by decide⟩, ?_⟩, ⟨toLex (0, 0), ?_⟩,
    by decide +kernel⟩
  · rintro b ⟨⟨c, rfl⟩, -⟩
    exact one_le_pow₀ (by decide)
  · exact ⟨⟨0, rfl⟩, by decide, ⟨0, rfl⟩, by decide, by rintro k - - ⟨w, hw, -⟩; cases hw⟩

end Allocator

end Flowline.Switch
