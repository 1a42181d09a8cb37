import Flowline.Proofs.Switch.FirstFit

/-!
# Calls without an answer

Constants that pass the check need not describe a register file whose bits can be numbered, and a
call may ask for any number of bits.  Still, a register that is given out lies inside its bundle and
has the width that its name was declared with, and nearly every call ends in a register or in a
refusal.  The exceptions are exactly three (`Allocator.answered_iff`), all for new names whose widths
agree and are positive.

* Widths within seven bits of the end of the range of words turn negative when they are rounded up
  to bytes.  Every bundle seems to hold them, and the list of their bits has a negative length.
* Where a bundle of `2 ^ 62` base registers is allowed, doubling never passes the largest bundle: it
  goes on to the least word, and then to zero for ever.  This happens to widths that no bundle on
  the way holds, counted on words.
* The places of a range are listed before it is known whether they are taken.  Where a bundle holds
  more bits than the longest list has places, that list cannot be made.

The first and the third are one slip: nothing looks at the length of a list before it is made.  They
are kept apart because a width of the first kind seems to fit every bundle, while one of the third
kind must be held by one.
-/

namespace Flowline.Switch

/-- The search for a bundle doubles for ever: no word is larger than the largest bundle and no
bundle holds the bits. -/
def Target.Endless (t : Target) (bits : Int64) : Prop :=
  2 ^ 62 ≤ t.maxBundle.toInt ∧
    ∀ c ≤ 62, Int64.ofNat (2 ^ c) * t.registerWidth < bits

/-- A bundle holds the bits, counted on words, but their places are too many for a list. -/
def Target.Overlong (t : Target) (bits : Int64) : Prop :=
  t.limits.places < bits ∧
    ∃ c : Nat, 2 ^ c ≤ t.maxBundle.toInt ∧ bits ≤ Int64.ofNat (2 ^ c) * t.registerWidth

namespace Allocator

variable {t : Target} {a : Allocator}

/-! ## Doubling -/

theorem ofNat_two_pow_succ (c : Nat) : Int64.ofNat (2 ^ c) <<< 1 = Int64.ofNat (2 ^ (c + 1)) := by
  rw [Word.shiftLeft_one, pow_succ, Nat.mul_two, Int64.ofNat_add]

/-- The search for a bundle fails if all powers of two that it tries are allowed and too small. -/
theorem bundleFrom_eq_error_iff {bits : Int64} {n c : Nat} {f : Fault} :
    bundleFrom t bits n (Int64.ofNat (2 ^ c)) = .error f ↔
      f = .endlessSearch ∧ ∀ i < n, Int64.ofNat (2 ^ (c + i)) ≤ t.maxBundle ∧
        Int64.ofNat (2 ^ (c + i)) * t.registerWidth < bits := by
  induction n generalizing c with
  | zero => simp [bundleFrom, eq_comm]
  | succ n ih =>
    unfold bundleFrom
    split
    · next hle =>
      split
      · next hfit =>
        constructor
        · intro h
          cases h
        · rintro ⟨-, h⟩
          exact absurd hfit (Int64.not_le.2 (h 0 (Nat.succ_pos n)).2)
      · next hfit =>
        rw [ofNat_two_pow_succ, ih]
        refine and_congr_right fun _ => ⟨fun h i hi => ?_, fun h i hi => ?_⟩
        · cases i with
          | zero => exact ⟨hle, Int64.not_le.1 hfit⟩
          | succ i =>
            have := h i (by omega)
            rwa [Nat.add_assoc, Nat.add_comm 1 i] at this
        · have := h (i + 1) (by omega)
          rwa [← Nat.add_assoc, Nat.add_right_comm] at this
    · next hle =>
      constructor
      · intro h
        cases h
      · rintro ⟨-, h⟩
        exact absurd (h 0 (Nat.succ_pos n)).1 hle

/-- The search for a bundle succeeds at the first power of two that holds the bits, if all up to it
are allowed. -/
theorem exists_bundleFrom_iff {bits : Int64} {n c : Nat} :
    (∃ b, bundleFrom t bits n (Int64.ofNat (2 ^ c)) = .ok (some b)) ↔
      ∃ i < n, (∀ j ≤ i, Int64.ofNat (2 ^ (c + j)) ≤ t.maxBundle) ∧
        bits ≤ Int64.ofNat (2 ^ (c + i)) * t.registerWidth := by
  induction n generalizing c with
  | zero => simp [bundleFrom]
  | succ n ih =>
    have hshift : ∀ j, c + 1 + j = c + (j + 1) := fun j => by omega
    unfold bundleFrom
    split
    · next hle =>
      split
      · next hfit =>
        refine iff_of_true ⟨_, rfl⟩ ⟨0, Nat.succ_pos n, fun j hj => ?_, hfit⟩
        rw [Nat.le_zero.1 hj]
        exact hle
      · next hfit =>
        rw [ofNat_two_pow_succ, ih]
        simp only [hshift]
        constructor
        · rintro ⟨i, hi, hallowed, hholds⟩
          refine ⟨i + 1, Nat.succ_lt_succ hi, fun j hj => ?_, hholds⟩
          cases j with
          | zero => exact hle
          | succ j => exact hallowed j (Nat.le_of_succ_le_succ hj)
        · rintro ⟨i, hi, hallowed, hholds⟩
          cases i with
          | zero => exact absurd hholds hfit
          | succ i =>
            exact ⟨i, Nat.lt_of_succ_lt_succ hi, fun j hj => hallowed (j + 1) (by omega), hholds⟩
    · next hle =>
      refine iff_of_false ?_ ?_
      · rintro ⟨b, heq⟩
        cases heq
      · rintro ⟨i, -, hallowed, -⟩
        exact hle (hallowed 0 (Nat.zero_le i))

theorem toInt_ofNat_two_pow {c : Nat} (hc : c ≤ 62) : (Int64.ofNat (2 ^ c)).toInt = 2 ^ c := by
  have hpow : (2 : Int) ^ c ≤ 2 ^ 62 := pow_le_pow_right₀ (by omega) hc
  rw [Word.toInt_ofNat (by push_cast; omega)]
  push_cast
  rfl

section

variable (ht : t.Checked) {bits : Int64} (hbits : 0 < bits.toInt)

include ht

/-- Base registers are whole bytes, so the least word of them has no bits, counted on words. -/
theorem least_word_mul : Int64.ofNat (2 ^ 63) * t.registerWidth = 0 := by
  have hleast : (Int64.ofNat (2 ^ 63)).toInt = -2 ^ 63 := rfl
  have hbytes := ht.width_bytes
  rw [← Int64.toInt_inj, Int64.toInt_mul, hleast, Int64.toInt_zero]
  exact Int.bmod_eq_zero_of_dvd (by omega)

include hbits

/-- Behind the largest power of two come the least word and zero, which hold nothing. -/
theorem mul_lt_of_wrapped {i : Nat} (hge : 63 ≤ i) (hle : i ≤ 64) :
    Int64.ofNat (2 ^ i) * t.registerWidth < bits := by
  have hpos : 0 < bits := by
    rw [Int64.lt_iff_toInt_lt, Int64.toInt_zero]
    exact hbits
  have hcases : i = 63 ∨ i = 64 := by omega
  rcases hcases with rfl | rfl
  · rw [least_word_mul ht]
    exact hpos
  · have hzero : Int64.ofNat (2 ^ 64) = 0 := rfl
    rw [hzero, Int64.zero_mul]
    exact hpos

theorem bundleFor_eq_error_iff {f : Fault} :
    bundleFor t bits = .error f ↔ f = .endlessSearch ∧ t.Endless bits := by
  have hone : (1 : Int64) = Int64.ofNat (2 ^ 0) := rfl
  have hmax := ht.maxBundle_pos
  rw [bundleFor, hone, bundleFrom_eq_error_iff]
  simp only [Nat.zero_add]
  refine and_congr_right fun _ => ⟨fun h => ⟨?_, fun c hc => (h c (by omega)).2⟩, ?_⟩
  · exact Int64.le_iff_toInt_le.1 (h 62 (by omega)).1
  · rintro ⟨hlarge, hsmall⟩ i hi
    rcases Nat.lt_or_ge i 63 with hlt | hge
    · refine ⟨?_, hsmall i (by omega)⟩
      have hpow : (2 : Int) ^ i ≤ 2 ^ 62 := pow_le_pow_right₀ (by omega) (by omega)
      rw [Int64.le_iff_toInt_le, toInt_ofNat_two_pow (by omega)]
      exact hpow.trans hlarge
    · refine ⟨?_, mul_lt_of_wrapped ht hbits hge (by omega)⟩
      have hcases : i = 63 ∨ i = 64 := by omega
      rcases hcases with rfl | rfl
      · have hleast : (Int64.ofNat (2 ^ 63)).toInt = -2 ^ 63 := rfl
        rw [Int64.le_iff_toInt_le, hleast]
        omega
      · have hzero : (Int64.ofNat (2 ^ 64)).toInt = 0 := rfl
        rw [Int64.le_iff_toInt_le, hzero]
        exact hmax.le

theorem exists_bundleFor_iff :
    (∃ b, bundleFor t bits = .ok (some b)) ↔
      ∃ c : Nat, 2 ^ c ≤ t.maxBundle.toInt ∧ bits ≤ Int64.ofNat (2 ^ c) * t.registerWidth := by
  have hone : (1 : Int64) = Int64.ofNat (2 ^ 0) := rfl
  rw [bundleFor, hone, exists_bundleFrom_iff]
  simp only [Nat.zero_add]
  constructor
  · rintro ⟨i, hi, hallowed, hholds⟩
    have hlt : i < 63 := by
      by_contra hge
      exact absurd hholds (Int64.not_le.2 (mul_lt_of_wrapped ht hbits (by omega) (by omega)))
    refine ⟨i, ?_, hholds⟩
    have hle := Int64.le_iff_toInt_le.1 (hallowed i le_rfl)
    rwa [toInt_ofNat_two_pow (by omega)] at hle
  · rintro ⟨c, hle, hholds⟩
    have hlt : c < 63 := by
      by_contra hge
      have hpow : (2 : Int) ^ 63 ≤ 2 ^ c := pow_le_pow_right₀ (by omega) (by omega)
      have hbound := t.maxBundle.toInt_lt
      omega
    refine ⟨c, by omega, fun j hj => ?_, hholds⟩
    have hpow : (2 : Int) ^ j ≤ 2 ^ c := pow_le_pow_right₀ (by omega) hj
    rw [Int64.le_iff_toInt_le, toInt_ofNat_two_pow (by omega)]
    exact hpow.trans hle

end

/-! ## Placing -/

variable {name : Text} {width : Int64} {isBool : Bool}

/-- Widths that turn negative leave a range without a length. -/
theorem place_of_wide (ht : a.target.Checked) (hwide : 2 ^ 63 ≤ width.toInt + 7) :
    a.place name width isBool = .error (.fault .spanLength) := by
  have hneg := roundUp_neg hwide
  have hmax := ht.maxBundle_pos
  have hwidth := ht.width_pos
  have hbundle : bundleFor a.target (roundUp width) = .ok (some 1) := by
    have hone : (1 : Int64).toInt = 1 := rfl
    unfold bundleFor bundleFrom
    rw [if_pos (by rw [Int64.le_iff_toInt_le, hone]; omega), Int64.one_mul,
      if_pos (by rw [Int64.le_iff_toInt_le]; omega)]
  have hlist : ¬ a.target.limits.canList (roundUp width) = true := fun h =>
    absurd (Limits.canList_iff.1 h).1 (not_le.2 hneg)
  unfold place
  simp only [hbundle]
  rw [if_neg hlist]

variable (name isBool) in
/-- Other widths are placed or refused, unless the search for a bundle never ends or the places of
the value cannot be listed. -/
theorem place_cases_of_fits (ht : a.target.Checked) (hw : 0 < width.toInt)
    (hfits : width.toInt + 7 < 2 ^ 63) :
    ((a.target.Endless (roundUp width) ∨ a.target.Overlong (roundUp width)) ∧
      ∃ f, a.place name width isBool = .error (.fault f)) ∨
    (¬ (a.target.Endless (roundUp width) ∨ a.target.Overlong (roundUp width)) ∧
      ((∃ r a', a.place name width isBool = .ok (r, a')) ∨
        a.place name width isBool = .error (a.exhausted name width))) := by
  have hround := roundUp_eq_wholeBytes hw hfits
  have hbits : 0 < (roundUp width).toInt := by
    rw [hround, wholeBytes]
    omega
  have hendless := fun f => bundleFor_eq_error_iff ht hbits (f := f)
  have hfound := exists_bundleFor_iff ht hbits
  unfold place
  dsimp only
  cases hbundle : bundleFor a.target (roundUp width) with
  | error f =>
    obtain ⟨rfl, hforever⟩ := (hendless f).1 hbundle
    exact Or.inl ⟨Or.inl hforever, _, rfl⟩
  | ok found =>
    have hends : ¬ a.target.Endless (roundUp width) := fun hforever => by
      rw [(hendless .endlessSearch).2 ⟨rfl, hforever⟩] at hbundle
      cases hbundle
    cases found with
    | none =>
      refine Or.inr ⟨not_or.2 ⟨hends, fun hlong => ?_⟩, Or.inr rfl⟩
      obtain ⟨b, heq⟩ := hfound.2 hlong.2
      rw [hbundle] at heq
      cases heq
    | some bundle =>
      dsimp only
      split
      · next hlist =>
        refine Or.inr ⟨not_or.2 ⟨hends, fun hlong => ?_⟩, ?_⟩
        · exact absurd (Limits.canList_iff.1 hlist).2 (not_le.2 (Int64.lt_iff_toInt_lt.1 hlong.1))
        · split
          · exact Or.inr rfl
          · exact Or.inl ⟨_, _, rfl⟩
      · next hlist =>
        refine Or.inl ⟨Or.inr ⟨?_, hfound.1 ⟨bundle, hbundle⟩⟩, _, rfl⟩
        rw [Limits.canList_iff] at hlist
        rw [Int64.lt_iff_toInt_lt]
        omega

/-! ## Calls -/

/-- A call is answered: by a register that lies inside its bundle and has the width that its name
was declared with, in this call if the name is new, or by a refusal. -/
def Answered (a : Allocator) (qs : List Request) (q : Request) : Prop :=
  (∃ r a', a.answer q = .ok (r, a') ∧ r.Inside ∧
    ∃ q' ∈ q :: qs, q'.name = q.name ∧ r.Covers q'.declared ∧
      (a.lookup q.name = none → q' = q)) ∨
  ∃ d, a.answer q = .error (.diagnostic d)

/-- A name that owns a register gets what it was declared with. -/
theorem Ledger.answered_of_owned {qs : List Request} (ha : Ledger (· ∈ qs) a) {q : Request}
    {r : Register} (hold : a.lookup q.name = some r) : a.Answered qs q := by
  obtain ⟨q', hmem, hq'⟩ := ha.answers _ (mem_owners_of_lookup hold)
  refine Or.inl ⟨r, a, answer_of_owned hold, hq'.inside, q', List.mem_cons_of_mem _ hmem,
    hq'.name_eq.symm, hq'.covers, fun hnew => ?_⟩
  rw [hnew] at hold
  cases hold

theorem answered_of_not_sensible (qs : List Request) {q : Request}
    (hnew : a.lookup q.name = none) (hbad : ¬ q.Sensible) : a.Answered qs q := by
  obtain ⟨reason, heq⟩ := answer_of_not_sensible hnew hbad
  exact Or.inr ⟨_, heq⟩

theorem not_answered_of_fault (qs : List Request) {q : Request} {f : Fault}
    (hf : a.answer q = .error (.fault f)) : ¬ a.Answered qs q := by
  rintro (⟨r, a', heq, -⟩ | ⟨d, heq⟩)
  · rw [hf] at heq
    cases heq
  · rw [hf] at heq
    cases heq

/-- A new name whose widths are sensible is answered unless rounding or doubling goes astray, or
there are too many places. -/
theorem answered_iff_of_sensible (ht : a.target.Checked) (qs : List Request) {q : Request}
    (hnew : a.lookup q.name = none) (hq : q.Sensible) :
    a.Answered qs q ↔
      ¬ (2 ^ 63 ≤ q.declared.toInt + 7 ∨ a.target.Endless (roundUp q.declared) ∨
        a.target.Overlong (roundUp q.declared)) := by
  have hanswer := answer_of_sensible hnew hq
  rcases lt_or_ge (q.declared.toInt + 7) (2 ^ 63) with hfits | hwide
  · rcases place_cases_of_fits q.name q.isBool ht hq.pos hfits with
      ⟨hstuck, f, hplace⟩ | ⟨hends, hplace⟩
    · rw [hplace] at hanswer
      exact iff_of_false (not_answered_of_fault qs hanswer) fun hnot => hnot (Or.inr hstuck)
    · refine iff_of_true ?_ fun hor => hor.elim (not_le.2 hfits) hends
      rcases hplace with ⟨r, a', hplace⟩ | hplace
      · obtain ⟨bits, -, hr⟩ := placed_of_ok hq.pos hplace
        rw [hplace] at hanswer
        exact Or.inl
          ⟨r, a', hanswer, hr.inside, q, List.mem_cons_self, rfl, hr.covers, fun _ => rfl⟩
      · rw [hplace] at hanswer
        exact Or.inr ⟨_, hanswer⟩
  · rw [place_of_wide ht hwide] at hanswer
    exact iff_of_false (not_answered_of_fault qs hanswer) fun hnot => hnot (Or.inl hwide)

/-- **Calls are answered.**  Whatever constants pass the check and whatever calls were served, a
call ends in a register inside its bundle, of the width that its name was declared with, or in a
refusal; except for new names with a width that wraps around when it is rounded up to bytes, with
one that no bundle holds where bundles can be doubled until they wrap around, or with one that a
bundle holds and whose places are too many for a list. -/
theorem answered_iff {t : Target} (h : t.validate = .ok ()) (qs : List Request) (q : Request) :
    ((fresh t).serve qs).Answered qs q ↔
      ¬ (((fresh t).serve qs).lookup q.name = none ∧ q.Sensible ∧
        (2 ^ 63 ≤ q.declared.toInt + 7 ∨ t.Endless (roundUp q.declared) ∨
          t.Overlong (roundUp q.declared))) := by
  have htarget : ((fresh t).serve qs).target = t := target_serve (fresh t) qs
  have hledger : Ledger (· ∈ qs) ((fresh t).serve qs) := (ledger_fresh t).serve fun _ hq => hq
  cases hlookup : ((fresh t).serve qs).lookup q.name with
  | some r =>
    refine iff_of_true (hledger.answered_of_owned hlookup) ?_
    rintro ⟨hnew, -⟩
    cases hnew
  | none =>
    by_cases hq : q.Sensible
    · have hchecked : ((fresh t).serve qs).target.Checked := by
        rw [htarget]
        exact Target.checked_of_validate h
      rw [answered_iff_of_sensible hchecked qs hlookup hq, htarget]
      exact not_congr ⟨fun hor => ⟨rfl, hq, hor⟩, fun hall => hall.2.2⟩
    · exact iff_of_true (answered_of_not_sensible qs hlookup hq) fun hall => hq hall.2.1

/-- The two registers that every program has. -/
def reservedRequests : List Request :=
  [⟨"out_port", 16, 16, false⟩, ⟨"mcast_grp", 16, 16, false⟩]

theorem answered_iff_reservedRequests :
    ((fresh {}).serve reservedRequests).Answered reservedRequests
        ⟨"meta.x", 9223372036854775800, 9223372036854775800, false⟩ ∧
      ¬ ((fresh {}).serve reservedRequests).Answered reservedRequests
        ⟨"meta.x", 9223372036854775801, 9223372036854775801, false⟩ := by
  constructor
  · refine (answered_iff (t := {}) (by decide) reservedRequests _).2 ?_
    rintro ⟨-, -, hwide | hforever | hlong⟩
    · exact absurd hwide (by decide)
    · exact absurd hforever.1 (by decide)
    · obtain ⟨-, c, hle, hholds⟩ := hlong
      have hfour : (2 : Int) ^ c ≤ 2 ^ 2 := hle
      have hc : c ≤ 2 := (pow_le_pow_iff_right₀ (by decide)).1 hfour
      obtain rfl | rfl | rfl : c = 0 ∨ c = 1 ∨ c = 2 := by omega
      all_goals exact absurd hholds (by decide)
  · refine fun h => (answered_iff (t := {}) (by decide) reservedRequests _).1 h
      ⟨by decide +kernel, ⟨rfl, by decide⟩, Or.inl (by decide)⟩

/-- A switch of many narrow base registers, all of which can be used as one. -/
def deepTarget : Target :=
  { registers := 4611686018427387904, registerWidth := 8, maxBundle := 4611686018427387904 }

/-- A switch of eight base registers, each with more bits than there are places in a list. -/
def broadTarget : Target :=
  { registers := 8, registerWidth := 2305843009213693952, maxBundle := 1 }

/-- The widest value has no answer on the default switch, the search for a place for a value of half
the width never ends on a deep one, and on a broad one the places of a whole base register cannot be
listed. -/
theorem not_answered_widest :
    (Target.validate {} = .ok () ∧
      ((fresh {}).serve reservedRequests).answer
        ⟨"meta.x", 9223372036854775807, 9223372036854775807, false⟩ =
          .error (.fault .spanLength) ∧
      ¬ ((fresh {}).serve reservedRequests).Answered reservedRequests
        ⟨"meta.x", 9223372036854775807, 9223372036854775807, false⟩) ∧
    deepTarget.validate = .ok () ∧
      (fresh deepTarget).answer ⟨"x", 4611686018427387905, 4611686018427387905, false⟩ =
        .error (.fault .endlessSearch) ∧
      ¬ (fresh deepTarget).Answered []
        ⟨"x", 4611686018427387905, 4611686018427387905, false⟩ ∧
    broadTarget.validate = .ok () ∧
      (fresh broadTarget).answer ⟨"x", 2305843009213693952, 2305843009213693952, false⟩ =
        .error (.fault .spanLength) ∧
      ¬ (fresh broadTarget).Answered []
        ⟨"x", 2305843009213693952, 2305843009213693952, false⟩ := by
  have hwide : ((fresh {}).serve reservedRequests).answer
      ⟨"meta.x", 9223372036854775807, 9223372036854775807, false⟩ =
        .error (.fault .spanLength) := by decide +kernel
  have hforever : (fresh deepTarget).answer
      ⟨"x", 4611686018427387905, 4611686018427387905, false⟩ =
        .error (.fault .endlessSearch) := by decide +kernel
  have hlong : (fresh broadTarget).answer
      ⟨"x", 2305843009213693952, 2305843009213693952, false⟩ =
        .error (.fault .spanLength) := by decide +kernel
  exact ⟨⟨by decide, hwide, not_answered_of_fault _ hwide⟩, by decide, hforever,
    not_answered_of_fault _ hforever, by decide, hlong, not_answered_of_fault _ hlong⟩

end Allocator

end Flowline.Switch
