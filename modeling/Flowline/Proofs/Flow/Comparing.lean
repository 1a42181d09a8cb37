import Flowline.Proofs.Flow.Matching
import Flowline.Proofs.Switch.Ledger
import Mathlib.Data.List.TakeWhile

/-!
# Comparisons as the switch reads them

The text of a comparison names a whole bundle or packet field, and gives a value and perhaps a mask
for it.  `comparison?` reads such a text, and `Comparison.Holds` says what it means for the number of
the base: the value is there, under the mask if there is one.

For a register that lies inside its base this is a comparison of the register itself, with the value
and the mask moved down to its first bit (`holds_masked`, `holds_whole`).
-/

namespace Flowline.Switch

/-! ## Masks -/

/-- Under a mask that is moved up, a number is compared by its higher bits. -/
theorem and_shiftLeft_eq_iff {base n mask low width : Nat} (hmask : mask < 2 ^ width) :
    base &&& mask <<< low = n <<< low &&& mask <<< low ↔
      base / 2 ^ low % 2 ^ width &&& mask = n &&& mask := by
  have hin : ∀ i, mask.testBit i = true → i < width := by
    intro i hi
    exact (Nat.pow_lt_pow_iff_right (by omega)).mp ((Nat.ge_two_pow_of_testBit hi).trans_lt hmask)
  constructor
  · intro h
    refine Nat.eq_of_testBit_eq fun i => ?_
    have hbit := congrArg (fun x => x.testBit (low + i)) h
    simp only [Nat.testBit_and, Nat.testBit_shiftLeft, Nat.le_add_right, decide_true, Bool.true_and,
      Nat.add_sub_cancel_left] at hbit
    rw [Nat.testBit_and, Nat.testBit_and, Nat.testBit_mod_two_pow, Nat.testBit_div_two_pow]
    cases hi : mask.testBit i with
    | false => rw [Bool.and_false, Bool.and_false]
    | true =>
      rw [hi, Nat.add_comm] at hbit
      rw [decide_eq_true (hin i hi), Bool.true_and]
      exact hbit
  · intro h
    refine Nat.eq_of_testBit_eq fun k => ?_
    rw [Nat.testBit_and, Nat.testBit_and, Nat.testBit_shiftLeft, Nat.testBit_shiftLeft]
    rcases Nat.lt_or_ge k low with hk | hk
    · rw [decide_eq_false (not_le.mpr hk), Bool.false_and, Bool.and_false, Bool.and_false]
    · obtain ⟨i, rfl⟩ := Nat.exists_eq_add_of_le hk
      have hbit := congrArg (fun x => x.testBit i) h
      simp only [Nat.testBit_and, Nat.testBit_mod_two_pow, Nat.testBit_div_two_pow] at hbit
      rw [decide_eq_true hk, Bool.true_and, Bool.true_and, Nat.add_sub_cancel_left]
      cases hi : mask.testBit i with
      | false => rw [Bool.and_false, Bool.and_false]
      | true =>
        rw [hi, decide_eq_true (hin i hi), Bool.true_and, Nat.add_comm] at hbit
        exact hbit

/-- The mask of the first bits of a prefix. -/
def prefixMask (width count : Nat) : Nat :=
  if count = 0 then 0 else (2 ^ width - 1) <<< (width - count) % 2 ^ width

theorem testBit_prefixMask (width count i : Nat) :
    (prefixMask width count).testBit i = (decide (width - count ≤ i) && decide (i < width)) := by
  unfold prefixMask
  split
  · next hzero =>
    rw [hzero, Nat.zero_testBit, Nat.sub_zero]
    rcases Nat.lt_or_ge i width with hi | hi
    · rw [decide_eq_false (not_le.mpr hi), Bool.false_and]
    · rw [decide_eq_false (not_lt.mpr hi), Bool.and_false]
  · next hcount =>
    rw [Nat.testBit_mod_two_pow, Nat.testBit_shiftLeft, Nat.testBit_two_pow_sub_one, Bool.and_comm]
    rcases Nat.lt_or_ge i width with hi | hi
    · rw [decide_eq_true (show i - (width - count) < width by omega), Bool.and_true]
    · rw [decide_eq_false (not_lt.mpr hi), Bool.and_false, Bool.and_false]

/-- Under the mask of a prefix, the first bits are compared. -/
theorem and_prefixMask_eq_iff {width count x v : Nat} (hx : x < 2 ^ width) (hv : v < 2 ^ width) :
    x &&& prefixMask width count = v &&& prefixMask width count ↔
      x >>> (width - count) = v >>> (width - count) := by
  have hout : ∀ n, n < 2 ^ width → ∀ i, width ≤ i → n.testBit i = false := fun n hn i hi =>
    Nat.testBit_lt_two_pow (lt_of_lt_of_le hn (Nat.pow_le_pow_right (by omega) hi))
  constructor
  · intro h
    refine Nat.eq_of_testBit_eq fun i => ?_
    have hbit := congrArg (fun n => n.testBit (width - count + i)) h
    simp only [Nat.testBit_and, testBit_prefixMask, Nat.le_add_right, decide_true,
      Bool.true_and] at hbit
    rw [Nat.testBit_shiftRight, Nat.testBit_shiftRight]
    rcases Nat.lt_or_ge (width - count + i) width with hi | hi
    · simpa only [decide_eq_true hi, Bool.and_true] using hbit
    · rw [hout x hx _ hi, hout v hv _ hi]
  · intro h
    refine Nat.eq_of_testBit_eq fun k => ?_
    rw [Nat.testBit_and, Nat.testBit_and, testBit_prefixMask]
    rcases Nat.lt_or_ge k (width - count) with hk | hk
    · rw [decide_eq_false (not_le.mpr hk), Bool.false_and, Bool.and_false, Bool.and_false]
    · obtain ⟨i, rfl⟩ := Nat.exists_eq_add_of_le hk
      have hbit := congrArg (fun n => n.testBit i) h
      simp only [Nat.testBit_shiftRight] at hbit
      rw [hbit]

/-! ## Bases -/

namespace Register

/-- The whole bundle or packet field of a register. -/
def whole (r : Register) : Register := { r with low := 0, high := r.size - 1 }

/-- The mask in a comparison that gives none: a packet field as a whole needs no mask. -/
def ownMask (r : Register) : Option Nat :=
  if r.field.isNone || !r.isFull then some r.mask else none

variable {r : Register} {w : Int64}

/-- The number in a register is a part of that of its base. -/
theorem Inside.read_places (h : r.Inside) (hr : r.Covers w) (t : Target) (m : Memory) :
    m.read (r.places t) =
      m.read (r.whole.places t) / 2 ^ r.low.toInt.toNat % 2 ^ w.toInt.toNat := by
  have hlow := h.low_nonneg
  have hhigh := h.high_lt_size
  have heq := hr.high_eq
  have hpos := hr.pos
  have hbound := r.size.toInt_lt
  have hwhole : r.whole.Covers r.size := by
    refine ⟨by omega, ?_⟩
    show (r.size - 1).toInt = (0 : Int64).toInt + r.size.toInt - 1
    rw [Word.toInt_pred (by omega), Int64.toInt_zero, Int.zero_add]
  obtain ⟨s, hs, -, hplaces⟩ := hwhole.slice t hlow (show r.low.toInt ≤ r.high.toInt by omega) hhigh
  have hsame : s.places t = r.places t := by
    obtain ⟨-, -, -, rfl⟩ := slice_eq_some hs
    rw [places_eq, places_eq]
    show (List.range ((0 + r.high) - (0 + r.low) + 1).toInt.toNat).map
      (fun i => r.place t (0 + r.low + Int64.ofNat i)) = _
    rw [Int64.zero_add, Int64.zero_add]
    rfl
  have hwidth : r.high - r.low + 1 = w := hr.width_eq
  rw [← hsame, hplaces, Memory.read_take, Memory.read_drop, hwidth]

end Register

end Flowline.Switch

namespace Flowline.Flow

open Switch (Memory Register Target)

/-! ## Reading -/

/-- What is asked of the number of a base. -/
structure Comparison where
  value : Nat
  mask : Option Nat

/-- Whether a number is as a comparison says. -/
def Comparison.Holds (c : Comparison) (n : Nat) : Prop :=
  match c.mask with
  | none => n = c.value
  | some m => n &&& m = c.value &&& m

/-- A number in decimal, or in base sixteen with a mark in front. -/
def number? : List Char → Option Nat
  | '0' :: 'x' :: ds => Numeral.natural? 16 ds
  | ds => Numeral.natural? 10 ds

/-- The comparison that a text states of a base. -/
def comparison? (base text : Text) : Option Comparison := do
  let cs ← text.toList.dropPrefix? (base ++ "=").toList
  let value ← number? (cs.takeWhile (· != '/'))
  match cs.dropWhile (· != '/') with
  | [] => pure ⟨value, none⟩
  | _ :: ds =>
    let mask ← number? ds
    pure ⟨value, some mask⟩

theorem number?_hex (n : Nat) : number? ("0x" ++ Numeral.hex n).toList = some n := by
  have hlist : ("0x" ++ Numeral.hex n).toList = '0' :: 'x' :: Nat.toDigits 16 n := by
    simp [String.toList_append]
  rw [hlist]
  exact Numeral.natural?_toDigits (by decide) (by decide) n

theorem number?_decimal (n : Nat) : number? (Numeral.decimal n).toList = some n := by
  have hread : Numeral.natural? 10 (Nat.toDigits 10 n) = some n :=
    Numeral.natural?_toDigits (by decide) (by decide) n
  rw [Numeral.toList_decimal]
  unfold number?
  split
  · next ds heq =>
    -- the letter of base sixteen is no digit
    have hx : ('x').isDigit = true := Numeral.isDigit_of_mem_toDigits (n := n) (by simp [heq])
    exact absurd hx (by decide)
  · exact hread

theorem slash_not_mem_decimal (n : Nat) : '/' ∉ (Numeral.decimal n).toList := by
  rw [Numeral.toList_decimal]
  exact Numeral.notMem_toDigits (by decide) (by decide) (by decide)

theorem comparison?_whole (base : Text) (n : Nat) :
    comparison? base (base ++ "=" ++ Numeral.decimal n) = some ⟨n, none⟩ := by
  have hne : ∀ c ∈ (Numeral.decimal n).toList, (c != '/') = true := fun c hc =>
    bne_iff_ne.mpr fun heq => slash_not_mem_decimal n (heq ▸ hc)
  unfold comparison?
  rw [String.toList_append, List.dropPrefix?_append_of_beq _ (beq_self_eq_true _)]
  simp only [Option.bind_eq_bind, Option.bind_some, List.takeWhile_eq_self_iff.mpr hne,
    List.dropWhile_eq_nil_iff.mpr hne, number?_decimal]
  rfl

theorem comparison?_masked (base : Text) (n : Nat) {mask : Text} {m : Nat}
    (hmask : number? mask.toList = some m) :
    comparison? base (base ++ "=" ++ Numeral.decimal n ++ "/" ++ mask) = some ⟨n, some m⟩ := by
  have hne : ∀ c ∈ (Numeral.decimal n).toList, (c != '/') = true := fun c hc =>
    bne_iff_ne.mpr fun heq => slash_not_mem_decimal n (heq ▸ hc)
  have hlist : (base ++ "=" ++ Numeral.decimal n ++ "/" ++ mask).toList =
      (base ++ "=").toList ++ ((Numeral.decimal n).toList ++ '/' :: mask.toList) := by
    simp [String.toList_append]
  unfold comparison?
  rw [hlist, List.dropPrefix?_append_of_beq _ (beq_self_eq_true _)]
  simp only [Option.bind_eq_bind, Option.bind_some, List.takeWhile_append_of_pos hne,
    List.dropWhile_append_of_pos hne]
  have hvalue := number?_decimal n
  rw [Numeral.toList_decimal] at hvalue
  simp [hvalue, hmask]

/-! ## Comparisons of a register -/

section

variable {r : Register} {w : Int64} {n : Nat}

/-- Under a mask, the base is compared exactly when the register is. -/
theorem holds_masked (h : r.Inside) (hr : r.Covers w) (t : Target) (m : Memory) {mask : Nat}
    (hmask : mask < 2 ^ w.toInt.toNat) :
    Comparison.Holds ⟨r.shifted n, some (r.shifted mask)⟩ (m.read (r.whole.places t)) ↔
      m.read (r.places t) &&& mask = n &&& mask := by
  rw [h.read_places hr]
  exact Switch.and_shiftLeft_eq_iff hmask

/-- Without a mask of its own, the base is compared exactly when the register has the number. -/
theorem holds_whole (h : r.Inside) (hr : r.Covers w) (t : Target) (m : Memory)
    (hn : n < 2 ^ w.toInt.toNat) :
    Comparison.Holds ⟨r.shifted n, r.ownMask⟩ (m.read (r.whole.places t)) ↔
      m.read (r.places t) = n := by
  have hread : m.read (r.places t) < 2 ^ w.toInt.toNat := by
    have hlt := m.read_lt (r.places t)
    rwa [Register.length_places, hr.width_eq] at hlt
  unfold Register.ownMask
  split
  · have hpos : 0 < 2 ^ w.toInt.toNat := Nat.two_pow_pos _
    have hlast : r.high.toInt + 1 < 2 ^ 63 := by
      have hhigh := h.high_lt_size
      have hbound := r.size.toInt_lt
      omega
    rw [Register.mask_eq hr h.low_nonneg hlast, holds_masked h hr t m (by omega),
      Nat.and_two_pow_sub_one_eq_mod, Nat.and_two_pow_sub_one_eq_mod, Nat.mod_eq_of_lt hread,
      Nat.mod_eq_of_lt hn]
  · next hfull =>
    rw [Bool.not_eq_true, Bool.or_eq_false_iff, Bool.not_eq_eq_eq_not, Bool.not_false] at hfull
    obtain ⟨hzero, hsize⟩ := hr.size_eq hfull.2
    have hbase : m.read (r.whole.places t) < 2 ^ w.toInt.toNat := by
      have hlt := m.read_lt (r.whole.places t)
      have hwidth : r.whole.width = w := by
        show r.size - 1 - 0 + 1 = w
        rw [hsize]
        grind
      rwa [Register.length_places, hwidth] at hlt
    rw [h.read_places hr, hzero, Int64.toInt_zero, Int.toNat_zero, pow_zero, Nat.div_one,
      Nat.mod_eq_of_lt hbase, Register.shifted, hzero]
    rfl

end

end Flowline.Flow
