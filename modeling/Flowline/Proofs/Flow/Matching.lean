import Flowline.Proofs.Flow.Contents
import Flowline.Proofs.Flow.Running

/-!
# Packets that a flow holds for, and where they go

A flow of a rule has variables, and a row of the relations gives them values (`Row`).  With them,
`Match.Admits` says of which packets a match holds, and `Action.sends` lists the stages at which a
packet and its copies go on, each with the memory that it has there.

## Comparisons

A comparison is written with its value and its mask moved to the place of the register inside its
base, so bits of the base are compared, and only those under the mask.  For a register that lies
somewhere in its base this is a comparison of its own number with the value (`agrees_masked`,
`agrees_whole`).
-/

namespace Flowline.Switch

/-! ## Bits -/

theorem testBit_number (bs : List Bool) (i : Nat) : (number bs).testBit i = bs[i]?.getD false := by
  induction bs generalizing i with
  | nil => simp [number]
  | cons b bs ih =>
    cases i with
    | zero =>
      rw [Nat.testBit_zero, number]
      cases b <;> simp
    | succ i => rw [Nat.testBit_succ, number_cons_div, ih, List.getElem?_cons_succ]

namespace Memory

theorem testBit_read (m : Memory) (ps : List Place) (i : Nat) :
    (m.read ps).testBit i = (ps[i]?.map m).getD false := by
  rw [read, testBit_number, List.getElem?_map]

theorem write_zero (m : Memory) (ps : List Place) {p : Place} (h : p ∈ ps ∨ m p = false) :
    m.write ps 0 p = false := by
  induction ps generalizing m with
  | nil => simpa [write] using h
  | cons q ps ih =>
    rw [write, Nat.zero_testBit, Nat.zero_div]
    refine ih _ ?_
    rw [Function.update_apply]
    split
    · exact Or.inr rfl
    · next hne =>
      rcases h with h | h
      · exact Or.inl ((List.mem_cons.mp h).resolve_left hne)
      · exact Or.inr h

theorem read_write_zero (m : Memory) (ps : List Place) : (m.write ps 0).read ps = 0 := by
  refine Nat.eq_of_testBit_eq fun i => ?_
  rw [testBit_read, Nat.zero_testBit]
  cases hi : ps[i]? with
  | none => rfl
  | some p => exact write_zero m ps (Or.inl (List.mem_of_getElem? hi))

end Memory

namespace Register

/-! ## Comparisons with parts of a base -/

/-- A number at the place of a register inside its base. -/
def shifted (r : Register) (n : Nat) : Nat := n <<< r.low.toInt.toNat

/-- The bits of the base that a comparison looks at: those of its mask, or those of the register. -/
def compared (r : Register) (mask : Option Nat) : Nat :=
  match mask with
  | some m => r.shifted m
  | none => if r.field.isNone || !r.isFull then r.mask else lowBits r.size

/-- Under a mask, the bits of the base of a register are those of a number. -/
def Agrees (t : Target) (m : Memory) (r : Register) (value mask : Nat) : Prop :=
  ∀ k : Nat, mask.testBit k = true → m (r.place t (Int64.ofNat k)) = value.testBit k

variable {r : Register} {w : Int64}

/-- The bits of a register, counted in its base. -/
theorem testBit_read_places (t : Target) (m : Memory) (hlow : 0 ≤ r.low.toInt) {i : Nat}
    (hi : i < r.width.toInt.toNat) :
    (m.read (r.places t)).testBit i =
      m (r.place t (Int64.ofNat (r.low.toInt.toNat + i))) := by
  have hword : Int64.ofNat (r.low.toInt.toNat + i) = r.low + Int64.ofNat i := by
    rw [Int64.ofNat_add, ← Int64.ofInt_eq_ofNat, Int.toNat_of_nonneg hlow, Int64.ofInt_toInt]
  rw [Memory.testBit_read, places_eq, List.getElem?_map, List.getElem?_range hi, hword]
  rfl

/-- Under a mask, the bits of the base agree exactly when those of the register do. -/
theorem agrees_masked (t : Target) (m : Memory) (hr : r.Covers w) (hlow : 0 ≤ r.low.toInt)
    {n mask : Nat} (hmask : mask < 2 ^ w.toInt.toNat) :
    r.Agrees t m (r.shifted n) (r.shifted mask) ↔ m.read (r.places t) &&& mask = n &&& mask := by
  have hbit : ∀ i, mask.testBit i = true → (m.read (r.places t)).testBit i =
      m (r.place t (Int64.ofNat (r.low.toInt.toNat + i))) := by
    intro i hi
    refine testBit_read_places t m hlow ?_
    rw [hr.width_eq]
    exact (Nat.pow_lt_pow_iff_right (by omega)).mp ((Nat.ge_two_pow_of_testBit hi).trans_lt hmask)
  constructor
  · intro h
    refine Nat.eq_of_testBit_eq fun i => ?_
    rw [Nat.testBit_and, Nat.testBit_and]
    cases hi : mask.testBit i with
    | false => rw [Bool.and_false, Bool.and_false]
    | true =>
      have hk := h (r.low.toInt.toNat + i)
      rw [shifted, shifted, Nat.testBit_shiftLeft, Nat.testBit_shiftLeft, Nat.add_sub_cancel_left,
        hi] at hk
      rw [hbit i hi, hk (by simp)]
      simp
  · intro h k hk
    rw [shifted, Nat.testBit_shiftLeft, Bool.and_eq_true, decide_eq_true_iff] at hk
    obtain ⟨i, rfl⟩ := Nat.exists_eq_add_of_le hk.1
    rw [Nat.add_sub_cancel_left] at hk
    have hi := congrArg (fun x => x.testBit i) h
    simp only [Nat.testBit_and, hk.2, Bool.and_true] at hi
    rw [← hbit i hk.2, hi, shifted, Nat.testBit_shiftLeft]
    simp

theorem lowBits_eq (n : Int64) : lowBits n = 2 ^ n.toInt.toNat - 1 := by
  rw [lowBits, Nat.one_shiftLeft]

/-- The mask of a register is at the place of its bits. -/
theorem mask_eq (hr : r.Covers w) (hlow : 0 ≤ r.low.toInt) (hlast : r.high.toInt + 1 < 2 ^ 63) :
    r.mask = r.shifted (2 ^ w.toInt.toNat - 1) := by
  have heq := hr.high_eq
  have hpos := hr.pos
  have hnext : (r.high + 1).toInt = r.high.toInt + 1 := Word.toInt_succ (by omega)
  refine Nat.eq_of_testBit_eq fun k => ?_
  rw [mask, Nat.testBit_xor, lowBits_eq, lowBits_eq, Nat.testBit_two_pow_sub_one,
    Nat.testBit_two_pow_sub_one, shifted, Nat.testBit_shiftLeft, Nat.testBit_two_pow_sub_one,
    hnext, heq]
  have hcount : (r.low.toInt + w.toInt - 1 + 1).toNat = r.low.toInt.toNat + w.toInt.toNat := by
    omega
  rw [hcount]
  rcases Nat.lt_or_ge k r.low.toInt.toNat with hk | hk
  · rw [decide_eq_true (lt_of_lt_of_le hk (Nat.le_add_right _ _)), decide_eq_true hk,
      decide_eq_false (not_le.mpr hk)]
    rfl
  · rw [decide_eq_false (not_lt.mpr hk), decide_eq_true hk, Bool.xor_false, Bool.true_and]
    exact decide_eq_decide.mpr (by omega)

theorem Covers.size_eq (hr : r.Covers w) (hfull : r.isFull = true) : r.low = 0 ∧ r.size = w := by
  have heq := hr.high_eq
  have hpos := hr.pos
  have hbound := w.toInt_lt
  rw [isFull, Bool.and_eq_true, decide_eq_true_eq, decide_eq_true_eq] at hfull
  obtain ⟨hzero, hsize⟩ := hfull
  rw [hzero, Int64.toInt_zero] at heq
  have hhigh : r.high = w - 1 := by
    rw [← Int64.toInt_inj, Word.toInt_pred (by omega), heq]
    omega
  rw [hhigh] at hsize
  exact ⟨hzero, by grind⟩

/-- Where the mask of a register can be formed, its bounds are counted without wrapping around. -/
theorem bounds_of_hasMask {l : Limits} (h : r.hasMask l = true) :
    0 ≤ r.low.toInt ∧ 0 ≤ (r.high + 1).toInt := by
  simp only [hasMask, Bool.and_eq_true, Limits.canShift_iff] at h
  exact ⟨h.2.1, h.1.1⟩

theorem covers_of_hasMask {l : Limits} (h : r.hasMask l = true) (hw : 0 < w.toInt)
    (hhigh : r.high = r.low + w - 1) : r.Covers w := by
  obtain ⟨hlow, hend⟩ := bounds_of_hasMask h
  have hnext : r.high + 1 = r.low + w := by
    rw [hhigh]
    grind
  have hl := r.low.toInt_lt
  have hn := w.toInt_lt
  -- a sum that wraps around is negative
  have hsum : r.low.toInt + w.toInt < 2 ^ 63 := by
    by_contra hover
    rw [hnext, Int64.toInt_add, Int.bmod_eq_emod] at hend
    split at hend <;> omega
  refine ⟨hw, ?_⟩
  rw [hhigh, Word.toInt_add_pred (by omega) hsum]

/-- Without a mask, the bits of the register itself are compared. -/
theorem compared_none {l : Limits} (hr : r.Covers w) (hlow : 0 ≤ r.low.toInt)
    (hmask : (r.field.isNone || !r.isFull) = true → r.hasMask l = true) :
    r.compared none = r.shifted (2 ^ w.toInt.toNat - 1) := by
  unfold compared
  dsimp only
  split
  · next hpart =>
    have hend := (bounds_of_hasMask (hmask hpart)).2
    refine mask_eq hr hlow ?_
    by_contra hmax
    have hlast : r.high = Int64.maxValue := by
      have hmost : Int64.maxValue.toInt = 2 ^ 63 - 1 := rfl
      have hbelow := r.high.toInt_lt
      rw [← Int64.toInt_inj, hmost]
      omega
    rw [hlast] at hend
    exact absurd hend (by decide)
  · next hfull =>
    rw [Bool.not_eq_true, Bool.or_eq_false_iff, Bool.not_eq_eq_eq_not, Bool.not_false] at hfull
    obtain ⟨hzero, hsize⟩ := hr.size_eq hfull.2
    rw [lowBits_eq, hsize, shifted, hzero]
    rfl

/-- Without a mask, the bits of the base agree exactly when the register has the last bits of the
number. -/
theorem agrees_whole_mod {l : Limits} (t : Target) (m : Memory) (hr : r.Covers w)
    (hlow : 0 ≤ r.low.toInt)
    (hmask : (r.field.isNone || !r.isFull) = true → r.hasMask l = true) (n : Nat) :
    r.Agrees t m (r.shifted n) (r.compared none) ↔
      m.read (r.places t) = n % 2 ^ w.toInt.toNat := by
  have hread : m.read (r.places t) < 2 ^ w.toInt.toNat := by
    have hlt := m.read_lt (r.places t)
    rwa [length_places, hr.width_eq] at hlt
  have hpos : 0 < 2 ^ w.toInt.toNat := Nat.two_pow_pos _
  rw [compared_none hr hlow hmask, agrees_masked t m hr hlow (by omega),
    Nat.and_two_pow_sub_one_eq_mod, Nat.and_two_pow_sub_one_eq_mod, Nat.mod_eq_of_lt hread]

/-- Without a mask, the bits of the base agree exactly when the register has the number. -/
theorem agrees_whole {l : Limits} (t : Target) (m : Memory) (hr : r.Covers w)
    (hlow : 0 ≤ r.low.toInt)
    (hmask : (r.field.isNone || !r.isFull) = true → r.hasMask l = true) {n : Nat}
    (hn : n < 2 ^ w.toInt.toNat) :
    r.Agrees t m (r.shifted n) (r.compared none) ↔ m.read (r.places t) = n := by
  rw [agrees_whole_mod t m hr hlow hmask, Nat.mod_eq_of_lt hn]

end Register

end Flowline.Switch

namespace Flowline.Flow

open Switch (Memory Register Situation Target)

/-! ## Rows -/

/-- What a row of the relations gives to a rule: numbers for its variables, and whether the matches
hold that it computes. -/
structure Row where
  value : Text → Nat
  holds : Text → Bool

/-- The number of a value. -/
def Expr.valueIn (row : Row) : Expr → Nat
  | const n _ => n.toNat
  | var name _ => row.value name
  | slice e low high => e.valueIn row / 2 ^ low.toInt.toNat % 2 ^ (high - low + 1).toInt.toNat
  | reg _ => 0

/-- Variables have values of their width. -/
def Expr.Fits (row : Row) : Expr → Prop
  | var name width => row.value name < 2 ^ width.toInt.toNat
  | slice e _ _ => e.Fits row
  | _ => True

/-! ## Matches -/

/-- Whether a match holds of a packet at a stage.  A comparison needs a register on its left. -/
def Match.Admits (t : Target) (row : Row) (stage : Int64) (s : Situation) : Match → Prop
  | table n => stage = n
  | equals left right mask =>
    ∃ r ∈ left.asRegister, right.Fits row ∧ (∀ e ∈ mask, e.Fits row) ∧
      r.Agrees t s.memory (r.shifted (right.valueIn row)) (r.compared (mask.map (Expr.valueIn row)))
  | protocol text => s.texts text = true
  | prereq text => s.texts text = true
  | priority _ => True
  | interpolated name => row.holds name = true
  | seq left right => left.Admits t row stage s ∧ right.Admits t row stage s

variable {t : Target} {row : Row} {stage : Int64} {s : Situation}

theorem Match.admits_foldl (m : Match) (ms : List Match) :
    (ms.foldl .seq m).Admits t row stage s ↔
      m.Admits t row stage s ∧ ∀ x ∈ ms, x.Admits t row stage s :=
  foldl_iff_forall (p := fun m : Match => m.Admits t row stage s) (fun _ _ => Iff.rfl) m ms

@[simp] theorem Match.admits_simplify (m : Match) :
    m.simplify.Admits t row stage s ↔ m.Admits t row stage s :=
  iff_of_eq (apply_simplify (f := fun m => m.Admits t row stage s) And (fun _ _ => rfl)
    (fun l _ _ => by rw [Match.Admits, Match.Admits, l.asRegister_fold]) m)

/-- A packet that a match holds for is at every stage that the match asks for. -/
theorem Match.eq_of_mem_stages {m : Match} (h : m.Admits t row stage s) {n : Int64}
    (hn : n ∈ m.stages) : stage = n := by
  induction m with
  | table x =>
    cases List.mem_singleton.mp hn
    exact h
  | seq left right ihl ihr => exact (List.mem_append.mp hn).elim (ihl h.1) (ihr h.2)
  | _ => cases hn

/-! ## Texts -/

section

variable {l : Switch.Limits}

theorem Match.hasText_foldl (m : Match) (ms : List Match) :
    (ms.foldl .seq m).hasText l = true ↔ m.hasText l = true ∧ ∀ x ∈ ms, x.hasText l = true :=
  foldl_iff_forall (p := fun m => m.hasText l = true) (fun _ _ => Bool.and_eq_true_iff) m ms

@[simp] theorem Match.hasText_simplify (m : Match) : m.simplify.hasText l = m.hasText l :=
  apply_simplify and (fun _ _ => rfl)
    (fun left _ _ => by rw [hasText, hasText, left.asRegister_fold]) m

end

/-! ## Actions -/

/-- The memory after an action.  What the switch would refuse is left out. -/
def Action.effect (t : Target) (row : Row) : Action → Memory → Memory
  | load src dst, m =>
    dst.asRegister.elim m fun d => m.write (d.places t) (src.valueIn row)
  | move src dst, m =>
    dst.asRegister.elim m fun d => src.asRegister.elim m fun s =>
      m.write (d.places t) (m.read (s.places t))
  | seq left right, m => right.effect t row (left.effect t row m)
  | _, m => m

/-- The stages at which a packet and its copies go on, with the memory that they have there. -/
def Action.sends (t : Target) (row : Row) : Action → Memory → List (Int64 × Memory)
  | resubmit stage, m => [(stage, m)]
  | seq left right, m => left.sends t row m ++ right.sends t row (left.effect t row m)
  | clone a, m => a.sends t row m
  | _, _ => []

/-- Without copies, packets go on where the action sends them itself. -/
theorem Action.mem_jumps_of_sends {a : Action} (h : a.clones = []) {m : Memory}
    {x : Int64 × Memory} (hx : x ∈ a.sends t row m) : x.1 ∈ a.jumps := by
  induction a generalizing m with
  | resubmit stage =>
    rw [List.mem_singleton.mp hx]
    exact List.mem_cons_self
  | seq left right ihl ihr =>
    obtain ⟨hl, hr⟩ := List.append_eq_nil_iff.mp h
    rcases List.mem_append.mp hx with hx | hx
    · exact List.mem_append_left _ (ihl hl hx)
    · exact List.mem_append_right _ (ihr hr hx)
  | clone a => cases h
  | _ => cases hx

end Flowline.Flow
