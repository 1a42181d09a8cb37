import Flowline.Proofs.Switch.Word
import Flowline.Switch.Register
import Mathlib.Logic.Function.Basic
import Mathlib.Tactic.Ring

/-!
# The memory of the switch

The state of a packet on the switch is one bit at every place: in the register file, and in the
packet fields.  A register is read and written through the list of its places, lowest bit first
(`Register.places`), and a part of a register has the matching part of that list
(`Register.Covers.slice`).

Nothing here asks that a register has no place twice.  Two accounts of one step that read and write
the same lists agree on every memory, whether or not storage overlaps.
-/

namespace Flowline.Switch

/-- A place that holds a bit. -/
inductive Place where
  | file (index : Int64)
  | packet (name : Text) (bit : Int64)
  deriving DecidableEq

/-- The bits at all places. -/
abbrev Memory := Place → Bool

/-- What a packet is judged by: the bits at all places, and which match texts hold of it. -/
structure Situation where
  memory : Memory
  texts : Text → Bool

/-! ## Numbers of bits -/

/-- The number of a list of bits, lowest first. -/
def number : List Bool → Nat
  | [] => 0
  | b :: bs => b.toNat + 2 * number bs

theorem number_lt (bs : List Bool) : number bs < 2 ^ bs.length := by
  induction bs with
  | nil => simp [number]
  | cons b bs ih =>
    have hb : b.toNat ≤ 1 := b.toNat_le
    rw [number, List.length_cons, pow_succ]
    omega

theorem number_cons_div (b : Bool) (bs : List Bool) : number (b :: bs) / 2 = number bs := by
  have hb : b.toNat ≤ 1 := b.toNat_le
  rw [number]
  omega

theorem number_drop (bs : List Bool) (k : Nat) : number (bs.drop k) = number bs / 2 ^ k := by
  induction k generalizing bs with
  | zero => simp
  | succ k ih =>
    cases bs with
    | nil => simp [number]
    | cons b bs =>
      rw [List.drop_succ_cons, ih, pow_succ', ← Nat.div_div_eq_div_mul, number_cons_div]

theorem number_take (bs : List Bool) (k : Nat) : number (bs.take k) = number bs % 2 ^ k := by
  induction k generalizing bs with
  | zero => simp [number, Nat.mod_one]
  | succ k ih =>
    cases bs with
    | nil => simp [number]
    | cons b bs =>
      have hb : b.toNat ≤ 1 := b.toNat_le
      have hmod : (b.toNat + 2 * number bs) % 2 = b.toNat := by omega
      rw [List.take_succ_cons, number, ih, number, pow_succ', Nat.mod_mul, hmod]
      have hdiv : (b.toNat + 2 * number bs) / 2 = number bs := by omega
      rw [hdiv]

namespace Memory

/-- The number at a list of places. -/
def read (m : Memory) (ps : List Place) : Nat := number (ps.map m)

/-- The memory after the bits of a number are written to a list of places. -/
def write (m : Memory) : List Place → Nat → Memory
  | [], _ => m
  | p :: ps, v => write (Function.update m p (v.testBit 0)) ps (v / 2)

theorem read_lt (m : Memory) (ps : List Place) : m.read ps < 2 ^ ps.length := by
  simpa [read] using number_lt (ps.map m)

theorem read_drop (m : Memory) (ps : List Place) (k : Nat) :
    m.read (ps.drop k) = m.read ps / 2 ^ k := by
  rw [read, List.map_drop, number_drop, read]

theorem read_take (m : Memory) (ps : List Place) (k : Nat) :
    m.read (ps.take k) = m.read ps % 2 ^ k := by
  rw [read, List.map_take, number_take, read]

end Memory

/-! ## The places of a register -/

/-- The place of a bit, counted from the start of the bundle or packet field of a register. -/
def Register.place (t : Target) (r : Register) (k : Int64) : Place :=
  match r.field with
  | some name => .packet name k
  | none => .file (t.bit r.number r.bundle k)

/-- The places of a register, lowest bit first. -/
def Register.places (t : Target) (r : Register) : List Place :=
  match r.field with
  | some name =>
    (List.range r.width.toInt.toNat).map fun i => .packet name (r.low + Int64.ofNat i)
  | none => (t.bits r).map .file

theorem Register.places_eq (t : Target) (r : Register) :
    r.places t =
      (List.range r.width.toInt.toNat).map fun i => r.place t (r.low + Int64.ofNat i) := by
  unfold places place Target.bits
  cases r.field <;> simp

@[simp] theorem Register.length_places (t : Target) (r : Register) :
    (r.places t).length = r.width.toInt.toNat := by
  rw [places_eq, List.length_map, List.length_range]

theorem take_drop_map_range {α : Type} (f : Nat → α) {n k l : Nat} (h : k + l ≤ n) :
    (((List.range n).map f).drop k).take l = (List.range l).map fun i => f (k + i) := by
  apply List.ext_getElem
  · simp
    omega
  · intro i hi hi'
    simp

/-- A register covers as many bits as a word says.  The count is that of the integers: both bounds
are words, but nothing wraps around between them. -/
structure Register.Covers (r : Register) (n : Int64) : Prop where
  pos : 0 < n.toInt
  high_eq : r.high.toInt = r.low.toInt + n.toInt - 1

instance (r : Register) (n : Int64) : Decidable (r.Covers n) :=
  decidable_of_iff (0 < n.toInt ∧ r.high.toInt = r.low.toInt + n.toInt - 1)
    ⟨fun h => ⟨h.1, h.2⟩, fun h => ⟨h.pos, h.high_eq⟩⟩

/-- A part that is cut out of a register, and does not end behind it. -/
theorem Register.slice_eq_some {r s : Register} {low high : Int64} (h : r.slice low high = some s) :
    0 ≤ low.toInt ∧ low.toInt ≤ high.toInt ∧ (r.low + high).toInt ≤ r.high.toInt ∧
      s = { r with low := r.low + low, high := r.low + high, owner := "", isBool := false } := by
  unfold slice at h
  split at h
  · cases h
  · next hrange =>
    cases h
    simp only [not_or, gt_iff_lt, Int64.lt_iff_toInt_lt, Int64.toInt_zero, not_lt] at hrange
    exact ⟨hrange.1, hrange.2.1, hrange.2.2, rfl⟩

namespace Register.Covers

variable {r : Register} {n : Int64}

theorem width_eq (h : r.Covers n) : r.width = n := by
  have hpos := h.pos
  have heq := h.high_eq
  have hhigh := r.high.toInt_lt
  have hlow := r.low.le_toInt
  have hn := n.toInt_lt
  have hsub : (n - 1).toInt = n.toInt - 1 := Word.toInt_pred (by omega)
  have hword : r.high = r.low + (n - 1) := by
    rw [← Int64.toInt_inj, Word.toInt_add (by omega) (by omega), hsub, heq]
    ring
  rw [Register.width, hword]
  grind

/-- A range of bits of a register is a register, and has that part of its places. -/
theorem slice (h : r.Covers n) (t : Target) {low high : Int64} (hlow : 0 ≤ low.toInt)
    (hle : low.toInt ≤ high.toInt) (hlt : high.toInt < n.toInt) :
    ∃ s, r.slice low high = some s ∧ s.Covers (high - low + 1) ∧
      s.places t =
        ((r.places t).drop low.toInt.toNat).take (high - low + 1).toInt.toNat := by
  have heq := h.high_eq
  have hhigh := r.high.toInt_lt
  have hrlow := r.low.le_toInt
  have hn := n.toInt_lt
  have hsumLow : (r.low + low).toInt = r.low.toInt + low.toInt :=
    Word.toInt_add (by omega) (by omega)
  have hsumHigh : (r.low + high).toInt = r.low.toInt + high.toInt :=
    Word.toInt_add (by omega) (by omega)
  have hcount : (high - low + 1).toInt = high.toInt - low.toInt + 1 :=
    Word.toInt_sub_succ (by omega) (by omega)
  have hinside : ¬(low < 0 ∨ high < low ∨ r.low + high > r.high) := by
    simp only [gt_iff_lt, Int64.lt_iff_toInt_lt, Int64.toInt_zero, hsumHigh]
    omega
  unfold Register.slice
  rw [if_neg hinside]
  have hcovers : Register.Covers
      { r with low := r.low + low, high := r.low + high, owner := "", isBool := false }
      (high - low + 1) := by
    constructor
    · omega
    · show (r.low + high).toInt = (r.low + low).toInt + (high - low + 1).toInt - 1
      omega
  refine ⟨_, rfl, hcovers, ?_⟩
  rw [Register.places_eq, Register.places_eq, hcovers.width_eq, h.width_eq,
    take_drop_map_range _ (by omega)]
  refine List.map_congr_left fun i _ => ?_
  have hword : Int64.ofNat (low.toInt.toNat + i) = low + Int64.ofNat i := by
    rw [Int64.ofNat_add, ← Int64.ofInt_eq_ofNat, Int.toNat_of_nonneg hlow, Int64.ofInt_toInt]
  rw [hword, ← Int64.add_assoc]
  rfl

end Register.Covers

end Flowline.Switch
