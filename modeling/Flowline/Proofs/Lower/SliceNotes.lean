import Flowline.Proofs.Flow.Folding
import Flowline.Proofs.Flow.Masks
import Flowline.Proofs.Lower.Placement
import Flowline.Lower.Condition

/-!
# Slice annotations and the masks of matches

A field that lives in a part of a packet field is compared under the mask of that part.  The mask is
printed at the end of the match, and the annotation of the field can be read off it again.  The facts
that this takes are the fields of `NotesRoundTrip`: masks and ranges of bits determine each other, an
annotation is accepted exactly if it lies inside its packet field and is as wide as the field, and the
match of a field ends with the mask of its annotation.

A mask is formed by shifts, so it exists only up to the bit that the machine can shift to.  This is
the one place where the limits of the machine enter, and it is an equivalence: nothing else can keep a
mask from being formed.

Annotations are checked where the field lives in the packet.  A field that is bound to a reserved
register lives there whatever its annotation says, even if the annotation runs backwards, and its
matches have the mask of that register (`note_ignored_portNotes`).
-/

namespace Flowline

/-- The annotation covers the whole packet field. -/
def SliceNote.Whole (s : SliceNote) : Prop := s.low.toInt = 0 ∧ s.high.toInt = s.size.toInt - 1

end Flowline

namespace Flowline.Lower

open Source (Expr)
open Switch
open Flowline.Flow (Match bitRange canPosition equalsText lastMask? lastMask?_hex maskRange
  positioned)

/-- A field has a register. -/
def Accepted (f : Field) (a : Allocator) : Prop := ∃ r a', Yields (fieldRegister f) a r a'

section

variable {f : Field} {packet : Text} {s : SliceNote} {a a' : Allocator} {r : Register}

/-! ## Accepted annotations -/

/-- A field that lives in the packet has the part that its annotation describes. -/
theorem yields_fieldRegister_noted (hbuiltin : f.builtin = .none) (hpacket : f.packet = some packet)
    (hs : f.slice = some s) :
    Yields (fieldRegister f) a r a' ↔
      s.Fits f.type.width ∧ r = .ofField packet s.size s.low s.high ∧ a' = a := by
  simp only [fieldRegister, hbuiltin, hpacket, packetField, hs, yields_ofExcept,
    slicedField_eq_ok_iff, and_assoc, eq_comm (a := a)]

/-- A field that is bound to a reserved register has it whatever its annotation is. -/
theorem fieldRegister_of_builtin (hbuiltin : f.builtin ≠ .none) (note : Option SliceNote) :
    fieldRegister { f with slice := note } = fieldRegister f := by
  unfold fieldRegister
  cases h : f.builtin with
  | none => exact absurd h hbuiltin
  | outputPort | multicastGroup => rfl

theorem accepted_noted (a : Allocator) (hbuiltin : f.builtin = .none)
    (hpacket : f.packet = some packet) (hs : f.slice = some s) :
    Accepted f a ↔ s.Fits f.type.width := by
  simp only [Accepted, yields_fieldRegister_noted hbuiltin hpacket hs]
  exact ⟨fun ⟨_, _, h, _⟩ => h, fun h => ⟨_, _, h, rfl, rfl⟩⟩

/-! ## Comparisons -/

/-- Prerequisites in front of a comparison leave it at the end of the text, and need no shifts. -/
theorem exists_all?_prereqs (texts : List Text) (left right : Flow.Expr) :
    ∃ m front, Match.all? (texts.map .prereq ++ [.equals left right none]) = some m ∧
      m.text = front ++ equalsText left right none ∧
      (∀ l, m.hasText l = (Match.equals left right none).hasText l) ∧
      (left.asRegister.isSome = true → m.OfRegisters) := by
  cases texts with
  | nil => exact ⟨_, "", rfl, String.empty_append.symm, fun _ => rfl, id⟩
  | cons t ts =>
    have hseq : List.foldl Match.seq (.prereq t)
        (ts.map Match.prereq ++ [Match.equals left right none]) =
          .seq (List.foldl Match.seq (.prereq t) (ts.map Match.prereq)) (.equals left right none) :=
      List.foldl_append
    have htexts : ∀ l, (List.foldl Match.seq (.prereq t) (ts.map Match.prereq)).hasText l = true := by
      intro l
      rw [Match.hasText_foldl, List.forall_mem_map]
      exact ⟨rfl, fun _ _ => rfl⟩
    have hfront : (List.foldl Match.seq (.prereq t) (ts.map Match.prereq)).OfRegisters := by
      rw [Match.ofRegisters_foldl, List.forall_mem_map]
      exact ⟨trivial, fun _ _ => trivial⟩
    refine ⟨_, _, congrArg some hseq, rfl, fun l => ?_, fun hleft => ⟨hfront, hleft⟩⟩
    exact (congrArg (· && _) (htexts l)).trans (Bool.true_and _)

/-- Which of the two sides is the field does not matter. -/
def Compares (f : Field) (c e : Expr) : Prop :=
  e = .binary .eq (.field f) c ∨ e = .binary .eq c (.field f)

section

variable {e c : Expr} {n : Int} {base : Int64} (he : Compares f c e)
  (hr : Yields (fieldRegister f) a r a) (hc : c.isStorage = false)
  (hn : Yields (value [] c) a (.const n base) a) (hfits : (bitLength n : Int) ≤ f.type.width.toInt)

include he hr hc hn hfits

theorem yields_comparison :
    Yields (bareCondition e) a (some (.equals (.reg r) (.const n base) none)) a := by
  have hfield : Yields (value [] (.field f)) a (.reg r) a :=
    yields_bind.mpr ⟨r, a, hr, yields_pure.mpr ⟨rfl, rfl⟩⟩
  have hcheck : ∀ construct,
      checkFits (.const n base) (Expr.field f).type.width construct = pure () := fun construct =>
    if_neg fun h => absurd h.2 (not_lt.mpr hfits)
  have hcomparison : ∀ e', Yields (comparison e' (.field f) c) a
      (.equals (.reg r) (.const n base) none) a := by
    intro e'
    refine yields_bind.mpr ⟨_, _, hfield, yields_bind.mpr ⟨_, _, hn, ?_⟩⟩
    rw [hcheck]
    exact yields_bind.mpr ⟨(), a, yields_pure.mpr ⟨rfl, rfl⟩, yields_pure.mpr ⟨rfl, rfl⟩⟩
  rcases he with rfl | rfl <;> refine yields_bind.mpr ⟨_, a, ?_, yields_pure.mpr ⟨rfl, rfl⟩⟩ <;>
    simpa [equation, Expr.isStorage, hc] using hcomparison _

/-- The match of a comparison of a field with a constant ends with the mask of its register. -/
theorem exists_condition_of_comparison (hpart : (r.field.isNone || !r.isFull) = true) :
    ∃ m, Yields (condition e) a (some m) a ∧ (∀ l, m.hasText l = r.hasMask l) ∧
      m.simplify.text = m.text ∧ lastMask? m.text = some r.mask := by
  obtain ⟨m, front, hall, htext, hhas, hof⟩ :=
    exists_all?_prereqs (prereqTexts e).eraseDups (.reg r) (.const n base)
  refine ⟨m, ?_, ?_, Match.text_simplify (hof rfl), ?_⟩
  · refine yields_bind.mpr ⟨_, a, yields_comparison he hr hc hn hfits, ?_⟩
    exact yields_pure.mpr ⟨hall, rfl⟩
  · -- the mask is the larger of the two shifts
    intro l
    have hshift : r.hasMask l = true → canPosition l (.const n base) r = true := fun h => by
      rw [Register.hasMask, Bool.and_eq_true] at h
      simp [canPosition, h.2]
    rw [hhas]
    show (canPosition l (.const n base) r &&
      if r.field.isNone || !r.isFull then r.hasMask l else true) = r.hasMask l
    rw [if_pos hpart]
    cases hmask : r.hasMask l with
    | false => exact Bool.and_false _
    | true => rw [hshift hmask, Bool.and_true]
  · have hequals : equalsText (.reg r) (.const n base) none =
        r.baseName ++ "=" ++ positioned (.const n base) r ++ ("/0x" ++ Numeral.hex r.mask) := by
      show _ ++ (if r.field.isNone || !r.isFull then "/0x" ++ Numeral.hex r.mask else "") = _
      rw [if_pos hpart]
    rw [htext, hequals, ← String.append_assoc]
    exact lastMask?_hex _ _

end

theorem isFull_ofField_of_not_whole (hfits : s.Fits f.type.width) (hpart : ¬s.Whole) :
    (Register.ofField packet s.size s.low s.high).isFull = false := by
  have hnonneg := hfits.low_nonneg
  have hle := hfits.low_le_high
  have hlt := hfits.high_lt_size
  have hbound := s.size.toInt_lt
  rw [← Bool.not_eq_true]
  intro hfull
  obtain ⟨hzero, hlast⟩ := Bool.and_eq_true_iff.mp hfull
  have hlow : s.low = 0 := of_decide_eq_true hzero
  have hhigh : s.high = s.size - 1 := of_decide_eq_true hlast
  refine hpart ⟨by rw [hlow, Int64.toInt_zero], ?_⟩
  rw [hhigh, Word.toInt_pred (by omega)]

end

/-- Annotations can be read off matches, on a machine of some limits. -/
structure NotesRoundTrip (l : Limits) : Prop where
  /-- A mask can be formed unless the register reaches farther than the machine can shift. -/
  formed_iff : ∀ r : Register, 0 ≤ r.low → r.low ≤ r.high →
    (r.hasMask l = true ↔ r.high < l.shift)
  /-- The mask of a register has exactly the bits between its ends. -/
  mask_bits : ∀ r : Register, 0 ≤ r.low → r.low ≤ r.high → r.high ≠ Int64.maxValue →
    ∀ i : Nat, r.mask.testBit i = true ↔ r.low.toInt ≤ i ∧ i ≤ r.high.toInt
  /-- The ends of a register are found in its mask. -/
  mask_range : ∀ r : Register, 0 ≤ r.low → r.low ≤ r.high → r.high ≠ Int64.maxValue →
    maskRange r.mask = (r.low.toInt.toNat, r.high.toInt.toNat, true)
  /-- A range is found in a number only if it has all the bits of the range and no others. -/
  range_iff : ∀ (m : Int) (low high : Nat),
    maskRange m = (low, high, true) ↔ low ≤ high ∧ m = bitRange low high
  /-- A field that lives in the packet is accepted exactly if its annotation fits. -/
  accepted_iff : ∀ (f : Field) (packet : Text) (s : SliceNote) (a : Allocator),
    f.builtin = .none → f.packet = some packet → f.slice = some s →
      (Accepted f a ↔ s.Fits f.type.width)
  /-- The match of an accepted field with a constant that fits ends with a mask, in which the ends of
  the annotation are found. -/
  read_back : ∀ (f : Field) (packet : Text) (s : SliceNote) (a : Allocator),
    f.builtin = .none → f.packet = some packet → f.slice = some s → Accepted f a → ¬s.Whole →
      ∀ (e c : Expr) (n : Int) (base : Int64), Compares f c e → c.isStorage = false →
        Yields (value [] c) a (.const n base) a → (bitLength n : Int) ≤ f.type.width.toInt →
        ∃ m, Yields (condition e) a (some m) a ∧ (m.hasText l = true ↔ s.high < l.shift) ∧
          m.simplify.text = m.text ∧ (lastMask? m.text).map (fun k => maskRange k) =
            some (s.low.toInt.toNat, s.high.toInt.toNat, true)
  /-- A field that is bound to a reserved register has it whatever its annotation is. -/
  ignored : ∀ (f : Field) (note : Option SliceNote), f.builtin ≠ .none →
    fieldRegister { f with slice := note } = fieldRegister f

theorem testBit_mask {r : Register} (hlow : 0 ≤ r.low) (hle : r.low ≤ r.high)
    (hmost : r.high ≠ Int64.maxValue) (i : Nat) :
    r.mask.testBit i = true ↔ r.low.toInt ≤ i ∧ i ≤ r.high.toInt := by
  rw [Flow.mask_eq_bitRange hlow hle hmost, Flow.testBit_bitRange, decide_eq_true_iff]
  rw [Int64.le_iff_toInt_le] at hlow hle
  rw [Int64.toInt_zero] at hlow
  omega

/-- The match of a field ends with the mask of its annotation. -/
theorem exists_condition_of_note {l : Limits} {f : Field} {packet : Text} {s : SliceNote}
    {a : Allocator} (hbuiltin : f.builtin = .none) (hpacket : f.packet = some packet)
    (hs : f.slice = some s) (haccepted : Accepted f a) (hpart : ¬s.Whole) {e c : Expr} {n : Int}
    {base : Int64} (he : Compares f c e) (hc : c.isStorage = false)
    (hn : Yields (value [] c) a (.const n base) a)
    (hsmall : (bitLength n : Int) ≤ f.type.width.toInt) :
    ∃ m, Yields (condition e) a (some m) a ∧ (m.hasText l = true ↔ s.high < l.shift) ∧
      m.simplify.text = m.text ∧ (lastMask? m.text).map (fun k => maskRange k) =
        some (s.low.toInt.toNat, s.high.toInt.toNat, true) := by
  have hfits := (accepted_noted a hbuiltin hpacket hs).mp haccepted
  have hyields : Yields (fieldRegister f) a (.ofField packet s.size s.low s.high) a :=
    (yields_fieldRegister_noted hbuiltin hpacket hs).mpr ⟨hfits, rfl, rfl⟩
  obtain ⟨m, hm, hhas, hsimplify, hmask⟩ := exists_condition_of_comparison he hyields hc hn hsmall
    (by rw [isFull_ofField_of_not_whole hfits hpart]; rfl)
  have hlow : 0 ≤ s.low := Int64.le_iff_toInt_le.mpr hfits.low_nonneg
  have hle : s.low ≤ s.high := Int64.le_iff_toInt_le.mpr hfits.low_le_high
  -- behind the highest bit there is room in the packet field
  have hmost : s.high ≠ Int64.maxValue := fun heq => by
    have hlt := hfits.high_lt_size
    have hbound := s.size.toInt_lt
    have hvalue : Int64.maxValue.toInt = 2 ^ 63 - 1 := rfl
    rw [heq, hvalue] at hlt
    omega
  refine ⟨m, hm, ?_, hsimplify, ?_⟩
  · rw [hhas]
    exact Flow.hasMask_iff (r := .ofField packet s.size s.low s.high) hlow hle
  · rw [hmask]
    exact congrArg some
      (Flow.maskRange_mask (r := .ofField packet s.size s.low s.high) hlow hle hmost)

/-- **Annotations can be read off matches.**  On every machine, masks and ranges of bits determine
each other, and the annotation of a field that lives in the packet is checked, and found again in the
mask that ends its match. -/
theorem slice_notes_round_trip (l : Limits) : NotesRoundTrip l where
  formed_iff _ hlow hle := Flow.hasMask_iff hlow hle
  mask_bits _ hlow hle hmost := testBit_mask hlow hle hmost
  mask_range _ hlow hle hmost := Flow.maskRange_mask hlow hle hmost
  range_iff := Flow.maskRange_eq_iff
  accepted_iff _ _ _ a hbuiltin hpacket hs := accepted_noted a hbuiltin hpacket hs
  read_back _ _ _ _ hbuiltin hpacket hs haccepted hpart _ _ _ _ he hc hn hsmall :=
    exists_condition_of_note hbuiltin hpacket hs haccepted hpart he hc hn hsmall
  ignored _ note hbuiltin := fieldRegister_of_builtin hbuiltin note

/-! ## The priority of a tag, and ports with annotations -/

/-- The three highest bits of the tag of a packet.  The prerequisite has a mask of its own. -/
def samplePriority : Field :=
  { name := "hdr.vlan.pcp", type := { width := 3 }, packet := some "vlan_tci",
    slice := some ⟨13, 15, 16⟩, prereq := some "vlan_tci=0x1000/0x1000" }

/-- A comparison with a literal on the left. -/
def priorityIsFive : Expr := .binary .eq (.literal { value := 5 }) (.field samplePriority)

theorem slice_notes_round_trip_samplePriority :
    Accepted samplePriority (.fresh {}) ∧ ¬(⟨13, 15, 16⟩ : SliceNote).Whole ∧
      ∃ m, Yields (condition priorityIsFive) (.fresh {}) (some m) (.fresh {}) ∧
        m.text = "vlan_tci=0x1000/0x1000, vlan_tci=0xa000/0xe000" ∧ m.hasText {} = true ∧
        (lastMask? m.text).map (fun k => maskRange k) = some (13, 15, true) := by
  have haccepted : Accepted samplePriority (.fresh {}) := ⟨_, _, rfl⟩
  have hpart : ¬(⟨13, 15, 16⟩ : SliceNote).Whole := fun h => absurd h.1 (by decide)
  have hconstant :
      Yields (value [] (.literal { value := 5 })) (.fresh {}) (.const 5 10) (.fresh {}) := rfl
  obtain ⟨m, hm, hhas, -, hmask⟩ := (slice_notes_round_trip {}).read_back samplePriority "vlan_tci"
    ⟨13, 15, 16⟩ (.fresh {}) rfl rfl rfl haccepted hpart priorityIsFive _ 5 10 (Or.inr rfl) rfl
    hconstant (by decide)
  have hrun : Yields (condition priorityIsFive) (.fresh {})
      (some (.seq (.prereq "vlan_tci=0x1000/0x1000")
        (.equals (.reg (.ofField "vlan_tci" 16 13 15)) (.const 5 10) none))) (.fresh {}) := rfl
  have heq := hm.symm.trans hrun
  cases heq
  exact ⟨haccepted, hpart, _, hm, by decide +kernel, hhas.mpr (by decide), hmask⟩

/-- A port with an annotation that runs backwards. -/
def backwardsPort : Field :=
  { name := "std.p", type := { width := 8 }, packet := some "nw_tos", slice := some ⟨4, 2, 8⟩,
    builtin := .outputPort }

/-- A port with an annotation for the six highest bits of a packet field. -/
def tosPort : Field :=
  { name := "std.q", type := { width := 6 }, packet := some "nw_tos", slice := some ⟨2, 7, 8⟩,
    builtin := .outputPort }

/-- A register file in which sixteen bits are reserved for the port. -/
def portsFile : Allocator :=
  (Allocator.fresh {}).give outputPort 16 { bundle := 1, size := 32, high := 15, owner := outputPort }

/-- The annotation that runs backwards is accepted, and the match of the other port has the mask of
the reserved register. -/
theorem note_ignored_portNotes :
    (Accepted backwardsPort portsFile ∧ ¬(⟨4, 2, 8⟩ : SliceNote).Fits backwardsPort.type.width) ∧
      Accepted tosPort portsFile ∧ (⟨2, 7, 8⟩ : SliceNote).Fits tosPort.type.width ∧
      ∃ m, Yields (condition (.binary .eq (.field tosPort) (.literal { value := 5 }))) portsFile
          (some m) portsFile ∧
        m.text = "reg0=5/0xffff" ∧
        (lastMask? m.text).map (fun k => maskRange k) = some (0, 15, true) := by
  refine ⟨⟨⟨_, _, rfl⟩, fun h => absurd h.low_le_high (by decide)⟩, ⟨_, _, rfl⟩,
    ⟨by decide, by decide, by decide, by decide⟩, _, rfl, by decide +kernel, by decide +kernel⟩

end Flowline.Lower
