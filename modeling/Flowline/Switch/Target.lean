import Flowline.Text.Numeral
import Flowline.Text.Bytes

/-!
# The switch

The fixed constants of the switch that is compiled for: its register file, the output port that
means "no destination", and the highest stage it can address.

Beside them stand the limits of the machine that compiles.  A number can be shifted only so far and
a list can be made only so long as there is memory for it, and where a description asks for more the
compiler ends without an answer.  No description sets these limits and no check looks at them.  Their
values here are those of a machine with addresses of forty-eight bits; the theory takes them as they
come, so what is proved holds of every machine.
-/

namespace Flowline.Switch

/-- What the memory of the machine that compiles can hold. -/
structure Limits where
  /-- The most bits that a number can be shifted by. -/
  shift : Int64 := 2251799813684927
  /-- The length of the longest list of places. -/
  places : Int64 := 35184372088832
  deriving DecidableEq, Repr

namespace Limits

/-- Whether a number can be shifted by an amount. -/
def canShift (l : Limits) (n : Int64) : Bool := 0 ≤ n && n ≤ l.shift

/-- Whether as many places can be listed. -/
def canList (l : Limits) (n : Int64) : Bool := 0 ≤ n && n ≤ l.places

theorem canShift_iff {l : Limits} {n : Int64} :
    l.canShift n = true ↔ 0 ≤ n.toInt ∧ n.toInt ≤ l.shift.toInt := by
  simp [canShift, Int64.le_iff_toInt_le]

theorem canList_iff {l : Limits} {n : Int64} :
    l.canList n = true ↔ 0 ≤ n.toInt ∧ n.toInt ≤ l.places.toInt := by
  simp [canList, Int64.le_iff_toInt_le]

end Limits

/-- The constants of a switch. -/
structure Target where
  /-- The number of base registers. -/
  registers : Int64 := 16
  /-- The bits of a base register. -/
  registerWidth : Int64 := 32
  /-- The most base registers that can be used as one. -/
  maxBundle : Int64 := 4
  /-- The output port of a packet that goes nowhere. -/
  dropPort : UInt64 := 0xffff
  /-- The highest stage. -/
  maxStage : Int64 := 254
  /-- The limits of the machine that compiles for the switch. -/
  limits : Limits := {}
  deriving DecidableEq, Repr

/-- Why constants describe no switch. -/
inductive TargetError where
  | registers (n : Int64)
  | registerWidth (n : Int64)
  | maxBundle (n : Int64)
  | bundling (registers maxBundle : Int64)
  | maxStage (n : Int64)
  deriving DecidableEq, Repr

/-- The message of an unusable set of constants. -/
def TargetError.message : TargetError → Text
  | .registers n => "target: registers must be positive, got " ++ Numeral.word n
  | .registerWidth n =>
    "target: register_width must be a positive multiple of 8, got " ++ Numeral.word n
  | .maxBundle n => "target: max_bundle must be a power of two, got " ++ Numeral.word n
  | .bundling r b =>
    "target: registers (" ++ Numeral.word r ++ ") must be a multiple of max_bundle (" ++
      Numeral.word b ++ ")"
  | .maxStage n => "target: max_stage must be positive, got " ++ Numeral.word n

namespace Target

/-- Checks that the constants describe a usable register file. -/
def validate (t : Target) : Except TargetError Unit :=
  if t.registers ≤ 0 then .error (.registers t.registers)
  else if t.registerWidth ≤ 0 ∨ t.registerWidth % 8 ≠ 0 then
    .error (.registerWidth t.registerWidth)
  else if t.maxBundle ≤ 0 ∨ t.maxBundle &&& (t.maxBundle - 1) ≠ 0 then
    .error (.maxBundle t.maxBundle)
  else if t.registers % t.maxBundle ≠ 0 then .error (.bundling t.registers t.maxBundle)
  else if t.maxStage ≤ 0 then .error (.maxStage t.maxStage)
  else .ok ()

/-- The bits of the whole register file. -/
def totalBits (t : Target) : Int64 := t.registers * t.registerWidth

/-- The place in the register file of bit `k` of the bundle that starts at base register `first`.
The last register of a bundle holds its lowest bits. -/
def bit (t : Target) (first bundle k : Int64) : Int64 :=
  (first + bundle - 1 - k / t.registerWidth) * t.registerWidth + k % t.registerWidth

end Target

end Flowline.Switch
