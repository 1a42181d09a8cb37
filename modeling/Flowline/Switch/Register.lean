import Flowline.Switch.Target

/-!
# Registers

A register here is a range of bits of a bundle of base registers, or of a packet field.  A bundle
of two base registers is written with an `x` in front of its name and half the number, one of four
with two.

In a match a register is written with a mask of its bits (`matchText`), in an action with the
positions of the first and the last one (`actionText`).
-/

namespace Flowline.Switch

/-- The value whose lowest `n` bits are set. -/
def lowBits (n : Int64) : Nat := 1 <<< n.toInt.toNat - 1

/-- A range of bits of the switch.  The bounds are inclusive and count from the start of the bundle
or packet field. -/
structure Register where
  /-- The first base register of the bundle. -/
  number : Int64 := 0
  /-- The base registers of the bundle. -/
  bundle : Int64 := 0
  /-- The bits of the whole bundle or packet field. -/
  size : Int64 := 0
  low : Int64 := 0
  high : Int64 := 0
  /-- It holds a truth value. -/
  isBool : Bool := false
  /-- The packet field, if it is one. -/
  field : Option Text := none
  /-- The declaration that owns the register. -/
  owner : Text := ""
  deriving DecidableEq, Repr

namespace Register

/-- A range of a packet field. -/
def ofField (name : Text) (size low high : Int64) : Register :=
  { bundle := 1, size, low, high, field := some name }

/-- The number of bits covered. -/
def width (r : Register) : Int64 := r.high - r.low + 1

/-- Whether the whole bundle or packet field is covered. -/
def isFull (r : Register) : Bool := r.low = 0 && r.high = r.size - 1

/-- How often the number of a bundle's registers can be halved. -/
def halvings (r : Register) : Nat := if 1 < r.bundle then r.bundle.toInt.toNat.log2 else 0

/-- The name of the whole bundle or packet field. -/
def baseName (r : Register) : Text :=
  match r.field with
  | some name => name
  | none =>
    String.ofList (List.replicate r.halvings 'x') ++ "reg" ++
      Numeral.decimal (r.number.toInt.tdiv (1 <<< r.halvings : Nat))

/-- Whether the mask of a register can be formed. -/
def hasMask (l : Limits) (r : Register) : Bool := l.canShift (r.high + 1) && l.canShift r.low

/-- The bits of the base that the register covers. -/
def mask (r : Register) : Nat := lowBits (r.high + 1) ^^^ lowBits r.low

/-- The register in a match: its base and its mask. -/
def matchText (r : Register) : Text := r.baseName ++ "/0x" ++ Numeral.hex r.mask

/-- The register in an action: its base and its range. -/
def actionText (r : Register) : Text :=
  if r.isFull then r.baseName ++ "[]"
  else if r.low = r.high then r.baseName ++ "[" ++ Numeral.word r.low ++ "]"
  else r.baseName ++ "[" ++ Numeral.word r.low ++ ".." ++ Numeral.word r.high ++ "]"

/-- The bits `low` to `high` of a register, if it has them.  A part of a register has no owner. -/
def slice (r : Register) (low high : Int64) : Option Register :=
  if low < 0 ∨ high < low ∨ r.low + high > r.high then none
  else some { r with low := r.low + low, high := r.low + high, owner := "", isBool := false }

end Register

/-- The places in the register file that a register covers; a packet field covers none. -/
def Target.bits (t : Target) (r : Register) : List Int64 :=
  match r.field with
  | some _ => []
  | none =>
    (List.range r.width.toInt.toNat).map fun i =>
      t.bit r.number r.bundle (r.low + Int64.ofNat i)

/-- Whether the places of a register can be listed. -/
def Target.canList (t : Target) (r : Register) : Bool :=
  r.field.isSome || t.limits.canList r.width

end Flowline.Switch
