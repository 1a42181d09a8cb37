import Flowline.Problem
import Flowline.Switch.Register

/-!
# Register allocation

Named values are placed in the register file one after the other.  A value takes its width rounded
up to whole bytes, inside one bundle: the smallest power of two of base registers that is wide
enough.  Of all places in bundles of that size, the first free one is taken, bundles in order and
offsets in steps of a byte.  A name that owns a register keeps it.
-/

namespace Flowline.Switch

/-- The state of the register file: which bits are taken, and who owns which register, in the order
in which they were given out. -/
structure Allocator where
  target : Target
  used : List Int64 := []
  owners : List (Text × Register) := []
  deriving DecidableEq, Repr

namespace Allocator

/-- The register file with every bit free. -/
def fresh (t : Target) : Allocator := { target := t }

/-- The register that a name owns. -/
def lookup (a : Allocator) (name : Text) : Option Register := a.owners.lookup name

/-- All registers given out, in order. -/
def allocated (a : Allocator) : List Register := a.owners.map (·.2)

/-- The number of free bits. -/
def freeBits (a : Allocator) : Int64 := a.target.totalBits - Int64.ofNat a.used.length

/-- A width rounded up to whole bytes. -/
def roundUp (width : Int64) : Int64 := (width + 7) / 8 * 8

/-- Doubles a bundle of base registers until it holds the given bits, up to the largest bundle. -/
def bundleFrom (t : Target) (bits : Int64) : Nat → Int64 → Except Fault (Option Int64)
  | 0, _ => .error .endlessSearch
  | n + 1, b =>
    if b ≤ t.maxBundle then
      if bits ≤ b * t.registerWidth then .ok (some b) else bundleFrom t bits n (b <<< 1)
    else .ok none

/-- The smallest bundle that holds the given bits.  Doubling a machine word sixty-four times leaves
zero, from where it leads nowhere. -/
def bundleFor (t : Target) (bits : Int64) : Except Fault (Option Int64) := bundleFrom t bits 65 1

/-- The bits of `length` from offset `off` in the bundle that starts at `first`. -/
def span (t : Target) (first bundle off length : Int64) : List Int64 :=
  t.bits { number := first, bundle, low := off, high := off + length - 1 }

/-- Whether none of the given bits is taken. -/
def isFree (a : Allocator) (bits : List Int64) : Bool := bits.all fun i => !a.used.contains i

/-- The first free offset among `n` offsets from `off`, a byte apart. -/
def freeOffset (a : Allocator) (first bundle bits : Int64) : Nat → Int64 → Option Int64
  | 0, _ => none
  | n + 1, off =>
    if a.isFree (span a.target first bundle off bits) then some off
    else freeOffset a first bundle bits n (off + 8)

/-- The first free place among `n` bundles from base register `first`. -/
def freePlace (a : Allocator) (bundle bits : Int64) (offsets : Nat) :
    Nat → Int64 → Option (Int64 × Int64)
  | 0, _ => none
  | n + 1, first =>
    match freeOffset a first bundle bits offsets 0 with
    | some off => some (first, off)
    | none => freePlace a bundle bits offsets n (first + bundle)

/-- The number of bundles of the register file. -/
def bundleCount (t : Target) (bundle : Int64) : Nat := (t.registers / bundle).toInt.toNat

/-- The number of offsets in a bundle at which the given bits fit. -/
def offsetCount (t : Target) (bundle bits : Int64) : Nat :=
  let whole := bundle * t.registerWidth
  if bits ≤ whole then ((whole.toInt - bits.toInt) / 8 + 1).toNat else 0

/-- No place is left. -/
def exhausted (a : Allocator) (name : Text) (width : Int64) : Problem :=
  .diagnostic ⟨.exhausted, name, "no free range of " ++ Numeral.word width ++ " bits in " ++
    Numeral.word a.target.registers ++ " registers"⟩

/-- Marks the bits of a place as taken and gives it to a name. -/
def give (a : Allocator) (name : Text) (bits : Int64) (r : Register) : Allocator :=
  { a with
    used := a.used ++ span a.target r.number r.bundle r.low bits
    owners := a.owners ++ [(name, r)] }

/-- Places a value of a width that no name owns yet. -/
def place (a : Allocator) (name : Text) (width : Int64) (isBool : Bool) :
    Except Problem (Register × Allocator) :=
  let bits := roundUp width
  match bundleFor a.target bits with
  | .error f => .error (.fault f)
  | .ok none => .error (a.exhausted name width)
  | .ok (some bundle) =>
    if a.target.limits.canList bits then
      match freePlace a bundle bits (offsetCount a.target bundle bits)
        (bundleCount a.target bundle) 0 with
      | none => .error (a.exhausted name width)
      | some (first, off) =>
        let r : Register :=
          { number := first, bundle, size := bundle * a.target.registerWidth, low := off,
            high := off + width - 1, isBool, owner := name }
        .ok (r, a.give name bits r)
    else .error (.fault .spanLength)

/-- The register of a name: the one it owns, or a new one for its declared width.  The declared
width must be positive and the least width that the value can have. -/
def allocate (a : Allocator) (name : Text) (declared minimum : Int64) (isBool : Bool) :
    Except Problem (Register × Allocator) :=
  match a.lookup name with
  | some r => .ok (r, a)
  | none =>
    if declared ≠ minimum then
      .error (.unsupported name ("declared width " ++ Numeral.word declared ++
        " differs from minimum width " ++ Numeral.word minimum))
    else if declared ≤ 0 then
      .error (.unsupported name ("cannot allocate " ++ Numeral.word declared ++ " bits"))
    else a.place name declared isBool

end Allocator

end Flowline.Switch
