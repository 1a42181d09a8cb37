import Flowline.Flow.Basic
import Flowline.Switch.Allocator
import Flowline.Pipeline.Storage

/-!
# Where storage lives

The register of a field or a local.  Fields bound to a packet field live there, the two built-in
fields in the reserved registers, and all other storage in registers of its own, which are given
out when they are first asked for.

Lowering runs on the state of the register file, which stays as it is when lowering fails.
-/

namespace Flowline.Lower

open Switch (Allocator Register)

/-- A computation that uses the register file and may be refused. -/
abbrev Lowering (α : Type) := ExceptT Problem (StateM Allocator) α

/-- The owner of the register that holds the output port. -/
def outputPort : Text := "out_port"

/-- The owner of the register that holds the multicast group. -/
def multicastGroup : Text := "mcast_grp"

/-- A result as a computation. -/
def ofExcept {α : Type} : Except Problem α → Lowering α
  | .ok v => pure v
  | .error p => throw p

/-- The register of a name, given out if it has none. -/
def allocate (name : Text) (declared minimum : Int64) (isBool : Bool) : Lowering Register := do
  match (← get).allocate name declared minimum isBool with
  | .ok (r, a) =>
    set a
    pure r
  | .error p => throw p

/-- A field cannot be held by a slice. -/
def sliceProblem (f : Field) (reason : Text) : Problem :=
  .diagnostic ⟨.invalidSlice, f.name, reason⟩

/-- A range of bits in messages. -/
def rangeText (s : SliceNote) : Text :=
  "slice [" ++ Numeral.word s.low ++ ".." ++ Numeral.word s.high ++ "]"

/-- The part of a packet field that holds a field.  It must lie inside the packet field and be as
wide as the field. -/
def slicedField (f : Field) (packet : Text) (s : SliceNote) : Except Problem Register :=
  if s.low < 0 ∨ s.low > s.high ∨ s.high ≥ s.size then
    .error (sliceProblem f
      (rangeText s ++ " does not fit in a " ++ Numeral.word s.size ++ "-bit field"))
  else if s.high - s.low + 1 ≠ f.type.width then
    .error (sliceProblem f
      (rangeText s ++ " covers " ++ Numeral.word (s.high - s.low + 1) ++ " bits, field has " ++
        Numeral.word f.type.width))
  else .ok (.ofField packet s.size s.low s.high)

/-- The packet field, or the part of it, that holds a field. -/
def packetField (f : Field) (packet : Text) : Except Problem Register :=
  match f.slice with
  | none => .ok (.ofField packet f.type.width 0 (f.type.width - 1))
  | some s => slicedField f packet s

/-- The reserved register that holds a field, which must be wide enough. -/
def reserved (a : Allocator) (owner : Text) (f : Field) : Except Problem Register :=
  match a.lookup owner with
  | none =>
    .error (.diagnostic ⟨.structural, f.name, "reserved register " ++ owner ++ " is not allocated"⟩)
  | some r =>
    if r.width < f.type.width then
      .error (.unsupported f.name
        (Numeral.word f.type.width ++ " bits do not fit the " ++ Numeral.word r.width ++ "-bit " ++
          owner ++ " register"))
    else .ok r

/-- The register of a field. -/
def fieldRegister (f : Field) : Lowering Register := do
  match f.builtin with
  | .outputPort => ofExcept (reserved (← get) outputPort f)
  | .multicastGroup => ofExcept (reserved (← get) multicastGroup f)
  | .none =>
    match f.packet with
    | some packet => ofExcept (packetField f packet)
    | none => allocate f.name f.type.width f.type.minWidth f.type.isBool

/-- The register of a local. -/
def localRegister (l : Local) : Lowering Register :=
  allocate l.fullName l.type.width l.type.minWidth l.type.isBool

end Flowline.Lower
