import Flowline.Text.Numeral
import Flowline.Text.Bytes

/-!
# Storage and its types

What an expression can name: fields of packet headers and of metadata, locals of a control,
parameters of an action, and, for validity tests and applications, headers and tables.

A field lives in a packet field of the switch, in a part of one given by a slice annotation, in one
of the two reserved registers, or in a register of its own.
-/

namespace Flowline

/-- The type of a value: its width in bits, and how the bits are read. -/
structure ValueType where
  width : Int64 := 0
  isBool : Bool := false
  isSigned : Bool := false
  isVarbit : Bool := false
  deriving DecidableEq, Repr

namespace ValueType

/-- The type of truth values. -/
def truth : ValueType := { width := 1, isBool := true }

/-- The fewest bits a value of the type may have. -/
def minWidth (t : ValueType) : Int64 := if t.isVarbit then 0 else t.width

/-- The type in program text. -/
def text (t : ValueType) : Text :=
  if t.isBool then "bool"
  else if t.isVarbit then "varbit<" ++ Numeral.word t.width ++ ">"
  else if t.isSigned then "int<" ++ Numeral.word t.width ++ ">"
  else "bit<" ++ Numeral.word t.width ++ ">"

end ValueType

/-- The fields that are bound to a reserved register. -/
inductive Builtin where
  | none
  | outputPort
  | multicastGroup
  deriving DecidableEq, Repr

/-- The place of a field inside a wider packet field of `size` bits; both ends are inclusive. -/
structure SliceNote where
  low : Int64
  high : Int64
  size : Int64
  deriving DecidableEq, Repr

/-- A header, metadata or standard field. -/
structure Field where
  /-- The qualified name, such as `hdr.vlan.vid`. -/
  name : Text
  type : ValueType
  /-- The packet field of the switch that holds it. -/
  packet : Option Text := none
  slice : Option SliceNote := none
  /-- Match text that must hold whenever the field is matched. -/
  prereq : Option Text := none
  builtin : Builtin := .none
  deriving DecidableEq, Repr

/-- A variable of a control. -/
structure Local where
  control : Text
  name : Text
  type : ValueType
  deriving DecidableEq, Repr

/-- The name under which a local owns a register. -/
def Local.fullName (l : Local) : Text := l.control ++ "." ++ l.name

/-- A parameter of an action. -/
structure Param where
  name : Text
  type : ValueType
  deriving DecidableEq, Repr

/-- A header as a validity test sees it: its name, and the match text that tells its presence. -/
structure HeaderRef where
  name : Text
  protocol : Option Text
  deriving DecidableEq, Repr

/-- A table as named inside its control. -/
structure TableRef where
  control : Text
  name : Text
  deriving DecidableEq, Repr

/-- The name of a table with that of its control. -/
def TableRef.fullName (t : TableRef) : Text := t.control ++ "." ++ t.name

end Flowline
