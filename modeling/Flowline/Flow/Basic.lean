import Flowline.Switch.Register

/-!
# Flows

A flow is a match and the actions of the packets that it holds for.  Values are registers,
constants, parts of values, and variables that the rule around the flow binds; the text of a
variable stands between a dollar sign with an opening brace and a closing brace.

The text of a comparison shifts its constants to the place of the register, and forms the mask of
the register.  `Match.hasText` tells whether these shifts exist.
-/

namespace Flowline.Flow

open Switch

/-- A value read or written by a flow. -/
inductive Expr where
  | reg (r : Register)
  /-- A number, with the base in which it is written. -/
  | const (value : Int) (base : Int64)
  /-- A value that the rule around the flow binds. -/
  | var (name : Text) (width : Int64)
  | slice (e : Expr) (low high : Int64)
  deriving DecidableEq, Repr

/-- A condition on a packet. -/
inductive Match where
  /-- The packet is at a stage. -/
  | table (stage : Int64)
  /-- A register has a value, under a mask if there is one. -/
  | equals (left right : Expr) (mask : Option Expr)
  | protocol (text : Text)
  /-- Text that must stand in front of the match of a field. -/
  | prereq (text : Text)
  | priority (e : Expr)
  /-- Text that the rule computes; it brings its own separator. -/
  | interpolated (name : Text)
  | seq (left right : Match)
  deriving DecidableEq, Repr

/-- What is done with a packet. -/
inductive Action where
  | empty
  | explicit (text : Text)
  /-- Copies bits. -/
  | move (src dst : Expr)
  /-- Writes a constant. -/
  | load (src dst : Expr)
  | seq (left right : Action)
  | drop
  /-- Acts on a copy of the packet. -/
  | clone (a : Action)
  | output (port : Expr)
  /-- Goes on at a stage. -/
  | resubmit (stage : Int64)
  /-- Text that the rule computes. -/
  | var (name : Text)
  deriving DecidableEq, Repr

/-- A decimal constant. -/
def Expr.number (n : Int) : Expr := .const n 10

/-- The matches that are there, in order, as one. -/
def Match.all? (ms : List Match) : Option Match :=
  match ms with
  | [] => none
  | m :: ms => some (ms.foldl .seq m)

/-- Actions one after the other. -/
def Action.all (as : List Action) : Action :=
  match as with
  | [] => .empty
  | a :: as => as.foldl .seq a

/-! ## Text -/

/-- A variable inside the text of a flow. -/
def interpolation (name : Text) : Text := "$\x7b" ++ name ++ "\x7d"

/-- A number in a base, the sign in front of the mark of base sixteen. -/
def constText (value : Int) (base : Int64) : Text :=
  if base = 16 then
    if value < 0 then "-0x" ++ Numeral.hex value.natAbs else "0x" ++ Numeral.hex value.natAbs
  else if base = 2 then
    "0b" ++ (if value < 0 then "-" else "") ++ Numeral.binary value.natAbs
  else Numeral.decimal value

/-- A value outside a match. -/
def Expr.text : Expr → Text
  | reg r => r.actionText
  | const value base => constText value base
  | var name _ => interpolation name
  | slice e low high => e.text ++ "[" ++ Numeral.word low ++ ".." ++ Numeral.word high ++ "]"

/-- The register that a value denotes: a register, or a part of one that it has. -/
def Expr.asRegister : Expr → Option Register
  | reg r => some r
  | slice e low high => e.asRegister.bind fun r => r.slice low high
  | _ => none

/-- A number shifted up, in base sixteen with the sign behind the mark. -/
def shiftedText (value : Int) (low : Int64) : Text :=
  "0x" ++ (if value < 0 then "-" else "") ++ Numeral.hex (value.natAbs <<< low.toInt.toNat)

/-- A value moved to the place of a register inside its base. -/
def positioned (v : Expr) (r : Register) : Text :=
  if r.low = 0 then v.text
  else
    match v with
    | .const value _ => shiftedText value r.low
    | .var name _ =>
      interpolation ("(" ++ name ++ " as bit<" ++ Numeral.word r.size ++ ">) << " ++
        Numeral.word r.low)
    | v => v.text

/-- A comparison: the base of the register, the value at its place, and the mask.  A packet field
compared as a whole needs no mask. -/
def equalsText (left right : Expr) (mask : Option Expr) : Text :=
  match left.asRegister with
  | none => left.text ++ "=" ++ right.text
  | some r =>
    r.baseName ++ "=" ++ positioned right r ++
      match mask with
      | some m => "/" ++ positioned m r
      | none =>
        if r.field.isNone || !r.isFull then "/0x" ++ Numeral.hex r.mask else ""

/-- A match in flow syntax. -/
def Match.text : Match → Text
  | table stage => "table=" ++ Numeral.word stage
  | equals left right mask => equalsText left right mask
  | protocol t => t
  | prereq t => t
  | priority e => "priority=" ++ e.text
  | interpolated name => interpolation name
  | seq left (.interpolated name) => left.text ++ interpolation name
  | seq left right => left.text ++ ", " ++ right.text

/-- Actions in flow syntax; what does nothing leaves no trace. -/
def Action.text : Action → Text
  | empty => ""
  | explicit t => t
  | move src dst => "move(" ++ src.text ++ "->" ++ dst.text ++ ")"
  | load src dst => "load(" ++ src.text ++ "->" ++ dst.text ++ ")"
  | seq left right =>
    let l := left.text
    let r := right.text
    if l = "" then r else if r = "" then l else l ++ ", " ++ r
  | drop => "drop"
  | clone a => "clone(" ++ a.text ++ ")"
  | output port => "output(" ++ port.text ++ ")"
  | resubmit stage => "resubmit(," ++ Numeral.word stage ++ ")"
  | var name => interpolation name

/-- Whether a value can be moved to the place of a register. -/
def canPosition (l : Limits) (v : Expr) (r : Register) : Bool :=
  match v with
  | .const value _ => r.low = 0 || value = 0 || l.canShift r.low
  | _ => true

/-- Whether the shifts in the text of a match exist. -/
def Match.hasText (l : Limits) : Match → Bool
  | equals left right mask =>
    match left.asRegister with
    | none => true
    | some r =>
      canPosition l right r &&
        match mask with
        | some m => canPosition l m r
        | none => if r.field.isNone || !r.isFull then r.hasMask l else true
  | seq left right => left.hasText l && right.hasText l
  | _ => true

/-! ## Masks -/

/-- The number of zero bits below the lowest bit set of a positive number, counted up to a bound. -/
def trailingZeros : Nat → Nat → Nat
  | 0, _ => 0
  | n + 1, m => if m % 2 = 1 then 0 else trailingZeros n (m / 2) + 1

/-- The lowest and the highest bit of a mask, and whether all bits between them are set. -/
def maskRange (mask : Int) : Nat × Nat × Bool :=
  if mask ≤ 0 then (0, 0, false)
  else
    let m := mask.toNat
    let low := trailingZeros (m.log2 + 1) m
    let high := m.log2
    (low, high, (1 <<< (high + 1) - 1) ^^^ (1 <<< low - 1) == m)

end Flowline.Flow
