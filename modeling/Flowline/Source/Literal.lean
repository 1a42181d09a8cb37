import Flowline.Text.Quoted

/-!
# Integer literals

A literal such as `42`, `0x2a`, `0b101`, `16w5` or `8s0x7f`: an optional width with `w` or `s`
(signed) behind it, an optional mark of the base, and digits among which underscores are ignored.
-/

namespace Flowline.Source

/-- The base in which a literal was written. -/
inductive Radix where
  | binary
  | octal
  | decimal
  | hex
  deriving DecidableEq, Repr

/-- The base as a number. -/
def Radix.base : Radix → Nat
  | .binary => 2
  | .octal => 8
  | .decimal => 10
  | .hex => 16

/-- An integer literal.  The width of an unsized literal is zero. -/
structure Literal where
  value : Int
  width : Int64 := 0
  radix : Radix := .decimal
  isSigned : Bool := false
  deriving DecidableEq, Repr

/-- Why a text is no integer literal. -/
inductive LiteralError where
  | width (literal : Text)
  | digits (literal : Text)
  deriving DecidableEq, Repr

/-- The message of a bad literal. -/
def LiteralError.message : LiteralError → Text
  | .width lit => "invalid width in " ++ lit.quoted
  | .digits lit => "invalid integer literal " ++ lit.quoted

namespace Literal

/-- A number with the minus sign, if any, in front of the numeral of its size. -/
def signed (numeral : Nat → Text) (n : Int) : Text :=
  if n < 0 then "-" ++ numeral n.natAbs else numeral n.natAbs

/-- The digits of a literal with the mark of its base; octal is written in decimal. -/
def digits (l : Literal) : Text :=
  match l.radix with
  | .hex => "0x" ++ signed Numeral.hex l.value
  | .binary => "0b" ++ signed Numeral.binary l.value
  | .octal | .decimal => Numeral.decimal l.value

/-- The literal in program text. -/
def text (l : Literal) : Text :=
  if 0 < l.width then Numeral.word l.width ++ (if l.isSigned then "s" else "w") ++ l.digits
  else l.digits

/-- The base that the two leading characters of a list of digits announce, if there is a digit
behind them. -/
def radixMark? : List Char → Option Radix
  | '0' :: m :: _ :: _ =>
    if m = 'x' ∨ m = 'X' then some .hex
    else if m = 'b' ∨ m = 'B' then some .binary
    else if m = 'o' ∨ m = 'O' then some .octal
    else if m = 'd' ∨ m = 'D' then some .decimal
    else none
  | _ => none

/-- Whether a character separates a width from the digits. -/
def isWidthMark (c : Char) : Bool := c = 'w' || c = 's'

/-- The width in front of a literal, the mark behind it, and the digits.  A literal that starts
with the mark itself or with that of base sixteen has none. -/
def splitWidth? (cs : List Char) : Option (List Char × Char × List Char) :=
  match cs.takeWhile (!isWidthMark ·), cs.dropWhile (!isWidthMark ·) with
  | [], _ => none
  | _, [] => none
  | '0' :: 'x' :: _, _ => none
  | '0' :: 'X' :: _, _ => none
  | width, mark :: digits => some (width, mark, digits)

/-- The value of digits with underscores among them, in the base they announce. -/
def value? (cs : List Char) : Option (Radix × Int) :=
  let cs := cs.filter (· != '_')
  match radixMark? cs with
  | some r => (Numeral.integer? r.base (cs.drop 2)).map fun v => (r, v)
  | none => (Numeral.integer? 10 cs).map fun v => (.decimal, v)

/-- Reads an integer literal. -/
def parse (lit : Text) : Except LiteralError Literal :=
  match splitWidth? lit.toList with
  | some (width, mark, rest) =>
    match Numeral.word? width with
    | none => .error (.width lit)
    | some w =>
      match value? rest with
      | none => .error (.digits lit)
      | some (r, v) => .ok { value := v, width := w, radix := r, isSigned := mark == 's' }
  | none =>
    match value? lit.toList with
    | none => .error (.digits lit)
    | some (r, v) => .ok { value := v, radix := r }

end Literal

end Flowline.Source
