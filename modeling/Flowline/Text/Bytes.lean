/-!
# Byte texts

Program text reaches the compiler as bytes, and a name cut out of it need not be valid UTF-8: the
lexer classifies single bytes, so half of a two-byte character can become an identifier of its own
and then turn up in a message or in the output.  A `Text` is therefore a string whose characters
*are* the bytes: the character with code `b` stands for the byte `b`.  Every literal of the
compiler is ASCII, so concatenation and comparison are those of strings.

* `Text.ofUnicode` encodes a Unicode string into its bytes.
* `Text.glyphs` reads a text back as characters, leaving every byte that belongs to none as a
  stray.
* `Text.toUnicode?` succeeds exactly on the texts without strays.
-/

namespace Flowline

/-- A text of the compiler: a string each of whose characters stands for the byte of its code. -/
abbrev Text := String

namespace Text

/-- The bytes of a Unicode string. -/
def ofUnicode (s : String) : Text :=
  String.ofList ((s.toList.flatMap String.utf8EncodeChar).map fun b => Char.ofNat b.toNat)

/-- A piece of a text: a character with its whole encoding, or a byte that belongs to none. -/
inductive Glyph where
  | char (c : Char)
  | stray (byte : Char)
  deriving DecidableEq, Repr

/-- Whether a byte continues a character begun before it. -/
def isContinuation (b : Char) : Bool := 0x80 ≤ b.toNat && b.toNat < 0xC0

/-- The value of `k` continuation bytes appended to `acc`, six bits each. -/
def continuationValue : Nat → List Char → Nat → Option Nat
  | 0, _, acc => some acc
  | _ + 1, [], _ => none
  | k + 1, b :: rest, acc =>
    if isContinuation b then continuationValue k rest (acc * 64 + (b.toNat - 0x80)) else none

/-- The character that starts with byte `a`, and how many bytes of `rest` belong to it.  Overlong
forms and surrogates are no characters. -/
def leadingChar (a : Char) (rest : List Char) : Option (Char × Nat) :=
  let n := a.toNat
  let read (k least bits : Nat) : Option (Char × Nat) :=
    (continuationValue k rest bits).bind fun v =>
      if least ≤ v ∧ v.isValidChar then some (Char.ofNat v, k) else none
  if n < 0x80 then some (a, 0)
  else if n < 0xC0 then none
  else if n < 0xE0 then read 1 0x80 (n - 0xC0)
  else if n < 0xF0 then read 2 0x800 (n - 0xE0)
  else if n < 0xF8 then read 3 0x10000 (n - 0xF0)
  else none

/-- The glyphs of a list of bytes of which the first `skip` are already accounted for. -/
def glyphsFrom : Nat → List Char → List Glyph
  | _, [] => []
  | skip + 1, _ :: rest => glyphsFrom skip rest
  | 0, a :: rest =>
    match leadingChar a rest with
    | some (c, used) => .char c :: glyphsFrom used rest
    | none => .stray a :: glyphsFrom 0 rest

/-- The characters of a text, with a stray for each byte that is part of none. -/
def glyphs (t : Text) : List Glyph := glyphsFrom 0 t.toList

/-- The character of a glyph that is one. -/
def Glyph.char? : Glyph → Option Char
  | .char c => some c
  | .stray _ => none

/-- The Unicode string of a text that is valid UTF-8. -/
def toUnicode? (t : Text) : Option String :=
  (t.glyphs.mapM Glyph.char?).map String.ofList

/-- The text whose bytes are given. -/
def ofBytes (bytes : List UInt8) : Text :=
  String.ofList (bytes.map fun b => Char.ofNat b.toNat)

/-- The bytes of a text. -/
def toBytes (t : Text) : List UInt8 :=
  t.toList.map fun c => UInt8.ofNat c.toNat

end Text

end Flowline
