import Flowline.Text.Bytes
import Flowline.Text.Numeral
import Flowline.Text.Printable

/-!
# Quoted texts

The quoted form of a text stands between double quotes on one line.  Quote and backslash are
escaped by a backslash, the seven named control characters by their letter, every other
unprintable character by its number, and a byte that belongs to no character by `\x` and two
digits; printable characters stand for themselves.
-/

namespace Flowline.Text

/-- The letter that names a control character after a backslash. -/
def controlLetter? (c : Char) : Option Char :=
  match c.toNat with
  | 7 => some 'a'
  | 8 => some 'b'
  | 9 => some 't'
  | 10 => some 'n'
  | 11 => some 'v'
  | 12 => some 'f'
  | 13 => some 'r'
  | _ => none

/-- The quoted form of one character. -/
def quoteChar (c : Char) : List Char :=
  if c = '"' ∨ c = '\\' then ['\\', c]
  else if isPrintable c then (ofUnicode (String.singleton c)).toList
  else
    match controlLetter? c with
    | some l => ['\\', l]
    | none =>
      let n := c.toNat
      if n < 0x80 then '\\' :: 'x' :: Numeral.paddedHex 2 n
      else if n < 0x10000 then '\\' :: 'u' :: Numeral.paddedHex 4 n
      else '\\' :: 'U' :: Numeral.paddedHex 8 n

/-- The quoted form of one glyph. -/
def quoteGlyph : Glyph → List Char
  | .char c => quoteChar c
  | .stray b => '\\' :: 'x' :: Numeral.paddedHex 2 b.toNat

/-- A text between double quotes, with everything escaped that could not be read back. -/
def quoted (t : Text) : Text :=
  String.ofList ('"' :: t.glyphs.flatMap quoteGlyph ++ ['"'])

end Flowline.Text
