import Flowline.Problem
import Flowline.Source.Token

/-!
# Cutting text into tokens

A `Cursor` is the text still to be read with the position of its first byte.  `Cursor.next` skips
blanks and comments and reads one token.  A zero byte ends comments and strings and reads as the
end of input, but the next call goes on behind it; past the real end the column keeps growing by
one with every call.

The one way to fail is a string literal whose last escape has nothing to escape: there the text
ends inside the literal.

* `Cursor.skipTrivia` reads blanks and comments.
* `Cursor.next` reads one token.
* `scan` reads all tokens of a text.
-/

namespace Flowline.Source

/-! ## Classes of bytes -/

/-- Blanks between tokens. -/
def isBlank (c : Char) : Bool := c = ' ' || c = '\t' || c = '\n' || c = '\r'

/-- Decimal digits. -/
def isDigit (c : Char) : Bool := '0' ≤ c && c ≤ '9'

/-- Hexadecimal digits of either case. -/
def isHexDigit (c : Char) : Bool := isDigit c || ('a' ≤ c && c ≤ 'f') || ('A' ≤ c && c ≤ 'F')

/-- Bytes that start an identifier: the letters of Latin-1 and the underscore. -/
def isLetter (c : Char) : Bool :=
  let n := c.toNat
  ('a' ≤ c && c ≤ 'z') || ('A' ≤ c && c ≤ 'Z') || c = '_' || n = 0xAA || n = 0xB5 || n = 0xBA ||
    (0xC0 ≤ n && n ≤ 0xD6) || (0xD8 ≤ n && n ≤ 0xF6) || (0xF8 ≤ n && n ≤ 0xFF)

/-- Bytes that continue an identifier. -/
def isWordChar (c : Char) : Bool := isLetter c || isDigit c

/-- Bytes that may stand in an integer literal behind its leading digits. -/
def isNumberTail (c : Char) : Bool :=
  isHexDigit c || c = 'x' || c = 'X' || c = 'o' || c = 'O' || c = '_'

/-- The zero byte, which reads as the end of input. -/
def nul : Char := Char.ofNat 0

/-! ## Positions -/

/-- Text still to be read, and the place of its first byte.  A newline counts as column 0 of the
line that it starts. -/
structure Cursor where
  rest : List Char
  line : Nat
  column : Nat
  deriving DecidableEq, Repr

namespace Cursor

/-- The cursor at `rest`, coming from the byte at the given place. -/
def arrive (rest : List Char) (line column : Nat) : Cursor :=
  if rest.head? = some '\n' then ⟨rest, line + 1, 0⟩ else ⟨rest, line, column + 1⟩

/-- The cursor at the start of a text. -/
def start (input : List Char) : Cursor := arrive input 1 0

/-- One byte further.  Past the end of the text only the column moves. -/
def advance (c : Cursor) : Cursor := arrive c.rest.tail c.line c.column

/-- Several bytes further. -/
def advanceBy : Nat → Cursor → Cursor
  | 0, c => c
  | n + 1, c => advanceBy n c.advance

/-! ## Blanks and comments -/

/-- What is being skipped: blanks, a comment up to the end of its line, or a closed comment. -/
inductive Skipping where
  | blanks
  | line
  | closed
  deriving DecidableEq, Repr

/-- Skips blanks and comments.  A comment is also cut off by a zero byte. -/
def skipFrom : Skipping → List Char → Nat → Nat → Cursor
  | _, [], l, k => ⟨[], l, k⟩
  | .blanks, c :: cs, l, k =>
    if isBlank c then
      let p := arrive cs l k
      skipFrom .blanks cs p.line p.column
    else if c = '/' then
      match cs with
      | '/' :: ds =>
        let p := arrive ('/' :: ds) l k
        let q := arrive ds p.line p.column
        skipFrom .line ds q.line q.column
      | '*' :: ds =>
        let p := arrive ('*' :: ds) l k
        let q := arrive ds p.line p.column
        skipFrom .closed ds q.line q.column
      | _ => ⟨c :: cs, l, k⟩
    else ⟨c :: cs, l, k⟩
  | .line, c :: cs, l, k =>
    if c = nul then ⟨c :: cs, l, k⟩
    else
      let p := arrive cs l k
      skipFrom (if c = '\n' then .blanks else .line) cs p.line p.column
  | .closed, c :: cs, l, k =>
    if c = nul then ⟨c :: cs, l, k⟩
    else
      match c, cs with
      | '*', '/' :: ds =>
        let p := arrive ('/' :: ds) l k
        let q := arrive ds p.line p.column
        skipFrom .blanks ds q.line q.column
      | _, cs =>
        let p := arrive cs l k
        skipFrom .closed cs p.line p.column

/-- The cursor at the next byte that is neither blank nor part of a comment. -/
def skipTrivia (c : Cursor) : Cursor := skipFrom .blanks c.rest c.line c.column

end Cursor

/-! ## Literals -/

/-- The length of the literal part of a string whose opening quote has been read: up to a quote, a
zero byte or the end, a backslash taking the byte behind it along.  There is none if the text ends
right behind a backslash. -/
def stringLength : List Char → Option Nat
  | [] => some 0
  | '\\' :: [] => none
  | '\\' :: _ :: cs => (stringLength cs).map (· + 2)
  | c :: cs => if c = '"' ∨ c = nul then some 0 else (stringLength cs).map (· + 1)

/-- The width in front of an integer literal: a `w` or `s` with a digit behind it, and the digits
that follow. -/
def widthLength : List Char → Nat
  | c :: d :: cs =>
    if (c = 'w' ∨ c = 's') ∧ isDigit d then 2 + (cs.takeWhile isDigit).length else 0
  | _ => 0

/-- The length of the integer literal at the start of a list of bytes. -/
def numberLength (cs : List Char) : Nat :=
  let digits := (cs.takeWhile isDigit).length
  let width := widthLength (cs.drop digits)
  digits + width + ((cs.drop (digits + width)).takeWhile isNumberTail).length

/-! ## Tokens -/

/-- The operator or delimiter at the start of a list of bytes, the longest one that fits. -/
def symbol? : List Char → Option TokenKind
  | '=' :: '=' :: _ => some .eq
  | '=' :: _ => some .assign
  | '!' :: '=' :: _ => some .ne
  | '!' :: _ => some .not
  | '<' :: _ => some .lt
  | '>' :: _ => some .gt
  | '&' :: '&' :: '&' :: _ => some .mask
  | '&' :: '&' :: _ => some .and
  | '&' :: _ => some .ampersand
  | '|' :: '|' :: _ => some .or
  | ':' :: _ => some .colon
  | '(' :: _ => some .lparen
  | ')' :: _ => some .rparen
  | '\x7b' :: _ => some .lbrace
  | '\x7d' :: _ => some .rbrace
  | '[' :: _ => some .lbracket
  | ']' :: _ => some .rbracket
  | ';' :: _ => some .semicolon
  | ',' :: _ => some .comma
  | '.' :: _ => some .dot
  | _ => none

namespace Cursor

/-- The token at a cursor that stands on no blank and no comment, and the cursor behind it. -/
def token (c : Cursor) : Except Fault (Token × Cursor) :=
  match c.rest with
  | [] => .ok (⟨.eof, "", c.line, c.column⟩, c.advance)
  | ch :: cs =>
    if ch = nul then .ok (⟨.eof, "", c.line, c.column⟩, c.advance)
    else if ch = '"' then
      match stringLength cs with
      | none => .error .unfinishedEscape
      | some n =>
        .ok (⟨.string, String.ofList (cs.take n), c.line, c.column⟩, c.advanceBy (n + 2))
    else if isLetter ch then
      let word := c.rest.takeWhile isWordChar
      .ok (⟨.ofWord (String.ofList word), String.ofList word, c.line, c.column⟩,
        c.advanceBy word.length)
    else if isDigit ch then
      let n := numberLength c.rest
      .ok (⟨.int, String.ofList (c.rest.take n), c.line, c.column⟩, c.advanceBy n)
    else
      match symbol? c.rest with
      | some kind => .ok (⟨kind, kind.name, c.line, c.column⟩, c.advanceBy kind.name.length)
      | none =>
        .ok (⟨.illegal, Text.ofUnicode (String.singleton ch), c.line, c.column⟩, c.advance)

/-- The next token, and the cursor behind it. -/
def next (c : Cursor) : Except Fault (Token × Cursor) := c.skipTrivia.token

/-- The next `n` tokens. -/
def nextMany : Nat → Cursor → Except Fault (List Token × Cursor)
  | 0, c => .ok ([], c)
  | n + 1, c => do
    let (t, c) ← c.next
    let (ts, c) ← nextMany n c
    return (t :: ts, c)

/-- The tokens up to and including the first end of input, if it comes within the given number of
tokens. -/
def nextUntilEof : Nat → Cursor → Except Fault (List Token × Cursor)
  | 0, c => .ok ([], c)
  | n + 1, c => do
    let (t, c) ← c.next
    if t.kind = .eof then return ([t], c)
    let (ts, c) ← nextUntilEof n c
    return (t :: ts, c)

end Cursor

/-- The tokens of a text up to and including the first end of input, and `extra` more. -/
def lex (input : Text) (extra : Nat) : Except Fault (List Token) := do
  let (ts, c) ← (Cursor.start input.toList).nextUntilEof (input.length + 1)
  let (us, _) ← c.nextMany extra
  return ts ++ us

/-- All tokens of a text: those before the real end of the text, the end-of-input token there, and
the fault that cut the text short, if one did. -/
structure Scan where
  tokens : List Token
  last : Token
  fault : Option Fault
  deriving DecidableEq, Repr

/-- Reads tokens until the text ends, at most `n` of them. -/
def scanFrom : Nat → Cursor → Scan
  | 0, c => ⟨[], ⟨.eof, "", c.line, c.column⟩, none⟩
  | n + 1, c =>
    let c := c.skipTrivia
    match c.rest, c.token with
    | [], _ => ⟨[], ⟨.eof, "", c.line, c.column⟩, none⟩
    | _, .error f => ⟨[], ⟨.eof, "", c.line, c.column⟩, some f⟩
    | _, .ok (t, c) =>
      let s := scanFrom n c
      { s with tokens := t :: s.tokens }

/-- The tokens of a text.  Every token but the last takes at least one byte, so as many steps as
there are bytes and one more always reach the end. -/
def scan (input : Text) : Scan := scanFrom (input.length + 1) (Cursor.start input.toList)

end Flowline.Source
