import Flowline.Text.Bytes
import Flowline.Yaml.Scalar

/-!
# Anchors, tags and directives

A node can be given a name by an anchor, and be repeated by an alias of that name.  A tag says what
a node is.  It consists of a handle and a suffix; a directive at the start of a document says what
its handles stand for.

Like the readers of scalars, these answer `none` where the text is malformed.
-/

namespace Flowline.Yaml

/-! ## Names -/

/-- The letters of a name. -/
def isNameChar (c : Char) : Bool :=
  ('0' ≤ c && c ≤ '9') || ('A' ≤ c && c ≤ 'Z') || ('a' ≤ c && c ≤ 'z') || c = '_' || c = '-'

/-- What may stand directly behind the name of an anchor, besides blanks. -/
def endsName (c : Char) : Bool :=
  "?:,]%@".toList.contains c || c = '\x7d' || c = Char.ofNat 0x60

/-- Reads the name of an anchor or of an alias behind its indicator. -/
def readAnchorName (c : Cursor) : Option (Text × Cursor) :=
  let name := c.rest.takeWhile isNameChar
  let d := c.skip name.length
  if name.isEmpty || !(d.gapAt 0 || (d.peek 0).any endsName) then none
  else some (String.ofList name, d)

/-! ## Tags -/

/-- The letters of the suffix of a tag, besides escaped ones. -/
def isTagChar (c : Char) : Bool := isNameChar c || ";/?:@&=+$,.!~*'()[]".toList.contains c

/-- The byte that an escape stands for: a percent sign and two hexadecimal digits. -/
def octet? (c : Cursor) : Option Nat :=
  match c.rest with
  | '%' :: a :: b :: _ => (hexValue? a).bind fun x => (hexValue? b).map fun y => x * 16 + y
  | _ => none

/-- How many bytes follow the first byte of a character, unless no character starts with it. -/
def trailingBytes? (first : Nat) : Option Nat :=
  if first < 0x80 then some 0
  else if first < 0xC0 then none
  else if first < 0xE0 then some 1
  else if first < 0xF0 then some 2
  else if first < 0xF8 then some 3
  else none

/-- Reads the escaped bytes behind the first one of a character.  The bytes come in reverse. -/
def readTrailing : Nat → List Char → Cursor → Option (List Char × Cursor)
  | 0, acc, c => some (acc, c)
  | n + 1, acc, c =>
    (octet? c).bind fun o =>
      if 0x80 ≤ o ∧ o < 0xC0 then readTrailing n (Char.ofNat o :: acc) (c.skip 3) else none

/-- Reads an escaped character.  The bytes come in reverse. -/
def readEscaped (acc : List Char) (c : Cursor) : Option (List Char × Cursor) :=
  (octet? c).bind fun o =>
    (trailingBytes? o).bind fun n => readTrailing n (Char.ofNat o :: acc) (c.skip 3)

/-- Reads the letters of a suffix. -/
def readTagChars : Nat → List Char → Cursor → Option (List Char × Cursor)
  | 0, acc, c => some (acc.reverse, c)
  | n + 1, acc, c =>
    match c.peek 0 with
    | some '%' => (readEscaped acc c).bind fun (acc, c) => readTagChars n acc c
    | some ch =>
      if isTagChar ch then readTagChars n (ch :: acc) (c.skip 1) else some (acc.reverse, c)
    | none => some (acc.reverse, c)

/-- Reads a suffix that must not be empty. -/
def readSuffix (c : Cursor) : Option (List Char × Cursor) :=
  (readTagChars (c.rest.length + 1) [] c).bind fun (cs, d) =>
    if cs.isEmpty then none else some (cs, d)

/-- Reads what may be a handle: an exclamation mark, a name, and perhaps another mark. -/
def readHandle (c : Cursor) : List Char × Cursor :=
  let name := (c.rest.drop 1).takeWhile isNameChar
  let d := c.skip (name.length + 1)
  if d.sees 0 '!' then ('!' :: name ++ ['!'], d.skip 1) else ('!' :: name, d)

/-- Reads a tag, with its handle in front.  A tag between angle brackets has no handle, and neither
has a lone exclamation mark. -/
def readTag (c : Cursor) : Option (Text × Text × Cursor) :=
  let read : Option (List Char × List Char × Cursor) :=
    if c.sees 1 '<' then
      (readSuffix (c.skip 2)).bind fun (cs, d) =>
        if d.sees 0 '>' then some ([], cs, d.skip 1) else none
    else
      let (handle, d) := readHandle c
      if 1 < handle.length && handle.getLast? == some '!' then
        (readSuffix d).map fun (cs, e) => (handle, cs, e)
      else
        (readTagChars (d.rest.length + 1) [] d).map fun (cs, e) =>
          match handle.drop 1 ++ cs with
          | [] => ([], ['!'], e)
          | suffix => (['!'], suffix, e)
  read.bind fun (handle, suffix, d) =>
    if d.gapAt 0 then some (String.ofList handle, String.ofList suffix, d) else none

/-! ## Directives -/

/-- A directive. -/
inductive Directive where
  | version (major minor : Nat)
  /-- What a handle stands for. -/
  | handle (name start : Text)
  deriving DecidableEq, Repr

/-- Reads one or two digits. -/
def readVersionPart (c : Cursor) : Option (Nat × Cursor) :=
  let digits := c.rest.takeWhile fun ch => '0' ≤ ch && ch ≤ '9'
  if digits.isEmpty || 2 < digits.length then none
  else some (digits.foldl (fun n ch => n * 10 + (ch.toNat - '0'.toNat)) 0, c.skip digits.length)

/-- Reads a version: two numbers with a point between them. -/
def readVersion (c : Cursor) : Option (Directive × Cursor) :=
  (readVersionPart c.skipBlanks).bind fun (major, c) =>
    if c.sees 0 '.' then
      (readVersionPart (c.skip 1)).map fun (minor, c) => (.version major minor, c)
    else none

/-- Reads a handle and what it stands for. -/
def readHandleDirective (c : Cursor) : Option (Directive × Cursor) :=
  let c := c.skipBlanks
  if !c.sees 0 '!' then none
  else
    let (name, c) := readHandle c
    if name ≠ ['!'] && name.getLast? != some '!' then none
    else if !c.blankAt 0 then none
    else
      (readSuffix c.skipBlanks).bind fun (start, c) =>
        if c.gapAt 0 then some (.handle (String.ofList name) (String.ofList start), c) else none

/-- Reads a directive behind its percent sign, with the rest of its line. -/
def readDirective (c : Cursor) : Option (Directive × Cursor) :=
  let name := c.rest.takeWhile isNameChar
  let d := c.skip name.length
  let read : Option (Directive × Cursor) :=
    if !d.gapAt 0 then none
    else if name = "YAML".toList then readVersion d
    else if name = "TAG".toList then readHandleDirective d
    else none
  read.bind fun (directive, c) =>
    let c := c.skipBlanks
    let c := if c.sees 0 '#' then c.skipLine else c
    if c.rest.isEmpty then some (directive, c)
    else if c.breakAt 0 then some (directive, c.newline.2)
    else none

end Flowline.Yaml
