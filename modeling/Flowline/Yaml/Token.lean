import Flowline.Yaml.Property

/-!
# Tokens of a document

A document is cut into scalars and marks of structure.  In block style, indentation opens and
closes collections: a column deeper than the last opens one, and going back closes it.

## Keys are known late

A mapping key is known as one only when its colon is met.  Every place where a key could start is
therefore remembered, one for each level of nesting, and when the colon comes on the same line and
within 1024 characters, the marks that open the key are put in at that place.  In block style, what
stands at the indentation of a mapping must turn out to be a key.

## Tokens come on demand

A text may go on behind its first document, and what stands there need not be well formed.  So
tokens are cut only as they are asked for: before the first token of the queue is handed out, two
more have been cut behind it, and as many as it takes to see whether a key starts there.  A text is
malformed only if one of these cannot be cut.
-/

namespace Flowline.Yaml

/-- The kinds of tokens. -/
inductive Mark where
  | streamStart
  | streamEnd
  | directive (d : Directive)
  | documentStart
  | documentEnd
  | blockSeqStart
  | blockMapStart
  | blockEnd
  | flowSeqStart
  | flowSeqEnd
  | flowMapStart
  | flowMapEnd
  | blockEntry
  | flowEntry
  | key
  | value
  | reference (name : Text)
  | anchor (name : Text)
  | tag (handle suffix : Text)
  | scalar (plain : Bool) (text : List Char)
  deriving DecidableEq, Repr

/-- A token and the line, counted from one, on which it starts. -/
structure Token where
  mark : Mark
  line : Nat
  deriving Repr

/-- A place where a mapping key may start. -/
structure KeyPlace where
  possible : Bool := false
  required : Bool := false
  /-- The number of tokens before it. -/
  number : Nat
  line : Nat
  column : Nat
  index : Nat
  deriving Repr

/-- The state of cutting a document into tokens. -/
structure Scanner where
  cursor : Cursor
  /-- Bounds the steps over the text. -/
  limit : Nat
  /-- The tokens that were cut and not yet handed out. -/
  queue : List Token := [⟨.streamStart, 1⟩]
  /-- The number of tokens handed out. -/
  parsed : Nat := 0
  /-- The columns of the open block collections, the innermost first. -/
  indents : List Nat := []
  /-- The possible key of each level of flow nesting, the innermost first, and that of the block
  level. -/
  keys : List KeyPlace := [{ number := 0, line := 0, column := 0, index := 0 }]
  /-- The levels of the keys that may start at a token, by the number of the token. -/
  noted : List (Nat × Nat) := []
  keyAllowed : Bool := true
  /-- Whether the text starts with two byte order marks. -/
  twoMarks : Bool := false
  deriving Repr

namespace Scanner

/-- Whether the cursor is inside a flow collection. -/
def inFlow (s : Scanner) : Bool := 1 < s.keys.length

/-- The number of tokens cut so far. -/
def count (s : Scanner) : Nat := s.parsed + s.queue.length

/-! ## The queue -/

/-- Adds a token. -/
def append (s : Scanner) (t : Token) : Scanner := { s with queue := s.queue ++ [t] }

/-- Adds a token that starts at the cursor. -/
def push (s : Scanner) (m : Mark) : Scanner := s.append ⟨m, s.cursor.line + 1⟩

/-- Puts a token in behind the first `number` ones; at the end, if those are handed out. -/
def insert (s : Scanner) (number : Nat) (t : Token) : Scanner :=
  if number < s.parsed then s.append t
  else
    let place := number - s.parsed
    { s with queue := s.queue.take place ++ t :: s.queue.drop place }

/-- Moves the cursor over characters of the same line. -/
def skip (s : Scanner) (n : Nat) : Scanner := { s with cursor := s.cursor.skip n }

/-! ## Keys -/

/-- The possible key of a level, counted from the block level. -/
def keyAt (s : Scanner) (level : Nat) : Option KeyPlace :=
  if level < s.keys.length then s.keys[s.keys.length - 1 - level]? else none

/-- Forgets that a key may start at a token. -/
def forget (s : Scanner) (number : Nat) : Scanner :=
  { s with noted := s.noted.filter fun e => e.1 != number }

/-- Replaces the possible key of the current level. -/
def setKey (s : Scanner) (k : KeyPlace) : Scanner :=
  { s with keys := k :: s.keys.tail }

/-- Gives up the possible key of the current level, unless it had to be one. -/
def dropKey (s : Scanner) : Option Scanner :=
  match s.keys with
  | k :: _ =>
    if !k.possible then some s
    else if k.required then none
    else some ((s.setKey { k with possible := false }).forget k.number)
  | [] => some s

/-- Remembers that a key may start at the cursor. -/
def saveKey (s : Scanner) : Option Scanner :=
  if s.keyAllowed then
    let c := s.cursor
    let required := !s.inFlow && s.indents.head? == some c.column
    let k : KeyPlace := ⟨true, required, s.count, c.line, c.column, c.index⟩
    s.dropKey.map fun s =>
      let s := (s.setKey k).forget k.number
      { s with noted := (k.number, s.keys.length - 1) :: s.noted }
  else some s

/-- Whether the key of a level may still turn out to be one.  One that lies too far back cannot,
and must not have had to be one. -/
def checkKey (s : Scanner) (level : Nat) : Option (Bool × Scanner) :=
  match s.keyAt level with
  | none => some (false, s)
  | some k =>
    if !k.possible then some (false, s)
    else if k.line < s.cursor.line || k.index + 1024 < s.cursor.index then
      if k.required then none
      else
        let place := s.keys.length - 1 - level
        some (false, { s with keys := s.keys.set place { k with possible := false } })
    else some (true, s)

/-! ## Indentation -/

/-- Closes the block collections that are deeper than a column; all of them if there is none. -/
def closeTo (column : Option Nat) : List Nat → Scanner → Scanner
  | [], s => { s with indents := [] }
  | i :: rest, s =>
    if column.all (· < i) then closeTo column rest (s.push .blockEnd)
    else { s with indents := i :: rest }

/-- Closes block collections down to a column, outside flow collections. -/
def unroll (s : Scanner) (column : Option Nat) : Scanner :=
  if s.inFlow then s else closeTo column s.indents s

/-- Opens a block collection at a column deeper than the last, its mark behind `number` tokens. -/
def roll (s : Scanner) (column number line : Nat) (m : Mark) : Scanner :=
  if s.inFlow then s
  else if s.indents.head?.all (· < column) then
    { s with indents := column :: s.indents }.insert number ⟨m, line + 1⟩
  else s

/-- Opens a block collection at the cursor. -/
def rollHere (s : Scanner) (m : Mark) : Scanner :=
  s.roll s.cursor.column s.count s.cursor.line m

/-! ## Blanks and comments -/

/-- How far the next comment is from the end of a line with one, if only blanks, tabs and line
breaks lie between.  At most 511 characters are looked at. -/
def nextComment? : List Char → Option Nat
  | b :: rest =>
    let gap (c : Char) : Bool := c = ' ' || c = '\t' || c = '\n' || c = '\r'
    let n := (rest.takeWhile gap).length + 1
    if (b = '\n' || b = '\r') && n < 512 && rest[n - 1]? == some '#' then some n else none
  | [] => none

/-- Skips a comment and those that follow it. -/
def skipComments : Nat → Cursor → Cursor
  | 0, c => c
  | n + 1, c =>
    let c := c.skipLine
    match nextComment? c.rest with
    | some k => skipComments n (c.advance k)
    | none => c

/-- Skips blanks, comments and line breaks.  A line break in block style allows a key.  In a text
that starts with two byte order marks, the first character of a line is skipped. -/
def skipGap : Nat → Scanner → Scanner
  | 0, s => s
  | n + 1, s =>
    let c := s.cursor
    let c := if s.twoMarks && c.column = 0 && !c.rest.isEmpty then c.skip 1 else c
    let isSkipped (ch : Char) : Bool := ch = ' ' || ((s.inFlow || !s.keyAllowed) && ch = '\t')
    let c := c.skip (c.rest.takeWhile isSkipped).length
    let c := if c.sees 0 '#' then skipComments (c.rest.length + 1) c else c
    if c.breakAt 0 then
      skipGap n { s with cursor := c.newline.2, keyAllowed := s.keyAllowed || !s.inFlow }
    else { s with cursor := c }

/-- Skips a comment on the line of a token. -/
def skipLineComment (s : Scanner) : Scanner :=
  let blanks := (s.cursor.rest.takeWhile isBlank).length
  if blanks < 512 && s.cursor.sees blanks '#' then { s with cursor := s.cursor.skipLine } else s

/-! ## Single tokens -/

/-- Reads the start of a flow collection. -/
def openFlow (s : Scanner) (m : Mark) : Option Scanner :=
  s.saveKey.map fun s =>
    let c := s.cursor
    let k : KeyPlace := ⟨false, false, s.count, c.line, c.column, c.index⟩
    { (s.push m).skip 1 with keys := k :: s.keys, keyAllowed := true }

/-- Reads the end of a flow collection. -/
def closeFlow (s : Scanner) (m : Mark) : Option Scanner :=
  s.dropKey.map fun s =>
    let s :=
      match s.keys with
      | k :: l :: rest => { s.forget k.number with keys := l :: rest }
      | _ => s
    { (s.push m).skip 1 with keyAllowed := false }

/-- Reads the mark between items of a flow collection. -/
def flowEntry (s : Scanner) : Option Scanner :=
  s.dropKey.map fun s => { (s.push .flowEntry).skip 1 with keyAllowed := true }

/-- Reads the mark of an item of a block sequence. -/
def blockEntry (s : Scanner) : Option Scanner :=
  if !s.inFlow && !s.keyAllowed then none
  else
    (s.rollHere .blockSeqStart).dropKey.map fun s =>
      { (s.push .blockEntry).skip 1 with keyAllowed := true }

/-- Reads the mark of an explicit key. -/
def explicitKey (s : Scanner) : Option Scanner :=
  if !s.inFlow && !s.keyAllowed then none
  else
    (s.rollHere .blockMapStart).dropKey.map fun s =>
      { (s.push .key).skip 1 with keyAllowed := !s.inFlow }

/-- Reads the colon behind a key. -/
def colon (s : Scanner) : Option Scanner :=
  match s.checkKey (s.keys.length - 1) with
  | none => none
  | some (true, s) =>
    match s.keys with
    | [] => none
    | k :: _ =>
      let s := s.insert k.number ⟨.key, k.line + 1⟩
      let s := s.roll k.column k.number k.line .blockMapStart
      let s := (s.setKey { k with possible := false }).forget k.number
      some { (s.push .value).skip 1 with keyAllowed := false }
  | some (false, s) =>
    if s.inFlow then some { (s.push .value).skip 1 with keyAllowed := false }
    else if !s.keyAllowed then none
    else some { ((s.rollHere .blockMapStart).push .value).skip 1 with keyAllowed := true }

/-- Reads the name of an anchor or of an alias. -/
def nameToken (s : Scanner) (m : Text → Mark) : Option Scanner :=
  s.saveKey.bind fun s =>
    (readAnchorName (s.cursor.skip 1)).map fun (name, c) =>
      { s.push (m name) with cursor := c, keyAllowed := false }

/-- Reads a tag. -/
def tagToken (s : Scanner) : Option Scanner :=
  s.saveKey.bind fun s =>
    (readTag s.cursor).map fun (handle, suffix, c) =>
      { s.push (.tag handle suffix) with cursor := c, keyAllowed := false }

/-- Reads a block scalar. -/
def blockScalar (s : Scanner) (folded : Bool) : Option Scanner :=
  s.dropKey.bind fun s =>
    (readBlock folded s.indents.head? (s.cursor.skip 1)).map fun (text, c) =>
      { s.push (.scalar false text) with cursor := c, keyAllowed := true }

/-- Reads a quoted scalar. -/
def quotedScalar (s : Scanner) (quote : Char) : Option Scanner :=
  s.saveKey.bind fun s =>
    (readQuoted quote s.limit [] (s.cursor.skip 1)).map fun (text, c) =>
      { s.push (.scalar false text.reverse) with cursor := c, keyAllowed := false }

/-- Reads a plain scalar, and a comment behind it if it ended on the line of its last word. -/
def plainScalar (s : Scanner) : Option Scanner :=
  s.saveKey.bind fun s =>
    let least := match s.indents with
      | i :: _ => i + 1
      | [] => 0
    (readPlain s.inFlow least s.limit {} [] s.cursor).map fun (text, broke, c) =>
      let s := { s.push (.scalar true text) with cursor := c, keyAllowed := broke }
      if broke then s else s.skipLineComment

/-- Leaves all block collections. -/
def leaveBlocks (s : Scanner) : Option Scanner :=
  (s.unroll none).dropKey.map fun s => { s with keyAllowed := false }

/-- Reads a document marker. -/
def marker (s : Scanner) (m : Mark) : Option Scanner :=
  s.leaveBlocks.map fun s => (s.push m).skip 3

/-- Reads a directive. -/
def directive (s : Scanner) : Option Scanner :=
  s.leaveBlocks.bind fun s =>
    (readDirective (s.cursor.skip 1)).map fun (d, c) =>
      { s.push (.directive d) with cursor := c }

/-- Ends the text; a line that was begun has ended, too. -/
def finish (s : Scanner) : Option Scanner :=
  let c := s.cursor
  let c := if c.column = 0 then c else { c with line := c.line + 1, column := 0 }
  let s := { s with cursor := c }
  s.leaveBlocks.map fun s => s.push .streamEnd

/-- Whether a plain scalar can start with a character in front of the given rest. -/
def startsPlain (inFlow : Bool) (c : Char) (rest : List Char) : Bool :=
  let gap := rest.head?.all fun d => isBlank d || isBreak d
  let blank := rest.head?.any isBlank
  if c = '-' then !blank
  else if c = '?' || c = ':' then !inFlow && !gap
  else
    !("#&*!|>'\"%@".toList.contains c || c = Char.ofNat 0x60 || isFlowIndicator c || isBlank c ||
      isBreak c)

/-- Cuts the next token, and those that indentation puts in front of it. -/
def fetch (s : Scanner) : Option Scanner :=
  let s := skipGap s.limit s
  let s := s.unroll (some s.cursor.column)
  let c := s.cursor
  let inLine (r : Option Scanner) : Option Scanner := r.map skipLineComment
  match c.rest with
  | [] => s.finish
  | ch :: rest =>
    if c.column = 0 && ch = '%' then s.directive
    else if c.atMarker '-' then s.marker .documentStart
    else if c.atMarker '.' then s.marker .documentEnd
    else if ch = '[' then inLine (s.openFlow .flowSeqStart)
    else if ch = '\x7b' then inLine (s.openFlow .flowMapStart)
    else if ch = ']' then inLine (s.closeFlow .flowSeqEnd)
    else if ch = '\x7d' then inLine (s.closeFlow .flowMapEnd)
    else if ch = ',' then inLine s.flowEntry
    else if ch = '-' && c.gapAt 1 then s.blockEntry
    else if ch = '?' && (s.inFlow || c.gapAt 1) then inLine s.explicitKey
    else if ch = ':' && (s.inFlow || c.gapAt 1) then inLine s.colon
    else if ch = '*' then inLine (s.nameToken .reference)
    else if ch = '&' then inLine (s.nameToken .anchor)
    else if ch = '!' then inLine s.tagToken
    else if ch = '|' && !s.inFlow then s.blockScalar false
    else if ch = '>' && !s.inFlow then s.blockScalar true
    else if ch = '\'' then inLine (s.quotedScalar '\'')
    else if ch = '"' then inLine (s.quotedScalar '"')
    else if startsPlain s.inFlow ch rest then s.plainScalar
    else none

/-! ## Handing out tokens -/

/-- Cuts tokens until the first of the queue can be handed out. -/
def fill : Nat → Scanner → Option Scanner
  | 0, _ => none
  | n + 1, s =>
    if 2 < s.queue.length then
      match s.noted.lookup s.parsed with
      | none => some s
      | some level =>
        match s.checkKey level with
        | none => none
        | some (false, s) => some s
        | some (true, s) => s.fetch.bind (fill n)
    else s.fetch.bind (fill n)

/-- Hands out the first token. -/
def advance (s : Scanner) : Scanner := { s with queue := s.queue.tail, parsed := s.parsed + 1 }

/-- The scanner at the start of a text, unless characters stand in it that may not.  A byte order
mark in front is no part of the text. -/
def ofChars (text : List Char) : Option Scanner :=
  let isMark (c : Char) : Bool := c.toNat = 0xFEFF
  let rest := if text.head?.any isMark then text.tail else text
  if rest.all isAllowed then
    some { cursor := ⟨rest, 0, 0, 0⟩, limit := rest.length + 8, twoMarks := rest.head?.any isMark }
  else none

end Scanner

end Flowline.Yaml
