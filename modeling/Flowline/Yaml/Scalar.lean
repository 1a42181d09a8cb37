/-!
# Scalars of a document

How the characters of a scalar are read: a plain scalar word by word, a quoted one with its
escapes, a block scalar line by line.  In plain and quoted scalars a single line break reads as a
blank, and of several the first is dropped.

A `Cursor` counts lines, columns and characters from zero.  A reading function answers `none` where
the text is malformed.  Its first number bounds the characters that it may still read.
-/

namespace Flowline.Yaml

/-! ## Characters -/

/-- Characters that may stand in a document. -/
def isAllowed (c : Char) : Bool :=
  let n := c.toNat
  n = 0x09 || n = 0x0A || n = 0x0D || (0x20 ≤ n && n ≤ 0x7E) || n = 0x85 ||
    (0xA0 ≤ n && n ≤ 0xD7FF) || (0xE000 ≤ n && n ≤ 0xFFFD) || 0x10000 ≤ n

/-- Blanks and tabs. -/
def isBlank (c : Char) : Bool := c = ' ' || c = '\t'

/-- Line breaks. -/
def isBreak (c : Char) : Bool :=
  c = '\n' || c = '\r' || c.toNat = 0x85 || c.toNat = 0x2028 || c.toNat = 0x2029

/-- Characters that only structure may use in a flow collection. -/
def isFlowIndicator (c : Char) : Bool :=
  c = ',' || c = '[' || c = ']' || c = '\x7b' || c = '\x7d'

/-! ## Positions -/

/-- The rest of a document and where it starts. -/
structure Cursor where
  rest : List Char
  line : Nat := 0
  column : Nat := 0
  index : Nat := 0
  deriving Repr

namespace Cursor

/-- The character at a distance. -/
def peek (c : Cursor) (i : Nat) : Option Char := c.rest[i]?

/-- Whether the character at a distance is a given one. -/
def sees (c : Cursor) (i : Nat) (ch : Char) : Bool := c.peek i == some ch

/-- Whether there is a blank at a distance. -/
def blankAt (c : Cursor) (i : Nat) : Bool := (c.peek i).any isBlank

/-- Whether there is a line break at a distance. -/
def breakAt (c : Cursor) (i : Nat) : Bool := (c.peek i).any isBreak

/-- Whether a word has ended before a distance: a blank, a line break or the end is there. -/
def gapAt (c : Cursor) (i : Nat) : Bool := (c.peek i).all fun ch => isBlank ch || isBreak ch

/-- Behind `n` characters of the same line. -/
def skip (c : Cursor) (n : Nat) : Cursor :=
  { c with rest := c.rest.drop n, column := c.column + n, index := c.index + n }

/-- Behind a line break, and the character that it stands for. -/
def newline (c : Cursor) : List Char × Cursor :=
  match c.rest with
  | '\r' :: '\n' :: rest => (['\n'], ⟨rest, c.line + 1, 0, c.index + 2⟩)
  | ch :: rest =>
    let kept := if ch.toNat = 0x2028 ∨ ch.toNat = 0x2029 then ch else '\n'
    ([kept], ⟨rest, c.line + 1, 0, c.index + 1⟩)
  | [] => ([], c)

/-- Behind `n` characters, line breaks among them; a break of two characters counts as two. -/
def advance : Nat → Cursor → Cursor
  | 0, c => c
  | 1, c => if c.breakAt 0 then c.newline.2 else c.skip 1
  | n + 2, c =>
    if c.sees 0 '\r' && c.sees 1 '\n' then advance n c.newline.2
    else advance (n + 1) (if c.breakAt 0 then c.newline.2 else c.skip 1)

/-- Behind what is left of the line. -/
def skipLine (c : Cursor) : Cursor := c.skip (c.rest.takeWhile (!isBreak ·)).length

/-- Behind blanks and tabs. -/
def skipBlanks (c : Cursor) : Cursor := c.skip (c.rest.takeWhile isBlank).length

/-- Whether the three characters of a document marker start a line here. -/
def atMarker (c : Cursor) (ch : Char) : Bool :=
  c.column = 0 && c.sees 0 ch && c.sees 1 ch && c.sees 2 ch && c.gapAt 3

/-- Whether a document starts or ends here. -/
def atDocumentMarker (c : Cursor) : Bool := c.atMarker '-' || c.atMarker '.'

end Cursor

/-! ## Gaps between words -/

/-- Blanks and line breaks between two words of a scalar: the blanks of the first line, the first
line break, and the breaks behind it. -/
structure Gap where
  blanks : List Char := []
  first : Option (List Char) := none
  more : List Char := []
  deriving Repr

/-- What a gap leaves between its words. -/
def Gap.joined (g : Gap) : List Char :=
  match g.first with
  | none => g.blanks
  | some b =>
    if b = ['\n'] then (if g.more.isEmpty then [' '] else g.more) else b ++ g.more

/-- Reads a gap.  Behind a line break a tab must not stand in front of column `least`. -/
def readGap (least : Nat) : Nat → Gap → Cursor → Option (Gap × Cursor)
  | 0, g, c => some (g, c)
  | n + 1, g, c =>
    if c.blankAt 0 then
      if g.first.isSome && c.column < least && c.sees 0 '\t' then none
      else
        let g := if g.first.isNone then { g with blanks := g.blanks ++ c.rest.take 1 } else g
        readGap least n g (c.skip 1)
    else if c.breakAt 0 then
      let (b, d) := c.newline
      let g :=
        if g.first.isNone then { g with blanks := [], first := some b }
        else { g with more := g.more ++ b }
      readGap least n g d
    else some (g, c)

/-! ## Plain scalars -/

/-- Whether a word of a plain scalar ends here. -/
def endsPlainWord (inFlow : Bool) : List Char → Bool
  | [] => true
  | c :: cs =>
    isBlank c || isBreak c || (c = ':' && cs.head?.all fun d => isBlank d || isBreak d) ||
      (inFlow && (isFlowIndicator c || c = '?'))

/-- The length of the word at the start of a plain scalar. -/
def plainWordLength (inFlow : Bool) : List Char → Nat
  | [] => 0
  | c :: cs => if endsPlainWord inFlow (c :: cs) then 0 else plainWordLength inFlow cs + 1

/-- Reads a plain scalar whose further lines stand at column `least` or beyond.  The second result
tells whether it ended on a line behind its last word. -/
def readPlain (inFlow : Bool) (least : Nat) :
    Nat → Gap → List Char → Cursor → Option (List Char × Bool × Cursor)
  | 0, g, acc, c => some (acc, g.first.isSome, c)
  | n + 1, g, acc, c =>
    if c.atDocumentMarker || c.sees 0 '#' then some (acc, g.first.isSome, c)
    else
      let len := plainWordLength inFlow c.rest
      let (g, acc) :=
        if len = 0 then (g, acc) else ({}, acc ++ g.joined ++ c.rest.take len)
      let c := c.skip len
      if !(c.blankAt 0 || c.breakAt 0) then some (acc, g.first.isSome, c)
      else
        match readGap least (n + 1) g c with
        | none => none
        | some (g, c) =>
          if !inFlow && c.column < least then some (acc, g.first.isSome, c)
          else readPlain inFlow least n g acc c

/-! ## Quoted scalars -/

/-- The value of a hexadecimal digit. -/
def hexValue? (c : Char) : Option Nat :=
  if '0' ≤ c ∧ c ≤ '9' then some (c.toNat - '0'.toNat)
  else if 'a' ≤ c ∧ c ≤ 'f' then some (c.toNat - 'a'.toNat + 10)
  else if 'A' ≤ c ∧ c ≤ 'F' then some (c.toNat - 'A'.toNat + 10)
  else none

/-- The character with the number that `n` hexadecimal digits give. -/
def readCode : Nat → Nat → List Char → Option Char
  | 0, acc, _ => if acc.isValidChar then some (Char.ofNat acc) else none
  | _ + 1, _, [] => none
  | n + 1, acc, c :: cs => (hexValue? c).bind fun v => readCode n (acc * 16 + v) cs

/-- The character that an escape stands for, and the length of the escape behind its backslash. -/
def readEscape : List Char → Option (Char × Nat)
  | [] => none
  | c :: cs =>
    let one (n : Nat) : Option (Char × Nat) := some (Char.ofNat n, 1)
    let code (n : Nat) : Option (Char × Nat) := (readCode n 0 cs).map fun ch => (ch, n + 1)
    match c with
    | '0' => one 0
    | 'a' => one 7
    | 'b' => one 8
    | 't' => one 9
    | '\t' => one 9
    | 'n' => one 10
    | 'v' => one 11
    | 'f' => one 12
    | 'r' => one 13
    | 'e' => one 27
    | ' ' => one 32
    | '"' => one 34
    | '\'' => one 39
    | '\\' => one 92
    | 'N' => one 0x85
    | '_' => one 0xA0
    | 'L' => one 0x2028
    | 'P' => one 0x2029
    | 'x' => code 2
    | 'u' => code 4
    | 'U' => code 8
    | _ => none

/-- Reads the words of a quoted scalar up to a gap or the closing quote.  The second result tells
whether an escaped line break ended the word. -/
def readQuotedWord (quote : Char) : Nat → List Char → Cursor → Option (List Char × Bool × Cursor)
  | 0, acc, c => some (acc, false, c)
  | n + 1, acc, c =>
    match c.rest with
    | [] => some (acc, false, c)
    | ch :: rest =>
      if isBlank ch || isBreak ch then some (acc, false, c)
      else if quote = '\'' && ch = '\'' && rest.head? = some '\'' then
        readQuotedWord quote n ('\'' :: acc) (c.skip 2)
      else if ch = quote then some (acc, false, c)
      else if quote = '"' && ch = '\\' then
        if rest.head?.any isBreak then some (acc, true, (c.skip 1).newline.2)
        else
          match readEscape rest with
          | none => none
          | some (d, len) => readQuotedWord quote n (d :: acc) (c.skip (len + 1))
      else readQuotedWord quote n (ch :: acc) (c.skip 1)

/-- Reads a quoted scalar behind its opening quote.  The characters come in reverse. -/
def readQuoted (quote : Char) : Nat → List Char → Cursor → Option (List Char × Cursor)
  | 0, _, _ => none
  | n + 1, acc, c =>
    if c.atDocumentMarker then none
    else
      match readQuotedWord quote (n + 1) acc c with
      | none => none
      | some (acc, escaped, c) =>
        if c.sees 0 quote then some (acc, c.skip 1)
        else if c.rest.isEmpty then none
        else
          let start : Gap := if escaped then { first := some [] } else {}
          match readGap 0 (n + 1) start c with
          | none => none
          | some (g, c) => readQuoted quote n (g.joined.reverse ++ acc) c

/-! ## Block scalars -/

/-- What happens to the line breaks at the end of a block scalar. -/
inductive Chomp where
  | strip
  | clip
  | keep
  deriving DecidableEq, Repr

/-- Reads the indentation of the lines of a block scalar over empty lines.  With no indentation
given, the deepest line read decides it, but it is at least `least`. -/
def readIndent (least : Nat) :
    Nat → Option Nat → Nat → List Char → Cursor → Option (Nat × List Char × Cursor)
  | 0, _, _, _, _ => none
  | n + 1, indent, deepest, breaks, c =>
    let blanks := (c.rest.takeWhile (· = ' ')).length
    let take :=
      match indent with
      | some i => min blanks (i - c.column)
      | none => blanks
    let c := c.skip take
    let deepest := max deepest c.column
    if (indent.all fun i => c.column < i) && c.sees 0 '\t' then none
    else if c.breakAt 0 then
      let (b, c) := c.newline
      readIndent least n indent deepest (breaks ++ b) c
    else
      some (indent.getD (max (max deepest least) 1), breaks, c)

/-- Reads the lines of a block scalar. -/
def readLines (folded : Bool) (least indent : Nat) :
    Nat → List Char → List Char → List Char → Bool → Cursor →
      Option (List Char × List Char × List Char × Cursor)
  | 0, _, _, _, _, _ => none
  | n + 1, acc, first, more, wasBlank, c =>
    if c.column ≠ indent || c.rest.isEmpty then some (acc, first, more, c)
    else
      let startsBlank := c.blankAt 0
      let acc :=
        if folded && !wasBlank && !startsBlank && first = ['\n'] then
          acc ++ (if more.isEmpty then [' '] else more)
        else acc ++ first ++ more
      let content := c.rest.takeWhile (!isBreak ·)
      let c := c.skip content.length
      let (first, c) := if c.breakAt 0 then c.newline else ([], c)
      match readIndent least (n + 1) (some indent) 0 [] c with
      | none => none
      | some (_, more, c) => readLines folded least indent n (acc ++ content) first more startsBlank c

/-- Reads the header of a block scalar: how it is chomped and its indentation beyond the parent. -/
def readHeader (c : Cursor) : Option (Chomp × Option Nat × Cursor) :=
  let chomp? (ch : Char) : Option Chomp :=
    if ch = '+' then some .keep else if ch = '-' then some .strip else none
  let digit? (ch : Char) : Option Nat :=
    if '1' ≤ ch ∧ ch ≤ '9' then some (ch.toNat - '0'.toNat) else none
  let (chomp, step, c) : Chomp × Option Nat × Cursor :=
    match c.rest with
    | a :: b :: _ =>
      match chomp? a, digit? b, digit? a, chomp? b with
      | some k, some d, _, _ => (k, some d, c.skip 2)
      | some k, none, _, _ => (k, none, c.skip 1)
      | none, _, some d, some k => (k, some d, c.skip 2)
      | none, _, some d, none => (.clip, some d, c.skip 1)
      | none, _, none, _ => (.clip, none, c)
    | [a] =>
      match chomp? a, digit? a with
      | some k, _ => (k, none, c.skip 1)
      | none, some d => (.clip, some d, c.skip 1)
      | none, none => (.clip, none, c)
    | [] => (.clip, none, c)
  let c := c.skipBlanks
  let c := if c.sees 0 '#' then c.skipLine else c
  if c.rest.isEmpty then some (chomp, step, c)
  else if c.breakAt 0 then some (chomp, step, c.newline.2)
  else none

/-- Reads a block scalar behind its indicator; `parent` is the indentation around it. -/
def readBlock (folded : Bool) (parent : Option Nat) (c : Cursor) : Option (List Char × Cursor) :=
  match readHeader c with
  | none => none
  | some (chomp, step, c) =>
    let least := match parent with
      | some p => p + 1
      | none => 0
    let indent := step.map fun s => parent.getD 0 + s
    match readIndent least (c.rest.length + 2) indent 0 [] c with
    | none => none
    | some (indent, breaks, c) =>
      match readLines folded least indent (c.rest.length + 2) [] [] breaks false c with
      | none => none
      | some (acc, first, more, c) =>
        match chomp with
        | .strip => some (acc, c)
        | .clip => some (acc ++ first, c)
        | .keep => some (acc ++ first ++ more, c)

end Flowline.Yaml
