import Flowline.Yaml.Node
import Flowline.Yaml.Token

/-!
# Reading a document

The first document of a text as a tree.  What stands behind it is not read, but the tokens that a
scanner cuts ahead must be well formed.  A missing item, key or value is an empty plain scalar.

The functions take a bound on the depth of their calls.  Every call but a constant number reads a
token, and every token but those that end the text takes a character, so the bound, a multiple of
the length of the text, is never reached.
-/

namespace Flowline.Yaml

/-! ## The state of reading -/

/-- The tokens that are left, what the handles of tags stand for, and the named nodes. -/
structure Reader where
  scanner : Scanner
  handles : List (Text × Text) := []
  /-- The numbers of the names, the latest first. -/
  names : List (Text × Nat) := []
  named : List (Nat × Node) := []
  /-- The number of the next named node or alias. -/
  next : Nat := 0

/-- A step of reading, which fails on malformed text. -/
abbrev Reading (α : Type) := StateT Reader Option α

namespace Reading

/-- The next token. -/
def peek : Reading Token := fun r =>
  (r.scanner.fill r.scanner.limit).bind fun s =>
    s.queue.head?.map fun t => (t, { r with scanner := s })

/-- Leaves the next token behind. -/
def advance : Reading Unit := modify fun r => { r with scanner := r.scanner.advance }

/-- A number that no node has. -/
def number : Reading Nat := do
  let r ← get
  set { r with next := r.next + 1 }
  pure r.next

end Reading

open Reading (peek advance number)

/-! ## Properties -/

/-- The names and tags in front of a node. -/
structure Properties where
  line : Nat
  anchor : Option Text := none
  tag : Option Text := none

/-- What tags of the standard start with. -/
def standardStart : Text := "tag:yaml.org,2002:"

/-- A tag of the standard has two exclamation marks in place of its start. -/
def shortTag (tag : Text) : Text :=
  if standardStart.toList.isPrefixOf tag.toList then
    "!!" ++ String.ofList (tag.toList.drop standardStart.length)
  else tag

/-- The tag of a handle and a suffix.  A lone exclamation mark is none. -/
def tagOf (handle suffix : Text) : Reading (Option Text) := do
  let r ← get
  let tag := if handle = "" then suffix else
    match r.handles.lookup handle with
    | some start => start ++ suffix
    | none => ""
  if tag = "" then failure
  else if tag = "!" then pure none
  else pure (some (shortTag tag))

/-- Reads a name and a tag in either order. -/
def readProperties : Reading Properties := do
  let t ← peek
  match t.mark with
  | .anchor name => do
    advance
    let u ← peek
    match u.mark with
    | .tag handle suffix => do
      let tag ← tagOf handle suffix
      advance
      pure { line := t.line, anchor := some name, tag }
    | _ => pure { line := t.line, anchor := some name }
  | .tag handle suffix => do
    let tag ← tagOf handle suffix
    advance
    let u ← peek
    match u.mark with
    | .anchor name => do
      advance
      pure { line := t.line, anchor := some name, tag }
    | _ => pure { line := t.line, tag }
  | _ => pure { line := t.line }

/-- Numbers a node that is given a name, before its parts are read. -/
def declare (name : Text) : Reading Nat := do
  let n ← number
  modify fun r => { r with names := (name, n) :: r.names }
  pure n

/-- Keeps a named node. -/
def keep (n : Nat) (node : Node) : Reading Unit :=
  modify fun r => { r with named := (n, node) :: r.named }

/-! ## Nodes -/

/-- Whether a token ends an item of a block sequence before it began. -/
def Mark.endsBlockItem : Mark → Bool
  | .blockEntry | .blockEnd => true
  | _ => false

/-- Whether a token ends a key or value of a block mapping before it began. -/
def Mark.endsBlockPart : Mark → Bool
  | .key | .value | .blockEnd => true
  | _ => false

/-- Whether a token ends an item of a sequence without indentation before it began. -/
def Mark.endsLooseItem : Mark → Bool
  | .blockEntry | .key | .value | .blockEnd => true
  | _ => false

/-- Whether a token ends the value of a pair in a flow sequence before it began. -/
def Mark.endsPairValue : Mark → Bool
  | .flowEntry | .flowSeqEnd => true
  | _ => false

/-- Whether a token ends the value of a flow mapping before it began. -/
def Mark.endsFlowValue : Mark → Bool
  | .flowEntry | .flowMapEnd => true
  | _ => false

mutual

/-- Reads a node, of block style if allowed, and a sequence without indentation of its own if that
is allowed. -/
def readNode : Nat → Bool → Bool → Reading Node
  | 0, _, _ => failure
  | n + 1, block, loose => do
    let t ← peek
    match t.mark with
    | .reference name => do
      let r ← get
      match r.names.lookup name with
      | none => failure
      | some target => do
        advance
        let own ← number
        pure (.reference t.line name own target)
    | _ => do
      let p ← readProperties
      match p.anchor with
      | none => readContent n block loose p
      | some name => do
        let k ← declare name
        let node ← readContent n block loose p
        keep k node
        pure node

/-- Reads a node behind its properties. -/
def readContent : Nat → Bool → Bool → Properties → Reading Node
  | 0, _, _, _ => failure
  | n + 1, block, loose, p => do
    let t ← peek
    let bare := p.anchor.isNone && p.tag.isNone
    match t.mark with
    | .scalar plain text => do
      advance
      pure (.scalar p.line p.tag plain (Text.ofUnicode (String.ofList text)))
    | .flowSeqStart => do
      advance
      let items ← readFlowItems n true
      pure (.seq p.line p.tag items)
    | .flowMapStart => do
      advance
      let entries ← readFlowEntries n true
      pure (.map p.line p.tag entries)
    | m =>
      if loose && m = .blockEntry then do
        let items ← readLooseItems n
        pure (.seq p.line p.tag items)
      else if block && m = .blockSeqStart then do
        advance
        let items ← readBlockItems n
        pure (.seq p.line p.tag items)
      else if block && m = .blockMapStart then do
        advance
        let entries ← readBlockEntries n
        pure (.map p.line p.tag entries)
      else if bare then failure
      else pure (.scalar p.line p.tag true "")

/-- Reads the items of a block sequence. -/
def readBlockItems : Nat → Reading (List Node)
  | 0 => failure
  | n + 1 => do
    let t ← peek
    match t.mark with
    | .blockEnd => do
      advance
      pure []
    | .blockEntry => do
      advance
      let u ← peek
      let item ← if u.mark.endsBlockItem then pure (.nothing t.line) else readNode n true false
      let items ← readBlockItems n
      pure (item :: items)
    | _ => failure

/-- Reads the items of a sequence at the indentation of the mapping around it. -/
def readLooseItems : Nat → Reading (List Node)
  | 0 => failure
  | n + 1 => do
    let t ← peek
    match t.mark with
    | .blockEntry => do
      advance
      let u ← peek
      let item ← if u.mark.endsLooseItem then pure (.nothing t.line) else readNode n true false
      let items ← readLooseItems n
      pure (item :: items)
    | _ => pure []

/-- Reads the value of a block mapping. -/
def readBlockValue : Nat → Reading Node
  | 0 => failure
  | n + 1 => do
    let t ← peek
    match t.mark with
    | .value => do
      advance
      let u ← peek
      if u.mark.endsBlockPart then pure (.nothing t.line) else readNode n true true
    | _ => pure (.nothing t.line)

/-- Reads the keys and values of a block mapping. -/
def readBlockEntries : Nat → Reading (List (Node × Node))
  | 0 => failure
  | n + 1 => do
    let t ← peek
    match t.mark with
    | .blockEnd => do
      advance
      pure []
    | .key => do
      advance
      let u ← peek
      let key ← if u.mark.endsBlockPart then pure (.nothing t.line) else readNode n true true
      let value ← readBlockValue n
      let entries ← readBlockEntries n
      pure ((key, value) :: entries)
    | _ => failure

/-- Reads the items of a flow sequence, the first one or one behind another. -/
def readFlowItems : Nat → Bool → Reading (List Node)
  | 0, _ => failure
  | n + 1, first => do
    let t ← peek
    match first, t.mark with
    | _, .flowSeqEnd => do
      advance
      pure []
    | true, _ => readFlowItem n
    | false, .flowEntry => do
      advance
      readFlowItem n
    | false, _ => failure

/-- Reads an item of a flow sequence, if there is one, and the items behind it. -/
def readFlowItem : Nat → Reading (List Node)
  | 0 => failure
  | n + 1 => do
    let t ← peek
    match t.mark with
    | .flowSeqEnd => do
      advance
      pure []
    | .key => do
      advance
      let key ← readPairKey n
      let value ← readPairValue n
      let items ← readFlowItems n false
      pure (.map t.line none [(key, value)] :: items)
    | _ => do
      let item ← readNode n false false
      let items ← readFlowItems n false
      pure (item :: items)

/-- Reads the key of a pair in a flow sequence.  A token that ends a missing key is left behind. -/
def readPairKey : Nat → Reading Node
  | 0 => failure
  | n + 1 => do
    let t ← peek
    if t.mark = .value || t.mark.endsPairValue then do
      advance
      pure (.nothing t.line)
    else readNode n false false

/-- Reads the value of a pair in a flow sequence, if there is one. -/
def readPairValue : Nat → Reading Node
  | 0 => failure
  | n + 1 => do
    let t ← peek
    if t.mark = .value then do
      advance
      let u ← peek
      if u.mark.endsPairValue then pure (.nothing t.line) else readNode n false false
    else pure (.nothing t.line)

/-- Reads the keys and values of a flow mapping, the first ones or some behind others. -/
def readFlowEntries : Nat → Bool → Reading (List (Node × Node))
  | 0, _ => failure
  | n + 1, first => do
    let t ← peek
    match first, t.mark with
    | _, .flowMapEnd => do
      advance
      pure []
    | true, _ => readFlowEntry n
    | false, .flowEntry => do
      advance
      readFlowEntry n
    | false, _ => failure

/-- Reads a key and a value of a flow mapping, if there are some, and those behind them. -/
def readFlowEntry : Nat → Reading (List (Node × Node))
  | 0 => failure
  | n + 1 => do
    let t ← peek
    match t.mark with
    | .flowMapEnd => do
      advance
      pure []
    | .key => do
      advance
      let u ← peek
      let key ←
        if u.mark = .value || u.mark.endsFlowValue then pure (.nothing u.line)
        else readNode n false false
      let value ← readFlowValue n
      let entries ← readFlowEntries n false
      pure ((key, value) :: entries)
    | _ => do
      let key ← readNode n false false
      let u ← peek
      let entries ← readFlowEntries n false
      pure ((key, .nothing u.line) :: entries)

/-- Reads the value of a flow mapping, if there is one. -/
def readFlowValue : Nat → Reading Node
  | 0 => failure
  | n + 1 => do
    let t ← peek
    if t.mark = .value then do
      advance
      let u ← peek
      if u.mark.endsFlowValue then pure (.nothing u.line) else readNode n false false
    else pure (.nothing t.line)

end

/-! ## Documents -/

/-- The handles that need no directive. -/
def standardHandles : List (Text × Text) := [("!", "!"), ("!!", standardStart)]

/-- Reads directives.  Only one version is known, and it is given once at most; a handle is
explained once at most. -/
def readDirectives : Nat → Bool → Reading Unit
  | 0, _ => failure
  | n + 1, versioned => do
    let t ← peek
    match t.mark with
    | .directive (.version major minor) =>
      if versioned || (major, minor) ≠ (1, 1) then failure
      else do
        advance
        readDirectives n true
    | .directive (.handle name start) => do
      let r ← get
      if (r.handles.lookup name).isSome then failure
      else do
        set { r with handles := (name, start) :: r.handles }
        advance
        readDirectives n versioned
    | _ => modify fun r => { r with handles := r.handles ++ standardHandles }

/-- Whether a token is outside all documents. -/
def Mark.endsDocument : Mark → Bool
  | .directive _ | .documentStart | .documentEnd | .streamEnd => true
  | _ => false

/-- Reads the root of the first document; there may be none. -/
def readRoot (n : Nat) : Reading (Option Node) := do
  advance
  let t ← peek
  match t.mark with
  | .streamEnd => pure none
  | .directive _ | .documentStart => do
    readDirectives n false
    let t ← peek
    if t.mark ≠ .documentStart then failure
    else do
      advance
      let t ← peek
      if t.mark.endsDocument then pure (some (.nothing t.line))
      else some <$> readNode n true false
  | _ => do
    readDirectives n false
    some <$> readNode n true false

/-- What a text holds: a document, nothing, or no document because it is malformed. -/
inductive Content where
  | document (d : Document)
  | nothing
  | malformed
  deriving Repr

/-- Reads the first document of some characters, and looks at what stands behind it. -/
def readChars (text : List Char) : Content :=
  match Scanner.ofChars text with
  | none => .malformed
  | some scanner =>
    let whole : Reading (Option Node) := do
      let _ ← peek
      let root ← readRoot (4 * scanner.limit)
      if root.isSome then
        let _ ← peek
      pure root
    match whole.run { scanner } with
    | none => .malformed
    | some (none, _) => .nothing
    | some (some root, r) => .document ⟨root, r.named, scanner.limit + r.next⟩

/-- Reads the first document of a text. -/
def read (text : String) : Content := readChars text.toList

end Flowline.Yaml
