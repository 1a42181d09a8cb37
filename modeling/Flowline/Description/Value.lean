import Flowline.Description.Scalar
import Flowline.Problem
import Flowline.Text.Quoted
import Flowline.Yaml.Reader

/-!
# Values in a description

How nodes are read as machine words, truth values, strings, lists and records.  Reading never stops
at a mismatch: the value stays what it was, and the mismatches come in the order of the document.
Where a string is wanted, the characters of any scalar will do.  Nothing leaves a value as it was,
and is no item of a list.

## Merging

A mapping can take over entries of others.  Its own come first, then those of the others in order,
and of several entries with one key the first counts.  So `readMapping` reads a record from one
mapping after the other, with the keys that are taken.
-/

namespace Flowline.Description

open Yaml (Node Document)

/-! ## Mismatches -/

/-- A node that does not fit where it stands. -/
inductive Mismatch where
  /-- A node of the wrong kind; scalars are shown. -/
  | kind (line : Nat) (tag : Text) (shown : Option Text) (into : Text)
  | unknownKey (line : Nat) (key into : Text)
  | repeatedKey (line : Nat) (key : Text) (first : Nat)
  /-- Two keys, different as written, of one part of a record. -/
  | repeatedPart (line : Nat) (key into : Text)
  /-- A node that cannot be what it is said to be: the document has no meaning at all. -/
  | meaningless
  /-- A step that has no result. -/
  | fault (f : Fault)
  deriving DecidableEq, Repr

/-- A scalar as shown in a message: all of it, or the first seven bytes of a long one. -/
def Mismatch.abridged (t : Text) : Text :=
  if 10 < t.length then String.ofList (t.toList.take 7) ++ "..." else t

/-- The message of a mismatch. -/
def Mismatch.message : Mismatch → Text
  | kind line tag shown into =>
    "line " ++ toString line ++ ": cannot unmarshal " ++ tag ++
      (match shown with
        | some t => " `" ++ abridged t ++ "`"
        | none => "") ++ " into " ++ into
  | unknownKey line key into =>
    "line " ++ toString line ++ ": field " ++ key ++ " not found in type " ++ into
  | repeatedKey line key first =>
    "line " ++ toString line ++ ": mapping key " ++ key.quoted ++ " already defined at line " ++
      toString first
  | repeatedPart line key into =>
    "line " ++ toString line ++ ": field " ++ key ++ " already set in type " ++ into
  | meaningless => ""
  | fault _ => ""

/-- Whether nothing can be said about the document behind a mismatch. -/
def Mismatch.isFinal : Mismatch → Bool
  | meaningless => true
  | fault _ => true
  | _ => false

/-! ## Reading nodes -/

/-- A value read from a node of a document, with the mismatches found. -/
abbrev Read (α : Type) := Document → α × List Mismatch

/-- The text of a key as written: that of a scalar, or the name that an alias repeats. -/
def keyText : Node → Text
  | .scalar _ _ _ t => t
  | .reference _ name _ _ => name
  | _ => ""

/-- Whether two keys are the same as written. -/
def sameKey : Node → Node → Bool
  | .scalar _ _ _ a, .scalar _ _ _ b => a == b
  | .reference _ a _ _, .reference _ b _ _ => a == b
  | .seq .., .seq .. => true
  | .map .., .map .. => true
  | _, _ => false

/-- The keys of a mapping that repeat an earlier one. -/
def repeatedKeys : List (Node × Node) → List Mismatch
  | [] => []
  | (k, _) :: rest =>
    (rest.filter fun e => sameKey k e.1).map
      (fun e => .repeatedKey e.1.line (keyText e.1) k.line) ++ repeatedKeys rest

/-- The mismatch of a collection; a tag that does not name one is shown like that of a scalar. -/
def collectionMismatch (line : Nat) (tag : Option Text) (own into : Text) : Mismatch :=
  let tag := tag.getD own
  .kind line tag (if tag = "!!seq" ∨ tag = "!!map" then none else some "") into

/-- The mismatch of a mapping where none is wanted; its repeated keys come first and alone. -/
def mapMismatch (line : Nat) (tag : Option Text) (entries : List (Node × Node)) (into : Text) :
    List Mismatch :=
  match repeatedKeys entries with
  | [] => [collectionMismatch line tag "!!map" into]
  | repeated => repeated

/-- Whether a node denotes nothing. -/
def isNothing (d : Document) (n : Node) : Bool :=
  match d.target n with
  | .scalar _ tag plain t =>
    match denoteTagged? (effectiveTag tag plain t) t with
    | some .null => true
    | _ => false
  | _ => false

/-- Reads a scalar by what it denotes; nothing leaves the value as it was. -/
def readScalar {α : Type} (into : Text) (accept : Scalar → Text → Option α) (n : Node) (old : α) :
    Read α := fun d =>
  match d.target n with
  | .scalar line tag plain t =>
    let tag := effectiveTag tag plain t
    match denoteTagged? tag t with
    | none => (old, [.meaningless])
    | some .null => (old, [])
    | some s =>
      match accept s t with
      | some v => (v, [])
      | none => (old, [.kind line tag (some t) into])
  | .seq line tag _ => (old, [collectionMismatch line tag "!!seq" into])
  | .map line tag entries => (old, mapMismatch line tag entries into)
  | .reference .. => (old, [.meaningless])

/-- The machine word that a decimal fraction is cut to; beyond the range it is the least one. -/
def wordOfFloat (f : Float) : Int64 :=
  if f < 9223372036854775808.0 then f.toInt64 else Int64.minValue

/-- Reads a machine word.  A fraction is cut toward zero. -/
def readWord : Node → Int64 → Read Int64 :=
  readScalar "int" fun s _ =>
    match s with
    | .int n => if Numeral.isWord n then some (Int64.ofInt n) else none
    | .float f => if f ≤ 9223372036854775808.0 then some (wordOfFloat f) else none
    | _ => none

/-- Reads a machine word without a sign.  The least number beyond the range is read as the middle
of the range. -/
def readUnsigned : Node → UInt64 → Read UInt64 :=
  readScalar "uint64" fun s _ =>
    match s with
    | .int n => if 0 ≤ n then some (UInt64.ofNat n.toNat) else none
    | .float f =>
      if f < 9223372036854775808.0 then some (wordOfFloat f).toUInt64
      else if f < 18446744073709551616.0 then some f.toUInt64
      else if f ≤ 18446744073709551616.0 then some (UInt64.ofNat 0x8000000000000000)
      else none
    | _ => none

/-- Reads a truth value; the old words for one are accepted too. -/
def readBool : Node → Bool → Read Bool :=
  readScalar "bool" fun s _ =>
    match s with
    | .bool b => some b
    | .str t =>
      if t ∈ ["y", "Y", "yes", "Yes", "YES", "on", "On", "ON"] then some true
      else if t ∈ ["n", "N", "no", "No", "NO", "off", "Off", "OFF"] then some false
      else none
    | _ => none

/-- Reads a string: the characters of any scalar, and the bytes of binary data. -/
def readString (n : Node) (old : Text) : Read Text := fun d =>
  let binary : Bool :=
    match d.target n with
    | .scalar _ (some "!!binary") _ _ => true
    | _ => false
  readScalar "string" (fun s t =>
    match s with
    | .str bytes => some (if binary then bytes else t)
    | _ => some t) n old d

/-- Reads the items of a list one after the other. -/
def readItems {α : Type} (item : Node → Read α) (d : Document) : List Node → List α × List Mismatch
  | [] => ([], [])
  | n :: ns =>
    let (vs, more) := readItems item d ns
    if isNothing d n then (vs, more)
    else
      let (v, ms) := item n d
      (v :: vs, ms ++ more)

/-- Reads a list that may be absent.  Nothing makes it absent. -/
def readList? {α : Type} (into : Text) (item : Node → Read α) (n : Node) (old : Option (List α)) :
    Read (Option (List α)) := fun d =>
  match d.target n with
  | .scalar line tag plain t =>
    let tag := effectiveTag tag plain t
    match denoteTagged? tag t with
    | none => (old, [.meaningless])
    | some .null => (none, [])
    | some _ => (old, [.kind line tag (some t) into])
  | .seq _ _ items =>
    let (vs, ms) := readItems item d items
    (some vs, ms)
  | .map line tag entries => (old, mapMismatch line tag entries into)
  | .reference .. => (old, [.meaningless])

/-- Reads a list. -/
def readList {α : Type} (into : Text) (item : Node → Read α) (n : Node) (old : List α) :
    Read (List α) := fun d =>
  let (v, ms) := readList? into item n (some old) d
  (v.getD [], ms)

/-! ## Records -/

/-- One key of a record: its name, and how its value changes the record. -/
structure Key (σ : Type) where
  name : Text
  read : Node → σ → Read σ

/-- A key whose value is a part of the record. -/
def Key.part {σ α : Type} (name : Text) (get : σ → α) (set : σ → α → σ)
    (read : Node → α → Read α) : Key σ :=
  ⟨name, fun n s d =>
    let (v, ms) := read n (get s) d
    (set s v, ms)⟩

/-- Whether a key asks for the entries of other mappings. -/
def isMerge : Node → Bool
  | .scalar _ tag plain t => t = "<<" && effectiveTag tag plain t = mergeTag
  | _ => false

/-- The state of reading a record from several mappings: the record, the keys that are taken if
mappings are merged, and the mismatches. -/
structure Progress (σ : Type) where
  record : σ
  taken : Option (List Text) := none
  mismatches : List Mismatch := []

/-- Adds mismatches. -/
def Progress.report {σ : Type} (p : Progress σ) (ms : List Mismatch) : Progress σ :=
  { p with mismatches := p.mismatches ++ ms }

/-- Whether to go on. -/
def Progress.isOpen {σ : Type} (p : Progress σ) : Bool := !p.mismatches.any Mismatch.isFinal

/-- Reads one entry of a mapping, of which the parts in `done` were read before. -/
def readOwnEntry {σ : Type} (into : Text) (keys : List (Key σ)) (d : Document) (k v : Node)
    (done : List Text) (p : Progress σ) : List Text × Progress σ :=
  if isMerge k || isNothing d k then (done, p)
  else
    match readString k "" d with
    | (name, []) =>
      if p.taken.any (·.contains name) then (done, p)
      else
        let p := { p with taken := p.taken.map (name :: ·) }
        match keys.find? (·.name == name) with
        | none => (done, p.report [.unknownKey k.line name into])
        | some key =>
          if done.contains name then (done, p.report [.repeatedPart k.line name into])
          else
            let (s, ms) := key.read v p.record d
            (name :: done, { p with record := s }.report ms)
    | (_, ms) => (done, p.report ms)

/-- Reads the entries of a mapping that are its own. -/
def readOwnEntries {σ : Type} (into : Text) (keys : List (Key σ)) (d : Document) :
    List (Node × Node) → List Text → Progress σ → Progress σ
  | [], _, p => p
  | (k, v) :: rest, done, p =>
    let (done, p) := readOwnEntry into keys d k v done p
    readOwnEntries into keys d rest done p

/-- The key of a mapping as one that is taken; only strings are.  A collection cannot be kept as a
key. -/
def takenKey (d : Document) (k : Node) : Except Fault (Option Text) :=
  match d.target k with
  | .scalar _ tag plain t =>
    match denoteTagged? (effectiveTag tag plain t) t with
    | some (.str s) => .ok (some s)
    | _ => .ok none
  | _ => .error .compositeKey

/-- The mappings whose entries a value asks for; there are none unless all of them are mappings. -/
def mergedNodes (d : Document) (n : Node) : Option (List Node) :=
  let isMap (n : Node) : Bool :=
    match d.target n with
    | .map .. => true
    | _ => false
  match n with
  | .seq _ _ items => if items.all isMap then some items else none
  | n => if isMap n then some [n] else none

mutual

/-- Reads a record from a mapping and from those that are merged into it.  `inside` are the aliases
on the way to it, none of which may occur again.  The first number bounds the way. -/
def readMapping {σ : Type} (into : Text) (keys : List (Key σ)) (d : Document) :
    Nat → List Nat → List (Node × Node) → Progress σ → Progress σ
  | 0, _, _, p => p.report [.meaningless]
  | n + 1, inside, entries, p =>
    match repeatedKeys entries with
    | [] =>
      let taken := p.taken
      let p := readOwnEntries into keys d entries [] p
      match entries.find? fun e => isMerge e.1 with
      | none => p
      | some (_, value) =>
        if taken.isSome then mergeAll into keys d n inside value p
        else
          match entries.mapM fun e => takenKey d e.1 with
          | .error f => p.report [.fault f]
          | .ok own =>
            let q := mergeAll into keys d n inside value { p with taken := some (own.filterMap id) }
            { q with taken := none }
    | repeated => p.report repeated

/-- Merges the mappings that a value asks for. -/
def mergeAll {σ : Type} (into : Text) (keys : List (Key σ)) (d : Document) :
    Nat → List Nat → Node → Progress σ → Progress σ
  | 0, _, _, p => p.report [.meaningless]
  | n + 1, inside, value, p =>
    match mergedNodes d value with
    | none => p.report [.meaningless]
    | some nodes => mergeEach into keys d n inside nodes p

/-- Merges mappings one after the other. -/
def mergeEach {σ : Type} (into : Text) (keys : List (Key σ)) (d : Document) :
    Nat → List Nat → List Node → Progress σ → Progress σ
  | 0, _, _, p => p.report [.meaningless]
  | _ + 1, _, [], p => p
  | n + 1, inside, node :: rest, p =>
    let p :=
      match node, d.target node with
      | .reference _ _ own _, .map _ _ entries =>
        if inside.contains own then p.report [.meaningless]
        else readMapping into keys d n (own :: inside) entries p
      | _, .map _ _ entries => readMapping into keys d n inside entries p
      | _, _ => p.report [.meaningless]
    if p.isOpen then mergeEach into keys d n inside rest p else p

end

/-- Reads a record. -/
def readRecord {σ : Type} (into : Text) (keys : List (Key σ)) (n : Node) (old : σ) : Read σ :=
  fun d =>
    match d.target n with
    | .scalar line tag plain t =>
      let tag := effectiveTag tag plain t
      match denoteTagged? tag t with
      | none => (old, [.meaningless])
      | some .null => (old, [])
      | some _ => (old, [.kind line tag (some t) into])
    | .seq line tag _ => (old, [collectionMismatch line tag "!!seq" into])
    | .map _ _ entries =>
      let p := readMapping into keys d (4 * d.size + 8) [] entries { record := old }
      (p.record, p.mismatches)
    | .reference .. => (old, [.meaningless])

/-- Reads a record that may be absent.  Nothing makes it absent. -/
def readRecord? {σ : Type} (read : Node → σ → Read σ) (fresh : σ) (n : Node) (old : Option σ) :
    Read (Option σ) := fun d =>
  if isNothing d n then (none, [])
  else
    let (v, ms) := read n (old.getD fresh) d
    (some v, ms)

/-! ## Whole documents -/

/-- Why a text gives no value. -/
inductive DocumentError where
  /-- The text is no document. -/
  | malformed (what : Text)
  /-- There is no document. -/
  | absent (what : Text)
  | mismatched (what : Text) (ms : List Mismatch)
  /-- There is no answer. -/
  | fault (f : Fault)
  deriving DecidableEq, Repr

/-- The message of a text that gives no value. -/
def DocumentError.message : DocumentError → Text
  | malformed what => "decoding " ++ what ++ ": yaml: malformed document"
  | absent what => "decoding " ++ what ++ ": EOF"
  | mismatched what ms =>
    "decoding " ++ what ++ ": yaml: unmarshal errors:\n  " ++
      "\n  ".intercalate (ms.map Mismatch.message)
  | fault _ => ""

/-- What a text holds; bytes that are no characters are no document. -/
def content (text : Text) : Yaml.Content := text.toUnicode?.elim .malformed Yaml.read

/-- Decodes what a text holds. -/
def decode {α : Type} (what : Text) (read : Node → α → Read α) (old : α) :
    Yaml.Content → Except DocumentError α
  | .malformed => .error (.malformed what)
  | .nothing => .error (.absent what)
  | .document d =>
    let (v, ms) := read d.root old d
    match ms.find? Mismatch.isFinal with
    | some (.fault f) => .error (.fault f)
    | some _ => .error (.malformed what)
    | none => if ms.isEmpty then .ok v else .error (.mismatched what ms)

/-- Reads the document of a text. -/
def readDocument {α : Type} (what : Text) (read : Node → α → Read α) (old : α) (text : Text) :
    Except DocumentError α :=
  decode what read old (content text)

end Flowline.Description
