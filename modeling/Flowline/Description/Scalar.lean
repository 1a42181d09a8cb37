import Flowline.Description.Timestamp
import Flowline.Text.Numeral
import Flowline.Yaml.Node

/-!
# What scalars denote

A plain scalar denotes nothing, a truth value, a number, a point in time or a string; a quoted one
always a string.  A tag in front of a scalar says what it must denote, and a scalar that does not
denote it is no scalar at all.  What tags of other kinds mean is not known, and the scalar is a
string.
-/

namespace Flowline.Description

/-- What a scalar denotes. -/
inductive Scalar where
  | null
  | bool (b : Bool)
  | int (n : Int)
  | float (f : Float)
  | timestamp
  | str (t : Text)

/-- The tag of what a scalar denotes. -/
def Scalar.tag : Scalar → Text
  | null => "!!null"
  | bool _ => "!!bool"
  | int _ => "!!int"
  | float _ => "!!float"
  | timestamp => "!!timestamp"
  | str _ => "!!str"

/-! ## Integers -/

/-- An unsigned integer with the mark of its base in front: `0x`, `0b`, `0o`, or a lone zero for
base eight. -/
def markedNatural? : List Char → Option Nat
  | '0' :: m :: cs =>
    if m = 'x' ∨ m = 'X' then Numeral.natural? 16 cs
    else if m = 'b' ∨ m = 'B' then Numeral.natural? 2 cs
    else if m = 'o' ∨ m = 'O' then Numeral.natural? 8 cs
    else Numeral.natural? 8 (m :: cs)
  | cs => Numeral.natural? 10 cs

/-- An integer that fits sixty-four bits, with a sign if it fits the signed ones. -/
def integer? (cs : List Char) : Option Int :=
  let bounded (sign : Int) (cs : List Char) : Option Int :=
    (markedNatural? cs).bind fun n =>
      if Numeral.isWord (sign * n) then some (sign * n) else none
  match cs with
  | '-' :: rest => bounded (-1) rest
  | '+' :: rest => bounded 1 rest
  | cs => (markedNatural? cs).bind fun n => if n < 0x10000000000000000 then some (n : Int) else none

/-- An integer whose sign stands behind the mark of its base, which is `0b` or `0o`. -/
def lateSigned? : List Char → Option Int
  | '0' :: m :: cs =>
    let read (base : Nat) : Option Int :=
      (Numeral.integer? base cs).filter Numeral.isWord
    if m = 'b' then read 2 else if m = 'o' then read 8 else none
  | _ => none

/-! ## Decimal fractions -/

/-- The value of the digits of an exponent.  Once it has reached ten thousand, no more digits are
counted: the number is beyond all bounds. -/
def exponentValue : Nat → List Char → Option Nat
  | acc, [] => some acc
  | acc, c :: cs =>
    if '0' ≤ c ∧ c ≤ '9' then
      exponentValue (if acc < 10000 then acc * 10 + (c.toNat - '0'.toNat) else acc) cs
    else none

/-- The value of an exponent mark with its digits; there may be none. -/
def exponent? : List Char → Option Int
  | [] => some 0
  | e :: cs =>
    let digits (cs : List Char) : Option Nat := if cs.isEmpty then none else exponentValue 0 cs
    if e = 'e' ∨ e = 'E' then
      match cs with
      | '-' :: cs => (digits cs).map fun n => -(n : Int)
      | '+' :: cs => (digits cs).map fun n => (n : Int)
      | cs => (digits cs).map fun n => (n : Int)
    else none

/-- The number `digits * 10 ^ exponent`, unless it is too large. -/
def scientific? (digits : Nat) (exponent : Int) : Option Float :=
  if digits = 0 then some 0
  else
    let magnitude := (Nat.toDigits 10 digits).length + exponent
    if 310 < magnitude then none
    else if magnitude < -330 then some 0
    else
      let f := Float.ofScientific digits (exponent < 0) exponent.natAbs
      if f.isInf then none else some f

/-- A decimal fraction: digits with a point among them or in front, and an exponent. -/
def fraction? (cs : List Char) : Option Float :=
  let digit (c : Char) : Bool := '0' ≤ c && c ≤ '9'
  let (negative, cs) : Bool × List Char :=
    match cs with
    | '-' :: rest => (true, rest)
    | '+' :: rest => (false, rest)
    | cs => (false, cs)
  let whole := cs.takeWhile digit
  let rest := cs.drop whole.length
  let (part, rest, pointed) : List Char × List Char × Bool :=
    match rest with
    | '.' :: rest => (rest.takeWhile digit, rest.dropWhile digit, true)
    | rest => ([], rest, false)
  if whole.isEmpty && (!pointed || part.isEmpty) then none
  else
    (exponent? rest).bind fun e =>
      (Numeral.natural? 10 (whole ++ part)).bind fun n =>
        (scientific? n (e - part.length)).map fun f => if negative then -f else f

/-- Whether every underscore stands between two digits, given whether a digit is in front. -/
def separates : Bool → List Char → Bool
  | _, [] => true
  | behind, '_' :: cs =>
    behind && cs.head?.any (fun d => '0' ≤ d && d ≤ '9') && separates false cs
  | _, c :: cs => separates ('0' ≤ c && c ≤ '9') cs

/-! ## Plain scalars -/

/-- The words for truth values and for nothing, and for what is no number. -/
def word? (t : Text) : Option Scalar :=
  if t ∈ ["", "~", "null", "Null", "NULL"] then some .null
  else if t ∈ ["true", "True", "TRUE"] then some (.bool true)
  else if t ∈ ["false", "False", "FALSE"] then some (.bool false)
  else if t ∈ [".nan", ".NaN", ".NAN"] then some (.float (0 / 0))
  else if t ∈ [".inf", ".Inf", ".INF", "+.inf", "+.Inf", "+.INF"] then some (.float (1 / 0))
  else if t ∈ ["-.inf", "-.Inf", "-.INF"] then some (.float (-1 / 0))
  else none

/-- The number of characters without underscores. -/
def number? (cs : List Char) : Option Scalar :=
  match integer? cs with
  | some n => some (.int n)
  | none =>
    match fraction? cs with
    | some f => some (.float f)
    | none => (lateSigned? cs).map .int

/-- What a plain scalar denotes; points in time count only if asked for. -/
def denote (timestamps : Bool) (t : Text) : Scalar :=
  match word? t with
  | some s => s
  | none =>
    match t.toList with
    | [] => .null
    | c :: cs =>
      if c = '.' then
        match if separates false (c :: cs) then fraction? ((c :: cs).filter (· != '_')) else none with
        | some f => .float f
        | none => .str t
      else if ('0' ≤ c ∧ c ≤ '9') ∨ c = '+' ∨ c = '-' then
        if timestamps && isTimestamp (c :: cs) then .timestamp
        else (number? ((c :: cs).filter (· != '_'))).getD (.str t)
      else .str t

/-! ## Binary data -/

/-- The value of a letter of base sixty-four. -/
def sextet? (c : Char) : Option Nat :=
  if 'A' ≤ c ∧ c ≤ 'Z' then some (c.toNat - 'A'.toNat)
  else if 'a' ≤ c ∧ c ≤ 'z' then some (c.toNat - 'a'.toNat + 26)
  else if '0' ≤ c ∧ c ≤ '9' then some (c.toNat - '0'.toNat + 52)
  else if c = '+' then some 62
  else if c = '/' then some 63
  else none

/-- The bytes of letters of base sixty-four, four letters for three bytes, padded at the end. -/
def decodeSextets : List Char → Option (List Char)
  | [] => some []
  | a :: b :: c :: d :: rest => do
    let x ← sextet? a
    let y ← sextet? b
    let first := Char.ofNat (x * 4 + y / 16)
    if c = '=' ∧ d = '=' ∧ rest.isEmpty then some [first]
    else
      let z ← sextet? c
      let second := Char.ofNat (y % 16 * 16 + z / 4)
      if d = '=' ∧ rest.isEmpty then some [first, second]
      else
        let w ← sextet? d
        let more ← decodeSextets rest
        some (first :: second :: Char.ofNat (z % 4 * 64 + w) :: more)
  | _ => none

/-- The bytes of a text in base sixty-four; line breaks are no part of it. -/
def decodeBinary (t : Text) : Option Text :=
  (decodeSextets (t.toList.filter fun c => c != '\n' && c != '\r')).map String.ofList

/-! ## Tagged scalars -/

/-- The tag of the key that merges another mapping into its own. -/
def mergeTag : Text := "!!merge"

/-- The tag of a scalar: the one that it was given, or that of what it denotes. -/
def effectiveTag (tag : Option Text) (plain : Bool) (t : Text) : Text :=
  match tag with
  | some tag => tag
  | none => if !plain then "!!str" else if t = "<<" then mergeTag else (denote true t).tag

/-- The tags of what a plain scalar can denote, besides strings. -/
def knownTags : List Text := ["!!bool", "!!int", "!!float", "!!null", "!!timestamp"]

/-- What a scalar with a tag denotes, unless it cannot have the tag. -/
def denoteTagged? (tag t : Text) : Option Scalar :=
  if tag = "!!binary" then (decodeBinary t).map .str
  else if tag ∈ knownTags then
    let s := denote (tag = "!!timestamp") t
    if s.tag = tag then some s
    else
      match tag, s with
      | "!!float", .int n => if Numeral.isWord n then some (.float (Float.ofInt n)) else none
      | _, _ => none
  else some (.str t)

end Flowline.Description
