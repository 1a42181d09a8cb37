/-!
# Numerals

Numbers are written in decimal, in lower case hexadecimal or in binary, and read in any base up to
sixteen.  A numeral is read to the end or not at all.

* `Numeral.decimal`, `Numeral.hex`, `Numeral.binary` write.
* `Numeral.natural?` reads digits of a base, `Numeral.integer?` also a sign in front.
* `Numeral.word?` reads a decimal numeral that fits a machine word.
-/

namespace Flowline.Numeral

/-- The decimal numeral of an integer. -/
def decimal (n : Int) : String := toString n

/-- The decimal numeral of a machine word. -/
def word (n : Int64) : String := toString n.toInt

/-- The lower case hexadecimal numeral of a natural number. -/
def hex (n : Nat) : String := String.ofList (Nat.toDigits 16 n)

/-- The binary numeral of a natural number. -/
def binary (n : Nat) : String := String.ofList (Nat.toDigits 2 n)

/-- The digits of `hex n`, with zeros in front up to the given width. -/
def paddedHex (width n : Nat) : List Char :=
  let digits := Nat.toDigits 16 n
  List.replicate (width - digits.length) '0' ++ digits

/-- The value of a digit, letters of either case counting on from ten. -/
def digitValue? (c : Char) : Option Nat :=
  if '0' ≤ c ∧ c ≤ '9' then some (c.toNat - '0'.toNat)
  else if 'a' ≤ c ∧ c ≤ 'z' then some (c.toNat - 'a'.toNat + 10)
  else if 'A' ≤ c ∧ c ≤ 'Z' then some (c.toNat - 'A'.toNat + 10)
  else none

/-- The value of `acc` followed by the given digits in a base. -/
def continueFrom (base : Nat) : Nat → List Char → Option Nat
  | acc, [] => some acc
  | acc, c :: cs =>
    match digitValue? c with
    | some d => if d < base then continueFrom base (acc * base + d) cs else none
    | none => none

/-- The number that a nonempty list of digits denotes in a base. -/
def natural? (base : Nat) : List Char → Option Nat
  | [] => none
  | c :: cs => continueFrom base 0 (c :: cs)

/-- The number that digits with an optional sign in front denote in a base. -/
def integer? (base : Nat) : List Char → Option Int
  | '-' :: cs => (natural? base cs).map fun n => -(n : Int)
  | '+' :: cs => (natural? base cs).map fun n => (n : Int)
  | cs => (natural? base cs).map fun n => (n : Int)

/-- Whether an integer is a machine word. -/
def isWord (n : Int) : Bool := -0x8000000000000000 ≤ n && n < 0x8000000000000000

/-- The machine word that a signed decimal numeral denotes. -/
def word? (cs : List Char) : Option Int64 :=
  (integer? 10 cs).bind fun n => if isWord n then some (Int64.ofInt n) else none

end Flowline.Numeral
