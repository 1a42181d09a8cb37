import Flowline.Ddlog.Syntax
import Flowline.Proofs.Text.Numerals
import Mathlib.Algebra.Order.Ring.Nat
import Mathlib.Data.List.Infix
import Mathlib.Data.List.TakeWhile

/-!
# Values of expressions

What the expressions in rules and helper functions stand for, as far as keys need it: variables,
numerals, choices between two, comparisons, differences, shifts, casts and calls of a function of one
parameter.

Bits are counted modulo the width of their type.  A numeral without a width takes that of the value
that it is used with.
-/

namespace Flowline.Ddlog

/-! ## Values -/

/-- A value. -/
inductive Value where
  | bits (width n : Nat)
  /-- A number that takes the width of what it is used with. -/
  | number (n : Nat)
  | truth (b : Bool)
  | text (t : Text)
  | pair (first second : Value)
  | absent
  | present (v : Value)

/-- The values of a type.  Signed numbers are not described. -/
def Value.Has : Value → Ty → Prop
  | bits width n, .bit w false => width = w.toInt.toNat ∧ n < 2 ^ width
  | truth _, .bool => True
  | text _, .string => True
  | pair x y, .tuple [a, b] => x.Has a ∧ y.Has b
  | absent, .option _ => True
  | present x, .option a => x.Has a
  | _, _ => False

section

variable {v : Value}

theorem Value.has_bits {w : Int64} (h : v.Has (.bits w)) :
    ∃ n, v = .bits w.toInt.toNat n ∧ n < 2 ^ w.toInt.toNat := by
  cases v with
  | bits width n =>
    obtain ⟨rfl, hn⟩ := h
    exact ⟨n, rfl, hn⟩
  | _ => cases h

theorem Value.has_bool (h : v.Has .bool) : ∃ b, v = .truth b := by
  cases v with
  | truth b => exact ⟨b, rfl⟩
  | _ => cases h

theorem Value.has_pair {a b : Ty} (h : v.Has (.tuple [a, b])) :
    ∃ x y, v = .pair x y ∧ x.Has a ∧ y.Has b := by
  cases v with
  | pair x y => exact ⟨x, y, rfl, h⟩
  | _ => cases h

theorem Value.has_option {a : Ty} (h : v.Has (.option a)) :
    v = .absent ∨ ∃ x, v = .present x ∧ x.Has a := by
  cases v with
  | absent => exact Or.inl rfl
  | present x => exact Or.inr ⟨x, rfl, h⟩
  | _ => cases h

end

/-- A value where one of a type is asked for. -/
def Value.as? : Value → Ty → Option Value
  | bits width n, .bit w false => if width = w.toInt.toNat then some (.bits width n) else none
  | number n, .bit w false => some (.bits w.toInt.toNat (n % 2 ^ w.toInt.toNat))
  | _, _ => none

/-- The text of a value inside a string: bits as a decimal numeral. -/
def Value.text? : Value → Option Text
  | bits _ n => some (Numeral.decimal n)
  | text t => some t
  | _ => none

/-- What a numeral stands for: a number, or bits if a width stands in front. -/
def numeral? (digits : Text) : Option Value :=
  let width := digits.toList.takeWhile Char.isDigit
  let rest := digits.toList.dropWhile Char.isDigit
  let sized (base : Nat) (ds : List Char) : Option Value := do
    let w ← Numeral.natural? 10 width
    let n ← Numeral.natural? base ds
    pure (.bits w (n % 2 ^ w))
  if rest = [] then (Numeral.natural? 10 width).map .number
  else ((rest.dropPrefix? "'d".toList).bind (sized 10)).or
    ((rest.dropPrefix? "'h".toList).bind (sized 16))

theorem numeral?_word {n : Int64} (hn : 0 ≤ n.toInt) :
    numeral? (Numeral.word n) = some (.number n.toInt.toNat) := by
  have hall : ∀ c ∈ Nat.toDigits 10 n.toInt.toNat, c.isDigit = true :=
    fun _ => Numeral.isDigit_of_mem_toDigits
  have hread : Numeral.natural? 10 (Nat.toDigits 10 n.toInt.toNat) = some n.toInt.toNat :=
    Numeral.natural?_toDigits (by decide) (by decide) _
  unfold numeral?
  rw [Numeral.toList_word hn, List.takeWhile_eq_self_iff.mpr hall,
    List.dropWhile_eq_nil_iff.mpr hall]
  simp only [if_true, hread, Option.map_some]

/-- Bits in base sixteen with their width in front. -/
theorem numeral?_hex {w : Int64} (hw : 0 ≤ w.toInt) {n : Nat} (hn : n < 2 ^ w.toInt.toNat) :
    numeral? (Numeral.word w ++ "'h" ++ Numeral.hex n) = some (.bits w.toInt.toNat n) := by
  have hall : ∀ c ∈ Nat.toDigits 10 w.toInt.toNat, c.isDigit = true :=
    fun _ => Numeral.isDigit_of_mem_toDigits
  have hwidth : Numeral.natural? 10 (Nat.toDigits 10 w.toInt.toNat) = some w.toInt.toNat :=
    Numeral.natural?_toDigits (by decide) (by decide) _
  have hnumber : Numeral.natural? 16 (Nat.toDigits 16 n) = some n :=
    Numeral.natural?_toDigits (by decide) (by decide) _
  have hlist : (Numeral.word w ++ "'h" ++ Numeral.hex n).toList =
      Nat.toDigits 10 w.toInt.toNat ++ ("'h".toList ++ Nat.toDigits 16 n) := by
    rw [String.toList_append, String.toList_append, Numeral.toList_word hw, List.append_assoc,
      Numeral.toList_hex]
  have htake : ("'h".toList ++ Nat.toDigits 16 n).takeWhile Char.isDigit = [] := rfl
  have hdrop : ("'h".toList ++ Nat.toDigits 16 n).dropWhile Char.isDigit =
    "'h".toList ++ Nat.toDigits 16 n := rfl
  have hdecimal : ("'h".toList ++ Nat.toDigits 16 n).dropPrefix? "'d".toList = none := rfl
  unfold numeral?
  rw [hlist, List.takeWhile_append_of_pos hall, List.dropWhile_append_of_pos hall, htake, hdrop,
    List.append_nil, if_neg (by simp), hdecimal,
    List.dropPrefix?_append_of_beq _ (beq_self_eq_true _)]
  simp only [Option.bind_some, Option.bind_none, Option.none_or, Option.bind_eq_bind, hwidth, hnumber,
    Nat.mod_eq_of_lt hn]
  rfl

/-! ## Operators -/

/-- Two numbers with the width that they share. -/
def Value.common? : Value → Value → Option (Nat × Nat × Nat)
  | bits w m, bits w' n => if w = w' then some (w, m, n) else none
  | bits w m, number n => some (w, m, n % 2 ^ w)
  | number m, bits w n => some (w, m % 2 ^ w, n)
  | _, _ => none

/-- The number of places that a value is shifted by. -/
def Value.amount? : Value → Option Nat
  | bits _ n => some n
  | number n => some n
  | _ => none

/-- An operator applied to two values. -/
def operate? (op : Text) (x y : Value) : Option Value :=
  if op = "==" then (x.common? y).map fun (_, m, n) => .truth (m == n)
  else if op = "-" then (x.common? y).map fun (w, m, n) => .bits w ((m + (2 ^ w - n)) % 2 ^ w)
  else if op = "<<" then
    match x with
    | .bits w m => y.amount?.map fun k => .bits w (m <<< k % 2 ^ w)
    | _ => none
  else none

theorem operate?_eq (x y : Value) :
    operate? "==" x y = (x.common? y).map fun q => .truth (q.2.1 == q.2.2) := by
  simp [operate?]

theorem operate?_sub (x y : Value) :
    operate? "-" x y = (x.common? y).map fun q =>
      .bits q.1 ((q.2.1 + (2 ^ q.1 - q.2.2)) % 2 ^ q.1) := by
  simp [operate?]

theorem operate?_shift (w m : Nat) (y : Value) :
    operate? "<<" (.bits w m) y = y.amount?.map fun k => .bits w (m <<< k % 2 ^ w) := by
  simp [operate?]

/-- A value cast to so many bits. -/
def Value.cast? (w : Int64) (v : Value) : Option Value :=
  v.amount?.map fun n => .bits w.toInt.toNat (n % 2 ^ w.toInt.toNat)

/-! ## Expressions -/

/-- The values of variables. -/
abbrev Env := List (Text × Value)

/-- The value of an expression, given those of its variables and of the functions that it calls. -/
def eval (call : Text → Value → Option Value) (env : Env) : Expr → Option Value
  | .var name => env.lookup name
  | .int digits => numeral? digits
  | .bool b => some (.truth b)
  | .ifElse cond thn els =>
    (eval call env cond).bind fun
      | .truth true => eval call env thn
      | .truth false => eval call env els
      | _ => none
  | .binary op left right =>
    (eval call env left).bind fun x => (eval call env right).bind fun y => operate? op x y
  | .cast e (.bit w false) => (eval call env e).bind (Value.cast? w)
  | .call f [e] => (eval call env e).bind (call f)
  | _ => none

section

variable {call : Text → Value → Option Value} {env : Env}

theorem eval_ifElse {cond : Expr} {b : Bool} (h : eval call env cond = some (.truth b))
    (thn els : Expr) :
    eval call env (.ifElse cond thn els) = if b then eval call env thn else eval call env els := by
  rw [eval, h]
  cases b <;> rfl

theorem eval_cast (e : Expr) (w : Int64) :
    eval call env (.cast e (.bits w)) = (eval call env e).bind (Value.cast? w) := by
  rw [Ty.bits, eval]

end

/-- The value of a function of one parameter that calls no others. -/
def Function.value? (f : Function) (arg : Value) : Option Value :=
  match f.params with
  | [p] => (arg.as? p.type).bind fun x =>
      (eval (fun _ _ => none) [(p.name, x)] f.body).bind fun v => v.as? f.result
  | _ => none

/-- The function that a declaration declares. -/
def Decl.function? : Decl → Option Function
  | .function f => some f
  | _ => none

/-- Calls of the functions that are declared. -/
def callIn (p : Program) (name : Text) (arg : Value) : Option Value :=
  ((p.filterMap Decl.function?).find? fun f => f.name == name).bind fun f => f.value? arg

end Flowline.Ddlog
