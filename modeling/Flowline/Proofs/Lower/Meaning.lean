import Flowline.Proofs.Lower.Running
import Flowline.Proofs.Switch.Memory

/-!
# The meaning of expressions

What an expression of a program denotes once storage has its places: a number for every situation of
a packet (`evaluate`), and for storage the list of its places (`Layout.places`).  Truth values are
the numbers zero and one.

A sized value is the number of its bits.  An unsized literal is an integer, and takes the width of
what it is compared with.  A cast keeps the lowest bits of the integer that a value stands for; only
where it makes a signed value wider does it matter which integer that is, and `Padding` says so.
-/

namespace Flowline.Lower

open Source (Expr)
open Switch (Memory Place Register Situation)

/-- What stands in front of a signed value that is made wider: copies of its sign, or zeros. -/
inductive Padding where
  | sign
  | zero

/-- The number of values of a width. -/
def modulus (width : Int64) : Int := 2 ^ width.toInt.toNat

/-- The integer that the bits of a value stand for when it is made wider. -/
def Padding.integer (p : Padding) (type : ValueType) (v : Int) : Int :=
  match p with
  | .zero => v
  | .sign =>
    if type.isSigned ∧ 0 < type.width ∧ modulus (type.width - 1) ≤ v then v - modulus type.width
    else v

/-- An operand of a comparison; an unsized one takes the width of the other. -/
def operand (type other : ValueType) (v : Int) : Int :=
  if type.width ≤ 0 ∧ 0 < other.width then v % modulus other.width else v

/-- A truth value as a number. -/
def truthNumber (p : Prop) [Decidable p] : Int := if p then 1 else 0

/-- The places of storage, lowest bit first. -/
def Layout.places (L : Layout) : Expr → List Place
  | .field f => (L.ofField f).elim [] (Register.places L.target)
  | .localVar l => (L.ofLocal l).elim [] (Register.places L.target)
  | .slice e high low =>
    ((L.places e).drop low.toInt.toNat).take (high - low + 1).toInt.toNat
  | .cast type e => (L.places e).take type.width.toInt.toNat
  | _ => []

/-- The value of an expression, given the layout of storage and the arguments of the parameters. -/
def evaluate (p : Padding) (L : Layout) (args : Text → Int) (s : Situation) : Expr → Int
  | .field f => s.memory.read (L.places (.field f))
  | .localVar l => s.memory.read (L.places (.localVar l))
  | .param q _ => args q.name
  | .literal l => if 0 < l.width then l.value % modulus l.width else l.value
  | .truth b => truthNumber (b = true)
  | .valid h => truthNumber (∃ t ∈ h.protocol, s.texts t = true)
  | .binary .and left right =>
    truthNumber (evaluate p L args s left = 1 ∧ evaluate p L args s right = 1)
  | .binary .or left right =>
    truthNumber (evaluate p L args s left = 1 ∨ evaluate p L args s right = 1)
  | .binary .eq left right =>
    truthNumber (operand left.type right.type (evaluate p L args s left) =
      operand right.type left.type (evaluate p L args s right))
  | .binary .ne left right =>
    truthNumber (operand left.type right.type (evaluate p L args s left) ≠
      operand right.type left.type (evaluate p L args s right))
  | .negation e => truthNumber (evaluate p L args s e ≠ 1)
  | .slice e high low => evaluate p L args s e / modulus low % modulus (high - low + 1)
  | .cast type e => p.integer e.type (evaluate p L args s e) % modulus type.width
  | _ => 0

/-- The fields that an expression reads. -/
def fieldsRead : Expr → List Field
  | .field f => [f]
  | .binary _ left right => fieldsRead left ++ fieldsRead right
  | .negation e => fieldsRead e
  | .slice e _ _ => fieldsRead e
  | .cast _ e => fieldsRead e
  | _ => []

/-- Storage has as many places as its type has bits, casts have a width, and arguments fit. -/
def Layout.Sized (L : Layout) (args : Text → Int) : Expr → Prop
  | .field f => ∀ r ∈ L.ofField f, r.Covers f.type.width
  | .localVar l => ∀ r ∈ L.ofLocal l, r.Covers l.type.width
  | .param q _ => 0 ≤ args q.name ∧ args q.name < modulus q.type.width
  | .binary _ left right => L.Sized args left ∧ L.Sized args right
  | .negation e => L.Sized args e
  | .slice e _ _ => L.Sized args e
  | .cast type e => 0 < type.width ∧ L.Sized args e
  | _ => True

theorem modulus_pos (width : Int64) : 0 < modulus width := by
  unfold modulus
  positivity

@[simp] theorem truthNumber_eq_one {p : Prop} [Decidable p] : truthNumber p = 1 ↔ p := by
  unfold truthNumber
  split <;> simp_all

theorem evaluate_storage {L : Layout} {args : Text → Int} (s : Situation) {e : Expr}
    (h : e.isStorage = true) : evaluate .zero L args s e = s.memory.read (L.places e) := by
  match e with
  | .field f => rfl
  | .localVar l => rfl
  | .slice e high low =>
    have ih : evaluate .zero L args s e = s.memory.read (L.places e) := evaluate_storage s h
    rw [evaluate, ih, Layout.places, Memory.read_take, Memory.read_drop, modulus, modulus]
    push_cast
    rfl
  | .cast type e =>
    have ih : evaluate .zero L args s e = s.memory.read (L.places e) := evaluate_storage s h
    rw [evaluate, Padding.integer, ih, Layout.places, Memory.read_take, modulus]
    push_cast
    rfl

end Flowline.Lower
