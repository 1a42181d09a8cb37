import Flowline.Lower.Storage
import Flowline.Source.Stmt

/-!
# Values

The expressions that a flow can read or write: storage, constants, parameters, and parts of them.
Constants are cut at once, storage is cut by slices of its register.  Parameters stand for constants
or for variables of the rule around the flow.

A cast makes a value narrower; only constants can be made wider.
-/

namespace Flowline.Lower

open Source (Expr Literal)

/-- What the parameters of an action stand for.  The first of two of a name counts. -/
abbrev Substitution := List (Text × Flow.Expr)

/-- The bits of a number without its sign. -/
def bitLength (v : Int) : Nat := if v = 0 then 0 else v.natAbs.log2 + 1

/-- The number of the lowest `n` bits. -/
def lowPart (v : Int) (n : Int64) : Int :=
  if 0 ≤ v ∧ (bitLength v : Int) ≤ n.toInt then v else v % (1 <<< n.toInt.toNat : Nat)

/-- The bits of a number from bit `n` on. -/
def highPart (v : Int) (n : Int64) : Int := v >>> n.toInt.toNat

/-- Refuses an expression. -/
def refuse {α : Type} (construct reason : Text) : Lowering α :=
  throw (.unsupported construct reason)

/-- Refuses a constant that has more bits than there are; a width of zero means any. -/
def checkFits (v : Flow.Expr) (width : Int64) (construct : Text) : Lowering Unit :=
  match v with
  | .const n b =>
    if width ≠ 0 ∧ (bitLength n : Int) > width.toInt then
      refuse construct
        ("constant " ++ (Flow.Expr.const n b).text ++ " does not fit in " ++ Numeral.word width ++
          " bits")
    else pure ()
  | _ => pure ()

/-- A literal as a constant, in base sixteen if it was written so. -/
def constant (l : Literal) : Lowering Flow.Expr :=
  if l.value < 0 then refuse l.text "negative constants are not supported"
  else if 0 < l.width ∧ (bitLength l.value : Int) > l.width.toInt then
    refuse l.text ("constant does not fit in " ++ Numeral.word l.width ++ " bits")
  else pure (.const l.value (if l.radix.base = 16 then 16 else 10))

/-- The lowest bits of a constant. -/
def cutConstant (v : Int) (base n : Int64) : Lowering Flow.Expr := do
  if (← get).target.limits.canShift n then pure (.const (lowPart v n) base)
  else throw (.fault .shiftAmount)

/-- The bits `low` to `high` of a value. -/
def cut (v : Flow.Expr) (low high : Int64) : Lowering Flow.Expr :=
  match v with
  | .const n base => cutConstant (highPart n low) base (high - low + 1)
  | v => pure (.slice v low high)

/-- A value of width `width` as one of width `wanted`. -/
def castValue (e : Expr) (v : Flow.Expr) (width wanted : Int64) : Lowering Flow.Expr :=
  match v with
  | .const n base => cutConstant n base wanted
  | v =>
    if width = wanted then pure v
    else if width > wanted then pure (.slice v 0 (wanted - 1))
    else
      refuse e.text
        ("widening cast from " ++ Numeral.word width ++ " to " ++ Numeral.word wanted ++ " bits")

/-- The value of an expression. -/
def value (sub : Substitution) : Expr → Lowering Flow.Expr
  | .field f => do
    let r ← fieldRegister f
    pure (.reg r)
  | .localVar l => do
    let r ← localRegister l
    pure (.reg r)
  | .param p action =>
    match sub.lookup p.name with
    | some v => pure v
    | none => refuse (Expr.param p action).text ("parameter " ++ p.name ++ " has no value here")
  | .literal l => constant l
  | .truth b => pure (.number (if b then 1 else 0))
  | .slice e high low =>
    let width := e.type.width
    if low < 0 ∨ low > high ∨ high ≥ width then
      refuse (Expr.slice e high low).text
        ("slice [" ++ Numeral.word high ++ ":" ++ Numeral.word low ++ "] of a " ++
          Numeral.word width ++ "-bit value")
    else do
      let v ← value sub e
      cut v low high
  | .cast type e => do
    let v ← value sub e
    castValue (.cast type e) v e.type.width type.width
  | e => refuse e.text "not supported on this target"

end Flowline.Lower
