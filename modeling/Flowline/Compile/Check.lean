import Flowline.Compile.Declarations
import Flowline.Compile.State

/-!
# Checking tables

A table is declared only if its shape is right and everything that its flows need can be lowered.
All problems of a table are found, not just the first.
-/

namespace Flowline.Compile

open Lower (Lowering)
open Pipeline (Action DefaultAction Entry Key Table)

/-- What the parameters of an action stand for in a rule: variables of their own. -/
def paramVars (a : Action) : Lower.Substitution :=
  a.params.map fun p => (p.name, .var (paramVar p) p.type.width)

/-- A table of the wrong shape. -/
def shapeProblem (t : Table) (reason : Text) : Problem :=
  .diagnostic ⟨.malformedTable, t.fullName, reason⟩

/-- The problem of a lowering that is refused, if it is. -/
def refusal {α : Type} (m : Lowering α) : Emit Report := do
  match ← lower m with
  | .ok _ => pure []
  | .error p => pure [p]

/-- The value of a key, which must denote a register. -/
def keyRegister (k : Key) : Lowering Switch.Register := do
  match (← Lower.value [] k.expr).asRegister with
  | some r => pure r
  | none => Lower.refuse k.expr.text "keys must be fields or locals"

/-- The problems of an element of a key. -/
def checkKey (k : Key) : Emit Report :=
  if k.kind = .range then
    pure [.unsupported k.expr.text "range match has no flow form"]
  else if k.expr.type.isBool ∧ k.kind ≠ .exact then
    pure [.unsupported k.expr.text "boolean keys must be exact"]
  else refusal (keyRegister k)

/-- The problems of a constant entry; entries are counted from one. -/
def checkEntry (t : Table) (i : Nat) (e : Entry) : Report :=
  let entry := "entry " ++ toString (i + 1)
  (match t.action? e.action.name with
    | none =>
      [shapeProblem t (entry ++ " runs " ++ e.action.name ++ ", which the table does not list")]
    | some r =>
      if r.defaultOnly then
        [shapeProblem t (entry ++ " runs default-only action " ++ e.action.name)]
      else []) ++
  (if e.keys.length ≠ t.keys.length then
    [shapeProblem t (entry ++ " has " ++ toString e.keys.length ++ " keys, the table has " ++
      toString t.keys.length)]
  else []) ++
  (if e.args.length ≠ e.action.params.length then
    [shapeProblem t (entry ++ " passes " ++ toString e.args.length ++ " arguments to " ++
      e.action.name ++ ", which takes " ++ toString e.action.params.length)]
  else [])

/-- The problems of a default action. -/
def checkDefault (t : Table) (d : DefaultAction) : Report :=
  let name := "default action " ++ d.action.name
  (match t.action? d.action.name with
    | none => [shapeProblem t (name ++ " is not listed")]
    | some r => if r.tableOnly then [shapeProblem t (name ++ " is table-only")] else []) ++
  (if d.isConst ∧ d.args.length ≠ d.action.params.length then
    [shapeProblem t (name ++ " takes " ++ toString d.action.params.length ++ " arguments, got " ++
      toString d.args.length)]
  else [])

/-- The problems of the body of an action. -/
def checkBody (t : Table) (a : Action) : Emit Report := do
  let r ← refusal (Lower.body (paramVars a) 0 a.body)
  pure (r.map (.within ("table " ++ t.fullName)))

/-- The problems of all members of a list, in order. -/
def checkAll {α : Type} (check : α → Emit Report) : List α → Emit Report
  | [] => pure []
  | x :: xs => do
    let r ← check x
    let rs ← checkAll check xs
    pure (r ++ rs)

/-- The problems of a table. -/
def checkTable (t : Table) : Emit Report := do
  let keys ← checkAll checkKey t.keys
  let bodies ← checkAll (fun r => checkBody t r.action) t.actions
  pure
    ((if t.actions.isEmpty then [shapeProblem t "table has no actions"] else []) ++ keys ++
      (t.entries.mapIdx (checkEntry t)).flatten ++
      (t.default?.elim [] (checkDefault t)) ++ bodies)

end Flowline.Compile
