import Flowline.Lower.Value

/-!
# Bodies of actions

Statements become actions one after the other.  Assignments load constants and variables and move
registers; `exit` goes on at the exit stage.  Nothing behind `exit` or `return` is lowered.
-/

namespace Flowline.Lower

open Source (Expr Stmt)
open Flowline.Flow (Action)

/-- Writes the port of a packet that goes nowhere to a register. -/
def loadDropPort (dropPort : UInt64) (r : Switch.Register) : Action :=
  .load (.const dropPort.toNat 16) (.reg r)

/-- Stores a value of one width in storage of another: constants and variables are loaded, registers
are moved. -/
def store (construct : Text) (width sourceWidth : Int64) (src dst : Flow.Expr) : Lowering Action :=
  match src with
  | .const _ _ | .var _ _ => do
    checkFits src width construct
    pure (.load src dst)
  | src =>
    if sourceWidth ≠ width then
      refuse construct
        ("moving " ++ Numeral.word sourceWidth ++ " bits into " ++ Numeral.word width ++ " bits")
    else pure (.move src dst)

/-- An assignment. -/
def assignment (sub : Substitution) (left right : Expr) : Lowering Action := do
  let construct := (Stmt.assign left right).text
  if left.isStorage then
    let dst ← value sub left
    let src ← value sub right
    store construct left.type.width right.type.width src dst
  else refuse construct "can only assign to fields and locals"

/-- A call of a built-in. -/
def call (target : Option Text) (method : Text) (args : List Expr) : Lowering Action := do
  let construct := (Stmt.call target method args).text
  if method = "mark_to_drop" then
    match (← get).lookup outputPort with
    | some r => pure (loadDropPort (← get).target.dropPort r)
    | none => throw (.diagnostic ⟨.structural, construct, "output port register is not allocated"⟩)
  else refuse construct ("unknown builtin " ++ method)

mutual

/-- The action of a statement, and whether it ends the body. -/
def statement (sub : Substitution) (exitStage : Int64) : Stmt → Lowering (Action × Bool)
  | .empty => pure (.empty, false)
  | .block ss => do
    let (as, done) ← statements sub exitStage ss
    pure (.all as, done)
  | .exit => pure (.resubmit exitStage, true)
  | .ret => pure (.empty, true)
  | .assign left right => do
    let a ← assignment sub left right
    pure (a, false)
  | .call target method args => do
    let a ← call target method args
    pure (a, false)
  | .ifThen cond thn =>
    refuse (Stmt.ifThen cond thn).text "statement not supported in an action"
  | .ifElse cond thn els =>
    refuse (Stmt.ifElse cond thn els).text "statement not supported in an action"
  | .switch subject cases =>
    refuse (Stmt.switch subject cases).text "statement not supported in an action"
  | .apply t => refuse (Stmt.apply t).text "statement not supported in an action"

/-- The actions of statements up to the one that ends the body. -/
def statements (sub : Substitution) (exitStage : Int64) : List Stmt → Lowering (List Action × Bool)
  | [] => pure ([], false)
  | s :: ss => do
    let (a, done) ← statement sub exitStage s
    if done then pure ([a], true)
    else
      let (as, done) ← statements sub exitStage ss
      pure (a :: as, done)

end

/-- The action of a body. -/
def body (sub : Substitution) (exitStage : Int64) (ss : List Stmt) : Lowering Action := do
  let (as, _) ← statements sub exitStage ss
  pure (.all as)

end Flowline.Lower
