import Flowline.Compile.Check
import Flowline.ControlFlow.Walk

/-!
# Flows of tables

A table that the control plane fills has one rule that makes a flow of each row; a table with
constant entries has a flow for each of them, the first with the highest priority.  Below them is
the flow of the default action, of lowest priority.

Each flow runs an action and goes on at the stage that the graph has for it.
-/

namespace Flowline.Compile

open Flowline.Flow (Match)
open ControlFlow (Graph Vertex)
open Lower (Lowering Substitution bitLength)
open Pipeline (Action Entry Key Table)
open Source (Expr)

/-- The priority of a flow that comes before others of its stage. -/
def highPriority : Int := 100

/-- The priority of the flows of multicast groups. -/
def multicastPriority : Int := 50

/-- The priority of a flow that comes behind all others of its stage. -/
def lowPriority : Int := 1

/-- A match at a stage. -/
def stageGuard (stage : Int64) (priority : Flow.Expr) (rest : List Match) : Match :=
  rest.foldl .seq (.seq (.table stage) (.priority priority))

/-- The action of a flow that goes on at a stage. -/
def goTo (v : Vertex) : Flow.Action := .resubmit v.id

/-- The flow action of an action: its body, and then the next stage. -/
def runAction (sub : Substitution) (g : Graph) (a : Action) (next : Vertex) :
    Lowering Flow.Action := do
  let body ← Lower.body sub g.exit.id a.body
  pure (Flow.Action.simplify (.all [body, goTo next]))

/-! ## Arguments -/

/-- A constant of at most so many bits; `what` names the number, and `rule` says that it must be
constant. -/
def fittingConst (what rule : Text) (width : Int64) (e : Expr) : Lowering Flow.Expr := do
  match ← Lower.value [] e with
  | .const n base =>
    if (bitLength n : Int) > width.toInt then
      Lower.refuse e.text (what ++ " does not fit in " ++ Numeral.word width ++ " bits")
    else pure (.const n base)
  | _ => Lower.refuse e.text rule

/-- The constant that a parameter stands for. -/
def constArg (p : Param) (e : Expr) : Lowering (Text × Flow.Expr) := do
  let v ← fittingConst "argument" "action arguments must be constants" p.type.width e
  pure (p.name, v)

/-- The constants that parameters stand for. -/
def constArgsOf : List Param → List Expr → Lowering Substitution
  | p :: ps, e :: es => do
    let arg ← constArg p e
    let args ← constArgsOf ps es
    pure (arg :: args)
  | _, _ => pure []

/-- The constants that the parameters of an action stand for. -/
def constArgs (a : Action) (args : List Expr) : Lowering Substitution :=
  if args.length ≠ a.params.length then
    throw (.diagnostic ⟨.malformedTable, a.fullName,
      "action " ++ a.name ++ " takes " ++ toString a.params.length ++ " arguments, got " ++
        toString args.length⟩)
  else constArgsOf a.params args

/-- The cases of a choice of actions, each with its parameters as variables. -/
def actionCases (typeName : Text) (g : Graph) (next : Action → Vertex) :
    List Action → Lowering (List ActionCase)
  | [] => pure []
  | a :: as => do
    let act ← runAction (paramVars a) g a (next a)
    let cases ← actionCases typeName g next as
    pure (⟨constructorName typeName a, a.params.map paramVar, act⟩ :: cases)

/-! ## Rules over the rows of a relation -/

/-- An element of a key in a rule: its column, further bindings, and what is matched. -/
structure KeyMatch where
  pattern : Pattern
  bindings : List Binding := []
  guard : Match
  prereqs : List Match := []

/-- An element of a key in a rule, from the register that it is matched against.  A range has no
form. -/
def keyMatch? (k : Key) (left : Flow.Expr) : Option KeyMatch :=
  let type := k.expr.type
  let name := identifier k.name
  let v := keyVar k
  let var (name : Text) : Flow.Expr := .var name type.width
  let prereqs := Lower.prereqs k.expr
  match k.kind with
  | .exact =>
    if type.isBool then
      some ⟨.var v, [.flag ("b_" ++ name) v], .equals left (var ("b_" ++ name)) none, prereqs⟩
    else some ⟨.var v, [], .equals left (var v) none, prereqs⟩
  | .ternary =>
    some ⟨.pair (v ++ "_value") (v ++ "_mask"), [],
      .equals left (var (v ++ "_value")) (some (var (v ++ "_mask"))), prereqs⟩
  | .lpm =>
    some ⟨.pair (v ++ "_value") (v ++ "_plen"), [],
      .equals left (var (v ++ "_value"))
        (some (var (prefixMaskName type.width ++ "(" ++ v ++ "_plen)"))), prereqs⟩
  | .optional =>
    let m := prereqs ++ [.equals left (var ("v_" ++ name)) none]
    (Match.all? m).map fun m =>
      ⟨.var v, [.optional ("m_" ++ name) v ("v_" ++ name) m], .interpolated ("m_" ++ name), []⟩
  | .range => none

/-- Emits what an element of a key needs in a rule. -/
def emitKey (k : Key) : Emit (Option KeyMatch) := do
  match ← lower? (Lower.value [] k.expr) with
  | none => pure none
  | some left =>
    if k.kind = .lpm then usePrefixMask k.expr.type.width
    let km := keyMatch? k left
    if km.isNone then
      report [.unsupported k.expr.text (k.kind.name ++ " match has no flow form")]
    pure km

/-- Emits what a key needs in a rule; the first element that has no form ends it. -/
def emitKeys : List Key → Emit (Option (List KeyMatch))
  | [] => pure (some [])
  | k :: ks => do
    match ← emitKey k with
    | none => pure none
    | some km =>
      let kms ← emitKeys ks
      pure (kms.map (km :: ·))

/-- The match of a rule: the stage, the prerequisites of all keys, each once, and the keys. -/
def entryGuard (t : Table) (v : Vertex) (kms : List KeyMatch) : Match :=
  let priority : Flow.Expr := if allExact t then .number highPriority else .var "priority" 32
  stageGuard v.id priority ((kms.flatMap (·.prereqs)).eraseDups ++ kms.map (·.guard))

/-- The row of a rule. -/
def entryRow (t : Table) (kms : List KeyMatch) : Binding :=
  .row (relationName t)
    (kms.map (·.pattern) ++ (if allExact t then [] else [.var "priority"]) ++
      (if needsActions t then [.var "action"] else []))

/-- The action of a rule, and the binding that chooses it if there is a choice. -/
def entryAction (t : Table) (g : Graph) (v : Vertex) : Lowering (Flow.Action × List Binding) := do
  let next (a : Action) : Vertex := g.afterHit v a.name
  match needsActions t, entryActions t with
  | false, a :: _ =>
    let act ← runAction [] g a (next a)
    pure (act, [])
  | _, as =>
    let cases ← actionCases (actionTypeName t) g next as
    pure (.var "actions", [.choice cases])

/-- Emits the rule of a table that the control plane fills. -/
def emitEntryRule (t : Table) (g : Graph) (v : Vertex) : Emit Unit := do
  match ← emitKeys t.keys with
  | none => pure ()
  | some kms =>
    match ← lower? (entryAction t g v) with
    | none => pure ()
    | some (act, chosen) =>
      emit ("table " ++ t.fullName) (entryGuard t v kms) act
        (entryRow t kms :: kms.flatMap (·.bindings) ++ chosen)

/-! ## Constant entries -/

/-- A constant in a key of an entry. -/
def keyConstant (width : Int64) (e : Expr) : Lowering Flow.Expr :=
  fittingConst "key value" "entry keys must be constants" width e

/-- The match of a key of an entry; a wildcard has none. -/
def entryKey (k : Key) (key : Expr) : Lowering (Option Match) := do
  let left ← Lower.value [] k.expr
  let width := k.expr.type.width
  match key with
  | .any => pure none
  | .binary .mask l r =>
    let v ← keyConstant width l
    let m ← keyConstant width r
    pure (some (.equals left v (some m)))
  | key =>
    let v ← keyConstant width key
    pure (some (.equals left v none))

/-- What the keys of an entry match: whether all of them have a form, the prerequisites and the
matches. -/
def entryKeys : List (Key × Expr) → Emit (Bool × List Match × List Match)
  | [] => pure (true, [], [])
  | (k, key) :: rest => do
    let m ← lower? (entryKey k key)
    let (ok, prereqs, guards) ← entryKeys rest
    match m with
    | none => pure (false, prereqs, guards)
    | some none => pure (ok, prereqs, guards)
    | some (some m) => pure (ok, Lower.prereqs k.expr ++ prereqs, m :: guards)

/-- The priority of an entry: its own, or by its place among the entries. -/
def entryPriority (t : Table) (i : Nat) (e : Entry) : Int :=
  if e.priority = 0 then (t.entries.length : Int) - i + lowPriority else e.priority.toInt

/-- The action of an entry. -/
def constAction (e : Entry) (g : Graph) (next : Vertex) : Lowering Flow.Action := do
  let sub ← constArgs e.action e.args
  runAction sub g e.action next

/-- Emits the flow of an entry. -/
def emitEntry (t : Table) (g : Graph) (v : Vertex) (i : Nat) (e : Entry) : Emit Unit := do
  let (ok, prereqs, guards) ← entryKeys (t.keys.zip e.keys)
  match ← lower? (constAction e g (g.afterHit v e.action.name)) with
  | none => pure ()
  | some act =>
    if ok then
      emitFact ("table " ++ t.fullName ++ " entry " ++ toString (i + 1))
        (stageGuard v.id (.number (entryPriority t i e)) (prereqs.eraseDups ++ guards)) act

/-- Emits the flows of entries, the first of which has the given place. -/
def emitEntries (t : Table) (g : Graph) (v : Vertex) : Nat → List Entry → Emit Unit
  | _, [] => pure ()
  | i, e :: es => do
    emitEntry t g v i e
    emitEntries t g v (i + 1) es

/-! ## Default actions -/

/-- The action of a fixed default. -/
def fixedDefault (t : Table) (g : Graph) (v : Vertex) : Lowering Flow.Action :=
  match t.default? with
  | none => pure (goTo (g.afterMiss v ""))
  | some d => do
    let sub ← constArgs d.action d.args
    runAction sub g d.action (g.afterMiss v d.action.name)

/-- Emits the flow of the default action. -/
def emitDefault (t : Table) (g : Graph) (v : Vertex) : Emit Unit := do
  let comment := "table " ++ t.fullName ++ " default"
  let guard := stageGuard v.id (.number lowPriority) []
  if hasConstDefault t then
    match ← lower? (fixedDefault t g v) with
    | none => pure ()
    | some act => emitFact comment guard act
  else
    let next (a : Action) : Vertex := g.afterMiss v a.name
    match ← lower? (actionCases (defaultTypeName t) g next (defaultActions t)) with
    | none => pure ()
    | some cases =>
      emit comment guard (.var "actions")
        [.row (defaultRelationName t) [.var "action"], .choice cases]

/-- Emits the flows of a table at a stage. -/
def emitTable (t : Table) (g : Graph) (v : Vertex) : Emit Unit := do
  if isParametric t then emitEntryRule t g v
  if t.hasConstEntries then emitEntries t g v 0 t.entries
  emitDefault t g v

end Flowline.Compile
