import Flowline.Compile.Names
import Flowline.Ddlog.Syntax
import Flowline.Switch.Register

/-!
# Declarations

What is declared for a table: if the control plane fills it, a relation of its entries with a type
of their actions; if the control plane chooses its default action, a relation and a type for that.
Every program also declares the flows, the multicast groups, and helpers for registers and prefix
masks.
-/

namespace Flowline.Compile

open Ddlog (Column Decl Expr Relation Ty Variant)
open Pipeline (Action Key MatchKind Table)
open Switch (Register)

/-! ## What a table needs -/

/-- Whether all elements of the key are matched exactly. -/
def allExact (t : Table) : Bool := t.keys.all fun k => k.kind == .exact

/-- The actions that entries may run. -/
def entryActions (t : Table) : List Action :=
  (t.actions.filter fun r => !r.defaultOnly).map (·.action)

/-- The actions that may be the default. -/
def defaultActions (t : Table) : List Action :=
  (t.actions.filter fun r => !r.tableOnly).map (·.action)

/-- Whether the control plane fills the table. -/
def isParametric (t : Table) : Bool :=
  !t.hasConstEntries && !t.keys.isEmpty && !(entryActions t).isEmpty

/-- Whether entries say which action they run: there is a choice, or there are parameters. -/
def needsActions (t : Table) : Bool :=
  match entryActions t with
  | [a] => !a.params.isEmpty
  | _ => true

/-- Whether the default action is fixed. -/
def hasConstDefault (t : Table) : Bool := t.default?.all fun d => d.isConst

/-! ## Types -/

/-- The type of a value. -/
def valueTy (t : ValueType) : Ty := if t.isBool then .bool else .bit t.width t.isSigned

/-- The type of the column of a key. -/
def keyTy (k : Key) : Ty :=
  let v := valueTy k.expr.type
  match k.kind with
  | .exact => v
  | .ternary => .tuple [v, v]
  | .range => .tuple [v, v]
  | .lpm => .tuple [v, .bits 32]
  | .optional => .option v

/-- The field of a parameter.  Parameters have no sign, so that they are written as numbers. -/
def paramColumn (p : Param) : Column := .mk (identifier p.name) (.bits p.type.width)

/-- The constructor of an action. -/
def variant (typeName : Text) (a : Action) : Variant :=
  .mk (constructorName typeName a) (a.params.map paramColumn)

/-- The type of a choice of actions. -/
def actionType (typeName : Text) (actions : List Action) : Decl :=
  .typedef typeName (.sum (actions.map (variant typeName)))

/-! ## Relations -/

/-- The columns of a table's entries. -/
def entryColumns (t : Table) : List Column :=
  t.keys.map (fun k => .mk (keyVar k) (keyTy k)) ++
    (if allExact t then [] else [.mk "priority" (.bits 32)]) ++
    (if needsActions t then [.mk "action" (.named (actionTypeName t))] else [])

/-- The relation of a table's entries. -/
def entryRelation (t : Table) : Relation := ⟨.input, relationName t, entryColumns t⟩

/-- The relation of a table's default action. -/
def defaultRelation (t : Table) : Relation :=
  ⟨.input, defaultRelationName t, [.mk "action" (.named (defaultTypeName t))]⟩

/-- The declarations of a table. -/
def tableDecls (t : Table) : List Decl :=
  (if isParametric t then
    (if needsActions t then [actionType (actionTypeName t) (entryActions t)] else []) ++
      [.relation (entryRelation t)]
  else []) ++
    (if hasConstDefault t then []
    else [actionType (defaultTypeName t) (defaultActions t), .relation (defaultRelation t)])

/-- The declarations of every program. -/
def builtinDecls : List Decl :=
  [.relation ⟨.input, multicastRelation, [.mk "mcast_id" (.bits 16), .mk "port" (.bits 16)]⟩,
    .relation ⟨.output, flowRelation, [.mk "flow" .string]⟩]

/-! ## Helpers -/

/-- The helper that names a register, in a match or in an action. -/
def registerHelper (r : Register) : Decl :=
  .function
    { name := helperName r.owner
      params := [.mk "in_match" .bool]
      result := .string
      body := .ifElse (.var "in_match") (.str r.matchText) (.str r.actionText) }

/-- The helpers of all registers that have an owner. -/
def registerHelpers (rs : List Register) : List Decl :=
  (rs.filter fun r => r.owner != "").map registerHelper

/-- The helper that makes a mask of a prefix length. -/
def prefixMaskHelper (width : Int64) : Decl :=
  let ones := Numeral.word width ++ "'h" ++ Numeral.hex (Switch.lowBits width)
  .function
    { name := prefixMaskName width
      params := [.mk "plen" (.bits 32)]
      result := .bits width
      body :=
        .ifElse (.binary "==" (.var "plen") (.int "0")) (.int "0")
          (.binary "<<" (.int ones) (.binary "-" (.int (Numeral.word width)) (.var "plen"))) }

/-- The helpers of the given widths, each once, by width. -/
def prefixMaskHelpers (widths : List Int64) : List Decl :=
  (widths.eraseDups.mergeSort fun a b => a ≤ b).map prefixMaskHelper

end Flowline.Compile
