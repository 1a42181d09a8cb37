import Flowline.Description.Program
import Flowline.Pipeline.Resolve
import Flowline.Source.Parser

/-!
# Loading a program

From a description to a resolved program: fields get their qualified names, texts are parsed, names
are resolved.  All problems are collected, and a program with any is refused.

Actions come before tables, so a switch inside an action finds tables without actions; the body of
the control comes last and finds all of them.
-/

namespace Flowline.Pipeline

open Source (Expr Stmt Parsed)

/-- A text that may be left out. -/
def given (t : Text) : Option Text := if t = "" then none else some t

/-- The type that a description gives. -/
def typeOf (d : Description.Field) : ValueType :=
  if d.isBool then .truth
  else { width := d.width, isSigned := d.isSigned, isVarbit := d.isVarbit }

/-! ## Fields -/

/-- The reserved register that a field is bound to. -/
def builtin? (name : Text) : Option Builtin :=
  if name = "" then some .none
  else if name = "output_port" then some .outputPort
  else if name = "multicast_group" then some .multicastGroup
  else none

/-- Declares a field of a group behind those already seen. -/
def declareField (group : Text) (seen : List Field) (d : Description.Field) : Reporting Field := do
  let name := group ++ d.name
  let builtin := builtin? d.builtin
  if builtin.isNone then
    refuse ("field " ++ name ++ ": unknown builtin " ++ d.builtin.quoted)
  if seen.any fun f => f.name == name then
    refuse ("field " ++ name ++ " declared twice")
  pure
    { name
      type := typeOf d
      packet := given d.packet
      slice := d.slice.map fun s => ⟨s.low, s.high, s.size⟩
      prereq := given d.prereq
      builtin := builtin.getD .none }

/-- Declares the fields of a group. -/
def declareFields (group : Text) : List Field → List Description.Field → Reporting (List Field)
  | _, [] => pure []
  | seen, d :: ds => do
    let f ← declareField group seen d
    let fs ← declareFields group (seen ++ [f]) ds
    pure (f :: fs)

/-- Declares headers with their fields. -/
def declareHeaders : List Field → List Description.Header → Reporting (List Header)
  | _, [] => pure []
  | seen, d :: ds => do
    let fields ← declareFields ("hdr." ++ d.name ++ ".") seen d.fields
    let hs ← declareHeaders (seen ++ fields) ds
    pure (⟨d.name, given d.protocol, fields⟩ :: hs)

/-! ## Texts -/

/-- The tree of a text, and its errors; a text that cannot be read at all gives the given one. -/
def parsed {α : Type} (hole : α) (r : Except Fault (Parsed α)) : Reporting (Parsed α) :=
  match r with
  | .ok p => pure p
  | .error f => do
    report (.fault f)
    pure ⟨hole, []⟩

/-- Parses the body of an action or a control; all errors are reported. -/
def bodyOf (source place : Text) : Reporting (List Stmt) := do
  let p ← parsed [] (Source.parseStatements source)
  for e in p.errors do
    refuse (place ++ ": " ++ e)
  pure p.tree

/-- Parses an expression; the first error is reported. -/
def exprOf (source place : Text) : Reporting (Option Expr) := do
  let p ← parsed none (Source.parseExpression source)
  match p.errors with
  | e :: _ =>
    refuse (place ++ ": " ++ source.quoted ++ ": " ++ e)
    pure none
  | [] => pure p.tree

/-- Parses arguments, and then resolves those without errors. -/
def argsOf (s : Scope) (place : Text) (sources : List Text) : Reporting (List Expr) := do
  let es ← collect (fun source => exprOf source place) sources
  s.exprs es

/-- Parses a key of a constant entry. -/
def keysetOf (place source : Text) : Reporting (Option Expr) := do
  let p ← parsed none (Source.parseKeyset source)
  match p.errors with
  | e :: _ =>
    refuse (place ++ ": entry key " ++ source.quoted ++ ": " ++ e)
    pure none
  | [] => pure (some (p.tree.getD .missing))

/-! ## Tables -/

/-- The characters of a key's name: dots become underscores, and only letters, digits and
underscores stay. -/
def keyChar (c : Char) : Option Char :=
  if c = '.' then some '_' else if c = '_' || c.isAlphanum then some c else none

/-- The name of a key that has none of its own: its text behind the first dot. -/
def keyName (source : Text) : Text :=
  let cs := source.toList
  let rest := if cs.contains '.' then (cs.dropWhile (· != '.')).drop 1 else cs
  String.ofList (rest.filterMap keyChar)

/-- The kind of match of a key; exact if none is given. -/
def kindOf? (name : Text) : Option MatchKind :=
  if name = "" then some .exact else MatchKind.ofName? name

/-- Loads a key of a table. -/
def loadKey (s : Scope) (place : Text) (d : Description.TableKey) : Reporting (Option Key) :=
  match kindOf? d.kind with
  | none => do
    refuse (place ++ ": unknown match kind " ++ d.kind.quoted)
    pure none
  | some kind => do
    let parsed ← exprOf d.expr place
    let e ← s.expr (parsed.getD .missing)
    pure (e.map fun e => ⟨if d.name = "" then keyName d.expr else d.name, e, kind⟩)

/-- The first of a control's actions that has the given name. -/
def findAction? (actions : List Action) (name : Text) : Option Action :=
  actions.find? fun a => a.name == name

/-- Loads an action of a table. -/
def loadActionRef (actions : List Action) (place : Text) (d : Description.ActionRef) :
    Reporting (Option ActionRef) :=
  match findAction? actions d.name with
  | none => do
    refuse (place ++ ": unknown action " ++ d.name)
    pure none
  | some a => pure (some ⟨a, d.tableOnly, d.defaultOnly⟩)

/-- Loads the default action of a table. -/
def loadDefault (s : Scope) (actions : List Action) (place : Text) :
    Option Description.DefaultAction → Reporting (Option DefaultAction)
  | none => pure none
  | some d =>
    match findAction? actions d.name with
    | none => do
      refuse (place ++ ": unknown default action " ++ d.name)
      pure none
    | some a => do
      let args ← argsOf s place d.args
      pure (some ⟨a, args, d.isConst⟩)

/-- Loads a constant entry of a table. -/
def loadEntry (s : Scope) (actions : List Action) (place : Text) (d : Description.Entry) :
    Reporting (Option Entry) :=
  match findAction? actions d.action with
  | none => do
    refuse (place ++ ": entry uses unknown action " ++ d.action)
    pure none
  | some a => do
    let args ← argsOf s place d.args
    let keys ← collect (keysetOf place) d.keys
    pure (some ⟨keys, a, args, d.priority⟩)

/-- Loads a table. -/
def loadTable (s : Scope) (actions : List Action) (d : Description.Table) : Reporting Table := do
  let place := "table " ++ s.control ++ "." ++ d.name
  let keys ← collect (loadKey s place) d.keys
  let refs ← collect (loadActionRef actions place) d.actions
  let default? ← loadDefault s actions place d.defaultAction
  let entries ← collect (loadEntry s actions place) (d.constEntries.getD [])
  pure
    { control := s.control
      name := d.name
      keys
      actions := refs
      default?
      entries
      hasConstEntries := d.constEntries.isSome }

/-! ## Controls -/

/-- Reports actions whose names were declared before. -/
def checkActions (control : Text) : List Text → List Description.Action → Reporting Unit
  | _, [] => pure ()
  | seen, d :: ds => do
    if seen.contains d.name then
      refuse ("control " ++ control ++ ": action " ++ d.name ++ " declared twice")
    checkActions control (d.name :: seen) ds

/-- Loads an action. -/
def loadAction (s : Scope) (d : Description.Action) : Reporting Action := do
  let params := d.params.map fun p => ⟨p.name, typeOf p⟩
  let source ← bodyOf d.body ("action " ++ d.name)
  let body ← { s with action := some (d.name, params) }.stmts source
  pure ⟨s.control, d.name, params, body⟩

/-- The names of a table and of its actions. -/
def Table.names (t : Table) : TableNames := ⟨t.name, t.actions.map (·.action.name)⟩

/-- Loads the parts of a control that are resolved in its scope. -/
def loadParts (scope : Scope) (d : Description.Control) : Reporting Control := do
  let actions ← d.actions.mapM (loadAction scope)
  let tables ← d.tables.mapM (loadTable scope actions)
  let source ← bodyOf d.apply ("control " ++ scope.control)
  let body ← { scope with tables := tables.map Table.names }.stmts source
  pure
    { name := scope.control, params := d.params, locals := scope.locals, actions, tables, body }

/-- Loads a control; without a name of its own it has that of its role. -/
def loadControl (fields : List Field) (headers : List Header) (role : Text)
    (d : Description.Control) : Reporting Control := do
  let name := if d.name = "" then role else d.name
  if d.params.length ≠ 3 then
    refuse ("control " ++ name ++
      ": expected 3 parameters (headers, metadata, standard metadata), got " ++
      toString d.params.length)
  checkActions name [] d.actions
  let scope : Scope :=
    { fields
      headers := headers.map fun h => ⟨h.name, h.protocol⟩
      control := name
      params := d.params
      locals := d.locals.map fun l => ⟨name, l.name, typeOf l⟩
      tables := d.tables.map fun t => ⟨t.name, []⟩ }
  loadParts scope d

/-- Loads a control that must be there. -/
def loadRole (fields : List Field) (headers : List Header) (role : Text) :
    Option Description.Control → Reporting (Option Control)
  | none => do
    refuse ("program has no " ++ role ++ " control")
    pure none
  | some d => do
    let c ← loadControl fields headers role d
    pure (some c)

/-! ## Programs -/

/-- Resolves a description, with all problems found. -/
def resolve (d : Description.Program) : Reporting Program := do
  let headers ← declareHeaders [] d.headers
  let inHeaders := headers.flatMap (·.fields)
  let metadata ← declareFields "meta." inHeaders d.metadata
  let standard ← declareFields "std." (inHeaders ++ metadata) d.standard
  let fields := inHeaders ++ metadata ++ standard
  let ingress ← loadRole fields headers "ingress" d.ingress
  let egress ← loadRole fields headers "egress" d.egress
  pure { headers, metadata, standard, ingress, egress }

/-- Why a text gives no program. -/
inductive LoadError where
  | document (e : Description.DocumentError)
  | program (r : Report)

/-- The message of a text that gives no program. -/
def LoadError.message : LoadError → Text
  | document e => e.message
  | program r => r.message

/-- The program of a description. -/
def ofDescription (d : Description.Program) : Except Report Program :=
  match (resolve d).run [] with
  | (p, []) => .ok p
  | (_, r) => .error r

/-- The program of a text. -/
def load (text : Text) : Except LoadError Program :=
  match Description.Program.ofText text with
  | .error e => .error (.document e)
  | .ok d =>
    match ofDescription d with
    | .error r => .error (.program r)
    | .ok p => .ok p

end Flowline.Pipeline
