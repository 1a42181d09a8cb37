import Flowline.Pipeline.Program
import Flowline.Problem

/-!
# Name resolution

The names of an expression or a statement are looked up in a scope: the three groups of fields
under the names of the control's parameters, the control's locals and tables, and inside an action
its parameters.  What cannot be resolved is reported and left out.

A plain name is a parameter of the action or a local; a dotted one is a field.  Arguments of
built-in calls may name a whole parameter of the control.
-/

namespace Flowline.Pipeline

open Source (Expr Stmt Case)

/-- A computation that reports what it could not do. -/
abbrev Reporting (α : Type) := StateM Report α

/-- Adds a problem to the report. -/
def report (p : Problem) : Reporting Unit := modify (· ++ [p])

/-- Refuses the program for a reason. -/
def refuse (reason : Text) : Reporting Unit := report (.structural reason)

/-- What comes of the members of a list, one after the other.  Members of which nothing comes are left
out. -/
def collect {α β : Type} (f : α → Reporting (Option β)) : List α → Reporting (List β)
  | [] => pure []
  | a :: as => do
    let x ← f a
    let xs ← collect f as
    pure (x.toList ++ xs)

/-- The parts of a dotted name. -/
def parts (name : Text) : List Text := (name.toList.splitOn '.').map String.ofList

/-- The actions of a table as far as they are known. -/
structure TableNames where
  name : Text
  actions : List Text

/-- The names that can be used at a place. -/
structure Scope where
  /-- All fields, in the order of their declaration. -/
  fields : List Field
  /-- All headers, in the order of their declaration. -/
  headers : List HeaderRef
  control : Text
  params : List Text
  locals : List Local
  tables : List TableNames
  /-- The action whose body it is: its name and its parameters. -/
  action : Option (Text × List Param) := none

namespace Scope

/-- The place as named in messages. -/
def place (s : Scope) : Text :=
  match s.action with
  | some (name, _) => "action " ++ name
  | none => "control " ++ s.control

/-- The group of fields that a parameter of the control stands for. -/
def group? (s : Scope) (param : Text) : Option Text :=
  ((s.params.zip ["hdr.", "meta.", "std."]).find? fun p => p.1 == param).map (·.2)

/-- The field of a qualified name; the last of two wins. -/
def field? (s : Scope) (name : Text) : Option Field := s.fields.reverse.find? fun f => f.name == name

/-- The header that a dotted name stands for; the last of two of a name wins. -/
def header? (s : Scope) (path : Text) : Option HeaderRef :=
  match parts path with
  | [param, name] =>
    if s.group? param = some "hdr." then s.headers.reverse.find? fun h => h.name == name else none
  | _ => none

/-- The table of a name; the first of two wins. -/
def table? (s : Scope) (name : Text) : Option TableNames := s.tables.find? fun t => t.name == name

/-- The table of a name as expressions refer to it. -/
def tableRef? (s : Scope) (name : Text) : Option TableRef :=
  (s.table? name).map fun t => ⟨s.control, t.name⟩

/-- The parameter of the action that a plain name stands for. -/
def param? (s : Scope) (name : Text) : Option Expr :=
  s.action.bind fun (action, params) =>
    (params.find? fun p => p.name == name).map fun p => .param p (s.control ++ "." ++ action)

/-- The local that a plain name stands for. -/
def local? (s : Scope) (name : Text) : Option Expr :=
  (s.locals.find? fun l => l.name == name).map .localVar

/-- What a dotted path stands for. -/
def path? (s : Scope) (name : Text) : Option Expr :=
  match parts name with
  | [] => none
  | [_] => (s.param? name).or (s.local? name)
  | first :: rest =>
    (s.group? first).bind fun group =>
      (s.field? (group ++ ".".intercalate rest)).map .field

/-- What a member of the outcome of a table stands for. -/
def outcome? (s : Scope) (base : Expr) (member : Text) : Option Expr :=
  match base with
  | .call (some target) "apply" _ =>
    (s.tableRef? target).bind fun t =>
      if member = "hit" then some (.hit t true)
      else if member = "miss" then some (.hit t false)
      else if member = "action_run" then some (.actionRun t)
      else none
  | _ => none

/-- What a call inside an expression stands for. -/
def callValue? (s : Scope) (target : Option Text) (method : Text) : Option Expr :=
  match target with
  | some path => if method = "isValid" then (s.header? path).map .valid else none
  | none => none

/-- Resolves an expression.  What has a missing part is left out without a further word. -/
def expr (s : Scope) : Expr → Reporting (Option Expr)
  | .missing => pure none
  | .path name =>
    match s.path? name with
    | some e => pure (some e)
    | none => do
      refuse (s.place ++ ": unknown name " ++ name)
      pure none
  | .call target method args =>
    match s.callValue? target method with
    | some e => pure (some e)
    | none => do
      refuse (s.place ++ ": cannot resolve call " ++ (Expr.call target method args).text)
      pure none
  | .member base name =>
    match s.outcome? base name with
    | some e => pure (some e)
    | none => do
      refuse (s.place ++ ": cannot resolve " ++ (Expr.member base name).text)
      pure none
  | .binary op left right => do
    let l ← expr s left
    let r ← expr s right
    pure (l.bind fun l => r.map fun r => .binary op l r)
  | .negation e => do
    let x ← expr s e
    pure (x.map .negation)
  | .slice e high low => do
    let x ← expr s e
    pure (x.map fun x => .slice x high low)
  | .cast type e => do
    let x ← expr s e
    pure (x.map (.cast type))
  | e => pure (some e)

/-- Resolves expressions and keeps those that could be. -/
def exprs (s : Scope) (es : List Expr) : Reporting (List Expr) := collect s.expr es

/-- Resolves an argument of a built-in call.  The name of a parameter of the control is kept. -/
def arg (s : Scope) (e : Expr) : Reporting (Option Expr) :=
  match e with
  | .path name => if s.params.contains name then pure (some (.path name)) else s.expr e
  | e => s.expr e

/-- Resolves arguments and keeps those that could be. -/
def args (s : Scope) (es : List Expr) : Reporting (List Expr) := collect s.arg es

/-- Resolves a call in the place of a statement: a built-in, or the application of a table. -/
def callStmt (s : Scope) (target : Option Text) (method : Text) (as : List Expr) :
    Reporting (Option Stmt) :=
  match target with
  | none => do
    let as ← s.args as
    pure (some (.call none method as))
  | some name =>
    match if method = "apply" then s.tableRef? name else none with
    | some t => pure (some (.apply t))
    | none => do
      refuse (s.place ++ ": cannot resolve call " ++ (Expr.call target method as).text)
      pure none

/-- Whether a label names an action of a table, or what is left. -/
def labels (s : Scope) (t : TableRef) (label : Text) : Bool :=
  label == "default" || (s.table? t.name).any fun n => n.actions.contains label

mutual

/-- Resolves a statement. -/
def stmt (s : Scope) : Stmt → Reporting (Option Stmt)
  | .block ss => do
    let ss ← stmts s ss
    pure (some (.block ss))
  | .ifThen cond thn => do
    let c ← s.expr cond
    let t ← stmt s thn
    pure (c.bind fun c => t.map fun t => .ifThen c t)
  | .ifElse cond thn els => do
    let c ← s.expr cond
    let t ← stmt s thn
    match c, t with
    | some c, some t =>
      let e ← stmt s els
      pure (some (e.elim (.ifThen c t) (.ifElse c t)))
    | _, _ => pure none
  | .switch subject cs => do
    match ← s.expr subject with
    | some (.actionRun t) =>
      let cs ← cases s t cs
      pure (some (.switch (.actionRun t) cs))
    | some _ =>
      refuse (s.place ++ ": switch must select on t.apply().action_run, got " ++ subject.text)
      pure none
    | none => pure none
  | .call target method args => s.callStmt target method args
  | .assign left right => do
    let l ← s.expr left
    let r ← s.expr right
    pure (l.bind fun l => r.map fun r => .assign l r)
  | .apply t => pure (some (.apply t))
  | .exit => pure (some .exit)
  | .ret => pure (some .ret)
  | .empty => pure (some .empty)

/-- Resolves statements and keeps those that could be. -/
def stmts (s : Scope) : List Stmt → Reporting (List Stmt)
  | [] => pure []
  | st :: ss => do
    let x ← stmt s st
    let xs ← stmts s ss
    pure (x.toList ++ xs)

/-- Resolves the cases of a switch over a table. -/
def cases (s : Scope) (t : TableRef) : List Case → Reporting (List Case)
  | [] => pure []
  | .bare label :: cs =>
    if s.labels t label then do
      let rest ← cases s t cs
      pure (.bare label :: rest)
    else do
      refuse (s.place ++ ": switch label " ++ label ++ " is not an action of table " ++ t.name)
      cases s t cs
  | .arm label body :: cs =>
    if s.labels t label then do
      let body ← stmts s body
      let rest ← cases s t cs
      pure (.arm label body :: rest)
    else do
      refuse (s.place ++ ": switch label " ++ label ++ " is not an action of table " ++ t.name)
      cases s t cs

end

end Scope

end Flowline.Pipeline
