import Flowline.Compile.Stage
import Flowline.Ddlog.Text
import Flowline.ControlFlow.Build
import Flowline.ControlFlow.Verify

/-!
# Compiling a program

First the registers are given out: the reserved ones, metadata and locals, in the order of their
declaration.  Then the graphs are built, tables are checked and declared, and flows are emitted.
Problems of independent tables and stages are all reported, and any of them leaves no output.
-/

namespace Flowline.Compile

open Ddlog (Decl)
open ControlFlow (Graph)
open Pipeline (Control Program Table)
open Switch (Allocator Register Target)

/-- A compiled program. -/
structure Output where
  /-- Names of registers and masks of prefix lengths. -/
  helpers : List Decl
  /-- Types and relations. -/
  declarations : List Decl
  flows : List StageFlow
  ingress : Graph
  egress : Graph
  stages : Stages

namespace Output

/-- The flows as declarations. -/
def flowDecls (o : Output) : List Decl := o.flows.map StageFlow.decl

/-- All declarations in order. -/
def program (o : Output) : Ddlog.Program := o.helpers ++ o.declarations ++ o.flowDecls

/-- The graphs and the multicast stage between them, as text. -/
def graphText (o : Output) : Text :=
  o.ingress.text ++ "\nmulticast: " ++ Numeral.word o.stages.multicast ++ "\n\n" ++ o.egress.text

end Output

/-! ## Registers -/

/-- Gives a reserved register sixteen bits. -/
def reserve (owner : Text) : Emit Register := do
  let r ← lower? (Lower.allocate owner 16 16 false)
  pure (r.getD {})

/-- Whether a field has a register of its own. -/
def ownsRegister (f : Field) : Bool := f.packet.isNone && f.builtin == .none

/-- Gives out the registers of metadata and locals. -/
def allocateNamed (p : Program) (output group : Register) : Emit Ports := do
  (p.metadata.filter ownsRegister).forM fun f => discard (lower? (Lower.fieldRegister f))
  (p.controls.flatMap (·.locals)).forM fun l => discard (lower? (Lower.localRegister l))
  pure ⟨output, group, (← get).allocator.target.dropPort⟩

/-- Gives out the registers of reserved names, metadata and locals. -/
def allocateStorage (p : Program) : Emit Ports := do
  let output ← reserve Lower.outputPort
  let group ← reserve Lower.multicastGroup
  allocateNamed p output group

/-! ## Graphs -/

/-- Builds and checks the graph of a control. -/
def buildGraph (c : Control) (first : Int64) : Emit (Option Graph × Int64) := do
  match ControlFlow.build c first with
  | (.error r, next) =>
    report r
    pure (none, next)
  | (.ok g, next) =>
    note ("cfg: " ++ c.name ++ " has " ++ toString g.nodes.length ++ " nodes (" ++
      Numeral.word g.entry.id ++ ".." ++ Numeral.word g.exit.id ++ ")")
    match g.verify with
    | [] => pure (some g, next)
    | r =>
      report r
      pure (none, next)

/-- Reports stages that the switch does not have.  As many stages follow the first as the last of
them has as its number, unless there are more of them than numbers. -/
def checkStages (count : Nat) (last maxStage : Int64) : Report :=
  if last.toInt ≠ count then [.fault .stageNumber]
  else if last > maxStage then
    [.diagnostic ⟨.exhausted, "pipeline",
      "needs stages up to " ++ Numeral.word last ++ ", the switch has " ++ Numeral.word maxStage⟩]
  else []

/-! ## Tables -/

/-- Checks a table. -/
def checked (t : Table) : Emit Checked := do
  let r ← checkTable t
  report r
  pure ⟨t, r.isEmpty⟩

/-- The declarations of tables that are right. -/
def declarationsOf (tables : List Checked) : List Decl :=
  (tables.filter (·.isGood)).flatMap fun c => tableDecls c.table

/-! ## The whole -/

/-- Reports texts and masks that do not exist. -/
def faults (s : State) : Report :=
  let limits := s.allocator.target.limits
  if s.flows.all (StageFlow.hasText limits) && s.prefixWidths.all limits.canShift &&
    s.allocator.allocated.all (Register.hasMask limits) then []
  else [.fault .shiftAmount]

/-- Emits the flows of both controls and of the stages around them. -/
def emitFlows (ports : Ports) (stages : Stages) (ingress egress : Graph)
    (inTables outTables : List Checked) : Emit Unit := do
  emitAll [initFlow ports stages]
  emitGraph inTables ingress fun v => [ingressExitFlow stages v]
  emitAll [noGroupFlow ports stages, groupFlow ports stages]
  emitGraph outTables egress (egressExitFlows ports)

/-- The numbers of the fixed stages of two graphs. -/
def stagesOf (ingress egress : Graph) (multicast : Int64) : Stages where
  ingressEntry := ingress.entry.id
  ingressExit := ingress.exit.id
  multicast := multicast
  egressEntry := egress.entry.id
  egressExit := egress.exit.id

/-- What the output is made of: the graphs, the stage between them, and the tables as they were
found. -/
structure Draft where
  ingress : Graph
  egress : Graph
  multicast : Int64
  inTables : List Checked
  outTables : List Checked

/-- What is done between the registers and the output: graphs are built, tables are checked and flows
are emitted. -/
def draftFrom (inControl outControl : Control) (ports : Ports) : Emit (Option Draft) := do
  let (ingress, multicast) ← buildGraph inControl (initStage + 1)
  let (egress, next) ← buildGraph outControl (multicast + 1)
  match ingress, egress with
  | some ingress, some egress =>
    let count := ingress.nodes.length + 1 + egress.nodes.length
    report (checkStages count (next - 1) (← get).allocator.target.maxStage)
    let inTables ← inControl.tables.mapM checked
    let outTables ← outControl.tables.mapM checked
    emitFlows ports (stagesOf ingress egress multicast) ingress egress inTables outTables
    pure (some ⟨ingress, egress, multicast, inTables, outTables⟩)
  | _, _ => pure none

/-- All that is done before the output is made. -/
def draft (p : Program) (inControl outControl : Control) : Emit (Option Draft) :=
  allocateStorage p >>= draftFrom inControl outControl

/-- The output that is made of a draft and the state at its end. -/
def outputOf (s : State) (d : Draft) : Output where
  helpers := registerHelpers s.allocator.allocated ++ prefixMaskHelpers s.prefixWidths
  declarations := builtinDecls ++ declarationsOf d.inTables ++ declarationsOf d.outTables
  flows := s.flows
  ingress := d.ingress
  egress := d.egress
  stages := stagesOf d.ingress d.egress d.multicast

/-- Makes the draft for two controls, and looks for texts and masks that do not exist. -/
def compileControls (p : Program) (inControl outControl : Control) : Emit (Option Draft) := do
  match ← draft p inControl outControl with
  | none => pure none
  | some d =>
    report (faults (← get))
    pure (some d)

/-- What came of a compilation: what was done on the way, and the output or the problems. -/
structure Outcome where
  trace : List Text
  result : Except Report Output

/-- The line of the trace for a whole output. -/
def summaryLine (o : Output) : Text :=
  "ddloggen: " ++ toString o.declarations.length ++ " declarations, " ++ toString o.flows.length ++
    " flows, stages " ++ Numeral.word initStage ++ ".." ++ Numeral.word o.stages.egressExit

/-- Compiles a program for a switch.  The output is made only if nothing is missing in it. -/
def compile (p : Program) (t : Target) : Outcome :=
  match p.ingress, p.egress with
  | some inControl, some outControl =>
    let (d, s) := (compileControls p inControl outControl).run { allocator := .fresh t }
    match d, s.problems with
    | some d, [] => ⟨s.trace ++ [summaryLine (outputOf s d)], .ok (outputOf s d)⟩
    | _, problems => ⟨s.trace, .error problems⟩
  | _, _ =>
    ⟨[], .error [.structural "a pipeline needs an ingress and an egress control"]⟩

end Flowline.Compile
