import Flowline.Compile.Table

/-!
# Flows of stages

Every packet enters at stage zero, where the output port and the multicast group are set.  Then come
the stages of the ingress control, the stage of multicast groups, and those of the egress control.
At the end a packet is sent to its output port, or dropped if it has none.

A packet of a multicast group is copied once for each port of the group; every copy comes back to
the multicast stage without a group, and goes on from there.
-/

namespace Flowline.Compile

open Flowline.Flow (Match)
open ControlFlow (Graph Vertex)
open Pipeline (Table)
open Source (Expr)
open Switch (Register)

/-- The stage that every packet enters. -/
def initStage : Int64 := 0

/-- The numbers of the fixed stages behind the first. -/
structure Stages where
  ingressEntry : Int64
  ingressExit : Int64
  multicast : Int64
  egressEntry : Int64
  egressExit : Int64
  deriving DecidableEq, Repr

/-- The reserved registers, and the port of packets that go nowhere. -/
structure Ports where
  output : Register
  group : Register
  dropPort : UInt64
  deriving DecidableEq, Repr

namespace Ports

/-- The port of packets that go nowhere. -/
def drop (p : Ports) : Flow.Expr := .const p.dropPort.toNat 16

/-- A comparison of the multicast group. -/
def groupIs (p : Ports) (v : Flow.Expr) : Match := .equals (.reg p.group) v none

/-- Sets the multicast group to none. -/
def clearGroup (p : Ports) : Flow.Action := .load (.number 0) (.reg p.group)

end Ports

/-- The flow of the first stage. -/
def initFlow (ports : Ports) (stages : Stages) : StageFlow :=
  flowOf "initialize output port and multicast group" (.table initStage)
    (.all [.load ports.drop (.reg ports.output), ports.clearGroup,
      .resubmit stages.ingressEntry]) []

/-- The flow that leaves the ingress control. -/
def ingressExitFlow (stages : Stages) (v : Vertex) : StageFlow :=
  flowOf "ingress exit" (.table v.id) (.resubmit stages.multicast) []

/-- The flow of packets without a multicast group. -/
def noGroupFlow (ports : Ports) (stages : Stages) : StageFlow :=
  flowOf "multicast: no group"
    (stageGuard stages.multicast (.number highPriority) [ports.groupIs (.number 0)])
    (.resubmit stages.egressEntry) []

/-- A copy of a packet for a port of its group. -/
def groupClone (ports : Ports) (stages : Stages) : Flow.Action :=
  .clone (.all [.load (.var "port" 16) (.reg ports.output), ports.clearGroup,
    .resubmit stages.multicast])

/-- The flow of packets with a multicast group. -/
def groupFlow (ports : Ports) (stages : Stages) : StageFlow :=
  flowOf "multicast: one clone per member port"
    (stageGuard stages.multicast (.number multicastPriority) [ports.groupIs (.var "mcast_id" 16)])
    (.var "actions")
    [.row multicastRelation [.var "mcast_id", .var "port"], .nonzero "mcast_id",
      .actionText "clone_action" (groupClone ports stages).simplify,
      .joined "actions" "clone_action" "mcast_id"]

/-- The flows that leave the egress control. -/
def egressExitFlows (ports : Ports) (v : Vertex) : List StageFlow :=
  [flowOf "egress exit: no output port"
      (stageGuard v.id (.number highPriority) [.equals (.reg ports.output) ports.drop none]) .drop
      [],
    flowOf "egress exit" (stageGuard v.id (.number lowPriority) [])
      (.output (.reg ports.output)) []]

/-- Emits the flows of a condition. -/
def emitCond (e : Expr) (g : Graph) (v : Vertex) : Emit Unit := do
  match ← lower? (Lower.condition e) with
  | none => pure ()
  | some m =>
    emitFact ("if " ++ e.text) (stageGuard v.id (.number highPriority) m.toList)
      (goTo (g.afterTest v true))
    emitFact ("if " ++ e.text ++ " else") (stageGuard v.id (.number lowPriority) [])
      (goTo (g.afterTest v false))

/-- Emits the flows of a stage where nothing happens. -/
def emitDummy (g : Graph) (v : Vertex) : Emit Unit :=
  (g.succs v).forM fun e => emitFact v.name (.table v.id) (goTo e.node)

/-- A table and whether it was found to be right. -/
structure Checked where
  table : Table
  isGood : Bool

/-- The first table of a name. -/
def findTable? (tables : List Checked) (name : Text) : Option Checked :=
  tables.find? fun c => c.table.name == name

/-- Emits the flows of a stage, unless it is an exit.  Tables with problems have none. -/
def emitStage (tables : List Checked) (g : Graph) (v : Vertex) : Emit Unit :=
  match v.role with
  | .dummy => emitDummy g v
  | .cond e => emitCond e g v
  | .table name =>
    match name.bind (findTable? tables) with
    | some c => if c.isGood then emitTable c.table g v else pure ()
    | none => report [.fault .missingTable]

/-- Emits the flows of all stages that packets can come to, by number. -/
def emitGraph (tables : List Checked) (g : Graph) (exitFlows : Vertex → List StageFlow) :
    Emit Unit := do
  let before := (← get).flows.length
  g.reachable.forM fun v =>
    if v.position = g.exit.position then emitAll (exitFlows v) else emitStage tables g v
  let after := (← get).flows.length
  note ("ddloggen: " ++ g.control ++ ": " ++ toString (after - before) ++ " flows")

end Flowline.Compile
