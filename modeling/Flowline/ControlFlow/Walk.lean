import Flowline.ControlFlow.Basic

/-!
# Where packets go

The stage behind a stage, chosen by what happened there: the name of the action that ran, the
outcome of the table, or the value of the condition.  Where no edge fits, packets go to the exit.
-/

namespace Flowline.ControlFlow

namespace Graph

/-- The destination of the first of the wanted edges that there is. -/
def next (g : Graph) (v : Vertex) (wanted : List (EdgeKind × Text)) : Vertex :=
  (wanted.findSome? fun (kind, label) => (g.succs v).target? kind label).getD g.exit

/-- The stage behind an entry that ran an action. -/
def afterHit (g : Graph) (v : Vertex) (action : Text) : Vertex :=
  g.next v [(.onLabel, action), (.onLabel, "default"), (.onTrue, ""), (.always, "")]

/-- The stage behind a default action. -/
def afterMiss (g : Graph) (v : Vertex) (action : Text) : Vertex :=
  g.next v [(.onLabel, action), (.onLabel, "default"), (.onFalse, ""), (.always, "")]

/-- The stage behind a condition. -/
def afterTest (g : Graph) (v : Vertex) (holds : Bool) : Vertex :=
  g.next v [(if holds then .onTrue else .onFalse, "")]

end Graph

end Flowline.ControlFlow
