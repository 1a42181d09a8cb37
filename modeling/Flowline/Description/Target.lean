import Flowline.Description.Value
import Flowline.Switch.Target

/-!
# Descriptions of switches

A description changes some of the default constants of a switch; an empty one changes none.
-/

namespace Flowline.Description

open Switch (Target TargetError)
open Yaml (Node)

/-- Reads the constants of a switch. -/
def readTarget : Node → Target → Read Target :=
  readRecord "resources.Target"
    [.part "registers" (·.registers) (fun t v => { t with registers := v }) readWord,
      .part "register_width" (·.registerWidth) (fun t v => { t with registerWidth := v }) readWord,
      .part "max_bundle" (·.maxBundle) (fun t v => { t with maxBundle := v }) readWord,
      .part "drop_port" (·.dropPort) (fun t v => { t with dropPort := v }) readUnsigned,
      .part "max_stage" (·.maxStage) (fun t v => { t with maxStage := v }) readWord]

/-- Why a text describes no switch. -/
inductive TargetFailure where
  | document (e : DocumentError)
  | constants (e : TargetError)
  deriving DecidableEq, Repr

/-- The message of a text that describes no switch. -/
def TargetFailure.message : TargetFailure → Text
  | document e => e.message
  | constants e => e.message

/-- The switch that a text describes. -/
def targetOfText (text : Text) : Except TargetFailure Target :=
  let decoded : Except DocumentError Target :=
    match readDocument "target" readTarget {} text with
    | .error (.absent _) => .ok {}
    | r => r
  match decoded with
  | .error e => .error (.document e)
  | .ok t =>
    match t.validate with
    | .error e => .error (.constants e)
    | .ok () => .ok t

end Flowline.Description
