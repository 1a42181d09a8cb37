import Flowline.Compile.StageFlow
import Flowline.Lower.Body
import Flowline.Lower.Condition

/-!
# Emitting flows

The state of a compilation: the register file, the problems and the flows so far.  A problem with
one stage or table does not keep others from being looked at.

The trace tells what was done: registers given out, graphs built, flows emitted.
-/

namespace Flowline.Compile

open Flowline.Flow (Action Line Match)
open Lower (Lowering)
open Switch (Allocator)

/-- The state of a compilation. -/
structure State where
  allocator : Allocator
  problems : Report := []
  flows : List StageFlow := []
  /-- The widths for which masks are made of prefix lengths. -/
  prefixWidths : List Int64 := []
  trace : List Text := []

/-- A step of a compilation. -/
abbrev Emit (α : Type) := StateM State α

/-- Reports problems. -/
def report (r : Report) : Emit Unit := modify fun s => { s with problems := s.problems ++ r }

/-- Adds a line to the trace. -/
def note (line : Text) : Emit Unit := modify fun s => { s with trace := s.trace ++ [line] }

/-- The line of the trace for a register that was given out. -/
def allocationLine (name : Text) (r : Switch.Register) : Text :=
  "resources: " ++ name ++ " (" ++ Numeral.word r.width ++ " bits) -> " ++ r.actionText

/-- The lines of the trace for the registers given out between two states of the register file. -/
def allocationLines (before after : Allocator) : List Text :=
  (after.owners.drop before.owners.length).map fun (name, r) => allocationLine name r

/-- Runs a lowering on the register file. -/
def lower {α : Type} (m : Lowering α) : Emit (Except Problem α) :=
  modifyGet fun s =>
    let (r, a) := m.run s.allocator
    (r, { s with allocator := a, trace := s.trace ++ allocationLines s.allocator a })

/-- Runs a lowering and reports why it was refused. -/
def lower? {α : Type} (m : Lowering α) : Emit (Option α) := do
  match ← lower m with
  | .ok v => pure (some v)
  | .error p =>
    report [p]
    pure none

/-- The flow of a match and an action. -/
def flowOf (comment : Text) (guard : Match) (action : Action) (bindings : List Binding) :
    StageFlow :=
  ⟨comment, Line.simplify ⟨guard, action⟩, bindings⟩

/-- Emits flows. -/
def emitAll (fs : List StageFlow) : Emit Unit := modify fun s => { s with flows := s.flows ++ fs }

/-- Emits the flow of a match and an action. -/
def emit (comment : Text) (guard : Match) (action : Action) (bindings : List Binding) :
    Emit Unit :=
  emitAll [flowOf comment guard action bindings]

/-- Emits a flow that depends on nothing. -/
def emitFact (comment : Text) (guard : Match) (action : Action) : Emit Unit :=
  emit comment guard action []

/-- Asks for masks of prefix lengths. -/
def usePrefixMask (width : Int64) : Emit Unit :=
  modify fun s => { s with prefixWidths := s.prefixWidths ++ [width] }

end Flowline.Compile
