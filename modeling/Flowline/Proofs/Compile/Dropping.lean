import Flowline.Proofs.Compile.Groups
import Flowline.Proofs.Compile.Transfers

/-!
# Packets that go nowhere

A packet that goes nowhere has a port that stands for it.  The first stage writes this port to the
register of the output port, and so does every call that drops the packet.  Where packets leave the
egress control, those with this port are dropped, and all others are sent to their port.

The register has sixteen bits, and the port is a constant of the switch of up to sixty-four.  If it
has no more than sixteen, then what is written is what is compared (`dropPort_exact_iff`).  If it has
more, then a load of it is refused, and the comparison looks at its last sixteen bits only: it drops
the packets of some other port.
-/

namespace Flowline.Compile

open Flowline.Flow (Match Row)
open ControlFlow (Graph Vertex)
open Lower
open Pipeline (Control Program)
open Source (Stmt)
open Switch (Allocator Memory Register Situation Target)

/-- A statement is a call that drops the packet. -/
def IsDropCall (s : Stmt) : Prop := ∃ target args, s = .call target "mark_to_drop" args

/-- Where an output uses the port that means nowhere, with the registers of its compilation and the
register of the output port. -/
structure Output.UsesDropPort (o : Output) (t : Target) (a : Allocator) (output : Register) :
    Prop where
  /-- The first stage has one flow, and it writes the port first of all. -/
  init : ∃ f, o.flowsAt initStage = [f] ∧
    f.flow.action.steps.head? = some (loadDropPort t.dropPort output)
  /-- In the flow of an action, every call that drops the packet writes the port. -/
  call : ∀ (sub : Substitution) (g : Graph) (act : Pipeline.Action) (next : Vertex)
    (flow : Flow.Action), Gives a (runAction sub g act next) flow →
      List.Forall₂ (fun s step => IsDropCall s → step = loadDropPort t.dropPort output)
        (stepsIn act.body) flow.steps
  /-- A packet that leaves is dropped if it has the last sixteen bits of the port, and sent to its own
  port otherwise. -/
  exit : ∀ row s, ∃ f, Takes t (o.flowsAt o.egress.exit.id) row o.egress.exit.id s f ∧
    f.flow.action =
      if s.memory.read (output.places t) = t.dropPort.toNat % 2 ^ 16 then .drop
      else .output (.reg output)

/-- What is written for a packet that goes nowhere is what is compared. -/
structure Output.DropPortExact (o : Output) (t : Target) (output : Register) : Prop where
  /-- Every packet leaves the first stage with the port. -/
  init : ∀ f ∈ o.flowsAt initStage, ∀ m, ∃ m',
    f.flow.action.run t m = some (m', some o.stages.ingressEntry) ∧
      m'.read (output.places t) = t.dropPort.toNat
  /-- The port can be written to every packet. -/
  load : ∀ m, ∃ m', (loadDropPort t.dropPort output).run t m = some (m', none) ∧
    m'.read (output.places t) = t.dropPort.toNat
  /-- Exactly the packets with the port are dropped where they leave. -/
  exit : ∀ row s f, Takes t (o.flowsAt o.egress.exit.id) row o.egress.exit.id s f →
    (f.flow.action = .drop ↔ s.memory.read (output.places t) = t.dropPort.toNat)

/-! ## Writing the port -/

section

variable {t : Target} {output : Register} {port : UInt64}

/-- A port of sixteen bits is written. -/
theorem run_loadDropPort (hcovers : output.Covers 16) (hport : port.toNat < 2 ^ 16) (m : Memory) :
    (loadDropPort port output).run t m = some (m.write (output.places t) port.toNat, none) := by
  have hlt : (port.toNat : Int) < modulus 16 := by
    show (port.toNat : Int) < 2 ^ 16
    exact_mod_cast hport
  exact run_load rfl hcovers (Int.natCast_nonneg _) hlt m

theorem lt_of_run_loadDropPort (hcovers : output.Covers 16) {m : Memory}
    (h : (loadDropPort port output).run t m ≠ none) : port.toNat < 2 ^ 16 := by
  by_contra hport
  have hwide : ¬(0 ≤ (port.toNat : Int) ∧ (port.toNat : Int) < 2 ^ (output.places t).length) := by
    rw [Register.length_places, hcovers.width_eq]
    show ¬(_ ∧ (port.toNat : Int) < 2 ^ 16)
    exact fun hfits => hport (by exact_mod_cast hfits.2)
  refine h ?_
  show (if 0 ≤ (port.toNat : Int) ∧ (port.toNat : Int) < 2 ^ (output.places t).length then _
    else none) = none
  rw [if_neg hwide]

theorem read_write_output (hw : 0 < t.registerWidth.toInt) (houtput : Sixteen output)
    (hport : port.toNat < 2 ^ 16) (m : Memory) :
    (m.write (output.places t) port.toNat).read (output.places t) = port.toNat := by
  have hnodup := Register.nodup_places hw houtput.inside houtput.covers houtput.field_eq
  refine Memory.read_write m hnodup ?_
  rw [Register.length_places, houtput.covers.width_eq]
  exact hport

/-- In the flow of an action, every call that drops the packet writes the port. -/
theorem forall₂_steps_runAction {a : Allocator} (houtput : a.lookup outputPort = some output)
    {sub : Substitution} {g : Graph} {act : Pipeline.Action} {next : Vertex} {flow : Flow.Action}
    (h : Gives a (runAction sub g act next) flow) :
    List.Forall₂ (fun s step => IsDropCall s → step = loadDropPort a.target.dropPort output)
      (stepsIn act.body) flow.steps := by
  obtain ⟨stores, hdrops, hstores, hkept⟩ :=
    (ensures_runAction_kept (lays_drops sub) g act next).of_gives h
  -- the transfer is no step
  have hsteps : flow.steps = stores.map Flow.Action.refined := by
    rw [Flow.Action.steps_eq, hkept, List.filter_append, List.filter_eq_self.mpr]
    · exact List.append_nil _
    · exact List.forall_mem_map.mpr fun x hx => isStore_refined (hstores x hx)
  rw [hsteps, List.forall₂_map_right_iff]
  refine hdrops.imp fun s step hdrops hs => ?_
  obtain ⟨target, args, rfl⟩ := hs
  obtain ⟨r, hr, rfl⟩ := hdrops target args rfl
  rw [Option.some.inj (houtput.symm.trans hr)]
  rfl

end

namespace Compiled

variable {p : Program} {t : Target} {o : Output} {inControl outControl : Control} {ports : Ports}
  {b : State} (h : Compiled p t o inControl outControl ports b)

include h

/-- The port and the group are the steps of the first stage. -/
theorem steps_initFlow :
    (initFlow ports o.stages).flow.action.steps =
      [loadDropPort t.dropPort ports.output, ports.clearGroup] := by
  show (Flow.Action.simplify _).steps = _
  rw [Flow.Action.steps_simplify, ← h.dropPort]
  rfl

variable (hapart : ports.Apart t)

include hapart

/-- With a port of sixteen bits, every packet leaves the first stage with it. -/
theorem run_initFlow (hport : t.dropPort.toNat < 2 ^ 16) (m : Memory) :
    (initFlow ports o.stages).flow.action.run t m =
      some ((m.write (ports.output.places t) t.dropPort.toNat).write (ports.group.places t) 0,
        some o.stages.ingressEntry) := by
  have hdrop : ∀ m, (Flow.Action.load ports.drop (.reg ports.output)).run t m =
      some (m.write (ports.output.places t) t.dropPort.toNat, none) := by
    rw [Ports.drop, h.dropPort]
    exact run_loadDropPort hapart.output.covers hport
  have hclear : ∀ m, ports.clearGroup.run t m = some (m.write (ports.group.places t) 0, none) :=
    fun m => run_load rfl hapart.group.covers (le_refl 0) (by decide) m
  show (Flow.Action.simplify _).run t m = _
  simp only [Flow.Action.run_simplify, Flow.Action.run_all, Flow.Action.runAll, hdrop, hclear,
    Flow.Action.run]

/-! ## Comparing the port -/

/-- The port is compared in its last sixteen bits. -/
theorem admits_drop {row : Row} {stage : Int64} {s : Situation} :
    (Match.equals (.reg ports.output) ports.drop none).Admits t row stage s ↔
      s.memory.read (ports.output.places t) = t.dropPort.toNat % 2 ^ 16 := by
  have hmask := h.hasMask_of_lookup h.output
  have hagrees := Register.agrees_whole_mod t s.memory hapart.output.covers
    hapart.output.inside.low_nonneg (fun _ => hmask) t.dropPort.toNat
  simp only [Ports.drop, h.dropPort, Match.Admits, Flow.Expr.asRegister, Option.mem_some_iff,
    exists_eq_left', Flow.Expr.Fits, true_and, Option.not_mem_none, IsEmpty.forall_iff,
    implies_true, Option.map_none, Flow.Expr.valueIn, Int.toNat_natCast]
  exact hagrees

/-- A packet that leaves the egress control is dropped or sent. -/
theorem exists_takes_egressExit (row : Row) (s : Situation) :
    ∃ f, Takes t (o.flowsAt o.egress.exit.id) row o.egress.exit.id s f ∧
      f.flow.action =
        if s.memory.read (ports.output.places t) = t.dropPort.toNat % 2 ^ 16 then .drop
        else .output (.reg ports.output) := by
  rw [h.flowsAt_egressExit, egressExitFlows]
  have hfirst : ∀ comment act bindings, (flowOf comment (stageGuard o.egress.exit.id
      (.number highPriority) [.equals (.reg ports.output) ports.drop none]) act
        bindings).flow.guard.Admits t row o.egress.exit.id s ↔
      s.memory.read (ports.output.places t) = t.dropPort.toNat % 2 ^ 16 := by
    intro comment act bindings
    rw [admits_flowOf, List.forall_mem_singleton, h.admits_drop hapart]
    exact and_iff_right rfl
  by_cases hread : s.memory.read (ports.output.places t) = t.dropPort.toNat % 2 ^ 16
  · refine ⟨_, ⟨List.mem_cons_self, (hfirst _ _ _).mpr hread, fun f hf _ hne => ?_⟩, ?_⟩
    · -- the other flow is below this one
      cases List.mem_singleton.mp ((List.mem_cons.mp hf).resolve_left hne)
      rw [priority_flowOf (List.forall_mem_nil _),
        priority_flowOf (List.forall_mem_singleton.mpr rfl)]
      decide
    · rw [if_pos hread]
      rfl
  · refine ⟨_, ⟨List.mem_cons_of_mem _ List.mem_cons_self, admits_flowOf.mpr ⟨rfl, nofun⟩,
      fun f hf hadmits hne => ?_⟩, ?_⟩
    · cases (List.mem_cons.mp hf).resolve_right fun hother => hne (List.mem_singleton.mp hother)
      exact absurd ((hfirst _ _ _).mp hadmits) hread
    · rw [if_neg hread]
      rfl

/-! ## The whole -/

/-- All uses of the port are of the port of the switch and the register of the output port. -/
theorem usesDropPort :
    o.UsesDropPort t b.allocator ports.output where
  init := ⟨_, h.flowsAt_init, by rw [h.steps_initFlow]; rfl⟩
  call sub g act next flow hflow := by
    have hsteps := forall₂_steps_runAction h.output hflow
    rwa [h.target] at hsteps
  exit := h.exists_takes_egressExit hapart

/-- What is written is what is compared exactly when the port has sixteen bits. -/
theorem dropPortExact_iff (hw : 0 < t.registerWidth.toInt) :
    o.DropPortExact t ports.output ↔ t.dropPort.toNat < 2 ^ 16 := by
  constructor
  · intro hexact
    obtain ⟨m', hrun, -⟩ := hexact.load fun _ => false
    exact lt_of_run_loadDropPort hapart.output.covers (m := fun _ => false) (by rw [hrun]; nofun)
  · intro hport
    have hread := read_write_output hw hapart.output hport
    refine ⟨fun f hf m => ?_, fun m => ⟨_, run_loadDropPort hapart.output.covers hport m, hread m⟩,
      fun row s f hf => ?_⟩
    · rw [h.flowsAt_init, List.mem_singleton] at hf
      rw [hf]
      refine ⟨_, h.run_initFlow hapart hport m, ?_⟩
      have hdisjoint := Register.disjoint_places hapart.output.field_eq hapart.group.field_eq
        hapart.disjoint
      rw [Memory.read_write_of_disjoint _ hdisjoint, hread]
    · obtain ⟨f', hf', haction⟩ := h.exists_takes_egressExit hapart row s
      rw [hf.unique hf', haction, Nat.mod_eq_of_lt hport]
      split
      · next heq => exact iff_of_true rfl heq
      · next hne => exact iff_of_false nofun hne

end Compiled

/-- **The port that means nowhere is one port exactly where it has sixteen bits.**  In a compiled
program the register of the output port has sixteen bits.  The first stage and every call that drops
the packet load the port of the switch there, and where packets leave the egress control the register
is compared with the same port.  What is written is what is compared, at all of these places, if and
only if the port is below `2 ^ 16`. -/
theorem dropPort_exact_iff {p : Program} {t : Target} {o : Output}
    (h : (compile p t).result = .ok o) (ht : t.validate = .ok ()) :
    ∃ output, (finalRegisters p t).lookup outputPort = some output ∧ output.Covers 16 ∧
      o.UsesDropPort t (finalRegisters p t) output ∧
      (o.DropPortExact t output ↔ t.dropPort.toNat < 2 ^ 16) := by
  obtain ⟨inControl, outControl, ports, b, hb⟩ := compiled_of_ok h
  have hapart := hb.apart h
  refine ⟨ports.output, hb.registers ▸ hb.output, hapart.output.covers,
    hb.registers ▸ hb.usesDropPort hapart, ?_⟩
  exact hb.dropPortExact_iff hapart (t.width_pos_of_validate ht)

/-- A program that drops packets, for a switch with the largest port of sixteen bits. -/
theorem dropPort_exact_iff_sampleProgram :
    ∃ o, (compile sampleProgram {}).result = .ok o ∧ ({} : Target).validate = .ok () ∧
      ∃ output, (finalRegisters sampleProgram {}).lookup outputPort = some output ∧
        o.UsesDropPort {} (finalRegisters sampleProgram {}) output ∧ o.DropPortExact {} output := by
  obtain ⟨o, ho⟩ := compile_sampleProgram
  obtain ⟨output, houtput, -, huses, hexact⟩ := dropPort_exact_iff ho (by decide)
  exact ⟨o, ho, by decide, output, houtput, huses, hexact.mpr (by decide)⟩

/-! ## A port that is too large -/

/-- A switch whose port for nowhere has seventeen bits. -/
def wideTarget : Target := { dropPort := 0x10000 }

/-- The switch is accepted and the program is compiled for it, but the port is not what is written:
there is no memory in which it can be. -/
theorem not_dropPortExact_wideTarget :
    wideTarget.validate = .ok () ∧ ∃ o, (compile sampleProgram wideTarget).result = .ok o ∧
      ∃ output, (finalRegisters sampleProgram wideTarget).lookup outputPort = some output ∧
        (∀ m, (loadDropPort wideTarget.dropPort output).run wideTarget m = none) ∧
        ¬o.DropPortExact wideTarget output := by
  obtain ⟨o, h⟩ : ∃ o, (compile sampleProgram wideTarget).result = .ok o :=
    exists_eq_ok_of_isOk (by decide +kernel)
  obtain ⟨inControl, outControl, ports, b, hb⟩ := compiled_of_ok h
  have hapart := hb.apart h
  have hwide : ¬wideTarget.dropPort.toNat < 2 ^ 16 := by decide
  refine ⟨by decide, o, h, ports.output, hb.registers ▸ hb.output, fun m => ?_, fun hexact => ?_⟩
  · by_contra hrun
    exact hwide (lt_of_run_loadDropPort hapart.output.covers hrun)
  · exact hwide ((hb.dropPortExact_iff hapart (by decide)).mp hexact)

end Flowline.Compile
