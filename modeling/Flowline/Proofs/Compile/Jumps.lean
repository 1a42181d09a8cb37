import Flowline.Proofs.Compile.Stages
import Flowline.Proofs.Flow.Matching
import Mathlib.Order.OrderIsoNat

/-!
# Packets always move on

Stages are numbered one after the other through both controls, and every transfer leads to a stage
with a larger number that has flows of its own.  There is one exception: a copy of a packet for a
port of its multicast group comes back to the multicast stage, without a group.

So no packet is sent on forever.  The number of the stage grows with every step, and where it does
not, the multicast group is lost; this happens once at most, because without a group the flow that
makes copies does not hold.  The rows of the relations may be whatever they are: a step is taken for
any values of the variables of a rule, and any flow that holds may be the one taken
(`Output.Step`).
-/

namespace Flowline.Compile

open Flowline.Flow (Match Row)
open Lower (multicastGroup)
open Pipeline (Control Program)
open Switch (Memory Register Situation Target)

/-! ## Destinations -/

/-- The stages that an action or its copies of the packet go on at. -/
def targets : Flow.Action → List Int64
  | .resubmit stage => [stage]
  | .seq left right => targets left ++ targets right
  | .clone a => targets a
  | _ => []

theorem targets_eq_jumps {a : Flow.Action} (h : a.clones = []) : targets a = a.jumps := by
  induction a with
  | seq left right ihl ihr =>
    obtain ⟨hl, hr⟩ := List.append_eq_nil_iff.mp h
    rw [targets, Flow.Action.jumps, ihl hl, ihr hr]
  | clone a => cases h
  | _ => rfl

/-- A stage that a flow writes down, in a match or as a destination. -/
def StageFlow.Mentions (f : StageFlow) (stage : Int64) : Prop :=
  (∃ m, f.Asks m ∧ stage ∈ m.stages) ∨ ∃ a, f.Runs a ∧ stage ∈ targets a

/-! ## Steps -/

/-- A flow of a rule holds of a packet at a stage, for a row of the relations. -/
def StageFlow.Admits (f : StageFlow) (t : Target) (row : Row) (stage : Int64) (s : Situation) :
    Prop :=
  f.flow.guard.Admits t row stage s ∧ ∀ v, .nonzero v ∈ f.bindings → row.value v ≠ 0

/-- A packet at a stage goes on at another one, itself or as a copy, by some flow that holds of
it. -/
def Output.Step (o : Output) (t : Target) (x y : Int64 × Memory) : Prop :=
  ∃ f ∈ o.flows, ∃ row texts, f.Admits t row x.1 ⟨x.2, texts⟩ ∧
    ∃ a, f.Runs a ∧ y ∈ a.sends t row x.2

/-- What is done with a copy of a packet: it gets the port, loses its group, and comes back. -/
def copyAction (output group : Register) (stage : Int64) : Flow.Action :=
  .seq (.seq (.load (.var "port" 16) (.reg output)) (.load (.number 0) (.reg group)))
    (.resubmit stage)

/-- Stages are told apart by their numbers, the switch has them, and packets always move on. -/
structure Output.MovesOn (o : Output) (t : Target) : Prop where
  /-- No number is given twice. -/
  distinct : (initStage :: o.stages.multicast ::
    (o.ingress.vertices ++ o.egress.vertices).map fun v => v.id).Nodup
  /-- The switch has every stage that is written down. -/
  inRange : ∀ f ∈ o.flows, ∀ stage, f.Mentions stage → 0 ≤ stage ∧ stage ≤ t.maxStage
  /-- Every destination has a flow. -/
  answered : ∀ f ∈ o.flows, ∀ a, f.Runs a → ∀ stage ∈ targets a, ∃ f' ∈ o.flows, f'.IsAt stage
  /-- Every flow belongs to one stage and leads to later ones; copies only come back to the
  multicast stage, without a group. -/
  forward : ∃ output group, registerHelper group ∈ o.helpers ∧ group.owner = multicastGroup ∧
    ∀ f ∈ o.flows, ∃ stage, f.IsAt stage ∧ ∀ a, f.Runs a →
      (∀ j ∈ a.jumps, stage < j) ∧
      ∀ c ∈ a.clones, stage = o.stages.multicast ∧ c = copyAction output group stage
  /-- No packet is sent on forever. -/
  finite : ¬∃ run : Nat → Int64 × Memory, ∀ i, o.Step t (run i) (run (i + 1))

namespace Compiled

variable {p : Program} {t : Target} {o : Output} {inControl outControl : Control} {ports : Ports}
  {b : State} (h : Compiled p t o inControl outControl ports b)

include h

/-! ## Copies of packets -/

theorem hasMask_of_lookup {name : Text}
    {r : Register} (hr : b.allocator.lookup name = some r) : r.hasMask t.limits = true := by
  obtain ⟨l, l', howners, -⟩ := List.lookup_eq_some_iff.mp hr
  refine h.masks _ ?_
  rw [Switch.Allocator.allocated, howners]
  simp

/-- The register of the multicast group has sixteen bits, somewhere in its base. -/
theorem group_covers :
    ports.group.Covers 16 ∧ 0 ≤ ports.group.low.toInt ∧ ports.group.hasMask t.limits = true := by
  have hmask := h.hasMask_of_lookup h.group
  exact ⟨Register.covers_of_hasMask hmask (by decide) h.reserved.high_eq,
    (Register.bounds_of_hasMask hmask).1, hmask⟩

theorem registerHelper_mem : registerHelper ports.group ∈ o.helpers := by
  obtain ⟨l, l', howners, -⟩ := List.lookup_eq_some_iff.mp h.group
  rw [h.helpers]
  refine List.mem_append_left _ (List.mem_map_of_mem (List.mem_filter.mpr ⟨?_, ?_⟩))
  · rw [Switch.Allocator.allocated, howners]
    simp
  · rw [h.reserved.owner_eq]
    rfl

/-- The flow that makes copies holds only of packets with a group. -/
theorem read_group_ne_zero {row : Row}
    {stage : Int64} {s : Situation} (hadmits : (groupFlow ports o.stages).Admits t row stage s) :
    stage = o.stages.multicast ∧ s.memory.read (ports.group.places t) ≠ 0 := by
  obtain ⟨hcovers, hlow, hmask⟩ := h.group_covers
  obtain ⟨hguard, hnonzero⟩ := hadmits
  have hid : row.value "mcast_id" ≠ 0 := hnonzero _ (by simp [groupFlow, flowOf])
  simp only [groupFlow, flowOf, Flow.Line.simplify, Match.admits_simplify, stageGuard,
    Match.admits_foldl, List.forall_mem_cons] at hguard
  obtain ⟨⟨hstage, -⟩, ⟨r, hr, hfits, -, hagrees⟩, -⟩ := hguard
  cases hr
  refine ⟨hstage, ?_⟩
  rwa [(Register.agrees_whole t s.memory hcovers hlow (fun _ => hmask) hfits).mp hagrees]

omit h in
/-- The flow that makes copies does nothing else. -/
theorem runs_groupFlow {a : Flow.Action} (ha : (groupFlow ports o.stages).Runs a) :
    a = .var "actions" ∨
      a = .clone (copyAction ports.output ports.group o.stages.multicast) := by
  rcases ha with _ | ⟨hcs, -⟩ | ha
  · exact Or.inl rfl
  · simp [groupFlow, flowOf] at hcs
  · simp only [groupFlow, flowOf, List.mem_cons, reduceCtorEq, Binding.actionText.injEq,
      List.not_mem_nil, or_false, false_or] at ha
    exact Or.inr ha.2

omit h in
/-- A copy comes back to the multicast stage without a group. -/
theorem sends_groupFlow {a : Flow.Action} (ha : (groupFlow ports o.stages).Runs a) {row : Row}
    {m : Memory} {y : Int64 × Memory} (hy : y ∈ a.sends t row m) :
    y.1 = o.stages.multicast ∧ y.2.read (ports.group.places t) = 0 := by
  rcases runs_groupFlow ha with rfl | rfl
  · cases hy
  · cases List.mem_singleton.mp hy
    exact ⟨rfl, Memory.read_write_zero _ _⟩

/-! ## No endless run -/

/-- What falls with every step: the stages ahead, counted twice, and one more for a group. -/
def rank (ports : Ports) (t : Target) (x : Int64 × Memory) : Nat :=
  2 * (t.maxStage.toInt - x.1.toInt).toNat + if x.2.read (ports.group.places t) = 0 then 0 else 1

theorem rank_lt_of_step {x y : Int64 × Memory}
    (hstep : o.Step t x y) : rank ports t y < rank ports t x := by
  obtain ⟨f, hf, row, texts, hadmits, a, ha, hy⟩ := hstep
  obtain ⟨stage, hrange, hfrom | ⟨rfl, rfl⟩⟩ := h.from_or_group hf
  · have hstage : x.1 = stage :=
      Match.eq_of_mem_stages hadmits.1 (hfrom.isAt ▸ List.mem_cons_self)
    obtain ⟨hlt, f', hf', hat⟩ :=
      (hfrom.runs a ha).2 y.1 (Flow.Action.mem_jumps_of_sends (hfrom.runs a ha).1 hy)
    have hmax := (h.inRange_of_isAt hf' hat).2
    rw [← hstage, Int64.lt_iff_toInt_lt] at hlt
    rw [Int64.le_iff_toInt_le] at hmax
    unfold rank
    split <;> split <;> omega
  · obtain ⟨hstage, hgroup⟩ := h.read_group_ne_zero hadmits
    obtain ⟨hback, hnone⟩ := sends_groupFlow ha hy
    unfold rank
    rw [hback, ← hstage, if_pos hnone, if_neg hgroup]
    exact Nat.lt_succ_self _

end Compiled

/-- **Packets always move on.**  In the output of every successful compilation, stages have numbers of
their own, every stage that is written down is one of the switch, every destination has a flow, and
every flow leads to later stages.  Only the copies for the ports of a multicast group come back to
the stage where they are made, and they come back without a group.  So no packet is sent on forever,
whatever the relations hold. -/
theorem movesOn_of_compile {p : Program} {t : Target} {o : Output}
    (h : (compile p t).result = .ok o) : o.MovesOn t := by
  obtain ⟨inControl, outControl, ports, b, h⟩ := compiled_of_ok h
  have hanswered : ∀ f ∈ o.flows, ∀ a, f.Runs a → ∀ stage ∈ targets a,
      ∃ f' ∈ o.flows, f'.IsAt stage := by
    intro f hf a ha j hj
    obtain ⟨stage, -, hfrom | ⟨rfl, rfl⟩⟩ := h.from_or_group hf
    · obtain ⟨hclones, hlater⟩ := hfrom.runs a ha
      rw [targets_eq_jumps hclones] at hj
      exact (hlater j hj).2
    · rcases Compiled.runs_groupFlow ha with rfl | rfl
      · cases hj
      · cases List.mem_singleton.mp hj
        exact ⟨_, h.noGroupFlow_mem, rfl⟩
  constructor
  · exact h.nodup_ids
  · rintro f hf stage (⟨m, hm, hstage⟩ | ⟨a, ha, hstage⟩)
    · obtain ⟨x, hrange, hfrom | ⟨rfl, rfl⟩⟩ := h.from_or_group hf
      · rwa [List.mem_singleton.mp (hfrom.asks m hm hstage)]
      · rcases hm with _ | hm
        · rwa [List.mem_singleton.mp hstage]
        · simp [groupFlow, flowOf] at hm
    · obtain ⟨f', hf', hat⟩ := hanswered f hf a ha stage hstage
      exact h.inRange_of_isAt hf' hat
  · exact hanswered
  · refine ⟨ports.output, ports.group, h.registerHelper_mem, h.reserved.owner_eq, fun f hf => ?_⟩
    obtain ⟨stage, -, hfrom | ⟨rfl, rfl⟩⟩ := h.from_or_group hf
    · refine ⟨stage, hfrom.isAt, fun a ha => ⟨fun j hj => ((hfrom.runs a ha).2 j hj).1, ?_⟩⟩
      rw [(hfrom.runs a ha).1]
      exact nofun
    · refine ⟨_, rfl, fun a ha => ?_⟩
      rcases Compiled.runs_groupFlow ha with rfl | rfl
      · exact ⟨nofun, nofun⟩
      · exact ⟨nofun, fun c hc => ⟨rfl, List.mem_singleton.mp hc⟩⟩
  · rintro ⟨run, hrun⟩
    have hfalls : StrictAnti fun i => Compiled.rank ports t (run i) :=
      strictAnti_nat_of_succ_lt fun i => h.rank_lt_of_step (hrun i)
    exact not_strictAnti_of_wellFoundedLT _ hfalls

/-- A program with an exit inside an action, two tables and a condition. -/
theorem movesOn_of_compile_sampleProgram :
    ∃ o, (compile sampleProgram {}).result = .ok o ∧ o.MovesOn {} := by
  obtain ⟨o, ho⟩ := compile_sampleProgram
  exact ⟨o, ho, movesOn_of_compile ho⟩

end Flowline.Compile
