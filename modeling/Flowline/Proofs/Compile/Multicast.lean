import Flowline.Proofs.Compile.Groups

/-!
# One copy for each port of a group

A packet of a multicast group is copied once for each row of its group.  Every copy comes back to the
multicast stage without a group, and leaves it for the egress control like a packet that never had
one (`multicast_fans_out`).

At a stage, a packet takes the flow with the highest priority among those that hold of it, and is
lost if none does.  `Leaves` follows all copies of a packet as long as they come back to one stage,
and lists those that leave it, in order.
-/

namespace Flowline.Compile

open Flowline.Flow (Match Row)
open Lower (multicastGroup outputPort)
open Pipeline (Control Program)
open Switch (Memory Register Target)

/-! ## Leaving a stage -/

/-- The packets that leave a stage, of those that wait: one that is at another stage has left it, one
that no flow holds of is lost, and all others are replaced by what the flow that they take sends
on. -/
inductive Leaves (t : Target) (fs : List StageFlow) (row : Row) (texts : Text → Bool)
    (stage : Int64) : List (Int64 × Memory) → List (Int64 × Memory) → Prop
  | nil : Leaves t fs row texts stage [] []
  | away {x : Int64 × Memory} {xs ys : List (Int64 × Memory)} (hx : x.1 ≠ stage)
      (h : Leaves t fs row texts stage xs ys) : Leaves t fs row texts stage (x :: xs) (x :: ys)
  | lost {m : Memory} {xs ys : List (Int64 × Memory)}
      (hnone : ∀ f ∈ fs, ¬f.flow.guard.Admits t row stage ⟨m, texts⟩)
      (h : Leaves t fs row texts stage xs ys) : Leaves t fs row texts stage ((stage, m) :: xs) ys
  | taken {m : Memory} {f : StageFlow} {xs ys : List (Int64 × Memory)}
      (hf : Takes t fs row stage ⟨m, texts⟩ f)
      (h : Leaves t fs row texts stage (f.flow.action.sends t row m ++ xs) ys) :
      Leaves t fs row texts stage ((stage, m) :: xs) ys

section

variable {t : Target} {fs : List StageFlow} {row : Row} {texts : Text → Bool} {stage : Int64}
  {m : Memory} {x : Int64 × Memory} {xs ys : List (Int64 × Memory)} {f : StageFlow}

theorem leaves_nil : Leaves t fs row texts stage [] ys ↔ ys = [] := by
  constructor
  · intro h
    cases h
    rfl
  · rintro rfl
    exact .nil

theorem leaves_away (hx : x.1 ≠ stage) :
    Leaves t fs row texts stage (x :: xs) ys ↔
      ∃ zs, ys = x :: zs ∧ Leaves t fs row texts stage xs zs := by
  constructor
  · intro h
    cases h with
    | away _ h => exact ⟨_, rfl, h⟩
    | lost | taken => exact absurd rfl hx
  · rintro ⟨zs, rfl, h⟩
    exact .away hx h

theorem leaves_lost (hnone : ∀ f ∈ fs, ¬f.flow.guard.Admits t row stage ⟨m, texts⟩) :
    Leaves t fs row texts stage ((stage, m) :: xs) ys ↔ Leaves t fs row texts stage xs ys := by
  constructor
  · intro h
    cases h with
    | away hx => exact absurd rfl hx
    | lost _ h => exact h
    | taken hf => exact absurd hf.admits (hnone _ hf.mem)
  · exact .lost hnone

theorem leaves_taken (hf : Takes t fs row stage ⟨m, texts⟩ f) :
    Leaves t fs row texts stage ((stage, m) :: xs) ys ↔
      Leaves t fs row texts stage (f.flow.action.sends t row m ++ xs) ys := by
  constructor
  · intro h
    cases h with
    | away hx => exact absurd rfl hx
    | lost hnone => exact absurd hf.admits (hnone _ hf.mem)
    | taken hf' h =>
      cases hf.unique hf'
      exact h
  · exact .taken hf

end

/-! ## Copies -/

/-- A packet as it is sent to one port of its group: with that port, without a group, and otherwise
as it was. -/
structure IsCopy (t : Target) (output group : Register) (m : Memory) (port : BitVec 16)
    (m' : Memory) : Prop where
  port_eq : m'.read (output.places t) = port.toNat
  group_eq : m'.read (group.places t) = 0
  other : ∀ place, place ∉ output.places t → place ∉ group.places t → m' place = m place

/-- The memory of the copy for a port. -/
def copied (t : Target) (ports : Ports) (m : Memory) (port : BitVec 16) : Memory :=
  (m.write (ports.output.places t) port.toNat).write (ports.group.places t) 0

section

variable {t : Target} {ports : Ports} {stages : Stages} {row : Row} {m : Memory}

theorem sends_copyTo (port : BitVec 16) :
    (copyTo ports stages port).sends t row m = [(stages.multicast, copied t ports m port)] := rfl

/-- Copies are made one by one, each of the packet as it is. -/
theorem sends_copies (qs : List (BitVec 16)) :
    (Flow.Action.all (qs.map (copyTo ports stages))).sends t row m =
      qs.map fun q => (stages.multicast, copied t ports m q) := by
  have hfold : ∀ (qs : List (BitVec 16)) (a : Flow.Action), a.effect t row m = m →
      ((qs.map (copyTo ports stages)).foldl .seq a).sends t row m =
        a.sends t row m ++ qs.map fun q => (stages.multicast, copied t ports m q) := by
    intro qs
    induction qs with
    | nil => simp
    | cons q qs ih =>
      intro a ha
      have heffect : (Flow.Action.seq a (copyTo ports stages q)).effect t row m = m := ha
      rw [List.map_cons, List.foldl_cons, ih _ heffect, Flow.Action.sends, ha, sends_copyTo,
        List.map_cons, List.append_assoc, List.singleton_append]
  cases qs with
  | nil => rfl
  | cons q qs => exact hfold qs (copyTo ports stages q) rfl

/-- Where the reserved registers share no bit, a copy has its port and no group. -/
theorem isCopy_copied (hapart : ports.Apart t) (hw : 0 < t.registerWidth.toInt)
    (port : BitVec 16) : IsCopy t ports.output ports.group m port (copied t ports m port) := by
  have hdisjoint := Register.disjoint_places hapart.output.field_eq hapart.group.field_eq
    hapart.disjoint
  have hnodup := Register.nodup_places hw hapart.output.inside hapart.output.covers
    hapart.output.field_eq
  have hfits : port.toNat < 2 ^ (ports.output.places t).length := by
    rw [Register.length_places, hapart.output.covers.width_eq]
    exact port.isLt
  refine ⟨?_, Memory.read_write_zero _ _, fun place houtput hgroup => ?_⟩
  · rw [copied, Memory.read_write_of_disjoint _ hdisjoint, Memory.read_write _ hnodup hfits]
  · rw [copied, Memory.write_of_notMem _ hgroup, Memory.write_of_notMem _ houtput]

end

/-! ## Flows that hold -/

/-- A flow is that of a multicast group: it has the priority of those, and holds of the packets of
the group at the stage. -/
structure StageFlow.IsForGroup (t : Target) (group : Register) (stage : Int64) (g : BitVec 16)
    (f : StageFlow) : Prop where
  priority_eq : f.priority = multicastPriority
  admits_iff : ∀ row stage' s, f.flow.guard.Admits t row stage' s ↔
    stage' = stage ∧ s.memory.read (group.places t) = g.toNat

namespace Compiled

variable {p : Program} {t : Target} {o : Output} {inControl outControl : Control} {ports : Ports}
  {b : State} {rows : List GroupRow} {row : Row} {texts : Text → Bool} {m : Memory}
  (h : Compiled p t o inControl outControl ports b)

include h

theorem admits_groupIs (g : BitVec 16) {stage : Int64} {s : Switch.Situation} :
    (ports.groupIs (.number g.toNat)).Admits t row stage s ↔
      s.memory.read (ports.group.places t) = g.toNat := by
  obtain ⟨hcovers, hlow, hmask⟩ := h.group_covers
  have hagrees := Register.agrees_whole t s.memory hcovers hlow (fun _ => hmask) g.isLt
  simp only [Ports.groupIs, Match.Admits, Flow.Expr.asRegister, Option.mem_some_iff,
    exists_eq_left', Flow.Expr.Fits, Flow.Expr.number, true_and, Option.not_mem_none,
    IsEmpty.forall_iff, implies_true, Option.map_none, Flow.Expr.valueIn, Int.toNat_natCast]
  exact hagrees

theorem isForGroup_groupFact (g : BitVec 16) :
    (groupFact ports o.stages rows g).IsForGroup t ports.group o.stages.multicast g := by
  refine ⟨rfl, fun row stage s => ?_⟩
  rw [groupFact, stageGuard, Match.admits_foldl, List.forall_mem_singleton, h.admits_groupIs g]
  simp [Match.Admits]

theorem admits_noGroupFlow {stage : Int64} {s : Switch.Situation} :
    (noGroupFlow ports o.stages).flow.guard.Admits t row stage s ↔
      stage = o.stages.multicast ∧ s.memory.read (ports.group.places t) = 0 := by
  rw [noGroupFlow, admits_flowOf, List.forall_mem_singleton]
  exact and_congr_right fun _ => h.admits_groupIs 0

/-- The flows that hold of a packet at the multicast stage are those of its group. -/
theorem cases_of_admits {f : StageFlow} (hf : f ∈ multicastFacts ports o.stages rows)
    (hadmits : f.flow.guard.Admits t row o.stages.multicast ⟨m, texts⟩) :
    (f = noGroupFlow ports o.stages ∧ m.read (ports.group.places t) = (0 : BitVec 16).toNat) ∨
      ∃ g ∈ groupsOf rows, f = groupFact ports o.stages rows g ∧
        m.read (ports.group.places t) = g.toNat := by
  rcases List.mem_cons.mp hf with rfl | hf
  · exact .inl ⟨rfl, (h.admits_noGroupFlow.mp hadmits).2⟩
  · obtain ⟨g, hg, rfl⟩ := List.mem_map.mp hf
    exact .inr ⟨g, hg, rfl, (((h.isForGroup_groupFact g).admits_iff _ _ _).mp hadmits).2⟩

theorem takes_noGroupFlow (hm : m.read (ports.group.places t) = 0) :
    Takes t (multicastFacts ports o.stages rows) row o.stages.multicast ⟨m, texts⟩
      (noGroupFlow ports o.stages) := by
  refine ⟨List.mem_cons_self, h.admits_noGroupFlow.mpr ⟨rfl, hm⟩, fun f hf hadmits hne => ?_⟩
  rcases h.cases_of_admits hf hadmits with ⟨heq, -⟩ | ⟨g, hg, -, hread⟩
  · exact absurd heq hne
  · have hzero : g = 0 := BitVec.toNat_inj.mp (hread.symm.trans hm)
    exact absurd hzero (mem_groupsOf.mp hg).1

/-- A packet of a group that has ports takes the flow of the group. -/
theorem takes_groupFact {g : BitVec 16}
    (hg : g ∈ groupsOf rows) (hm : m.read (ports.group.places t) = g.toNat) :
    Takes t (multicastFacts ports o.stages rows) row o.stages.multicast ⟨m, texts⟩
      (groupFact ports o.stages rows g) := by
  refine ⟨List.mem_cons_of_mem _ (List.mem_map_of_mem hg),
    ((h.isForGroup_groupFact g).admits_iff _ _ _).mpr ⟨rfl, hm⟩, fun f hf hadmits hne => ?_⟩
  rcases h.cases_of_admits hf hadmits with ⟨-, hread⟩ | ⟨g', -, rfl, hread⟩
  · exact absurd (BitVec.toNat_inj.mp (hm.symm.trans hread)) (mem_groupsOf.mp hg).1
  · exact absurd (by rw [BitVec.toNat_inj.mp (hread.symm.trans hm)]) hne

/-- No flow holds of a packet of a group without ports. -/
theorem not_admits_of_notMem {g : BitVec 16}
    (hne : g ≠ 0) (hg : g ∉ groupsOf rows) (hm : m.read (ports.group.places t) = g.toNat) :
    ∀ f ∈ multicastFacts ports o.stages rows,
      ¬f.flow.guard.Admits t row o.stages.multicast ⟨m, texts⟩ := by
  intro f hf hadmits
  rcases h.cases_of_admits hf hadmits with ⟨-, hread⟩ | ⟨g', hg', -, hread⟩
  · exact hne (BitVec.toNat_inj.mp (hm.symm.trans hread))
  · exact hg (BitVec.toNat_inj.mp (hread.symm.trans hm) ▸ hg')

/-! ## Packets -/

theorem egressEntry_ne : o.stages.egressEntry ≠ o.stages.multicast := by
  have hentry := (h.egress_id h.outOnward.proper.entry).1
  intro heq
  rw [h.stages] at hentry heq
  exact absurd hentry (by rw [show o.egress.entry.id = _ from heq]; exact lt_irrefl _)

/-- Packets without a group leave for the egress control as they are. -/
theorem leaves_of_noGroup (rows : List GroupRow) (row : Row) (texts : Text → Bool)
    {ms : List Memory} (hms : ∀ m ∈ ms, m.read (ports.group.places t) = 0)
    {ys : List (Int64 × Memory)} :
    Leaves t (multicastFacts ports o.stages rows) row texts o.stages.multicast
        (ms.map (Prod.mk o.stages.multicast)) ys ↔
      ys = ms.map (Prod.mk o.stages.egressEntry) := by
  induction ms generalizing ys with
  | nil => exact leaves_nil
  | cons m ms ih =>
    rw [List.forall_mem_cons] at hms
    have hsends : (noGroupFlow ports o.stages).flow.action.sends t row m =
        [(o.stages.egressEntry, m)] := rfl
    rw [List.map_cons, leaves_taken (h.takes_noGroupFlow hms.1), hsends, List.singleton_append,
      leaves_away h.egressEntry_ne, List.map_cons]
    simp only [ih hms.2, exists_eq_right]

/-- A packet of a group leaves as one copy for each port of the group. -/
theorem leaves_of_group {g : BitVec 16}
    (hg : g ≠ 0) (hm : m.read (ports.group.places t) = g.toNat) {ys : List (Int64 × Memory)} :
    Leaves t (multicastFacts ports o.stages rows) row texts o.stages.multicast
        [(o.stages.multicast, m)] ys ↔
      ys = ((portsOf rows g).map (copied t ports m)).map (Prod.mk o.stages.egressEntry) := by
  have hcopies : ∀ m' ∈ (portsOf rows g).map (copied t ports m),
      m'.read (ports.group.places t) = 0 := by
    intro m' hm'
    obtain ⟨q, -, rfl⟩ := List.mem_map.mp hm'
    exact Memory.read_write_zero _ _
  rw [← h.leaves_of_noGroup rows row texts hcopies]
  by_cases hmem : g ∈ groupsOf rows
  · rw [leaves_taken (h.takes_groupFact hmem hm), groupFact, sends_copies, List.append_nil,
      List.map_map]
    rfl
  · have hnone : portsOf rows g = [] := by
      rw [mem_groupsOf, not_and, not_exists] at hmem
      refine List.map_eq_nil_iff.mpr (List.filter_eq_nil_iff.mpr fun x hx heq => ?_)
      obtain rfl := of_decide_eq_true heq
      exact hmem hg x.2 hx
    rw [leaves_lost (h.not_admits_of_notMem hg hmem hm), hnone]
    rfl

end Compiled

/-- What the flows of the multicast stage do with packets, for some rows of the relation of multicast
groups.  The texts are what the rules write for the rows, and the facts are the flows that they
say. -/
structure FansOut (o : Output) (t : Target) (contents : Contents) (rows : List GroupRow)
    (output group : Register) (texts : List Text) (facts : List StageFlow) : Prop where
  /-- These are all texts for the stage. -/
  written : ((o.flowsAt o.stages.multicast).mapM (StageFlow.texts? o.helpers contents)).map
    List.flatten = some texts
  said : List.Forall₂ StageFlow.WrittenAs facts texts
  /-- Every flow with the priority of groups is that of a group with ports. -/
  only : ∀ f ∈ facts, f.priority = multicastPriority →
    ∃ g, (g ≠ 0 ∧ ∃ port, (g, port) ∈ rows) ∧ f.IsForGroup t group o.stages.multicast g
  /-- Every group with ports has one flow. -/
  one : ∀ g, g ≠ 0 → (∃ port, (g, port) ∈ rows) →
    ∃! i : Fin facts.length, (facts.get i).IsForGroup t group o.stages.multicast g
  /-- A packet without a group leaves for the egress control as it is. -/
  pass : ∀ row texts (m : Memory), m.read (group.places t) = 0 → ∀ ys,
    Leaves t facts row texts o.stages.multicast [(o.stages.multicast, m)] ys ↔
      ys = [(o.stages.egressEntry, m)]
  /-- A packet of a group leaves as one copy for each row of the group. -/
  copies : ∀ row texts (m : Memory) (g : BitVec 16), g ≠ 0 → m.read (group.places t) = g.toNat →
    ∃ ms, List.Forall₂ (IsCopy t output group m) (portsOf rows g) ms ∧ ∀ ys,
      Leaves t facts row texts o.stages.multicast [(o.stages.multicast, m)] ys ↔
        ys = ms.map (Prod.mk o.stages.egressEntry)

/-- A flow is that of one group at most, because every number is in the register of some packet. -/
theorem eq_of_isForGroup {t : Target} {ports : Ports} (hapart : ports.Apart t)
    (hw : 0 < t.registerWidth.toInt) {f : StageFlow} {stage : Int64} {g g' : BitVec 16}
    (hf : f.IsForGroup t ports.group stage g)
    (hf' : f.IsForGroup t ports.group stage g') : g = g' := by
  have hfits : g.toNat < 2 ^ (ports.group.places t).length := by
    rw [Register.length_places, hapart.group.covers.width_eq]
    exact g.isLt
  have hnodup := Register.nodup_places hw hapart.group.inside hapart.group.covers
    hapart.group.field_eq
  have hread := Memory.read_write (fun _ => false) hnodup hfits
  have hadmits := (hf.admits_iff ⟨fun _ => 0, fun _ => false⟩ stage ⟨_, fun _ => false⟩).mpr
    ⟨rfl, hread⟩
  exact BitVec.toNat_inj.mp (hread.symm.trans ((hf'.admits_iff _ _ _).mp hadmits).2)

namespace Compiled

variable {p : Program} {t : Target} {o : Output} {inControl outControl : Control} {ports : Ports}
  {b : State} {rows : List GroupRow} (h : Compiled p t o inControl outControl ports b)

include h

/-- A fact with the priority of groups is that of a group. -/
theorem exists_isForGroup {f : StageFlow}
    (hf : f ∈ multicastFacts ports o.stages rows) (hpriority : f.priority = multicastPriority) :
    ∃ g, (g ≠ 0 ∧ ∃ port, (g, port) ∈ rows) ∧ f.IsForGroup t ports.group o.stages.multicast g := by
  rcases List.mem_cons.mp hf with rfl | hf
  · have hhigh : (noGroupFlow ports o.stages).priority = highPriority := rfl
    rw [hhigh] at hpriority
    exact absurd hpriority (by decide)
  · obtain ⟨g, hg, rfl⟩ := List.mem_map.mp hf
    exact ⟨g, mem_groupsOf.mp hg, h.isForGroup_groupFact g⟩

/-- A group with ports has exactly one fact. -/
theorem existsUnique_isForGroup (hapart : ports.Apart t) (hw : 0 < t.registerWidth.toInt)
    {g : BitVec 16} (hg : g ∈ groupsOf rows) :
    ∃! i : Fin (multicastFacts ports o.stages rows).length,
      ((multicastFacts ports o.stages rows).get i).IsForGroup t ports.group o.stages.multicast g := by
  obtain ⟨k, hk, rfl⟩ := List.getElem_of_mem hg
  have hlength : (multicastFacts ports o.stages rows).length = (groupsOf rows).length + 1 := by
    rw [multicastFacts, List.length_cons, List.length_map]
  have hfact : ∀ j (hj : j + 1 < (multicastFacts ports o.stages rows).length),
      ((multicastFacts ports o.stages rows).get ⟨j + 1, hj⟩).IsForGroup t ports.group
        o.stages.multicast ((groupsOf rows).get ⟨j, by omega⟩) := by
    intro j hj
    simp only [multicastFacts, List.get_eq_getElem, List.getElem_cons_succ, List.getElem_map]
    exact h.isForGroup_groupFact _
  refine ⟨⟨k + 1, by omega⟩, hfact k (by omega), ?_⟩
  rintro ⟨_ | j, hj⟩ hf
  · have hhigh : (noGroupFlow ports o.stages).priority = highPriority := rfl
    exact absurd (hhigh.symm.trans hf.priority_eq) (by decide)
  · have hsame : (groupsOf rows).get ⟨j, by omega⟩ = (groupsOf rows).get ⟨k, hk⟩ :=
      eq_of_isForGroup hapart hw (hfact j hj) hf
    have hindex : j = k := congrArg Fin.val ((List.nodup_dedup _).injective_get hsame)
    exact Fin.ext (congrArg (· + 1) hindex)

end Compiled

/-- **A packet of a multicast group is sent once to each port of the group.**  Whatever rows the
relation of multicast groups has, the rule for groups writes one flow for each group other than zero
that has rows, and no other.  A packet without a group goes on to the egress control as it is; one of
a group comes there once for each row of its group, with the port of the row and without a group, and
with every other bit as it was. -/
theorem multicast_fans_out {p : Program} {t : Target} {o : Output}
    (h : (compile p t).result = .ok o) (ht : t.validate = .ok ()) {contents : Contents}
    {rows : List GroupRow} (hrows : contents multicastRelation = rows.map GroupRow.columns) :
    ∃ output group texts facts, (finalRegisters p t).lookup outputPort = some output ∧
      (finalRegisters p t).lookup multicastGroup = some group ∧
      FansOut o t contents rows output group texts facts := by
  obtain ⟨inControl, outControl, ports, b, hb⟩ := compiled_of_ok h
  have hapart := hb.apart h
  have hw := t.width_pos_of_validate ht
  obtain ⟨text, hnoGroup, hwritten⟩ :=
    exists_texts?_noGroupFlow ports o.stages o.helpers contents
  obtain ⟨texts, hgroups, hsaid⟩ :=
    exists_texts?_groupFlow hapart.group o.stages o.helpers hrows
  refine ⟨ports.output, ports.group, text :: texts, multicastFacts ports o.stages rows,
    hb.registers ▸ hb.output, hb.registers ▸ hb.group, ?_, .cons hwritten hsaid,
    fun f => hb.exists_isForGroup, ?_, ?_, ?_⟩
  · rw [hb.flowsAt_multicast, List.mapM_cons, hnoGroup, List.mapM_cons, hgroups]
    simp
  · exact fun g hne hport => hb.existsUnique_isForGroup hapart hw (mem_groupsOf.mpr ⟨hne, hport⟩)
  · intro row texts m hm ys
    have hall : ∀ m' ∈ [m], m'.read (ports.group.places t) = 0 := List.forall_mem_singleton.mpr hm
    exact hb.leaves_of_noGroup rows row texts hall
  · intro row texts m g hg hm
    refine ⟨_, ?_, fun ys => hb.leaves_of_group hg hm⟩
    rw [List.forall₂_map_right_iff, List.forall₂_same]
    exact fun port _ => isCopy_copied hapart hw port

/-- Two groups, one of them with two ports, and a row for no group. -/
theorem multicast_fans_out_sampleProgram :
    ∃ o, (compile sampleProgram {}).result = .ok o ∧ ({} : Target).validate = .ok () ∧
      ∃ output group texts facts,
        (finalRegisters sampleProgram {}).lookup outputPort = some output ∧
        (finalRegisters sampleProgram {}).lookup multicastGroup = some group ∧
        FansOut o {} (fun _ => [(7, 1), (0, 5), (7, 2), (9, 1)].map GroupRow.columns)
          [(7, 1), (0, 5), (7, 2), (9, 1)] output group texts facts := by
  obtain ⟨o, ho⟩ := compile_sampleProgram
  exact ⟨o, ho, by decide, multicast_fans_out ho (by decide) rfl⟩

end Flowline.Compile
