import Flowline.Proofs.Compile.Success

/-!
# Stages and their flows

A packet goes through numbered stages, and at each of them the switch looks at the flows of that stage
only.  The compiler makes the flows part by part: around the controls, graph by graph, vertex by
vertex.  This file says what the parts come to, and what is said later about the packets of a whole
program starts from here and not from the functions that emit.

## 1. The numbers of stages

The first stage, those of the ingress control, the multicast stage and those of the egress control
are numbered one after the other.  Words wrap around, so this needs the check at the end of a
compilation that the switch has a stage for every number (`Compiled.room`).  From it come the ranges
of both controls (`Compiled.ingress_id`, `Compiled.egress_id`) and that no number is given twice
(`Compiled.nodup_ids`).

## 2. Where flows lead

`StageFlow.From` is what one flow does: it is at one stage, its actions lead to stages of a kind, and
none of them copies the packet.  The kind is a parameter.  Inside a graph it is `Ahead`, the later
stages of the same graph that packets can come to; in a program it is `Output.Later`, the later
stages that have flows.  `Compiled.from_or_group` says this of every flow but one.  The exception is
the flow that makes copies for a multicast group: copies come back to its own stage, and that they
do not go round for ever is another argument, about the group and not about numbers.

## 3. The flows of a stage

The output is one list, and the switch selects from it by stage (`Output.flowsAt`).  Where each
stage has a block of its own flows, selecting gives back the block (`filter_flatten`).  Hence
`Compiled.flowsAt_ingress` and its like, and `Compiled.tableFlows` for stages at which tables are
applied.

## 4. Where flows come from

`Origin` has a constructor for everything that a flow can be, and `Compiled.origin` says that there
is nothing else.  What is to be shown of all flows is shown case by case.  Only stages that packets
can come to count (`StageOf`, `TableAt`): for others nothing is emitted.
-/

namespace Flowline.Compile

open Flowline.Flow (Match)
open ControlFlow (EdgeKind Graph Vertex graphOf stageCount)
open Lower
open Pipeline (Control Program Table)
open Switch (Target)

/-! ## Actions and matches of a flow -/

/-- An action that a flow runs: its own, or one that a text in it stands for. -/
inductive StageFlow.Runs (f : StageFlow) : Flow.Action → Prop
  | own : f.Runs f.flow.action
  | chosen {cases : List ActionCase} {c : ActionCase} (h : .choice cases ∈ f.bindings)
      (hc : c ∈ cases) : f.Runs c.action
  | text {name : Text} {a : Flow.Action} (h : .actionText name a ∈ f.bindings) : f.Runs a

/-- A match that a flow makes: its own, or one that a text in it stands for. -/
inductive StageFlow.Asks (f : StageFlow) : Match → Prop
  | own : f.Asks f.flow.guard
  | text {name source value : Text} {m : Match} (h : .optional name source value m ∈ f.bindings) :
      f.Asks m

/-- A flow of a stage. -/
def StageFlow.IsAt (f : StageFlow) (stage : Int64) : Prop := f.flow.guard.stages = [stage]

instance (f : StageFlow) (stage : Int64) : Decidable (f.IsAt stage) :=
  inferInstanceAs (Decidable (f.flow.guard.stages = [stage]))

/-- The flows of a stage, in order. -/
def Output.flowsAt (o : Output) (stage : Int64) : List StageFlow :=
  o.flows.filter fun f => f.IsAt stage

/-- A stage of a control that packets can come to and at which a table is applied. -/
structure AppliesAt (c : Control) (g : Graph) (v : Vertex) (x : Table) : Prop where
  reaches : g.Reaches v
  role : v.role = .table (some x.name)
  table : c.table? x.name = some x

/-- A stage of a compiled program at which a table is applied. -/
inductive TableAt (p : Program) (o : Output) : Graph → Vertex → Table → Prop
  | ingress {c : Control} {v : Vertex} {x : Table} (hc : p.ingress = some c)
      (h : AppliesAt c o.ingress v x) : TableAt p o o.ingress v x
  | egress {c : Control} {v : Vertex} {x : Table} (hc : p.egress = some c)
      (h : AppliesAt c o.egress v x) : TableAt p o o.egress v x

/-- A stage of a compiled program that packets can come to. -/
def StageOf (o : Output) (g : Graph) (v : Vertex) : Prop :=
  (g = o.ingress ∨ g = o.egress) ∧ g.Reaches v

/-- Where a flow of a compiled program comes from. -/
inductive Origin (p : Program) (o : Output) (ports : Ports) : StageFlow → Prop
  | init : Origin p o ports (initFlow ports o.stages)
  | ingressExit : Origin p o ports (ingressExitFlow o.stages o.ingress.exit)
  | noGroup : Origin p o ports (noGroupFlow ports o.stages)
  | group : Origin p o ports (groupFlow ports o.stages)
  | egressExit {f : StageFlow} (hf : f ∈ egressExitFlows ports o.egress.exit) : Origin p o ports f
  | onward (v next : Vertex) :
      Origin p o ports (flowOf v.name (.table v.id) (goTo next) [])
  | test {g : Graph} {v : Vertex} {e : Source.Expr} {f : StageFlow} (hv : StageOf o g v)
      (hrole : v.role = .cond e) (hf : f ∈ o.flowsAt v.id) (hfact : f.bindings = []) :
      Origin p o ports f
  | table {g : Graph} {v : Vertex} {x : Table} {f : StageFlow} (hat : TableAt p o g v x)
      (hf : f ∈ o.flowsAt v.id) : Origin p o ports f

/-! ## The numbers of stages -/

namespace Compiled

variable {p : Program} {t : Target} {o : Output} {inControl outControl : Control} {ports : Ports}
  {b : State} {v : Vertex} (h : Compiled p t o inControl outControl ports b)

include h

theorem multicast_toInt : o.stages.multicast.toInt = 1 + stageCount inControl := by
  have hroom := h.room
  have hmax := t.maxStage.toInt_lt
  have hone : (initStage + 1 : Int64).toInt = 1 := rfl
  have hcount : (Int64.ofNat (stageCount inControl)).toInt = stageCount inControl :=
    Switch.Word.toInt_ofNat (by omega)
  rw [h.stages]
  show (initStage + 1 + Int64.ofNat (stageCount inControl)).toInt = _
  rw [Switch.Word.toInt_add (by omega) (by omega), hone, hcount]

theorem inOnward : o.ingress.Onward (initStage + 1) := by
  have hroom := h.room
  have hmax := t.maxStage.toInt_lt
  have hone : (initStage + 1 : Int64).toInt = 1 := rfl
  rw [h.inGraph]
  exact ControlFlow.onward_graphOf (by rw [hone]; omega)

theorem egressFirst_toInt : (multicastStage inControl + 1).toInt = 2 + stageCount inControl := by
  have hroom := h.room
  have hmax := t.maxStage.toInt_lt
  have hmulticast : (multicastStage inControl).toInt = 1 + stageCount inControl := by
    have hstages := h.multicast_toInt
    rwa [h.stages] at hstages
  have hout : 2 ≤ stageCount outControl := Nat.le_add_left 2 _
  rw [Switch.Word.toInt_succ (by omega), hmulticast]
  omega

theorem outOnward : o.egress.Onward (multicastStage inControl + 1) := by
  have hroom := h.room
  have hmax := t.maxStage.toInt_lt
  have hfirst := h.egressFirst_toInt
  rw [h.outGraph]
  exact ControlFlow.onward_graphOf (by omega)

/-- The stages of the ingress control lie between the first stage and the multicast stage. -/
theorem ingress_id (hv : v ∈ o.ingress.vertices) :
    0 < v.id.toInt ∧ v.id.toInt < o.stages.multicast.toInt := by
  have hid := h.inOnward.numbered v hv
  have hone : (initStage + 1 : Int64).toInt = 1 := rfl
  have hposition : v.position < stageCount inControl := by
    rw [h.inGraph] at hv
    exact ControlFlow.position_lt_stageCount inControl _ hv
  rw [hid, h.multicast_toInt, hone]
  omega

/-- The stages of the egress control lie behind the multicast stage, and the switch has them. -/
theorem egress_id (hv : v ∈ o.egress.vertices) :
    o.stages.multicast.toInt < v.id.toInt ∧ v.id.toInt ≤ t.maxStage.toInt := by
  have hid := h.outOnward.numbered v hv
  have hroom := h.room
  have hposition : v.position < stageCount outControl := by
    rw [h.outGraph] at hv
    exact ControlFlow.position_lt_stageCount outControl _ hv
  rw [hid, h.multicast_toInt, h.egressFirst_toInt]
  omega

theorem nodup_ids :
    (initStage :: o.stages.multicast ::
      (o.ingress.vertices ++ o.egress.vertices).map fun v => v.id).Nodup := by
  have hmulticast := h.multicast_toInt
  have hzero : initStage.toInt = 0 := rfl
  have hne : ∀ {x y : Int64}, x.toInt < y.toInt → x ≠ y := by
    rintro x y hlt rfl
    exact lt_irrefl _ hlt
  rw [List.nodup_cons, List.nodup_cons, List.map_append, List.nodup_append]
  refine ⟨?_, ?_, h.inOnward.proper.ids, h.outOnward.proper.ids, ?_⟩
  · intro hmem
    rcases List.mem_cons.mp hmem with heq | hmem
    · exact hne (by omega) heq
    · rcases List.mem_append.mp hmem with hmem | hmem <;>
        obtain ⟨v, hv, heq⟩ := List.mem_map.mp hmem
      · exact hne (hzero ▸ (h.ingress_id hv).1) heq.symm
      · have hid := h.egress_id hv
        exact hne (by omega) heq.symm
  · intro hmem
    rcases List.mem_append.mp hmem with hmem | hmem <;> obtain ⟨v, hv, heq⟩ := List.mem_map.mp hmem
    · exact hne (h.ingress_id hv).2 heq
    · exact hne (h.egress_id hv).1 heq.symm
  · intro x hx y hy
    obtain ⟨v, hv, rfl⟩ := List.mem_map.mp hx
    obtain ⟨w, hw, rfl⟩ := List.mem_map.mp hy
    exact hne ((h.ingress_id hv).2.trans (h.egress_id hw).1)

end Compiled

/-! ## Flows of one stage -/

/-- A flow of a stage that makes no copies, and whose packets go on at certain stages only. -/
structure StageFlow.From (f : StageFlow) (stage : Int64) (T : Int64 → Prop) : Prop where
  isAt : f.IsAt stage
  asks : ∀ m, f.Asks m → m.stages ⊆ [stage]
  runs : ∀ a, f.Runs a → a.clones = [] ∧ ∀ j ∈ a.jumps, T j

/-- A binding that brings no stages: neither an action nor a match with a stage. -/
def Binding.IsQuiet : Binding → Prop
  | .choice _ => False
  | .actionText _ _ => False
  | .optional _ _ _ m => m.stages = []
  | _ => True

section

variable {stage : Int64} {T : Int64 → Prop} {N : List Text} {J : List Int64} {guard : Match}
  {act : Flow.Action} {comment : Text} {B : List Binding}

/-- A flow goes where its action and its choices go. -/
theorem from_flowOf (hguard : guard.stages = [stage]) (hact : act.Within J N) (hT : ∀ j ∈ J, T j)
    (hB : ∀ x ∈ B, x.IsQuiet ∨ ∃ cases, x = .choice cases ∧
      ∀ c ∈ cases, c.action.clones = [] ∧ ∀ j ∈ c.action.jumps, T j) :
    (flowOf comment guard act B).From stage T := by
  have hown : (flowOf comment guard act B).flow.guard.stages = [stage] :=
    (Match.stages_simplify guard).trans hguard
  refine ⟨hown, ?_, ?_⟩
  · rintro m (_ | hm)
    · exact hown ▸ List.Subset.refl _
    · rcases hB _ hm with hnil | ⟨_, ⟨⟩, -⟩
      rw [show m.stages = [] from hnil]
      exact List.nil_subset _
  · rintro a (_ | ⟨hcs, hc⟩ | ha)
    · exact ⟨hact.simplify.clones, fun j hj => hT j (hact.simplify.jumps hj)⟩
    · rcases hB _ hcs with hquiet | ⟨_, ⟨⟩, hcases⟩
      · exact hquiet.elim
      · exact hcases _ hc
    · rcases hB _ ha with hquiet | ⟨_, ⟨⟩, -⟩
      exact hquiet.elim

theorem from_quiet (hguard : guard.stages = [stage]) (hact : act.Within J N) (hT : ∀ j ∈ J, T j)
    (hquiet : ∀ x ∈ B, x.IsQuiet) : (flowOf comment guard act B).From stage T :=
  from_flowOf hguard hact hT fun x hx => .inl (hquiet x hx)

theorem from_resubmit {j : Int64} (hguard : guard.stages = [stage]) (hT : T j) :
    (flowOf comment guard (.resubmit j) []).From stage T := by
  refine from_quiet (J := [j]) (N := []) hguard (.resubmit List.mem_cons_self) (fun i hi => ?_) nofun
  cases List.mem_singleton.mp hi
  exact hT

theorem from_choice {typeName : Text} {g : Graph} {next : Pipeline.Action → Vertex}
    {as : List Pipeline.Action} {cases : List ActionCase} (hguard : guard.stages = [stage])
    (hquiet : ∀ x ∈ B, x.IsQuiet) (hcases : List.Forall₂ (CaseOf typeName g next) as cases)
    (hT : ∀ a, ∀ j ∈ [g.exit.id, (next a).id], T j) :
    (flowOf comment guard (.var "actions") (B ++ [.choice cases])).From stage T := by
  refine from_flowOf (J := []) (N := ["actions"]) hguard ⟨nofun, rfl, List.Subset.refl _⟩ nofun ?_
  refine List.forall_mem_append.mpr ⟨fun x hx => .inl (hquiet x hx), ?_⟩
  refine List.forall_mem_singleton.mpr (.inr ⟨cases, rfl, fun c hc => ?_⟩)
  obtain ⟨x, -, hx⟩ := exists_of_mem_right hcases hc
  exact ⟨hx.within.clones, fun j hj => hT x j (hx.within.jumps hj)⟩

theorem stages_stageGuard (priority : Flow.Expr) {ms : List Match} (h : ∀ m ∈ ms, m.stages = []) :
    (stageGuard stage priority ms).stages = [stage] := by
  rw [stageGuard, Match.stages_foldl, List.flatMap_eq_nil_iff.mpr h]
  rfl

end

/-- What a rule has for an element of a key brings no stages. -/
theorem KeyForm.quiet {k : Pipeline.Key} {left : Flow.Expr} {km : KeyMatch}
    (h : KeyForm k left km) :
    km.guard.stages = [] ∧ (∀ m ∈ km.prereqs, m.stages = []) ∧ ∀ x ∈ km.bindings, x.IsQuiet := by
  have hprereqs : ∀ m ∈ prereqs k.expr, m.stages = [] := fun m hm => (bare_of_mem_prereqs hm).stages
  cases h with
  | truth => exact ⟨rfl, hprereqs, by simp [Binding.IsQuiet]⟩
  | exact | ternary | lpm => exact ⟨rfl, hprereqs, nofun⟩
  | @optional m hkind hm =>
    refine ⟨rfl, nofun, fun x hx => ?_⟩
    cases List.mem_singleton.mp hx
    show m.stages = []
    rw [Match.stages_all? hm, List.flatMap_append, List.flatMap_eq_nil_iff.mpr hprereqs]
    rfl

/-! ## Flows of a graph -/

/-- A stage of a graph that comes behind another one, and that packets can come to. -/
def Ahead (g : Graph) (v : Vertex) (stage : Int64) : Prop :=
  ∃ w, g.Reaches w ∧ v.id < w.id ∧ w.id = stage

variable {f : StageFlow} {x : Table} {fs : List StageFlow}

section

variable {b : State} {t : Table} {g : Graph} {first : Int64} {v : Vertex} (hg : g.Onward first)
  (hv : g.Reaches v) (hexit : v.position ≠ g.exit.position)

include hg hv hexit

theorem ahead_next (wanted : List (EdgeKind × Text)) :
    ∀ j ∈ [g.exit.id, (g.next v wanted).id], Ahead g v j := by
  have hmem := hg.proper.mem_vertices_of_reaches hv
  have hlt := lt_of_le_of_ne (hg.last v hmem) hexit
  intro j hj
  rcases List.mem_cons.mp hj with rfl | hj
  · exact ⟨g.exit, hg.reaches_exit, hg.id_lt hmem hg.exit hlt, rfl⟩
  · cases List.mem_singleton.mp hj
    exact ⟨_, hg.reaches_next hv wanted, hg.id_lt_next hv hexit wanted, rfl⟩

theorem from_goTo (wanted : List (EdgeKind × Text)) (comment : Text) {guard : Match}
    (hguard : guard.stages = [v.id]) :
    (flowOf comment guard (goTo (g.next v wanted)) []).From v.id (Ahead g v) :=
  from_resubmit hguard (ahead_next hg hv hexit wanted _ (List.mem_cons_of_mem _ List.mem_cons_self))

theorem from_ruleFlow (hf : RuleFlow b t g v f) : f.From v.id (Ahead g v) := by
  obtain ⟨kms, act, chosen, hkms, hact, rfl⟩ := hf
  have hkm : ∀ km ∈ kms, km.guard.stages = [] ∧ (∀ m ∈ km.prereqs, m.stages = []) ∧
      ∀ x ∈ km.bindings, x.IsQuiet := by
    intro km hkm
    obtain ⟨k, -, left, -, hform, -⟩ := exists_of_mem_right hkms hkm
    exact hform.quiet
  have hguard : (entryGuard t v kms).stages = [v.id] := by
    refine stages_stageGuard _ fun m hm => ?_
    rcases List.mem_append.mp hm with hm | hm
    · obtain ⟨km, hkmem, hm⟩ := List.mem_flatMap.mp (List.mem_eraseDups.mp hm)
      exact (hkm km hkmem).2.1 m hm
    · obtain ⟨km, hkmem, rfl⟩ := List.mem_map.mp hm
      exact (hkm km hkmem).1
  have hquiet : ∀ x ∈ entryRow t kms :: kms.flatMap (·.bindings), x.IsQuiet := by
    refine List.forall_mem_cons.mpr ⟨trivial, fun x hx => ?_⟩
    obtain ⟨km, hkmem, hx⟩ := List.mem_flatMap.mp hx
    exact (hkm km hkmem).2.2 x hx
  cases hact with
  | only hneeds has hact =>
    rw [List.append_nil]
    exact from_quiet hguard hact (ahead_next hg hv hexit _) hquiet
  | choice hneeds hcases =>
    exact from_choice hguard hquiet hcases fun a => ahead_next hg hv hexit _

theorem from_entryFlow {e : Pipeline.Entry × Nat} (hf : EntryFlow b t g v e f) :
    f.From v.id (Ahead g v) := by
  obtain ⟨ms, act, hms, hact, rfl⟩ := hf
  exact from_quiet (stages_stageGuard _ fun m hm => (bare_of_mem_keys hms hm).stages)
    ((ensures_constAction _ _ _).of_gives hact) (ahead_next hg hv hexit _) nofun

theorem from_defaultFlow (hf : DefaultFlow b t g v f) : f.From v.id (Ahead g v) := by
  have hguard : (stageGuard v.id (.number lowPriority) []).stages = [v.id] :=
    stages_stageGuard _ nofun
  cases hf with
  | fixed hconst hact =>
    exact from_quiet hguard ((ensures_fixedDefault _ _ _).of_gives hact)
      (ahead_next hg hv hexit _) nofun
  | chosen hconst hcases =>
    exact from_choice (B := [.row (defaultRelationName t) [.var "action"]]) hguard
      (by simp [Binding.IsQuiet]) hcases fun a => ahead_next hg hv hexit _

/-- The flows of a stage lead to later stages of its graph. -/
theorem from_stageFlows {tables : List Checked} (hfs : StageFlows b tables g v fs) :
    ∀ f ∈ fs, f.From v.id (Ahead g v) := by
  have hmem := hg.proper.mem_vertices_of_reaches hv
  cases hfs with
  | dummy =>
    intro f hf
    obtain ⟨e, he, rfl⟩ := List.mem_map.mp hf
    have hlt : v.id < e.node.id :=
      hg.id_lt hmem (hg.proper.mem_vertices he) (hg.forward v e he)
    exact from_resubmit rfl ⟨e.node, .step hv he, hlt, rfl⟩
  | cond hrole hm =>
    refine List.forall_mem_cons.mpr ⟨?_, List.forall_mem_cons.mpr ⟨?_, nofun⟩⟩
    · refine from_goTo hg hv hexit _ _ (stages_stageGuard _ fun x hx => ?_)
      exact ((ensures_condition_bare _).of_gives hm x (Option.mem_toList.mp hx)).stages
    · exact from_goTo hg hv hexit _ _ (stages_stageGuard _ nofun)
  | table hrole hfind hfs =>
    intro f hf
    rcases hfs.cases_of_mem hf with ⟨-, hrule⟩ | ⟨e, hentry⟩ | hdefault
    · exact from_ruleFlow hg hv hexit hrule
    · exact from_entryFlow hg hv hexit hentry
    · exact from_defaultFlow hg hv hexit hdefault

theorem stageFlows_ne_nil {tables : List Checked} (hfs : StageFlows b tables g v fs) : fs ≠ [] := by
  cases hfs with
  | dummy =>
    have hmem := hg.proper.mem_vertices_of_reaches hv
    have hne := hg.continues v hmem (lt_of_le_of_ne (hg.last v hmem) hexit)
    simpa using hne
  | cond => exact List.cons_ne_nil _ _
  | table hrole hfind hfs =>
    obtain ⟨hrules, hentries, hdefault⟩ := hfs
    simp

end

/-! ## Blocks of flows -/

section

variable {b : State} {c : Control} {g : Graph} {first : Int64} {exitFlows : Vertex → List StageFlow}
  {blocks : List (List StageFlow)}

/-- Where each stage of a graph has a block of flows, each of them is at its stage. -/
theorem exists_isAt (hg : g.Onward first) (hexit : ∃ f ∈ exitFlows g.exit, f.IsAt g.exit.id)
    (hblocks : GraphBlocks b c g exitFlows blocks) {v : Vertex} (hv : g.Reaches v) :
    ∃ f ∈ blocks.flatten, f.IsAt v.id := by
  obtain ⟨block, hmem, hblock⟩ := exists_of_mem_left hblocks (hg.proper.mem_reachable.mpr hv)
  have hat : ∃ f ∈ block, f.IsAt v.id := by
    split at hblock
    · next hposition =>
      rw [hblock, hg.eq_exit (hg.proper.mem_vertices_of_reaches hv) hposition]
      exact hexit
    · next hposition =>
      obtain ⟨f, hf⟩ := List.exists_mem_of_ne_nil _ (stageFlows_ne_nil hg hv hposition hblock)
      exact ⟨f, hf, (from_stageFlows hg hv hposition hblock f hf).isAt⟩
  obtain ⟨f, hf, hat⟩ := hat
  exact ⟨f, List.mem_flatten.mpr ⟨block, hmem, hf⟩, hat⟩

/-- A flow of a graph leaves it at its exit, or is that of another stage and leads on. -/
theorem mem_blocks (hg : g.Onward first) (hblocks : GraphBlocks b c g exitFlows blocks)
    (hf : f ∈ blocks.flatten) :
    f ∈ exitFlows g.exit ∨ ∃ v block, g.Reaches v ∧ v.position ≠ g.exit.position ∧
      StageFlows b (rightTables c) g v block ∧ f ∈ block ∧ f.From v.id (Ahead g v) := by
  obtain ⟨block, hmem, hf⟩ := List.mem_flatten.mp hf
  obtain ⟨v, hv, hblock⟩ := exists_of_mem_right hblocks hmem
  have hreaches := hg.proper.mem_reachable.mp hv
  split at hblock
  · next hposition =>
    rw [hg.eq_exit (hg.proper.mem_vertices_of_reaches hreaches) hposition] at hblock
    exact Or.inl (hblock ▸ hf)
  · next hposition =>
    exact Or.inr ⟨v, block, hreaches, hposition, hblock, hf,
      from_stageFlows hg hreaches hposition hblock f hf⟩

/-- The exit of the egress control leads nowhere. -/
theorem from_egressExitFlows (ports : Ports) (v : Vertex) :
    ∀ f ∈ egressExitFlows ports v, f.From v.id fun _ => False := by
  refine List.forall_mem_cons.mpr ⟨?_, List.forall_mem_cons.mpr ⟨?_, nofun⟩⟩
  · exact from_quiet (J := []) (N := []) rfl ⟨nofun, rfl, nofun⟩ nofun nofun
  · exact from_quiet (J := []) (N := []) rfl ⟨nofun, rfl, nofun⟩ nofun nofun

/-! ## Stages with tables -/

/-- A table is applied if a stage that packets can come to bears its name. -/
theorem exists_appliesAt (hg : g.Onward first) (hx : c.table? x.name = some x)
    (hstage : (g.reachable.any fun v => v.role.table? == some x.name) = true) :
    ∃ v, AppliesAt c g v x := by
  obtain ⟨v, hv, hname⟩ := List.any_eq_true.mp hstage
  refine ⟨v, hg.proper.mem_reachable.mp hv, ?_, hx⟩
  cases hrole : v.role with
  | table name => rw [hrole] at hname; rw [← eq_of_beq hname]; rfl
  | _ => rw [hrole] at hname; cases hname

theorem exists_table?_of_findTable? {name : Text} {y : Checked}
    (h : findTable? (rightTables c) name = some y) :
    ∃ x, c.table? x.name = some x ∧ x.name = name ∧ y = ⟨x, true⟩ := by
  rw [findTable?, rightTables, List.find?_map] at h
  obtain ⟨x, hx, rfl⟩ := Option.map_eq_some_iff.mp h
  have hname : x.name = name := by simpa using List.find?_some hx
  exact ⟨x, hname ▸ hx, hname, rfl⟩

/-- A stage with a table is no exit, and its block has the flows of the table. -/
theorem tableFlows_of_appliesAt (hg : g.Onward first) (hexit : g.exit.role = .dummy) {v : Vertex}
    (h : AppliesAt c g v x) {exitBlock block : List StageFlow}
    (hblock : if v.position = g.exit.position then block = exitBlock
      else StageFlows b (rightTables c) g v block) : TableFlows b x g v block := by
  have hrole := h.role
  split at hblock
  · next hposition =>
    rw [hg.eq_exit (hg.proper.mem_vertices_of_reaches h.reaches) hposition, hexit] at hrole
    cases hrole
  · cases hblock with
    | dummy hdummy =>
      rw [hdummy] at hrole
      cases hrole
    | cond hcond =>
      rw [hcond] at hrole
      cases hrole
    | @table name y _ htable hfind hfs =>
      rw [htable] at hrole
      cases hrole
      obtain ⟨z, hz, hname, rfl⟩ := exists_table?_of_findTable? hfind
      rw [hname, h.table] at hz
      cases hz
      exact hfs

theorem StageFlow.IsAt.unique {x y : Int64} (hx : f.IsAt x) (hy : f.IsAt y) : x = y :=
  List.singleton_inj.mp (hx.symm.trans hy)

theorem filter_eq_nil {x : Int64} (h : ∀ f ∈ fs, ∃ stage, f.IsAt stage ∧ stage ≠ x) :
    (fs.filter fun f => f.IsAt x) = [] := by
  rw [List.filter_eq_nil_iff]
  intro f hf hx
  obtain ⟨stage, hat, hne⟩ := h f hf
  exact hne (hat.unique (of_decide_eq_true hx))

/-- The numbers of the stages of some flows are of a kind. -/
def AllAt (P : Int → Prop) (fs : List StageFlow) : Prop :=
  ∀ f ∈ fs, ∃ stage : Int64, f.IsAt stage ∧ P stage.toInt

theorem AllAt.filter_eq_nil {P : Int → Prop} (h : AllAt P fs) {x : Int64} (hx : ¬P x.toInt) :
    (fs.filter fun f => f.IsAt x) = [] := by
  refine Compile.filter_eq_nil fun f hf => ?_
  obtain ⟨stage, hat, hstage⟩ := h f hf
  exact ⟨stage, hat, fun heq => hx (heq ▸ hstage)⟩

/-- Where each stage has a block of its own flows, the flows of a stage are those of its block. -/
theorem filter_flatten {R : Vertex → List StageFlow → Prop} {vs : List Vertex}
    (hblocks : List.Forall₂ R vs blocks)
    (hat : ∀ v ∈ vs, ∀ block, R v block → ∀ f ∈ block, f.IsAt v.id)
    (hids : (vs.map fun v => v.id).Nodup) {v : Vertex} (hv : v ∈ vs) :
    R v (blocks.flatten.filter fun f => f.IsAt v.id) := by
  induction hblocks with
  | nil => cases hv
  | @cons w block ws blocks hw hrest ih =>
    rw [List.map_cons, List.nodup_cons] at hids
    rw [List.forall_mem_cons] at hat
    rw [List.flatten_cons, List.filter_append]
    rcases List.mem_cons.mp hv with rfl | hv
    · have hothers : (blocks.flatten.filter fun f => f.IsAt v.id) = [] := by
        refine filter_eq_nil fun f hf => ?_
        obtain ⟨block', hmem, hf⟩ := List.mem_flatten.mp hf
        obtain ⟨u, hu, hblock⟩ := exists_of_mem_right hrest hmem
        exact ⟨u.id, hat.2 u hu block' hblock f hf,
          fun heq => hids.1 (heq ▸ List.mem_map_of_mem hu)⟩
      rw [hothers, List.append_nil, List.filter_eq_self.mpr fun f hf =>
        decide_eq_true (hat.1 block hw f hf)]
      exact hw
    · have hne : w.id ≠ v.id := fun heq => hids.1 (heq ▸ List.mem_map_of_mem hv)
      rw [filter_eq_nil fun f hf => ⟨w.id, hat.1 block hw f hf, hne⟩, List.nil_append]
      exact ih hat.2 hids.2 hv

/-- The flows of a stage of a graph are at that stage. -/
theorem isAt_of_block (hg : g.Onward first)
    (hexit : ∀ f ∈ exitFlows g.exit, f.IsAt g.exit.id)
    {v : Vertex} (hv : g.Reaches v) {block : List StageFlow}
    (hblock : if v.position = g.exit.position then block = exitFlows v
      else StageFlows b (rightTables c) g v block) : ∀ f ∈ block, f.IsAt v.id := by
  split at hblock
  · next hposition =>
    rw [hblock, hg.eq_exit (hg.proper.mem_vertices_of_reaches hv) hposition]
    exact hexit
  · next hposition => exact fun f hf => (from_stageFlows hg hv hposition hblock f hf).isAt

theorem block_flatten (hg : g.Onward first) (hexit : ∀ f ∈ exitFlows g.exit, f.IsAt g.exit.id)
    (hblocks : GraphBlocks b c g exitFlows blocks) {v : Vertex} (hv : g.Reaches v) :
    if v.position = g.exit.position then
      (blocks.flatten.filter fun f => f.IsAt v.id) = exitFlows v
    else StageFlows b (rightTables c) g v (blocks.flatten.filter fun f => f.IsAt v.id) := by
  refine filter_flatten hblocks ?_ g.nodup_reachable (hg.proper.mem_reachable.mpr hv)
  intro w hw block hblock
  exact isAt_of_block hg hexit (hg.proper.mem_reachable.mp hw) hblock

theorem exists_isAt_of_mem (hg : g.Onward first) (hexit : ∀ f ∈ exitFlows g.exit, f.IsAt g.exit.id)
    (hblocks : GraphBlocks b c g exitFlows blocks) (hf : f ∈ blocks.flatten) :
    ∃ v ∈ g.vertices, f.IsAt v.id := by
  rcases mem_blocks hg hblocks hf with hf | ⟨v, _, hv, -, -, -, hfrom⟩
  · exact ⟨g.exit, hg.exit, hexit f hf⟩
  · exact ⟨v, hg.proper.mem_vertices_of_reaches hv, hfrom.isAt⟩

theorem isAt_egressExitFlows (ports : Ports) (v : Vertex) :
    ∀ f ∈ egressExitFlows ports v, f.IsAt v.id :=
  fun f hf => (from_egressExitFlows ports _ f hf).isAt

/-- The flows of a graph leave it at its exit, or belong to its stages. -/
theorem origin_of_mem_blocks {p : Program} {o : Output} {ports : Ports} (hg : g.Onward first)
    (hof : g = o.ingress ∨ g = o.egress) (hat : ∀ {v x}, AppliesAt c g v x → TableAt p o g v x)
    (hexit : ∀ f ∈ exitFlows g.exit, Origin p o ports f)
    (hblocks : GraphBlocks b c g exitFlows blocks) (hf : f ∈ blocks.flatten) (hmem : f ∈ o.flows) :
    Origin p o ports f := by
  rcases mem_blocks hg hblocks hf with hf | ⟨v, block, hreaches, -, hblock, hf, hfrom⟩
  · exact hexit f hf
  · have hown : f ∈ o.flowsAt v.id := List.mem_filter.mpr ⟨hmem, decide_eq_true hfrom.isAt⟩
    cases hblock with
    | dummy =>
      obtain ⟨e, -, rfl⟩ := List.mem_map.mp hf
      exact .onward v e.node
    | cond hrole =>
      refine .test ⟨hof, hreaches⟩ hrole hown ?_
      rcases List.mem_cons.mp hf with rfl | hf
      · rfl
      · cases List.mem_singleton.mp hf
        rfl
    | table hrole hfind =>
      obtain ⟨x, hx, rfl, -⟩ := exists_table?_of_findTable? hfind
      exact .table (hat ⟨hreaches, hrole, hx⟩) hown

end

/-! ## Flows of a program -/

/-- A later stage that has a flow. -/
def Output.Later (o : Output) (stage j : Int64) : Prop := stage < j ∧ ∃ f ∈ o.flows, f.IsAt j

theorem StageFlow.From.mono {stage : Int64} {T T' : Int64 → Prop} (hf : f.From stage T)
    (h : ∀ j, T j → T' j) : f.From stage T' :=
  ⟨hf.isAt, hf.asks, fun a ha => ⟨(hf.runs a ha).1, fun j hj => h j ((hf.runs a ha).2 j hj)⟩⟩

namespace Compiled

variable {p : Program} {t : Target} {o : Output} {inControl outControl : Control} {ports : Ports}
  {b : State} {v : Vertex} (h : Compiled p t o inControl outControl ports b)

include h

theorem exists_isAt_ingress (hv : o.ingress.Reaches v) : ∃ f ∈ o.flows, f.IsAt v.id := by
  obtain ⟨inBlocks, outBlocks, hin, hout, hflows⟩ := h.flows
  have hexit : (ingressExitFlow o.stages o.ingress.exit).IsAt o.ingress.exit.id := rfl
  obtain ⟨f, hf, hat⟩ := exists_isAt h.inOnward ⟨_, List.mem_cons_self, hexit⟩ hin hv
  rw [hflows]
  exact ⟨f, List.mem_cons_of_mem _ (List.mem_append_left _ hf), hat⟩

theorem exists_isAt_egress (hv : o.egress.Reaches v) : ∃ f ∈ o.flows, f.IsAt v.id := by
  obtain ⟨inBlocks, outBlocks, hin, hout, hflows⟩ := h.flows
  have hexit : ∃ f ∈ egressExitFlows ports o.egress.exit, f.IsAt o.egress.exit.id :=
    ⟨_, List.mem_cons_of_mem _ List.mem_cons_self, rfl⟩
  obtain ⟨f, hf, hat⟩ := exists_isAt h.outOnward hexit hout hv
  rw [hflows]
  exact ⟨f, by simp [hf], hat⟩

theorem noGroupFlow_mem : noGroupFlow ports o.stages ∈ o.flows := by
  obtain ⟨inBlocks, outBlocks, -, -, hflows⟩ := h.flows
  rw [hflows]
  simp

omit h in
theorem within_init (stage : Int64) : (Flow.Action.all [.load ports.drop (.reg ports.output),
    ports.clearGroup, .resubmit stage]).Within [stage] [] :=
  .all (List.forall_mem_cons.mpr ⟨.load nofun nofun, List.forall_mem_cons.mpr
    ⟨.load nofun nofun, List.forall_mem_cons.mpr ⟨.resubmit List.mem_cons_self, nofun⟩⟩⟩)

/-- The flow of the first stage leads to the ingress control. -/
theorem from_initFlow : (initFlow ports o.stages).From initStage (o.Later initStage) := by
  refine from_quiet rfl (within_init _) (fun j hj => ?_) nofun
  cases List.mem_singleton.mp hj
  rw [h.stages]
  exact ⟨Int64.lt_iff_toInt_lt.mpr (h.ingress_id h.inOnward.proper.entry).1,
    h.exists_isAt_ingress .entry⟩

/-- The exit of the ingress control leads to the multicast stage. -/
theorem from_ingressExitFlow :
    (ingressExitFlow o.stages o.ingress.exit).From o.ingress.exit.id
      (o.Later o.ingress.exit.id) :=
  from_resubmit rfl
    ⟨Int64.lt_iff_toInt_lt.mpr (h.ingress_id h.inOnward.exit).2, _, h.noGroupFlow_mem, rfl⟩

/-- Without a group, the multicast stage leads to the egress control. -/
theorem from_noGroupFlow :
    (noGroupFlow ports o.stages).From o.stages.multicast (o.Later o.stages.multicast) := by
  have hentry := (h.egress_id h.outOnward.proper.entry).1
  refine from_resubmit rfl ⟨Int64.lt_iff_toInt_lt.mpr ?_, ?_⟩
  · rw [h.stages] at hentry ⊢
    exact hentry
  · rw [h.stages]
    exact h.exists_isAt_egress .entry

theorem inRange_of_le {stage : Int64} (hle : 0 ≤ stage.toInt)
    (hmax : stage.toInt ≤ o.stages.multicast.toInt ∨ stage.toInt ≤ t.maxStage.toInt) :
    0 ≤ stage ∧ stage ≤ t.maxStage := by
  have hroom := h.room
  have hmulticast := h.multicast_toInt
  have hout : 2 ≤ stageCount outControl := Nat.le_add_left 2 _
  rw [Int64.le_iff_toInt_le, Int64.le_iff_toInt_le, Int64.toInt_zero]
  omega

/-- **Every flow but one leads to later stages that have flows.**  Each is at a stage that the switch
has. -/
theorem from_or_group (hf : f ∈ o.flows) :
    ∃ stage, (0 ≤ stage ∧ stage ≤ t.maxStage) ∧
      (f.From stage (o.Later stage) ∨ stage = o.stages.multicast ∧ f = groupFlow ports o.stages) := by
  have hmulticast := h.multicast_toInt
  obtain ⟨inBlocks, outBlocks, hin, hout, hflows⟩ := h.flows
  rw [hflows, List.mem_cons, List.mem_append, List.mem_cons, List.mem_cons] at hf
  rcases hf with rfl | hf | rfl | rfl | hf
  · have hzero : initStage.toInt = 0 := rfl
    exact ⟨_, h.inRange_of_le (by omega) (Or.inl (by omega)), Or.inl h.from_initFlow⟩
  · rcases mem_blocks h.inOnward hin hf with hf | ⟨v, _, hv, -, -, -, hf⟩
    · cases List.mem_singleton.mp hf
      have hid := h.ingress_id h.inOnward.exit
      exact ⟨_, h.inRange_of_le hid.1.le (Or.inl hid.2.le), Or.inl h.from_ingressExitFlow⟩
    · have hid := h.ingress_id (h.inOnward.proper.mem_vertices_of_reaches hv)
      refine ⟨v.id, h.inRange_of_le hid.1.le (Or.inl hid.2.le), Or.inl (hf.mono ?_)⟩
      rintro j ⟨w, hw, hlt, rfl⟩
      exact ⟨hlt, h.exists_isAt_ingress hw⟩
  · exact ⟨_, h.inRange_of_le (by omega) (Or.inl le_rfl), Or.inl h.from_noGroupFlow⟩
  · exact ⟨_, h.inRange_of_le (by omega) (Or.inl le_rfl), Or.inr ⟨rfl, rfl⟩⟩
  · rcases mem_blocks h.outOnward hout hf with hf | ⟨v, _, hv, -, -, -, hf⟩
    · have hid := h.egress_id h.outOnward.exit
      exact ⟨_, h.inRange_of_le (by omega) (Or.inr hid.2),
        Or.inl ((from_egressExitFlows ports _ f hf).mono fun _ => False.elim)⟩
    · have hid := h.egress_id (h.outOnward.proper.mem_vertices_of_reaches hv)
      refine ⟨v.id, h.inRange_of_le (by omega) (Or.inr hid.2), Or.inl (hf.mono ?_)⟩
      rintro j ⟨w, hw, hlt, rfl⟩
      exact ⟨hlt, h.exists_isAt_egress hw⟩

/-- Every flow is at a stage that the switch has. -/
theorem inRange_of_isAt (hf : f ∈ o.flows) {stage : Int64} (hat : f.IsAt stage) :
    0 ≤ stage ∧ stage ≤ t.maxStage := by
  obtain ⟨x, hrange, hfrom | ⟨rfl, rfl⟩⟩ := h.from_or_group hf
  · rwa [← List.singleton_inj.mp (hfrom.isAt.symm.trans hat)]
  · have hgroup : (groupFlow ports o.stages).IsAt o.stages.multicast := rfl
    rwa [← List.singleton_inj.mp (hgroup.symm.trans hat)]

theorem isAt_ingressExitFlow :
    ∀ f ∈ [ingressExitFlow o.stages o.ingress.exit], f.IsAt o.ingress.exit.id :=
  List.forall_mem_singleton.mpr h.from_ingressExitFlow.isAt

/-- The flows of the first stage, of the ingress control, of the multicast stage and of the egress
control, one after the other. -/
theorem exists_blocks :
    ∃ inBlocks outBlocks,
      GraphBlocks b inControl o.ingress (fun v => [ingressExitFlow o.stages v]) inBlocks ∧
      GraphBlocks b outControl o.egress (egressExitFlows ports) outBlocks ∧
      AllAt (· = 0) [initFlow ports o.stages] ∧
      AllAt (fun n => 0 < n ∧ n < o.stages.multicast.toInt) inBlocks.flatten ∧
      AllAt (· = o.stages.multicast.toInt) [noGroupFlow ports o.stages, groupFlow ports o.stages] ∧
      AllAt (o.stages.multicast.toInt < ·) outBlocks.flatten ∧
      o.flows = [initFlow ports o.stages] ++ (inBlocks.flatten ++
        ([noGroupFlow ports o.stages, groupFlow ports o.stages] ++ outBlocks.flatten)) := by
  obtain ⟨inBlocks, outBlocks, hin, hout, hflows⟩ := h.flows
  refine ⟨inBlocks, outBlocks, hin, hout, ?_, fun f hf => ?_, ?_, fun f hf => ?_, hflows⟩
  · exact List.forall_mem_singleton.mpr ⟨_, h.from_initFlow.isAt, rfl⟩
  · obtain ⟨w, hw, hfw⟩ := exists_isAt_of_mem h.inOnward h.isAt_ingressExitFlow hin hf
    exact ⟨w.id, hfw, h.ingress_id hw⟩
  · exact List.forall_mem_cons.mpr ⟨⟨_, h.from_noGroupFlow.isAt, rfl⟩,
      List.forall_mem_singleton.mpr ⟨_, rfl, rfl⟩⟩
  · obtain ⟨w, hw, hfw⟩ := exists_isAt_of_mem h.outOnward (isAt_egressExitFlows ports _) hout hf
    exact ⟨w.id, hfw, (h.egress_id hw).1⟩

theorem flowsAt_init : o.flowsAt initStage = [initFlow ports o.stages] := by
  obtain ⟨inBlocks, outBlocks, -, -, -, hin, hmid, hout, hflows⟩ := h.exists_blocks
  have hmulticast := h.multicast_toInt
  have hzero : initStage.toInt = 0 := rfl
  simp only [Output.flowsAt, hflows, List.filter_append]
  rw [hin.filter_eq_nil (by omega), hmid.filter_eq_nil (by omega), hout.filter_eq_nil (by omega)]
  exact (List.append_nil _).trans (List.filter_eq_self.mpr
    (List.forall_mem_singleton.mpr (decide_eq_true h.from_initFlow.isAt)))

theorem flowsAt_ingress (hv : o.ingress.Reaches v) :
    if v.position = o.ingress.exit.position then o.flowsAt v.id = [ingressExitFlow o.stages v]
    else StageFlows b (rightTables inControl) o.ingress v (o.flowsAt v.id) := by
  obtain ⟨inBlocks, outBlocks, hblocks, -, hinit, -, hmid, hout, hflows⟩ := h.exists_blocks
  have hid := h.ingress_id (h.inOnward.proper.mem_vertices_of_reaches hv)
  simp only [Output.flowsAt, hflows, List.filter_append]
  rw [hinit.filter_eq_nil (by omega), hmid.filter_eq_nil (by omega), hout.filter_eq_nil (by omega),
    List.nil_append, List.append_nil, List.append_nil]
  exact block_flatten h.inOnward h.isAt_ingressExitFlow hblocks hv

theorem flowsAt_egress (hv : o.egress.Reaches v) :
    if v.position = o.egress.exit.position then o.flowsAt v.id = egressExitFlows ports v
    else StageFlows b (rightTables outControl) o.egress v (o.flowsAt v.id) := by
  obtain ⟨inBlocks, outBlocks, -, hblocks, hinit, hin, hmid, -, hflows⟩ := h.exists_blocks
  have hid := h.egress_id (h.outOnward.proper.mem_vertices_of_reaches hv)
  have hmulticast := h.multicast_toInt
  simp only [Output.flowsAt, hflows, List.filter_append]
  rw [hinit.filter_eq_nil (by omega), hin.filter_eq_nil (by omega), hmid.filter_eq_nil (by omega)]
  exact block_flatten h.outOnward (isAt_egressExitFlows ports _) hblocks hv

/-- A packet that leaves the egress control is dropped or sent. -/
theorem flowsAt_egressExit : o.flowsAt o.egress.exit.id = egressExitFlows ports o.egress.exit := by
  have hexit := h.flowsAt_egress h.outOnward.reaches_exit
  rwa [if_pos rfl] at hexit

/-- **The flows of a stage with a table** are the flows of that table. -/
theorem tableFlows {g : Graph} (hat : TableAt p o g v x) :
    TableFlows b x g v (o.flowsAt v.id) := by
  cases hat with
  | ingress hc happlies =>
    cases h.ingress.symm.trans hc
    exact tableFlows_of_appliesAt h.inOnward (h.inGraph ▸ rfl) happlies
      (h.flowsAt_ingress happlies.reaches)
  | egress hc happlies =>
    cases h.egress.symm.trans hc
    exact tableFlows_of_appliesAt h.outOnward (h.outGraph ▸ rfl) happlies
      (h.flowsAt_egress happlies.reaches)

theorem origin (hf : f ∈ o.flows) : Origin p o ports f := by
  have hmem := hf
  obtain ⟨inBlocks, outBlocks, hin, hout, hflows⟩ := h.flows
  rw [hflows, List.mem_cons, List.mem_append, List.mem_cons, List.mem_cons] at hf
  rcases hf with rfl | hf | rfl | rfl | hf
  · exact .init
  · exact origin_of_mem_blocks h.inOnward (Or.inl rfl) (.ingress h.ingress)
      (List.forall_mem_singleton.mpr .ingressExit) hin hf hmem
  · exact .noGroup
  · exact .group
  · exact origin_of_mem_blocks h.outOnward (Or.inr rfl) (.egress h.egress)
      (fun _ => .egressExit) hout hf hmem

theorem mem_of_tableAt {g : Graph} (hat : TableAt p o g v x) :
    x ∈ inControl.tables ++ outControl.tables := by
  cases hat with
  | ingress hc happlies =>
    cases h.ingress.symm.trans hc
    exact List.mem_append_left _ (List.mem_of_find?_eq_some happlies.table)
  | egress hc happlies =>
    cases h.egress.symm.trans hc
    exact List.mem_append_right _ (List.mem_of_find?_eq_some happlies.table)

end Compiled

/-- A table of the ingress control is applied if a stage of its graph bears its name. -/
theorem exists_tableAt_ingress {p : Program} {t : Target} {o : Output}
    (h : (compile p t).result = .ok o) {c : Control} (hc : p.ingress = some c)
    (hx : c.table? x.name = some x) (hstage : ((graphOf c (initStage + 1)).reachable.any
      fun v => v.role.table? == some x.name) = true) : ∃ v, TableAt p o o.ingress v x := by
  obtain ⟨inControl, outControl, ports, b, hb⟩ := compiled_of_ok h
  cases hc.symm.trans hb.ingress
  obtain ⟨v, hv⟩ := exists_appliesAt hb.inOnward hx (hb.inGraph ▸ hstage)
  exact ⟨v, .ingress hc hv⟩

end Flowline.Compile
