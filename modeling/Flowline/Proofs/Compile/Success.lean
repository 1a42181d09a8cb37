import Flowline.Compile.Program
import Flowline.Proofs.Compile.Flows
import Flowline.Proofs.ControlFlow.Onward

/-!
# What a successful compilation has done

`Compiled` collects what is known of a program that was compiled: how stages are numbered, that all
tables are right, what is declared, and which flows there are, stage by stage.  It is read off the
functions once, in `compiled_of_ok`, and nothing later looks at them again.

The output is made from the state at the end, in which every problem on the way is still there.  So
`draft` takes everything but the output apart as one emission, and a compilation with an output is a
draft that reports nothing and leaves no text and no mask that does not exist (`draft_of_ok`).

Three parts of the state are followed on their own.

* Registers.  The two reserved names are served first, by a register file that has given out none, so
  the group gets a new register of sixteen bits (`reserved_group`).  Metadata and locals come next
  (`Housed`).  Later calls take nothing back, and all is said of the registers at the end
  (`finalRegisters`).
* Tables.  A table that passes its checks is `Right`: its keys denote registers, nothing is wrong with
  its entries and its default, and the bodies of its actions are lowered.  Tables are checked before
  flows are emitted, so all of them are good by then (`AllGood`).
* Flows.  Each stage has its block, in the order of the stages (`GraphBlocks`, `ProgramFlows`).

The program at the end has a table with constant entries and one that the control plane fills.
-/

namespace Flowline.Compile

open ControlFlow (Graph Vertex build graphOf stageCount)
open Lower
open Pipeline (Control DefaultAction Entry Key Program Table)
open Switch (Allocator Register Target)

/-! ## Registers -/

theorem ensures_allocate (name : Text) (declared minimum : Int64) (isBool : Bool) :
    Ensures (allocate name declared minimum isBool) fun _ _ => True :=
  ⟨fun h => (yields_allocate h).1, fun _ _ _ => trivial⟩

theorem lookup_of_gives_allocate {b : Allocator} {name : Text} {declared minimum : Int64}
    {isBool : Bool} {r : Register} (h : Gives b (allocate name declared minimum isBool) r) :
    b.lookup name = some r := by
  obtain ⟨a, a', hyields, hgrows⟩ := h
  exact hgrows.lookup (yields_allocate hyields).2

theorem emits_reserve (owner : Text) :
    Emits (reserve owner) fun b r fs => b.allocator.lookup owner = some r ∧ fs = [] := by
  refine (emits_lower? (ensures_allocate owner 16 16 false)).bind fun r => emits_pure fun b => ?_
  rintro _ ⟨v, rfl, hv, rfl⟩
  exact ⟨lookup_of_gives_allocate hv, rfl⟩

theorem emits_discard {α : Type} {m : Lowering α} {P : Layout → α → Prop} (hm : Ensures m P) :
    Emits (discard (lower? m)) fun b _ fs => (∃ v, Gives b.allocator m v) ∧ fs = [] := by
  have hbind : discard (lower? m) = lower? m >>= fun _ => pure PUnit.unit := rfl
  rw [hbind]
  refine (emits_lower? hm).bind fun _ => emits_pure ?_
  rintro b _ ⟨v, _, hv, rfl⟩
  exact ⟨⟨v, hv⟩, rfl⟩

/-- Metadata and locals have registers. -/
structure Housed (p : Program) (a : Allocator) : Prop where
  metadata : ∀ f ∈ p.metadata, ownsRegister f = true → ∃ r, a.lookup f.name = some r
  locals : ∀ l ∈ p.controls.flatMap (·.locals), ∃ r, a.lookup l.fullName = some r

/-- A field without a place in the packet or among the reserved registers asks for its own. -/
theorem fieldRegister_of_owns {f : Field} (h : ownsRegister f = true) :
    fieldRegister f = allocate f.name f.type.width f.type.minWidth f.type.isBool := by
  simp only [ownsRegister, Bool.and_eq_true, Option.isNone_iff_eq_none, beq_iff_eq] at h
  unfold fieldRegister
  rw [h.1, h.2]

theorem emits_allocateNamed (p : Program) (output group : Register) :
    Emits (allocateNamed p output group) fun b ports fs =>
      (ports.output = output ∧ ports.group = group ∧
        ports.dropPort = b.allocator.target.dropPort) ∧ Housed p b.allocator ∧ fs = [] := by
  refine (Emits.forM_nil (fun f => emits_discard (ensures_fieldRegister f)) _).bind fun _ => ?_
  refine (Emits.forM_nil (fun l => emits_discard (ensures_localRegister l)) _).bind fun _ => ?_
  refine emits_get.bind fun s => emits_pure fun b => ?_
  rintro _ ⟨hlater, rfl⟩ _ ⟨hlocals, rfl⟩ _ ⟨hfields, rfl⟩
  refine ⟨⟨rfl, rfl, by rw [hlater.grows.target_eq]⟩, ⟨fun f hf howns => ?_, fun l hl => ?_⟩, rfl⟩
  · obtain ⟨r, hr⟩ := hfields f (List.mem_filter.mpr ⟨hf, howns⟩)
    rw [fieldRegister_of_owns howns] at hr
    exact ⟨r, lookup_of_gives_allocate hr⟩
  · obtain ⟨r, hr⟩ := hlocals l hl
    exact ⟨r, lookup_of_gives_allocate hr⟩

/-- The reserved names own the reserved registers, and metadata and locals their own. -/
theorem emits_allocateStorage (p : Program) :
    Emits (allocateStorage p) fun b ports fs =>
      (b.allocator.lookup outputPort = some ports.output ∧
        b.allocator.lookup multicastGroup = some ports.group ∧
        ports.dropPort = b.allocator.target.dropPort) ∧ Housed p b.allocator ∧ fs = [] := by
  rw [allocateStorage]
  refine (emits_reserve _).bind fun output => (emits_reserve _).bind fun group => ?_
  refine (emits_allocateNamed p output group).mono ?_
  rintro b ports _ ⟨⟨rfl, rfl, hdrop⟩, hhoused, rfl⟩ _ ⟨hgroup, rfl⟩ _ ⟨houtput, rfl⟩
  exact ⟨⟨houtput, hgroup, hdrop⟩, hhoused, rfl⟩

/-- A register of sixteen bits that bears the name of its owner. -/
structure Reserved (owner : Text) (r : Register) : Prop where
  owner_eq : r.owner = owner
  high_eq : r.high = r.low + 16 - 1
  field_eq : r.field = none

/-- A name without a register gets a new one. -/
theorem yields_allocate_of_none {name : Text} {r : Register} {a a' : Allocator}
    (hnone : a.lookup name = none) (h : Yields (allocate name 16 16 false) a r a') :
    Reserved name r ∧ a'.owners = a.owners ++ [(name, r)] := by
  rcases Allocator.allocate_eq_ok (yields_allocate_iff.1 h) with ⟨hold, -⟩ | ⟨-, -, hplace⟩
  · rw [hnone] at hold
    cases hold
  · obtain ⟨_, _, _, -, -, -, rfl, rfl⟩ := Allocator.place_eq_ok hplace
    exact ⟨⟨rfl, rfl, rfl⟩, rfl⟩

theorem after_reserve {owner : Text} {s : State} (hnone : s.allocator.lookup owner = none)
    (hs : (after (reserve owner) s).2.problems = s.problems) :
    Reserved owner (after (reserve owner) s).1 ∧
      (after (reserve owner) s).2.allocator.owners =
        s.allocator.owners ++ [(owner, (after (reserve owner) s).1)] := by
  unfold reserve lower? at hs ⊢
  simp only [after_bind] at hs ⊢
  cases h : (after (lower (allocate owner 16 16 false)) s).1 with
  | ok r =>
    have hyields : Yields (allocate owner 16 16 false) s.allocator r _ := Prod.ext h rfl
    exact yields_allocate_of_none hnone hyields
  | error p =>
    rw [h] at hs
    have hne : s.problems ++ [p] = s.problems := hs
    simp at hne

/-- If storage is allocated without a problem, so are the two reserved registers, one after the
other. -/
theorem quiet_reserves {p : Program} {s : State}
    (hs : (after (allocateStorage p) s).2.problems = s.problems) :
    (after (reserve outputPort) s).2.problems = s.problems ∧
      (after (reserve multicastGroup) (after (reserve outputPort) s).2).2.problems =
        (after (reserve outputPort) s).2.problems := by
  rw [allocateStorage] at hs
  have hnamed : ∀ output group s',
      s'.problems <+: (after (allocateNamed p output group) s').2.problems :=
    fun output group => (emits_allocateNamed p output group).reports
  have hfirst : (after (reserve outputPort) s).2.problems = s.problems :=
    (emits_reserve outputPort).first_problems (fun output s' =>
      ((emits_reserve multicastGroup).reports s').trans (hnamed output _ _)) hs
  exact ⟨hfirst, (emits_reserve multicastGroup).first_problems (hnamed _) (hs.trans hfirst.symm)⟩

theorem reserved_group (p : Program) (t : Target)
    (hs : (after (allocateStorage p) { allocator := .fresh t }).2.problems = []) :
    Reserved multicastGroup (after (allocateStorage p) { allocator := .fresh t }).1.group := by
  set s : State := { allocator := .fresh t }
  obtain ⟨hfirst, hsecond⟩ := quiet_reserves (s := s) hs
  rw [allocateStorage]
  obtain ⟨-, howners⟩ := after_reserve (by rfl) hfirst
  have hnone : (after (reserve outputPort) s).2.allocator.lookup multicastGroup = none := by
    rw [Allocator.lookup, howners]
    rfl
  exact (after_reserve hnone hsecond).1

/-! ## Graphs -/

/-- A graph that is built without problems is the graph of its control. -/
theorem emits_buildGraph (c : Control) (first : Int64) :
    Emits (buildGraph c first) fun _ r fs =>
      r = (some (graphOf c first), first + Int64.ofNat (stageCount c)) ∧ fs = [] := by
  unfold buildGraph
  have hnext := ControlFlow.build_snd c first
  split
  · next r next hbuild =>
    refine (emits_report _).bind fun _ => emits_pure ?_
    rintro b _ ⟨rfl, rfl⟩
    exact absurd (by rw [hbuild]) (ControlFlow.build_ne_error_nil c first)
  · next g next hbuild =>
    have hg : g = graphOf c first := ControlFlow.build_eq_ok (by rw [hbuild])
    rw [hbuild] at hnext
    refine (emits_note _).bind fun _ => ?_
    split
    · refine emits_pure ?_
      rintro b _ rfl
      exact ⟨by rw [hg, ← hnext], rfl⟩
    · next r hr =>
      refine (emits_report _).bind fun _ => emits_pure ?_
      rintro b _ ⟨hnil, -⟩
      exact absurd hnil hr

/-! ## Tables -/

/-- A table of the right shape, whose keys are in registers and whose actions have been lowered. -/
structure Right (b : State) (t : Table) : Prop where
  keys : ∀ k ∈ t.keys, k.kind ≠ .range ∧ ∃ r, Gives b.allocator (keyRegister k) r
  truths : ∀ k ∈ t.keys, k.expr.type.isBool = true → k.kind = .exact
  actions : t.actions ≠ []
  entries : ∀ e ∈ t.entries.zipIdx, checkEntry t e.2 e.1 = []
  default : ∀ d ∈ t.default?, checkDefault t d = []
  bodies : ∀ r ∈ t.actions, ∃ act,
    Gives b.allocator (body (paramVars r.action) 0 r.action.body) act

theorem ensures_keyRegister (k : Key) : Ensures (keyRegister k) fun _ _ => True := by
  refine (ensures_value_nil k.expr).bind fun v => ?_
  split
  · exact ensures_pure fun _ _ => trivial
  · exact ensures_refuse _ _

theorem checks_checkKey (k : Key) :
    Checks (checkKey k) fun b => (k.kind ≠ .range ∧ ∃ r, Gives b.allocator (keyRegister k) r) ∧
      (k.expr.type.isBool = true → k.kind = .exact) := by
  unfold checkKey
  split
  · exact checks_pure nofun
  · next hrange =>
    split
    · exact checks_pure nofun
    · next htruth =>
      refine (checks_refusal (ensures_keyRegister k)).mono fun b hr => ⟨⟨hrange, hr⟩, fun hbool => ?_⟩
      exact not_not.mp fun hkind => htruth ⟨hbool, hkind⟩

theorem checks_checkBody (t : Table) (a : Pipeline.Action) :
    Checks (checkBody t a) fun b => ∃ act, Gives b.allocator (body (paramVars a) 0 a.body) act := by
  refine (checks_refusal (ensures_body_within _ _ _)).bind fun r => checks_pure fun hr _ => ?_
  exact ⟨List.map_eq_nil_iff.mp hr, id⟩

theorem checks_checkTable (t : Table) : Checks (checkTable t) fun b => Right b t := by
  refine (checks_checkAll checks_checkKey t.keys).bind fun keys => ?_
  refine (checks_checkAll (fun r : Pipeline.ActionRef => checks_checkBody t r.action)
    t.actions).bind fun bodies => ?_
  refine checks_pure fun hnil b => ?_
  simp only [List.append_eq_nil_iff] at hnil
  obtain ⟨⟨⟨⟨hactions, hkeys⟩, hentries⟩, hdefault⟩, hbodies⟩ := hnil
  refine ⟨hbodies, fun hlowered => ⟨hkeys, fun hright =>
    ⟨fun k hk => (hright k hk).1, fun k hk => (hright k hk).2, ?_, ?_, ?_, hlowered⟩⟩⟩
  · intro hempty
    rw [hempty] at hactions
    cases hactions
  · intro e he
    rw [List.flatten_eq_nil_iff] at hentries
    refine hentries _ ?_
    rw [List.mapIdx_eq_zipIdx_map]
    exact List.mem_map_of_mem he
  · intro d hd
    rw [Option.mem_def.mp hd] at hdefault
    exact hdefault

theorem emits_checked (t : Table) :
    Emits (checked t) fun b c fs => (c = ⟨t, true⟩ ∧ Right b t) ∧ fs = [] where
  reports s := by
    show s.problems <+: (after (checkTable t) s).2.problems ++ _
    rw [(checks_checkTable t).problems s]
    exact List.prefix_append _ _
  runs s hs := by
    have hnil : (after (checkTable t) s).1 = [] := by
      have happend : (after (checkTable t) s).2.problems ++ (after (checkTable t) s).1 =
          s.problems := hs
      rwa [(checks_checkTable t).problems s, List.append_right_eq_self] at happend
    obtain ⟨hlater, hright⟩ := (checks_checkTable t).finds s hnil
    refine ⟨⟨hlater.grows, hlater.widths⟩, [], ?_, fun b hb => ⟨⟨?_, ?_⟩, rfl⟩⟩
    · exact ((checks_checkTable t).flows s).trans (List.append_nil _).symm
    · show (⟨t, (after (checkTable t) s).1.isEmpty⟩ : Checked) = _
      rw [hnil]
      rfl
    · exact hright b ⟨hb.grows, hb.widths⟩

/-- The tables of a control, found to be right. -/
def rightTables (c : Control) : List Checked := c.tables.map fun t => ⟨t, true⟩

theorem emits_mapM_checked (ts : List Table) :
    Emits (ts.mapM checked) fun b cs fs =>
      (cs = ts.map (fun t => ⟨t, true⟩) ∧ ∀ t ∈ ts, Right b t) ∧ fs = [] := by
  refine (Emits.mapM emits_checked ts).mono ?_
  rintro b cs _ ⟨hcs, rfl⟩
  refine ⟨⟨?_, fun t ht => ?_⟩, rfl⟩
  · induction hcs with
    | nil => rfl
    | cons h _ ih => rw [ih, h.1, List.map_cons]
  · obtain ⟨c, -, h⟩ := exists_of_mem_left hcs ht
    exact h.2

/-! ## Flows around the graphs -/

/-- The blocks of flows of a graph, one for each stage that packets can come to. -/
def GraphBlocks (b : State) (c : Control) (g : Graph) (exitFlows : Vertex → List StageFlow)
    (blocks : List (List StageFlow)) : Prop :=
  List.Forall₂ (fun v block => if v.position = g.exit.position then block = exitFlows v
    else StageFlows b (rightTables c) g v block) g.reachable blocks

/-- The flows of a program: of the first stage, of the ingress control, of the multicast stage and
of the egress control. -/
def ProgramFlows (b : State) (inControl outControl : Control) (ports : Ports) (stages : Stages)
    (ingress egress : Graph) (fs : List StageFlow) : Prop :=
  ∃ inBlocks outBlocks,
    GraphBlocks b inControl ingress (fun v => [ingressExitFlow stages v]) inBlocks ∧
    GraphBlocks b outControl egress (egressExitFlows ports) outBlocks ∧
    fs = initFlow ports stages :: (inBlocks.flatten ++
      (noGroupFlow ports stages :: groupFlow ports stages :: outBlocks.flatten))

theorem allGood_rightTables (c : Control) : AllGood (rightTables c) := by
  intro x hx
  obtain ⟨t, -, rfl⟩ := List.mem_map.mp hx
  rfl

theorem emits_emitFlows (inControl outControl : Control) (ports : Ports) (stages : Stages)
    (ingress egress : Graph) (inTables outTables : List Checked) :
    Emits (emitFlows ports stages ingress egress inTables outTables) fun b _ fs =>
      inTables = rightTables inControl → outTables = rightTables outControl →
        ProgramFlows b inControl outControl ports stages ingress egress fs := by
  refine (emits_emitAll _).bind fun _ => (emits_emitGraph inTables ingress _).bind fun _ => ?_
  refine (emits_emitAll _).bind fun _ => (emits_emitGraph outTables egress _).mono ?_
  rintro b - _ hout _ rfl _ hin _ rfl rfl rfl
  obtain ⟨inBlocks, rfl, hinBlocks⟩ := hin (allGood_rightTables _)
  obtain ⟨outBlocks, rfl, houtBlocks⟩ := hout (allGood_rightTables _)
  refine ⟨inBlocks, outBlocks, hinBlocks, houtBlocks, ?_⟩
  rw [List.singleton_append]
  rfl

/-! ## The whole -/

/-- The number of the multicast stage, behind the stages of the ingress control. -/
def multicastStage (inControl : Control) : Int64 :=
  initStage + 1 + Int64.ofNat (stageCount inControl)

/-- Faults are reported at the end of the draft. -/
theorem after_compileControls (p : Program) (inControl outControl : Control) (s : State) :
    after (compileControls p inControl outControl) s =
      match after (draft p inControl outControl) s with
      | (some d, s') => (some d, { s' with problems := s'.problems ++ faults s' })
      | (none, s') => (none, s') := by
  rw [compileControls, after_bind]
  rcases after (draft p inControl outControl) s with ⟨_ | d, s'⟩ <;> rfl

/-- The register file at the end of a compilation. -/
def finalRegisters (p : Program) (t : Target) : Allocator :=
  match p.ingress, p.egress with
  | some inControl, some outControl =>
    (after (compileControls p inControl outControl) { allocator := .fresh t }).2.allocator
  | _, _ => .fresh t

/-- What is known of a program that was compiled. -/
structure Compiled (p : Program) (t : Target) (o : Output) (inControl outControl : Control)
    (ports : Ports) (b : State) : Prop where
  ingress : p.ingress = some inControl
  egress : p.egress = some outControl
  inGraph : o.ingress = graphOf inControl (initStage + 1)
  outGraph : o.egress = graphOf outControl (multicastStage inControl + 1)
  stages : o.stages = stagesOf o.ingress o.egress (multicastStage inControl)
  /-- The number of the last stage. -/
  room : (stageCount inControl : Int) + 1 + stageCount outControl ≤ t.maxStage.toInt
  target : b.allocator.target = t
  registers : b.allocator = finalRegisters p t
  reserved : Reserved multicastGroup ports.group
  output : b.allocator.lookup outputPort = some ports.output
  group : b.allocator.lookup multicastGroup = some ports.group
  dropPort : ports.dropPort = t.dropPort
  tables : ∀ x ∈ inControl.tables ++ outControl.tables, Right b x
  declarations : o.declarations =
    builtinDecls ++ (inControl.tables ++ outControl.tables).flatMap tableDecls
  helpers : o.helpers =
    registerHelpers b.allocator.allocated ++ prefixMaskHelpers b.prefixWidths
  flows : ProgramFlows b inControl outControl ports o.stages o.ingress o.egress o.flows
  /-- The texts of all flows exist. -/
  texts : ∀ f ∈ o.flows, f.hasText t.limits = true
  /-- The masks of all prefix lengths exist. -/
  widths : ∀ w ∈ b.prefixWidths, t.limits.canShift w = true
  /-- The masks of all registers exist. -/
  masks : ∀ r ∈ b.allocator.allocated, r.hasMask t.limits = true

theorem faults_eq_nil {s : State} (h : faults s = []) :
    (∀ f ∈ s.flows, f.hasText s.allocator.target.limits = true) ∧
      (∀ w ∈ s.prefixWidths, s.allocator.target.limits.canShift w = true) ∧
      ∀ r ∈ s.allocator.allocated, r.hasMask s.allocator.target.limits = true := by
  unfold faults at h
  dsimp only at h
  split at h
  · next hall =>
    simp only [Bool.and_eq_true, List.all_eq_true] at hall
    exact ⟨hall.1.1, hall.1.2, hall.2⟩
  · cases h

theorem declarationsOf_rightTables (c : Control) :
    declarationsOf (rightTables c) = c.tables.flatMap tableDecls := by
  rw [declarationsOf, rightTables, List.filter_eq_self.mpr, List.flatMap_map]
  intro x hx
  obtain ⟨t, -, rfl⟩ := List.mem_map.mp hx
  rfl

/-- As many stages as there are follow the first one, and the switch has them all. -/
theorem le_of_checkStages {count : Nat} {last maxStage : Int64}
    (h : checkStages count last maxStage = []) : (count : Int) ≤ maxStage.toInt := by
  unfold checkStages at h
  split at h
  · cases h
  · next hcount =>
    split at h
    · cases h
    · next hlast =>
      rw [gt_iff_lt, Int64.lt_iff_toInt_lt] at hlast
      rw [ne_eq, not_not] at hcount
      omega

theorem emits_draftFrom (inControl outControl : Control) (ports : Ports) :
    Emits (draftFrom inControl outControl ports) fun b r fs =>
      let ingress := graphOf inControl (initStage + 1)
      let egress := graphOf outControl (multicastStage inControl + 1)
      r = some ⟨ingress, egress, multicastStage inControl, rightTables inControl,
        rightTables outControl⟩ ∧
      (stageCount inControl : Int) + 1 + stageCount outControl ≤
        b.allocator.target.maxStage.toInt ∧
      (∀ x ∈ inControl.tables ++ outControl.tables, Right b x) ∧
      ProgramFlows b inControl outControl ports
        (stagesOf ingress egress (multicastStage inControl)) ingress egress fs := by
  refine (emits_buildGraph inControl _).bind fun r => ?_
  obtain ⟨ingress, multicast⟩ := r
  refine (emits_buildGraph outControl _).bind fun r => ?_
  obtain ⟨egress, next⟩ := r
  cases ingress with
  | none => exact emits_pure fun _ _ _ _ h => by simp at h
  | some ingress =>
    cases egress with
    | none => exact emits_pure fun _ _ h => by simp at h
    | some egress =>
      refine emits_get.bind fun s => (emits_report _).bind fun _ => ?_
      refine (emits_mapM_checked _).bind fun inTables => ?_
      refine (emits_mapM_checked _).bind fun outTables => ?_
      refine (emits_emitFlows inControl outControl _ _ _ _ _ _).bind fun _ => emits_pure fun b => ?_
      rintro fs hflows _ ⟨⟨rfl, hout⟩, rfl⟩ _ ⟨⟨rfl, hin⟩, rfl⟩ _ ⟨hstages, rfl⟩ _ ⟨hlater, rfl⟩
        _ ⟨hegress, rfl⟩ _ ⟨hingress, rfl⟩
      simp only [Prod.mk.injEq, Option.some.injEq] at hingress
      obtain ⟨rfl, rfl⟩ := hingress
      simp only [Prod.mk.injEq, Option.some.injEq] at hegress
      obtain ⟨rfl, rfl⟩ := hegress
      have hroom := le_of_checkStages hstages
      rw [← hlater.grows.target_eq] at hroom
      refine ⟨rfl, ?_, ?_, ?_⟩
      · simpa [graphOf, Graph.ofPreds, ControlFlow.length_nodesOf] using hroom
      · intro x hx
        exact (List.mem_append.mp hx).elim (hin x) (hout x)
      · simp only [List.append_nil, List.nil_append]
        exact hflows rfl rfl

theorem draft_eq_some {p : Program} {t : Target} {inControl outControl : Control} {b : State}
    {d : Draft}
    (h : after (draft p inControl outControl) { allocator := .fresh t } = (some d, b))
    (hnone : b.problems = []) :
    let ingress := graphOf inControl (initStage + 1)
    let egress := graphOf outControl (multicastStage inControl + 1)
    let ports := (after (allocateStorage p) { allocator := .fresh t }).1
    d = ⟨ingress, egress, multicastStage inControl, rightTables inControl,
      rightTables outControl⟩ ∧
    (stageCount inControl : Int) + 1 + stageCount outControl ≤ t.maxStage.toInt ∧
    b.allocator.target = t ∧ Reserved multicastGroup ports.group ∧
    b.allocator.lookup outputPort = some ports.output ∧
    b.allocator.lookup multicastGroup = some ports.group ∧ ports.dropPort = t.dropPort ∧
    (∀ x ∈ inControl.tables ++ outControl.tables, Right b x) ∧
    ProgramFlows b inControl outControl ports
      (stagesOf ingress egress (multicastStage inControl)) ingress egress b.flows := by
  set s : State := { allocator := .fresh t }
  have hdraft : (after (draft p inControl outControl) s).2.problems = s.problems := by
    rw [h]
    exact hnone
  have hstorage : (after (allocateStorage p) s).2.problems = s.problems :=
    (emits_allocateStorage p).first_problems
      (fun ports => (emits_draftFrom inControl outControl ports).reports) hdraft
  obtain ⟨hlater, fs, hfs, hports⟩ := (emits_allocateStorage p).runs s hstorage
  have hb : after (draftFrom inControl outControl (after (allocateStorage p) s).1)
      (after (allocateStorage p) s).2 = (some d, b) := h
  obtain ⟨hlater', gs, hgs, hrest⟩ :=
    (emits_draftFrom inControl outControl (after (allocateStorage p) s).1).runs
      (after (allocateStorage p) s).2 (hdraft.trans hstorage.symm)
  rw [hb] at hlater' hgs hrest
  obtain ⟨hd, hroom, htables, hflows⟩ := hrest b (Later.refl b)
  obtain ⟨⟨houtput, hgroup, hdrop⟩, -, rfl⟩ := hports b hlater'
  have htarget : b.allocator.target = t :=
    hlater'.grows.target_eq.trans hlater.grows.target_eq
  have hemitted : b.flows = gs := by
    rw [hgs, hfs]
    rfl
  rw [htarget] at hroom hdrop
  rw [hemitted]
  exact ⟨Option.some.inj hd, hroom, htarget, reserved_group p t hstorage, houtput, hgroup, hdrop,
    htables, hflows⟩

/-- A compilation with an output is a draft without problems, and no text or mask is missing. -/
theorem draft_of_ok {p : Program} {t : Target} {o : Output} (h : (compile p t).result = .ok o) :
    ∃ inControl outControl d b, p.ingress = some inControl ∧ p.egress = some outControl ∧
      after (draft p inControl outControl) { allocator := .fresh t } = (some d, b) ∧
      b.problems = [] ∧ faults b = [] ∧ o = outputOf b d ∧ b.allocator = finalRegisters p t := by
  unfold compile at h
  split at h
  · next inControl outControl hin hout =>
    have hrun : (compileControls p inControl outControl).run { allocator := .fresh t } =
        after (compileControls p inControl outControl) { allocator := .fresh t } := rfl
    rw [hrun, after_compileControls] at h
    rcases hafter : after (draft p inControl outControl) { allocator := .fresh t } with ⟨_ | d, b⟩
    · rw [hafter] at h
      cases h
    · rw [hafter] at h
      dsimp only at h
      split at h
      · next d' heq hproblems =>
        cases heq
        cases h
        obtain ⟨hnone, hfaults⟩ := List.append_eq_nil_iff.mp hproblems
        refine ⟨inControl, outControl, d, b, hin, hout, hafter, hnone, hfaults, rfl, ?_⟩
        rw [finalRegisters, hin, hout]
        show _ = (after (compileControls p inControl outControl) _).2.allocator
        rw [after_compileControls, hafter]
      · cases h
  · cases h

/-- A compilation with an output has found no problem, and leaves what `Compiled` says. -/
theorem compiled_of_ok {p : Program} {t : Target} {o : Output} (h : (compile p t).result = .ok o) :
    ∃ inControl outControl ports b, Compiled p t o inControl outControl ports b := by
  obtain ⟨inControl, outControl, d, b, hin, hout, hafter, hnone, hfaults, rfl, hregisters⟩ :=
    draft_of_ok h
  obtain ⟨htexts, hwidths, hmasks⟩ := faults_eq_nil hfaults
  obtain ⟨rfl, hroom, htarget, hreserved, houtput, hgroup, hdrop, htables, hflows⟩ :=
    draft_eq_some hafter hnone
  rw [htarget] at htexts hwidths hmasks
  refine ⟨inControl, outControl, _, b, hin, hout, rfl, rfl, rfl, hroom, htarget, hregisters,
    hreserved, houtput, hgroup, hdrop, htables, ?_, rfl, hflows, htexts, hwidths, hmasks⟩
  show builtinDecls ++ _ ++ _ = _
  rw [declarationsOf_rightTables, declarationsOf_rightTables, List.flatMap_append,
    List.append_assoc]

theorem Compiled.widths_nonneg {p : Program} {t : Target} {o : Output}
    {inControl outControl : Control} {ports : Ports} {b : State}
    (h : Compiled p t o inControl outControl ports b) : ∀ w ∈ b.prefixWidths, 0 ≤ w.toInt :=
  fun w hw => (Switch.Limits.canShift_iff.mp (h.widths w hw)).1

theorem exists_eq_ok_of_isOk {p : Program} {t : Target} (h : (compile p t).result.isOk = true) :
    ∃ o, (compile p t).result = .ok o := by
  cases ho : (compile p t).result with
  | ok o => exact ⟨o, rfl⟩
  | error r =>
    rw [ho] at h
    cases h

/-! ## A program -/

section

open Pipeline (Action)

/-- A metadata field of eight bits. -/
def sampleKind : Field := { name := "meta.kind", type := { width := 8 } }

/-- A truth value in metadata. -/
def sampleFlag : Field := { name := "meta.flag", type := .truth }

/-- An address of the packet. -/
def sampleAddress : Field :=
  { name := "hdr.ip.dst", type := { width := 32 }, packet := some "nw_dst", prereq := some "ip" }

/-- The output port. -/
def samplePort : Field := { name := "std.port", type := { width := 16 }, builtin := .outputPort }

/-- Sends the packet to a port. -/
def sampleForward : Action where
  control := "Ingress"
  name := "forward"
  params := [{ name := "port", type := { width := 16 } }]
  body := [.assign (.field samplePort)
    (.param { name := "port", type := { width := 16 } } "Ingress.forward")]

/-- Drops the packet and leaves the control. -/
def sampleDrop : Action where
  control := "Ingress"
  name := "drop"
  params := []
  body := [.call none "mark_to_drop" [], .exit]

/-- A table with constant entries, one under a mask and one with a key that is left open. -/
def sampleAcl : Table where
  control := "Ingress"
  name := "acl"
  keys := [⟨"kind", .field sampleKind, .ternary⟩, ⟨"dst", .field sampleAddress, .exact⟩]
  actions := [⟨sampleForward, false, false⟩, ⟨sampleDrop, false, false⟩]
  default? := some ⟨sampleDrop, [], true⟩
  entries :=
    [⟨[.binary .mask (.literal { value := 3 }) (.literal { value := 7 }), .any], sampleDrop, [], 0⟩,
      ⟨[.literal { value := 5 }, .literal { value := 0x0a000001 }], sampleForward,
        [.literal { value := 2 }], 0⟩]
  hasConstEntries := true

/-- A table that the control plane fills, with a key of each kind. -/
def sampleRoute : Table where
  control := "Ingress"
  name := "route"
  keys := [⟨"dst", .field sampleAddress, .lpm⟩, ⟨"kind", .field sampleKind, .ternary⟩,
    ⟨"flag", .field sampleFlag, .exact⟩, ⟨"low", .slice (.field sampleKind) 3 0, .optional⟩]
  actions := [⟨sampleForward, false, false⟩, ⟨sampleDrop, false, false⟩]
  default? := some ⟨sampleDrop, [], false⟩

/-- A control that applies both tables, the second for packets of one kind only. -/
def sampleIngress : Control where
  name := "Ingress"
  params := []
  locals := []
  actions := [sampleForward, sampleDrop]
  tables := [sampleAcl, sampleRoute]
  body := [.apply ⟨"Ingress", "acl"⟩, .ifThen (.binary .eq (.field sampleKind)
    (.literal { value := 1 })) (.apply ⟨"Ingress", "route"⟩)]

/-- A program with this control, and nothing behind it. -/
def sampleProgram : Program where
  headers := []
  metadata := [sampleKind, sampleFlag]
  standard := [samplePort]
  ingress := some sampleIngress
  egress := some
    { name := "Egress", params := [], locals := [], actions := [], tables := [], body := [] }

theorem compile_sampleProgram : ∃ o, (compile sampleProgram {}).result = .ok o :=
  exists_eq_ok_of_isOk (by decide +kernel)

end

end Flowline.Compile
