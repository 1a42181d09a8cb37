import Flowline.Proofs.Compile.Calls
import Flowline.Proofs.Compile.Jumps
import Flowline.Proofs.Compile.Rules
import Flowline.Proofs.Switch.Storing

/-!
# The flows of multicast groups

The multicast stage has two flows: a fact for packets without a group, and a rule over the rows of
the relation of multicast groups.  The rule writes one flow for each group other than zero that has
rows, and the actions of that flow are one copy of the packet for each row (`groupFact`).

What the rule writes is compared with these flows as texts (`StageFlow.WrittenAs`): the number of
the group is filled in at the place of its register, in another base than the flow itself would have
it, and the texts of the copies are joined.

The registers of the output port and of the multicast group are the first ones that are asked for,
so they have sixteen bits each and share none (`Ports.Apart`).
-/

namespace Flowline.Compile

open Ddlog (Env Value)
open Flowline.Flow (Match comparison?)
open Lower (multicastGroup outputPort)
open Pipeline (Control Program)
open Switch (Allocator Register Target)

/-! ## The reserved registers -/

/-- A register of sixteen bits inside its bundle. -/
structure Sixteen (r : Register) : Prop where
  inside : r.Inside
  covers : r.Covers 16
  field_eq : r.field = none

/-- The output port and the multicast group have sixteen bits each, and share none. -/
structure Ports.Apart (t : Target) (ports : Ports) : Prop where
  output : Sixteen ports.output
  group : Sixteen ports.group
  disjoint : (t.bits ports.output).Disjoint (t.bits ports.group)

/-- The first two calls to a register file are for the reserved registers. -/
theorem apart_allocateStorage (p : Program) (t : Target)
    (hs : (after (allocateStorage p) { allocator := .fresh t }).2.problems = []) :
    (after (allocateStorage p) { allocator := .fresh t }).1.Apart t := by
  set s : State := { allocator := .fresh t }
  obtain ⟨hfirst, hsecond⟩ := quiet_reserves (s := s) hs
  rw [allocateStorage]
  set s₁ := (after (reserve outputPort) s).2 with hs₁
  set s₂ := (after (reserve multicastGroup) s₁).2 with hs₂
  obtain ⟨-, _, -, houtput⟩ := (emits_reserve outputPort).runs s hfirst
  obtain ⟨hlater, _, -, hgroup⟩ := (emits_reserve multicastGroup).runs s₁ hsecond
  have houtput := (houtput s₂ hlater).1
  have hgroup := (hgroup s₂ (Later.refl _)).1
  -- all registers so far were asked for with sixteen bits
  have hledger : Allocator.Ledger (fun q => q.declared = 16) s₂.allocator ∧
      s₂.allocator.target = t := by
    obtain ⟨qs, hqs, hserve⟩ := calls_reserve (S := fun q => q.declared = 16) outputPort rfl s
    obtain ⟨qs', hqs', hserve'⟩ := calls_reserve (S := fun q => q.declared = 16) multicastGroup rfl s₁
    rw [hs₂, hserve', hs₁, hserve]
    refine ⟨((Allocator.ledger_fresh t).serve hqs).serve hqs', ?_⟩
    rw [Allocator.target_serve, Allocator.target_serve]
    rfl
  obtain ⟨hledger, htarget⟩ := hledger
  have hsixteen : ∀ {name r}, s₂.allocator.lookup name = some r → Sixteen r := by
    intro name r hr
    obtain ⟨q, hq, hanswers⟩ := hledger.answers _ (Allocator.mem_owners_of_lookup hr)
    exact ⟨hanswers.inside, hq ▸ hanswers.covers, hanswers.field_eq⟩
  have hdisjoint := hledger.disjoint_of_lookup (by decide) houtput hgroup
  rw [htarget] at hdisjoint
  exact ⟨hsixteen houtput, hsixteen hgroup, hdisjoint⟩

namespace Compiled

variable {p : Program} {t : Target} {o : Output} {inControl outControl : Control} {ports : Ports}
  {b : State}

theorem apart (h : Compiled p t o inControl outControl ports b)
    (hok : (compile p t).result = .ok o) : ports.Apart t := by
  obtain ⟨inControl', outControl', d, b', -, -, hafter, hnone, -, -, hregisters⟩ := draft_of_ok hok
  obtain ⟨-, -, -, -, houtput, hgroup, -⟩ := draft_eq_some hafter hnone
  have hstorage : (after (allocateStorage p) { allocator := .fresh t }).2.problems = [] :=
    (emits_allocateStorage p).first_problems (s := { allocator := .fresh t })
      (fun ports => (emits_draftFrom inControl' outControl' ports).reports) (by
        show (after (draft p inControl' outControl') _).2.problems = []
        rw [hafter]
        exact hnone)
  have hapart := apart_allocateStorage p t hstorage
  have hsame : b'.allocator = b.allocator := hregisters.trans h.registers.symm
  rw [hsame] at houtput hgroup
  have houtput := Option.some.inj (houtput.symm.trans h.output)
  have hgroup := Option.some.inj (hgroup.symm.trans h.group)
  exact ⟨houtput ▸ hapart.output, hgroup ▸ hapart.group, houtput ▸ hgroup ▸ hapart.disjoint⟩

theorem flowsAt_multicast (h : Compiled p t o inControl outControl ports b) :
    o.flowsAt o.stages.multicast = [noGroupFlow ports o.stages, groupFlow ports o.stages] := by
  obtain ⟨inBlocks, outBlocks, -, -, hinit, hin, -, hout, hflows⟩ := h.exists_blocks
  have hmulticast := h.multicast_toInt
  have hgroup : (groupFlow ports o.stages).IsAt o.stages.multicast := rfl
  simp only [Output.flowsAt, hflows, List.filter_append]
  rw [hinit.filter_eq_nil (by omega), hin.filter_eq_nil (by omega), hout.filter_eq_nil (by omega)]
  exact (List.append_nil _).trans (List.filter_eq_self.mpr (List.forall_mem_cons.mpr
    ⟨decide_eq_true h.from_noGroupFlow.isAt, List.forall_mem_singleton.mpr (decide_eq_true hgroup)⟩))

end Compiled

/-! ## The flow of one group -/

/-- A row of the relation of multicast groups: a group and one of its ports. -/
abbrev GroupRow := BitVec 16 × BitVec 16

/-- The columns of a row. -/
def GroupRow.columns (row : GroupRow) : List Value := [.bits 16 row.1.toNat, .bits 16 row.2.toNat]

/-- The rows whose group has a number. -/
def groupedRows (rows : List GroupRow) : List GroupRow := rows.filter fun row => row.1 ≠ 0

/-- The groups that have ports. -/
def groupsOf (rows : List GroupRow) : List (BitVec 16) := ((groupedRows rows).map Prod.fst).dedup

/-- The ports of a group, one for each of its rows. -/
def portsOf (rows : List GroupRow) (g : BitVec 16) : List (BitVec 16) :=
  (rows.filter fun row => row.1 = g).map Prod.snd

theorem mem_groupsOf {rows : List GroupRow} {g : BitVec 16} :
    g ∈ groupsOf rows ↔ g ≠ 0 ∧ ∃ port, (g, port) ∈ rows := by
  simp [groupsOf, groupedRows, and_comm]

/-- A group has the same ports among the rows whose groups have numbers. -/
theorem portsOf_groupedRows {rows : List GroupRow} {g : BitVec 16} (hg : g ≠ 0) :
    portsOf (groupedRows rows) g = portsOf rows g := by
  rw [portsOf, portsOf, groupedRows, List.filter_filter]
  congr 2
  funext row
  rw [Bool.eq_iff_iff, Bool.and_eq_true, decide_eq_true_eq, decide_eq_true_eq, and_iff_left_iff_imp]
  rintro rfl
  exact hg

section

variable (ports : Ports) (stages : Stages)

/-- A copy of a packet for one port. -/
def copyTo (port : BitVec 16) : Flow.Action :=
  .clone (.seq (.seq (.load (.number port.toNat) (.reg ports.output)) ports.clearGroup)
    (.resubmit stages.multicast))

/-- The flow of one group: a copy for each of its ports. -/
def groupFact (rows : List GroupRow) (g : BitVec 16) : StageFlow where
  comment := "multicast: one clone per member port"
  flow :=
    { guard := stageGuard stages.multicast (.number multicastPriority)
        [ports.groupIs (.number g.toNat)]
      action := .all ((portsOf rows g).map (copyTo ports stages)) }

/-- The flows of the multicast stage, for some rows. -/
def multicastFacts (rows : List GroupRow) : List StageFlow :=
  noGroupFlow ports stages :: (groupsOf rows).map (groupFact ports stages rows)

end

/-! ## Texts of flows without variables -/

/-- A text says what a match asks for: it is the text of the match, or one in which the numbers of a
comparison are written in another base. -/
inductive Says : Match → Text → Prop
  | own (m : Match) : Says m m.text
  | compares {left : Flow.Expr} {r : Register} {n : Nat} {text : Text}
      (hleft : left.asRegister = some r)
      (htext : comparison? r.baseName text = some ⟨r.shifted n, r.ownMask⟩) :
      Says (.equals left (.number n) none) text
  | both {left right : Match} {a b : Text} (ha : Says left a) (hb : Says right b) :
      Says (.seq left right) (a ++ ", " ++ b)

/-- A text is that of a flow without variables. -/
def StageFlow.WrittenAs (f : StageFlow) (text : Text) : Prop :=
  ∃ guard, Says f.flow.guard guard ∧ text = guard ++ " actions=" ++ f.flow.action.text

theorem text_seq {a c : Flow.Action} (ha : a.text ≠ "") (hc : c.text ≠ "") :
    (Flow.Action.seq a c).text = a.text ++ ", " ++ c.text := by
  show (if a.text = "" then c.text else if c.text = "" then a.text
    else a.text ++ ", " ++ c.text) = _
  rw [if_neg ha, if_neg hc]

/-- Actions that leave a trace are written with commas between them. -/
theorem text_all {as : List Flow.Action} (h : ∀ a ∈ as, a.text ≠ "") :
    (Flow.Action.all as).text = ", ".intercalate (as.map Flow.Action.text) := by
  have hfold : ∀ (as : List Flow.Action) (a : Flow.Action), a.text ≠ "" → (∀ x ∈ as, x.text ≠ "") →
      (as.foldl .seq a).text = ", ".intercalate (a.text :: as.map Flow.Action.text) := by
    intro as
    induction as with
    | nil => simp
    | cons b as ih =>
      intro a ha has
      rw [List.forall_mem_cons] at has
      have hseq := text_seq ha has.1
      rw [List.foldl_cons, ih _ (by simp [hseq]) has.2, hseq, List.map_cons,
        String.intercalate_cons_cons, String.append_assoc, String.append_assoc,
        String.intercalate_cons_append, String.intercalate_cons_append]
  cases as with
  | nil => rfl
  | cons a as =>
    rw [List.forall_mem_cons] at h
    exact hfold as a h.1 h.2

/-- With values for its variables, the text of an action is that of another, and neither is empty. -/
structure Fills (p : Ddlog.Program) (env : Env) (a a' : Flow.Action) : Prop where
  fill_eq : fill p env a.pieces = some a'.text
  text_ne : a.text ≠ ""
  filled_ne : a'.text ≠ ""

namespace Fills

variable {p : Ddlog.Program} {env : Env} {a a' c c' : Flow.Action}

theorem seq (ha : Fills p env a a') (hc : Fills p env c c') :
    Fills p env (.seq a c) (.seq a' c') := by
  refine ⟨?_, by simp [text_seq ha.text_ne hc.text_ne],
    by simp [text_seq ha.filled_ne hc.filled_ne]⟩
  rw [text_seq ha.filled_ne hc.filled_ne, Flow.Action.pieces, if_neg ha.text_ne, if_neg hc.text_ne,
    String.append_assoc]
  refine fill_append ha.fill_eq ?_
  rw [fill, hc.fill_eq, Option.map_some]

theorem clone (h : Fills p env a a') : Fills p env (.clone a) (.clone a') := by
  refine ⟨?_, by simp [Flow.Action.text], by simp [Flow.Action.text]⟩
  have hopen : fill p env (.plain "clone(" :: a.pieces) = some ("clone(" ++ a'.text) := by
    rw [fill, h.fill_eq, Option.map_some]
  exact fill_append hopen (fill_plain ")")

theorem resubmit (stage : Int64) : Fills p env (.resubmit stage) (.resubmit stage) := by
  refine ⟨fill_plain _, ?_, ?_⟩ <;> simp [Flow.Action.text]

theorem load {e e' : Flow.Expr} (he : fill p env e.pieces = some e'.text) (r : Register) :
    Fills p env (.load e (.reg r)) (.load e' (.reg r)) := by
  refine ⟨?_, by simp [Flow.Action.text], by simp [Flow.Action.text]⟩
  have hopen : fill p env (.plain "load(" :: e.pieces) = some ("load(" ++ e'.text) := by
    rw [fill, he, Option.map_some]
  have hto : fill p env (.plain "->" :: (Flow.Expr.reg r).pieces) = some ("->" ++ r.actionText) := by
    rw [fill, Flow.Expr.pieces, fill_plain, Option.map_some]
  have hwhole := fill_append (fill_append hopen hto) (fill_plain ")")
  rw [← String.append_assoc] at hwhole
  exact hwhole

end Fills

section

variable {ports : Ports} {stages : Stages} {p : Ddlog.Program} {env : Env}

/-- Pieces without holes are filled as they are. -/
theorem fill_of_holes_eq_nil {ps : List Flow.Piece} (h : Flow.holes ps = []) :
    fill p env ps = some (Flow.render ps) := by
  induction ps with
  | nil => rfl
  | cons piece ps ih =>
    cases piece with
    | plain t =>
      rw [fill, ih h, Option.map_some, Flow.render_cons]
      rfl
    | hole t => cases h

theorem fill_var {name text : Text} {v : Value} (hname : isName name = true)
    (hlookup : env.lookup name = some v) (htext : v.text? = some text) :
    fill p env [.hole name] = some text := by
  refine fill_hole ?_
  rw [holeText?, interpolated?_operand (isOperand_name hname), Option.bind_some, Ddlog.eval, hlookup,
    Option.bind_some, htext]

/-- The text of a copy, with the port filled in. -/
theorem fills_copyTo {port : BitVec 16} (h : env.lookup "port" = some (.bits 16 port.toNat)) :
    Fills p env (groupClone ports stages).simplify (copyTo ports stages port) := by
  have hport : fill p env (Flow.Expr.var "port" 16).pieces =
      some (Flow.Expr.number port.toNat).text := fill_var (by decide) h rfl
  have hzero : fill p env (Flow.Expr.number 0).pieces = some (Flow.Expr.number 0).text :=
    fill_plain _
  exact (((Fills.load hport _).seq (.load hzero _)).seq (.resubmit _)).clone

/-! ## The rule of the groups -/

/-- The variables of a row. -/
def rowEnv (row : GroupRow) : Env :=
  [("mcast_id", .bits 16 row.1.toNat), ("port", .bits 16 row.2.toNat)]

/-- The variables of a row, with the text of its copy. -/
def copyEnv (ports : Ports) (stages : Stages) (row : GroupRow) : Env :=
  ("clone_action", .text (copyTo ports stages row.2).text) :: rowEnv row

/-- The variables of a group. -/
def groupEnv (ports : Ports) (stages : Stages) (rows : List GroupRow) (g : BitVec 16) : Env :=
  [("actions", .text (Flow.Action.all ((portsOf rows g).map (copyTo ports stages))).text),
    ("mcast_id", .bits 16 g.toNat)]

variable {contents : Contents} {rows : List GroupRow}

theorem extend?_row (h : contents multicastRelation = rows.map GroupRow.columns) :
    Binding.extend? p contents [[]] (.row multicastRelation [.var "mcast_id", .var "port"]) =
      some (rows.map rowEnv) := by
  have hrows : (contents multicastRelation).mapM (fun vs =>
      (bindAll? [.var "mcast_id", .var "port"] vs).map (· ++ ([] : Env))) =
        some (rows.map rowEnv) := by
    rw [h]
    exact mapM_map_eq_some fun row _ => rfl
  rw [Binding.extend?, List.mapM_cons, hrows]
  simp

theorem extend?_nonzero :
    Binding.extend? p contents (rows.map rowEnv) (.nonzero "mcast_id") =
      some ((groupedRows rows).map rowEnv) := by
  have hzero : isNonzero "mcast_id" ∘ rowEnv = fun row : GroupRow => decide (row.1 ≠ 0) := by
    funext row
    show (row.1.toNat != 0) = _
    rw [Bool.eq_iff_iff, bne_iff_ne, decide_eq_true_eq, ne_eq, ne_eq, ← BitVec.toNat_inj]
    rfl
  rw [Binding.extend?, List.filter_map, hzero]
  rfl

theorem extend?_actionText :
    Binding.extend? p contents (rows.map rowEnv)
        (.actionText "clone_action" (groupClone ports stages).simplify) =
      some (rows.map (copyEnv ports stages)) := by
  refine mapM_map_eq_some fun row _ => ?_
  have hlookup : (rowEnv row).lookup "port" = some (.bits 16 row.2.toNat) := rfl
  rw [(fills_copyTo hlookup).fill_eq]
  rfl

theorem text_copyTo_ne (port : BitVec 16) : (copyTo ports stages port).text ≠ "" := by
  have hlookup : (rowEnv (0, port)).lookup "port" = some (.bits 16 port.toNat) := rfl
  exact (fills_copyTo (p := []) hlookup).filled_ne

/-- The row of a group has the texts of all copies. -/
theorem joinGroup?_eq (g : BitVec 16) :
    joinGroup? "actions" "clone_action" "mcast_id" (rows.map (copyEnv ports stages))
      (.bits 16 g.toNat) = some (groupEnv ports stages rows g) := by
  have hmembers : ((rows.map (copyEnv ports stages)).filter fun env =>
      env.lookup "mcast_id" = some (.bits 16 g.toNat)) =
        (rows.filter fun row => row.1 = g).map (copyEnv ports stages) := by
    rw [List.filter_map]
    congr 2
    funext row
    show decide (some (Value.bits 16 row.1.toNat) = some (.bits 16 g.toNat)) = _
    simp [BitVec.toNat_inj]
  have htexts : ((rows.filter fun row => row.1 = g).map (copyEnv ports stages)).mapM
      (fun env => (env.lookup "clone_action").bind Value.text?) =
        some ((rows.filter fun row => row.1 = g).map fun row => (copyTo ports stages row.2).text) :=
    mapM_map_eq_some fun row _ => rfl
  have hjoined : (Flow.Action.all ((portsOf rows g).map (copyTo ports stages))).text =
      ", ".intercalate ((rows.filter fun row => row.1 = g).map
        fun row => (copyTo ports stages row.2).text) := by
    rw [text_all, portsOf, List.map_map, List.map_map]
    · rfl
    · intro a ha
      obtain ⟨port, -, rfl⟩ := List.mem_map.mp ha
      exact text_copyTo_ne port
  rw [joinGroup?, hmembers, htexts, groupEnv, hjoined]
  rfl

theorem extend?_joined :
    Binding.extend? p contents ((groupedRows rows).map (copyEnv ports stages))
        (.joined "actions" "clone_action" "mcast_id") =
      some ((groupsOf rows).map (groupEnv ports stages (groupedRows rows))) := by
  have hkeys : ((groupedRows rows).map (copyEnv ports stages)).mapM
      (fun env => env.lookup "mcast_id") =
        some ((groupedRows rows).map fun row => Value.bits 16 row.1.toNat) :=
    mapM_map_eq_some fun row _ => rfl
  have hinj : Function.Injective fun g : BitVec 16 => Value.bits 16 g.toNat := by
    intro g g' heq
    exact BitVec.toNat_inj.mp (by simpa using heq)
  have hdedup : ((groupedRows rows).map fun row => Value.bits 16 row.1.toNat).dedup =
      (groupsOf rows).map fun g => Value.bits 16 g.toNat := by
    rw [groupsOf, ← List.dedup_map_of_injective hinj, List.map_map]
    rfl
  have hjoin : ((groupsOf rows).map fun g => Value.bits 16 g.toNat).mapM
      (joinGroup? "actions" "clone_action" "mcast_id" ((groupedRows rows).map (copyEnv ports stages)))
        = some ((groupsOf rows).map (groupEnv ports stages (groupedRows rows))) :=
    mapM_map_eq_some fun g _ => joinGroup?_eq g
  simp [Binding.extend?, hkeys, hdedup, hjoin]

/-- The text for a group is that of its flow. -/
theorem exists_fill_groupFlow (hgroup : Sixteen ports.group) {g : BitVec 16} (hg : g ≠ 0) :
    ∃ text, fill p (groupEnv ports stages (groupedRows rows) g)
        (groupFlow ports stages).flow.pieces = some text ∧
      (groupFact ports stages rows g).WrittenAs text := by
  set env := groupEnv ports stages (groupedRows rows) g with henv
  have hstage : fill p env (Match.table stages.multicast).pieces =
      some (Match.table stages.multicast).text := fill_plain _
  have hpriority : fill p env (Match.priority (.number multicastPriority)).pieces =
      some (Match.priority (.number multicastPriority)).text := by
    rw [Match.pieces, fill, Flow.Expr.number, Flow.Expr.pieces, fill_plain, Option.map_some]
    rfl
  have hnumber : HasNumber p env "mcast_id" g.toNat :=
    hasNumber_of_ne (by decide) (by decide) _ _ _
  have hregister : (Flow.Expr.reg ports.group).asRegister = some ports.group := rfl
  obtain ⟨comparison, hfill, hread⟩ :=
    fill_equals hregister hgroup.inside hgroup.covers hnumber g.isLt
  have hguard : fill p env (groupFlow ports stages).flow.guard.pieces = some
      ((Match.table stages.multicast).text ++ ", " ++
        (Match.priority (.number multicastPriority)).text ++ ", " ++ comparison) := by
    have hfirst := fill_append hstage (fill_append (fill_plain ", ") hpriority)
    have hall := fill_append hfirst (fill_append (fill_plain ", ") hfill)
    rw [← String.append_assoc, ← String.append_assoc] at hall
    exact hall
  have hactions : fill p env (groupFlow ports stages).flow.action.pieces =
      some (groupFact ports stages rows g).flow.action.text := by
    rw [groupFact, ← portsOf_groupedRows hg]
    exact fill_var (by decide) rfl rfl
  refine ⟨_, fill_append hguard (fill_append (fill_plain " actions=") hactions), _, ?_,
    String.append_assoc.symm⟩
  exact ((Says.own _).both (.own _)).both (.compares rfl hread)

theorem exists_texts?_groupFlow (hgroup : Sixteen ports.group) (stages : Stages)
    (p : Ddlog.Program) (h : contents multicastRelation = rows.map GroupRow.columns) :
    ∃ texts, (groupFlow ports stages).texts? p contents = some texts ∧
      List.Forall₂ StageFlow.WrittenAs ((groupsOf rows).map (groupFact ports stages rows)) texts := by
  have hrows : (groupFlow ports stages).bindings.foldlM (Binding.extend? p contents) [[]] =
      some ((groupsOf rows).map (groupEnv ports stages (groupedRows rows))) := by
    simp only [groupFlow, flowOf, List.foldlM_cons, extend?_row h, extend?_nonzero,
      extend?_actionText, extend?_joined, List.foldlM_nil, Option.bind_eq_bind, Option.bind_some,
      Option.pure_def]
  have htexts : ∀ g ∈ groupsOf rows, ∃ text,
      fill p (groupEnv ports stages (groupedRows rows) g) (groupFlow ports stages).flow.pieces =
        some text ∧ (groupFact ports stages rows g).WrittenAs text :=
    fun g hg => exists_fill_groupFlow hgroup (mem_groupsOf.mp hg).1
  obtain ⟨texts, hmapM, hwritten⟩ := exists_mapM htexts
  refine ⟨texts, ?_, List.forall₂_map_left_iff.mpr hwritten⟩
  rw [StageFlow.texts?, hrows, Option.bind_eq_bind, Option.bind_some, List.mapM_map, ← hmapM]
  rfl

/-- The flow of packets without a group is written as it is. -/
theorem exists_texts?_noGroupFlow (ports : Ports) (stages : Stages) (p : Ddlog.Program)
    (contents : Contents) :
    ∃ text, (noGroupFlow ports stages).texts? p contents = some [text] ∧
      (noGroupFlow ports stages).WrittenAs text := by
  have hguard : Flow.holes (noGroupFlow ports stages).flow.guard.pieces = [] := by
    refine List.eq_nil_iff_forall_not_mem.mpr fun t ht => ?_
    have hvars : (noGroupFlow ports stages).flow.guard.vars = [] := rfl
    have hhole := Match.hole_of_mem ht
    rw [hvars] at hhole
    cases hhole <;> contradiction
  have hfill : fill p [] (noGroupFlow ports stages).flow.guard.pieces =
      some (noGroupFlow ports stages).flow.guard.text := by
    rw [fill_of_holes_eq_nil hguard, Match.render_pieces]
  refine ⟨_, ?_, _, .own _, rfl⟩
  have haction : fill p [] (noGroupFlow ports stages).flow.action.pieces =
      some (noGroupFlow ports stages).flow.action.text := fill_plain _
  have hflow := fill_append hfill (fill_append (fill_plain " actions=") haction)
  rw [← String.append_assoc] at hflow
  show List.mapM (fun env => fill p env (noGroupFlow ports stages).flow.pieces) [[]] = _
  rw [List.mapM_cons, Flow.Line.pieces, ← List.singleton_append, hflow]
  rfl

end

end Flowline.Compile
