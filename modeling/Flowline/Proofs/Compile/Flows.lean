import Flowline.Compile.Stage
import Flowline.Proofs.Compile.Emission
import Flowline.Proofs.Lower.Contents
import Flowline.Proofs.Lower.Values

/-!
# The flows of each stage

What is emitted for a stage in a compilation without problems, down to every match and action: for a
condition its two flows, for a table those of its entries and of its default action.  What the flows
are made of was lowered on the way (`Gives`).

The lemmas `emits_…` follow the functions one by one; everything that is said about whole programs
starts from `emits_emitGraph`.
-/

namespace Flowline.Compile

open Flowline.Flow (Match)
open ControlFlow (Graph Vertex)
open Lower
open Pipeline (Action Entry Key Table)
open Source (Expr)

/-! ## Actions -/

theorem vars_paramVars (a : Action) : (paramVars a).vars = a.params.map paramVar := by
  rw [Substitution.vars, paramVars, List.flatMap_map]
  exact (List.map_eq_flatMap).symm

/-- The action of a flow leads to the exit or to the next stage. -/
theorem ensures_runAction (sub : Substitution) (g : Graph) (a : Action) (next : Vertex) :
    Ensures (runAction sub g a next) fun _ act =>
      act.Within [g.exit.id, next.id] sub.vars := by
  refine (ensures_body_within sub g.exit.id a.body).bind fun body => ensures_pure fun _ hbody => ?_
  refine .simplify (.all (List.forall_mem_cons.mpr ⟨?_, ?_⟩))
  · exact hbody.mono (List.cons_subset_cons _ (List.nil_subset _)) (List.Subset.refl _)
  · rintro x hx
    cases List.mem_singleton.mp hx
    exact .resubmit (List.mem_cons_of_mem _ List.mem_cons_self)

/-- A constant has the number of its expression, and fits. -/
theorem ensures_fittingConst (what rule : Text) (width : Int64) (e : Expr) :
    Ensures (fittingConst what rule width e) fun L v => ∃ n base, v = .const n base ∧
      (bitLength n : Int) ≤ width.toInt ∧ 0 ≤ n ∧
        ∀ s, evaluate .zero L (fun _ => 0) s e = n := by
  refine (ensures_value_constant (fun _ => 0) e).bind fun v => ?_
  split
  · next n base =>
    split
    · exact ensures_refuse _ _
    · next hfits =>
      refine ensures_pure fun _ hv => ⟨n, base, rfl, Int.not_lt.mp hfits, ?_⟩
      exact (hv n base rfl).number
  · exact ensures_refuse _ _

/-- The constant of an argument is a number that the parameter has room for. -/
theorem ensures_constArg (p : Param) (e : Expr) :
    Ensures (constArg p e) fun _ q => ∃ n base, q = (p.name, .const n base) ∧ 0 ≤ n ∧
      (bitLength n : Int) ≤ p.type.width.toInt := by
  refine (ensures_fittingConst _ _ _ e).bind fun v => ensures_pure ?_
  rintro _ ⟨n, base, rfl, hfits, hn, -⟩
  exact ⟨n, base, rfl, hn, hfits⟩

theorem ensures_constArgsOf (ps : List Param) (es : List Expr) :
    Ensures (constArgsOf ps es) fun _ sub => ∀ q ∈ sub, ∃ n base, q.2 = .const n base := by
  match ps, es with
  | p :: ps, e :: es =>
    refine (ensures_constArg p e).bind fun q => (ensures_constArgsOf ps es).bind fun sub => ?_
    refine ensures_pure fun _ hsub hq => List.forall_mem_cons.mpr ⟨?_, hsub⟩
    obtain ⟨n, base, rfl, -⟩ := hq
    exact ⟨n, base, rfl⟩
  | [], _ | _ :: _, [] => exact ensures_pure fun _ => nofun

/-- Parameters that stand for constants bring no variables. -/
theorem ensures_constArgs (a : Action) (args : List Expr) :
    Ensures (constArgs a args) fun _ sub => sub.vars = [] := by
  unfold constArgs
  split
  · exact ensures_throw _
  · refine (ensures_constArgsOf _ _).mono fun _ sub hsub => List.flatMap_eq_nil_iff.mpr ?_
    intro q hq
    obtain ⟨n, base, heq⟩ := hsub q hq
    rw [heq]
    rfl

/-- A case of a choice belongs to an action: it has its constructor and its parameters, and leads
to the exit or to the stage behind the action. -/
structure CaseOf (typeName : Text) (g : Graph) (next : Action → Vertex) (a : Action)
    (c : ActionCase) : Prop where
  constructor_eq : c.constructor = constructorName typeName a
  vars_eq : c.vars = a.params.map paramVar
  within : c.action.Within [g.exit.id, (next a).id] c.vars

theorem ensures_actionCases (typeName : Text) (g : Graph) (next : Action → Vertex)
    (as : List Action) :
    Ensures (actionCases typeName g next as) fun _ cases =>
      List.Forall₂ (CaseOf typeName g next) as cases := by
  induction as with
  | nil => exact ensures_pure fun _ => .nil
  | cons a as ih =>
    refine (ensures_runAction _ _ _ _).bind fun act => ih.bind fun cases => ensures_pure ?_
    intro _ hcases hact
    rw [vars_paramVars] at hact
    exact .cons ⟨rfl, rfl, hact⟩ hcases

/-! ## Rules over the rows of a relation -/

/-- The forms of an element of a key in a rule, by the way in which it is matched. -/
inductive KeyForm (k : Key) (left : Flow.Expr) : KeyMatch → Prop
  | truth (hkind : k.kind = .exact) (hbool : k.expr.type.isBool = true) :
      KeyForm k left ⟨.var (keyVar k), [.flag ("b_" ++ identifier k.name) (keyVar k)],
        .equals left (.var ("b_" ++ identifier k.name) k.expr.type.width) none, prereqs k.expr⟩
  | exact (hkind : k.kind = .exact) (hbool : k.expr.type.isBool = false) :
      KeyForm k left ⟨.var (keyVar k), [],
        .equals left (.var (keyVar k) k.expr.type.width) none, prereqs k.expr⟩
  | ternary (hkind : k.kind = .ternary) :
      KeyForm k left ⟨.pair (keyVar k ++ "_value") (keyVar k ++ "_mask"), [],
        .equals left (.var (keyVar k ++ "_value") k.expr.type.width)
          (some (.var (keyVar k ++ "_mask") k.expr.type.width)), prereqs k.expr⟩
  | lpm (hkind : k.kind = .lpm) :
      KeyForm k left ⟨.pair (keyVar k ++ "_value") (keyVar k ++ "_plen"), [],
        .equals left (.var (keyVar k ++ "_value") k.expr.type.width)
          (some (.var (prefixMaskName k.expr.type.width ++ "(" ++ keyVar k ++ "_plen)")
            k.expr.type.width)), prereqs k.expr⟩
  | optional {m : Match} (hkind : k.kind = .optional)
      (hm : Match.all? (prereqs k.expr ++
        [.equals left (.var ("v_" ++ identifier k.name) k.expr.type.width) none]) = some m) :
      KeyForm k left ⟨.var (keyVar k),
        [.optional ("m_" ++ identifier k.name) (keyVar k) ("v_" ++ identifier k.name) m],
        .interpolated ("m_" ++ identifier k.name), []⟩

/-- A comparison of what has no variables has those of its number and of its mask. -/
theorem vars_equals {left : Flow.Expr} (hleft : left.vars = []) (name : Text) (width : Int64)
    (mask : Option Flow.Expr) :
    (Match.equals left (.var name width) mask).vars = name :: mask.elim [] Flow.Expr.vars := by
  rw [Match.vars, hleft]
  rfl

theorem vars_optional {k : Key} {left : Flow.Expr} (hleft : left.vars = []) {m : Match}
    (hm : Match.all? (prereqs k.expr ++
      [.equals left (.var ("v_" ++ identifier k.name) k.expr.type.width) none]) = some m) :
    m.vars = ["v_" ++ identifier k.name] := by
  rw [Match.vars_all? hm, List.flatMap_append, List.flatMap_eq_nil_iff.mpr
    fun m hm => (bare_of_mem_prereqs hm).vars, List.flatMap_singleton, vars_equals hleft]
  rfl

theorem keyForm_of_keyMatch? {k : Key} {left : Flow.Expr} {km : KeyMatch}
    (h : keyMatch? k left = some km) : KeyForm k left km := by
  unfold keyMatch? at h
  dsimp only at h
  split at h
  · next hkind =>
    split at h
    · next hbool =>
      cases h
      exact .truth hkind hbool
    · next hbool =>
      cases h
      exact .exact hkind (Bool.not_eq_true _ ▸ hbool)
  · next hkind =>
    cases h
    exact .ternary hkind
  · next hkind =>
    cases h
    exact .lpm hkind
  · next hkind =>
    obtain ⟨m, hm, rfl⟩ := Option.map_eq_some_iff.mp h
    exact .optional hkind hm
  · cases h

/-- What a rule has for an element of the key. -/
def KeyOf (b : State) (k : Key) (km : KeyMatch) : Prop :=
  ∃ left, Gives b.allocator (value [] k.expr) left ∧ KeyForm k left km ∧
    (k.kind = .lpm → k.expr.type.width ∈ b.prefixWidths)

theorem emits_emitKey (k : Key) :
    Emits (emitKey k) fun b r fs => ∃ km, r = some km ∧ KeyOf b k km ∧ fs = [] := by
  refine (emits_lower? (ensures_value_nil k.expr)).bind_some rfl fun left => ?_
  have hmask : Emits (if k.kind = .lpm then usePrefixMask k.expr.type.width else pure ())
      fun b _ fs => (k.kind = .lpm → k.expr.type.width ∈ b.prefixWidths) ∧ fs = [] := by
    split
    · exact (emits_usePrefixMask _).mono fun b _ fs h => ⟨fun _ => h.1, h.2⟩
    · next hkind => exact emits_pure fun b => ⟨fun h => absurd h hkind, rfl⟩
  refine Emits.bind_if hmask ?_
  dsimp only
  cases hkm : keyMatch? k left with
  | none =>
    rw [Option.isNone_none, if_pos rfl]
    refine (emits_report _).bind fun _ => emits_pure fun _ _ h => ?_
    cases h.1
  | some km =>
    rw [Option.isNone_some, if_neg Bool.false_ne_true]
    refine emits_pure fun b => ?_
    rintro _ ⟨hwidth, rfl⟩ hgives
    exact ⟨km, rfl, ⟨left, hgives, keyForm_of_keyMatch? hkm, hwidth⟩, rfl⟩

theorem emits_emitKeys (ks : List Key) :
    Emits (emitKeys ks) fun b r fs =>
      ∃ kms, r = some kms ∧ List.Forall₂ (KeyOf b) ks kms ∧ fs = [] := by
  induction ks with
  | nil => exact emits_pure fun _ => ⟨[], rfl, .nil, rfl⟩
  | cons k ks ih =>
    refine (emits_emitKey k).bind_some rfl fun km => ih.bind fun r => emits_pure fun b => ?_
    rintro _ ⟨kms, rfl, hkms, rfl⟩ hkm
    exact ⟨km :: kms, rfl, .cons hkm hkms, rfl⟩

/-- The action of a rule over rows: the only one there can be, or a choice. -/
inductive RuleAction (t : Table) (g : Graph) (v : Vertex) : Flow.Action → List Binding → Prop
  | only {a : Action} {as : List Action} {act : Flow.Action} (hneeds : needsActions t = false)
      (has : entryActions t = a :: as)
      (hact : act.Within [g.exit.id, (g.afterHit v a.name).id] []) : RuleAction t g v act []
  | choice {cases : List ActionCase} (hneeds : needsActions t = true)
      (hcases : List.Forall₂ (CaseOf (actionTypeName t) g fun a => g.afterHit v a.name)
        (entryActions t) cases) :
      RuleAction t g v (.var "actions") [.choice cases]

/-- Without a choice there is an action. -/
theorem entryActions_of_needsActions {t : Table} (h : needsActions t = false) :
    ∃ a, entryActions t = [a] := by
  unfold needsActions at h
  split at h
  · next a ha => exact ⟨a, ha⟩
  · cases h

theorem ensures_entryAction (t : Table) (g : Graph) (v : Vertex) :
    Ensures (entryAction t g v) fun _ r => RuleAction t g v r.1 r.2 := by
  unfold entryAction
  dsimp only
  split
  · next a as hneeds has =>
    refine (ensures_runAction _ _ _ _).bind fun act => ensures_pure fun _ hact => ?_
    exact .only hneeds has hact
  · next hne =>
    refine (ensures_actionCases _ _ _ _).bind fun cases => ensures_pure fun _ hcases => ?_
    refine .choice ?_ hcases
    cases hneeds : needsActions t with
    | true => rfl
    | false =>
      obtain ⟨a, ha⟩ := entryActions_of_needsActions hneeds
      exact absurd ha (hne a [] hneeds)

/-- The flow of the rows of a table. -/
def RuleFlow (b : State) (t : Table) (g : Graph) (v : Vertex) (f : StageFlow) : Prop :=
  ∃ kms act chosen, List.Forall₂ (KeyOf b) t.keys kms ∧ RuleAction t g v act chosen ∧
    f = flowOf ("table " ++ t.fullName) (entryGuard t v kms) act
      (entryRow t kms :: kms.flatMap (·.bindings) ++ chosen)

theorem emits_emitEntryRule (t : Table) (g : Graph) (v : Vertex) :
    Emits (emitEntryRule t g v) fun b _ fs => ∃ f, fs = [f] ∧ RuleFlow b t g v f := by
  refine (emits_emitKeys t.keys).bind_some rfl fun kms => ?_
  refine (emits_lower? (ensures_entryAction t g v)).bind_some rfl fun (act, chosen) => ?_
  refine (emits_emit _ _ _ _).mono fun b _ fs hfs hgives hkms => ?_
  exact ⟨_, hfs, kms, act, chosen, hkms, (ensures_entryAction t g v).of_gives hgives, rfl⟩

/-! ## Constant entries -/

theorem ensures_entryKey_bare (k : Key) (key : Expr) :
    Ensures (entryKey k key) fun _ m => ∀ x ∈ m, Bare x := by
  refine (ensures_value_nil k.expr).bind fun left => ?_
  split
  · exact ensures_pure fun _ _ => nofun
  · refine (ensures_fittingConst _ _ _ _).bind fun n => ?_
    refine (ensures_fittingConst _ _ _ _).bind fun m => ensures_pure fun _ hm hn hleft x hx => ?_
    obtain ⟨n, base, rfl, -⟩ := hn
    obtain ⟨m, base', rfl, -⟩ := hm
    cases hx
    exact ⟨rfl, rfl, by simp [Match.vars, Flow.Expr.vars, hleft]⟩
  · refine (ensures_fittingConst _ _ _ _).bind fun n => ensures_pure fun _ hn hleft x hx => ?_
    obtain ⟨n, base, rfl, -⟩ := hn
    cases hx
    exact bare_equals hleft rfl

/-- The prerequisites of the keys that an entry looks at. -/
def usedPrereqs (qs : List (Key × Expr)) (ms : List (Option Match)) : List Match :=
  (qs.zip ms).flatMap fun q => if q.2.isSome then prereqs q.1.1.expr else []

/-- The matches of the keys of an entry. -/
def KeysOf (b : State) (qs : List (Key × Expr)) (ms : List (Option Match)) : Prop :=
  List.Forall₂ (fun q m => Gives b.allocator (entryKey q.1 q.2) m) qs ms

/-- All that an entry asks for is on fields. -/
theorem bare_of_mem_keys {b : State} {qs : List (Key × Expr)} {ms : List (Option Match)}
    (hms : KeysOf b qs ms) {m : Match}
    (hm : m ∈ (usedPrereqs qs ms).eraseDups ++ ms.filterMap id) : Bare m := by
  rcases List.mem_append.mp hm with hm | hm
  · obtain ⟨q, -, hm⟩ := List.mem_flatMap.mp (List.mem_eraseDups.mp hm)
    split at hm
    · exact bare_of_mem_prereqs hm
    · cases hm
  · obtain ⟨x, hx, rfl⟩ := List.mem_filterMap.mp hm
    obtain ⟨q, -, hgives⟩ := exists_of_mem_right hms hx
    exact (ensures_entryKey_bare _ _).of_gives hgives m rfl

theorem emits_entryKeys (qs : List (Key × Expr)) :
    Emits (entryKeys qs) fun b r fs =>
      ∃ ms, KeysOf b qs ms ∧ r = (true, usedPrereqs qs ms, ms.filterMap id) ∧ fs = [] := by
  induction qs with
  | nil => exact emits_pure fun _ => ⟨[], .nil, rfl, rfl⟩
  | cons q qs ih =>
    obtain ⟨k, key⟩ := q
    refine (emits_lower? (ensures_entryKey_bare k key)).bind fun r => ih.bind fun rest => ?_
    obtain ⟨ok, prereqs, guards⟩ := rest
    dsimp only
    split
    · exact emits_pure fun _ _ _ _ h => by simp at h
    · refine emits_pure fun b => ?_
      rintro _ ⟨ms, hms, hr, rfl⟩ _ ⟨m, hm, hgives, rfl⟩
      cases hm
      cases hr
      exact ⟨none :: ms, .cons hgives hms, rfl, rfl⟩
    · next m =>
      refine emits_pure fun b => ?_
      rintro _ ⟨ms, hms, hr, rfl⟩ _ ⟨m', hm, hgives, rfl⟩
      cases hm
      cases hr
      exact ⟨some m :: ms, .cons hgives hms, rfl, rfl⟩

/-- The action of an entry leads to the exit or to the next stage. -/
theorem ensures_constAction (e : Entry) (g : Graph) (next : Vertex) :
    Ensures (constAction e g next) fun _ act => act.Within [g.exit.id, next.id] [] := by
  refine (ensures_constArgs _ _).bind fun sub => ?_
  exact (ensures_runAction sub g _ next).mono fun _ act hact hsub => hsub ▸ hact

/-- The flow of an entry at its place among the entries. -/
def EntryFlow (b : State) (t : Table) (g : Graph) (v : Vertex) (e : Entry × Nat) (f : StageFlow) :
    Prop :=
  ∃ ms act, KeysOf b (t.keys.zip e.1.keys) ms ∧
    Gives b.allocator (constAction e.1 g (g.afterHit v e.1.action.name)) act ∧
    f = flowOf ("table " ++ t.fullName ++ " entry " ++ toString (e.2 + 1))
      (stageGuard v.id (.number (entryPriority t e.2 e.1))
        ((usedPrereqs (t.keys.zip e.1.keys) ms).eraseDups ++ ms.filterMap id)) act []

theorem emits_emitEntry (t : Table) (g : Graph) (v : Vertex) (i : Nat) (e : Entry) :
    Emits (emitEntry t g v i e) fun b _ fs => ∃ f, fs = [f] ∧ EntryFlow b t g v (e, i) f := by
  refine (emits_entryKeys _).bind fun r => ?_
  obtain ⟨ok, prereqs, guards⟩ := r
  refine (emits_lower? (ensures_constAction e g _)).bind_some rfl fun act => ?_
  dsimp only
  split
  · refine (emits_emitFact _ _ _).mono fun b _ fs hfs hact => ?_
    rintro _ ⟨ms, hms, hr, rfl⟩
    cases hr
    exact ⟨_, hfs, ms, act, hms, hact, rfl⟩
  · next hok =>
    refine emits_pure fun _ _ _ => ?_
    rintro ⟨ms, -, hr, -⟩
    cases hr
    exact absurd rfl hok

theorem emits_emitEntries (t : Table) (g : Graph) (v : Vertex) (i : Nat) (es : List Entry) :
    Emits (emitEntries t g v i es) fun b _ fs =>
      List.Forall₂ (EntryFlow b t g v) (es.zipIdx i) fs := by
  induction es generalizing i with
  | nil => exact emits_pure fun _ => .nil
  | cons e es ih =>
    refine (emits_emitEntry t g v i e).bind fun _ => (ih (i + 1)).mono fun b _ fs hfs => ?_
    rintro _ ⟨f, rfl, hf⟩
    exact .cons hf hfs

/-! ## Default actions -/

/-- The name of the default action; a table without one has no name to branch on. -/
def defaultName (t : Table) : Text := t.default?.elim "" fun d => d.action.name

theorem ensures_fixedDefault (t : Table) (g : Graph) (v : Vertex) :
    Ensures (fixedDefault t g v) fun _ act =>
      act.Within [g.exit.id, (g.afterMiss v (defaultName t)).id] [] := by
  unfold fixedDefault defaultName
  split
  · next hnone =>
    rw [hnone]
    exact ensures_pure fun _ => .resubmit (List.mem_cons_of_mem _ List.mem_cons_self)
  · next d hd =>
    rw [hd]
    refine (ensures_constArgs _ _).bind fun sub => ?_
    exact (ensures_runAction sub g _ _).mono fun _ act hact hsub => hsub ▸ hact

/-- The flow of the default action. -/
inductive DefaultFlow (b : State) (t : Table) (g : Graph) (v : Vertex) : StageFlow → Prop
  | fixed {act : Flow.Action} (hconst : hasConstDefault t = true)
      (hact : Gives b.allocator (fixedDefault t g v) act) :
      DefaultFlow b t g v (flowOf ("table " ++ t.fullName ++ " default")
        (stageGuard v.id (.number lowPriority) []) act [])
  | chosen {cases : List ActionCase} (hconst : hasConstDefault t = false)
      (hcases : List.Forall₂ (CaseOf (defaultTypeName t) g fun a => g.afterMiss v a.name)
        (defaultActions t) cases) :
      DefaultFlow b t g v (flowOf ("table " ++ t.fullName ++ " default")
        (stageGuard v.id (.number lowPriority) []) (.var "actions")
        [.row (defaultRelationName t) [.var "action"], .choice cases])

theorem emits_emitDefault (t : Table) (g : Graph) (v : Vertex) :
    Emits (emitDefault t g v) fun b _ fs => ∃ f, fs = [f] ∧ DefaultFlow b t g v f := by
  unfold emitDefault
  dsimp only
  split
  · next hconst =>
    refine (emits_lower? (ensures_fixedDefault t g v)).bind_some rfl fun act => ?_
    exact (emits_emitFact _ _ _).mono fun b _ fs hfs hact => ⟨_, hfs, .fixed hconst hact⟩
  · next hconst =>
    refine (emits_lower? (ensures_actionCases _ _ _ _)).bind_some rfl fun cases => ?_
    refine (emits_emit _ _ _ _).mono fun b _ fs hfs hcases => ?_
    exact ⟨_, hfs, .chosen (Bool.not_eq_true _ ▸ hconst)
      ((ensures_actionCases _ _ _ _).of_gives hcases)⟩

/-! ## Tables -/

/-- The flows of a table at a stage: of its rows, of its constant entries, and of its default. -/
inductive TableFlows (b : State) (t : Table) (g : Graph) (v : Vertex) : List StageFlow → Prop
  | mk {rules entries : List StageFlow} {default : StageFlow}
      (hrules : if isParametric t then ∃ f, rules = [f] ∧ RuleFlow b t g v f else rules = [])
      (hentries : if t.hasConstEntries then
        List.Forall₂ (EntryFlow b t g v) t.entries.zipIdx entries else entries = [])
      (hdefault : DefaultFlow b t g v default) :
      TableFlows b t g v (rules ++ (entries ++ [default]))

theorem emits_emitTable (t : Table) (g : Graph) (v : Vertex) :
    Emits (emitTable t g v) fun b _ fs => TableFlows b t g v fs := by
  have hrules : Emits (if isParametric t then emitEntryRule t g v else pure ()) fun b _ fs =>
      if isParametric t then ∃ f, fs = [f] ∧ RuleFlow b t g v f else fs = [] := by
    split
    · exact emits_emitEntryRule t g v
    · exact emits_pure fun _ => rfl
  have hentries : Emits (if t.hasConstEntries then emitEntries t g v 0 t.entries else pure ())
      fun b _ fs => if t.hasConstEntries then
        List.Forall₂ (EntryFlow b t g v) t.entries.zipIdx fs else fs = [] := by
    split
    · exact emits_emitEntries t g v 0 t.entries
    · exact emits_pure fun _ => rfl
  unfold emitTable
  refine Emits.bind_if hrules ?_
  refine Emits.bind_if hentries ?_
  refine (emits_emitDefault t g v).mono ?_
  rintro b - _ ⟨f, rfl, hf⟩ entries hentries rules hrules
  exact .mk hrules hentries hf

/-- A flow of a table is that of its rows, of a constant entry, or of its default. -/
theorem TableFlows.cases_of_mem {b : State} {t : Table} {g : Graph} {v : Vertex}
    {fs : List StageFlow} (h : TableFlows b t g v fs) {f : StageFlow} (hf : f ∈ fs) :
    (isParametric t = true ∧ RuleFlow b t g v f) ∨ (∃ e, EntryFlow b t g v e f) ∨
      DefaultFlow b t g v f := by
  obtain ⟨hrules, hentries, hdefault⟩ := h
  rcases List.mem_append.mp hf with hf | hf
  · split at hrules
    · next hparam =>
      obtain ⟨r, rfl, hr⟩ := hrules
      cases List.mem_singleton.mp hf
      exact Or.inl ⟨hparam, hr⟩
    · rw [hrules] at hf
      cases hf
  · rcases List.mem_append.mp hf with hf | hf
    · split at hentries
      · obtain ⟨e, -, he⟩ := exists_of_mem_right hentries hf
        exact Or.inr (Or.inl ⟨e, he⟩)
      · rw [hentries] at hf
        cases hf
    · cases List.mem_singleton.mp hf
      exact Or.inr (Or.inr hdefault)

/-! ## Stages -/

/-- The flows of a stage that is no exit. -/
inductive StageFlows (b : State) (tables : List Checked) (g : Graph) (v : Vertex) :
    List StageFlow → Prop
  | dummy (hrole : v.role = .dummy) :
      StageFlows b tables g v
        ((g.succs v).map fun e => flowOf v.name (.table v.id) (goTo e.node) [])
  | cond {e : Expr} {m : Option Match} (hrole : v.role = .cond e)
      (hm : Gives b.allocator (condition e) m) :
      StageFlows b tables g v
        [flowOf ("if " ++ e.text) (stageGuard v.id (.number highPriority) m.toList)
            (goTo (g.afterTest v true)) [],
          flowOf ("if " ++ e.text ++ " else") (stageGuard v.id (.number lowPriority) [])
            (goTo (g.afterTest v false)) []]
  | table {name : Text} {c : Checked} {fs : List StageFlow} (hrole : v.role = .table (some name))
      (hfind : findTable? tables name = some c) (hfs : TableFlows b c.table g v fs) :
      StageFlows b tables g v fs

theorem emits_emitCond (e : Expr) (g : Graph) (v : Vertex) :
    Emits (emitCond e g v) fun b _ fs => ∃ m, Gives b.allocator (condition e) m ∧
      fs = [flowOf ("if " ++ e.text) (stageGuard v.id (.number highPriority) m.toList)
          (goTo (g.afterTest v true)) [],
        flowOf ("if " ++ e.text ++ " else") (stageGuard v.id (.number lowPriority) [])
          (goTo (g.afterTest v false)) []] := by
  refine (emits_lower? (ensures_condition_bare e)).bind_some rfl fun m => ?_
  refine (emits_emitFact _ _ _).bind fun _ => (emits_emitFact _ _ _).mono fun b _ fs hfs => ?_
  rintro _ rfl hm
  exact ⟨m, hm, by rw [hfs]; rfl⟩

theorem emits_emitDummy (g : Graph) (v : Vertex) :
    Emits (emitDummy g v) fun _ _ fs =>
      fs = (g.succs v).map fun e => flowOf v.name (.table v.id) (goTo e.node) [] := by
  refine (Emits.forM (fun e : ControlFlow.Edge => emits_emitFact v.name (.table v.id) (goTo e.node))
    _).mono ?_
  rintro b - fs ⟨blocks, rfl, hblocks⟩
  generalize g.succs v = es at hblocks
  induction hblocks with
  | nil => rfl
  | cons h _ ih => rw [List.flatten_cons, ih, h, List.map_cons, List.singleton_append]

/-- All tables were found to be right. -/
def AllGood (tables : List Checked) : Prop := ∀ c ∈ tables, c.isGood = true

theorem emits_emitStage (tables : List Checked) (g : Graph) (v : Vertex) :
    Emits (emitStage tables g v) fun b _ fs => AllGood tables → StageFlows b tables g v fs := by
  unfold emitStage
  split
  · next hrole => exact (emits_emitDummy g v).mono fun b _ fs hfs _ => hfs ▸ .dummy hrole
  · next e hrole =>
    refine (emits_emitCond e g v).mono ?_
    rintro b - _ ⟨m, hm, rfl⟩ -
    exact .cond hrole hm
  · next name hrole =>
    split
    · next c hc =>
      obtain ⟨name, rfl, hfind⟩ := Option.bind_eq_some_iff.mp hc
      split
      · exact (emits_emitTable c.table g v).mono fun b _ fs hfs _ => .table hrole hfind hfs
      · next hbad =>
        exact emits_pure fun _ hgood => absurd (hgood c (List.mem_of_find?_eq_some hfind)) hbad
    · exact (emits_report _).mono fun _ _ _ h => by simp at h

/-- **The flows of a graph.**  Each stage that packets can come to has a block of flows, in the order
of their numbers. -/
theorem emits_emitGraph (tables : List Checked) (g : Graph)
    (exitFlows : Vertex → List StageFlow) :
    Emits (emitGraph tables g exitFlows) fun b _ fs => AllGood tables →
      ∃ blocks, fs = blocks.flatten ∧
        List.Forall₂ (fun v block => if v.position = g.exit.position then block = exitFlows v
          else StageFlows b tables g v block) g.reachable blocks := by
  have hstage : ∀ v, Emits (if v.position = g.exit.position then emitAll (exitFlows v)
      else emitStage tables g v) fun b _ fs => AllGood tables →
        if v.position = g.exit.position then fs = exitFlows v else StageFlows b tables g v fs := by
    intro v
    split
    · exact (emits_emitAll _).mono fun b _ fs hfs _ => hfs
    · exact emits_emitStage tables g v
  refine emits_get.bind fun _ => (Emits.forM hstage g.reachable).bind fun _ => ?_
  refine emits_get.bind fun _ => (emits_note _).mono fun b _ fs hfs => ?_
  rintro _ ⟨-, rfl⟩ _ ⟨blocks, rfl, hblocks⟩ _ ⟨-, rfl⟩ hgood
  rw [hfs, List.append_nil, List.append_nil, List.nil_append]
  exact ⟨blocks, rfl, hblocks.imp fun v block h => h hgood⟩

end Flowline.Compile
