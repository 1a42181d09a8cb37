import Flowline.Proofs.Compile.Agreement
import Flowline.Proofs.Compile.Distinct

/-!
# When variables are captured

The body of a rule binds variables by the arguments of its atom and by assignments, and the cases of
a choice bind more of them by their patterns.  Here it is said exactly when no name is bound twice
(`Legible`): the keys of a table have identifiers of their own, no part of one key has the name of
another key, and the parameters of each action that is chosen have identifiers of their own.

Names that the compiler makes up never meet those that it makes from the names of the program.  The
first two letters of a variable tell its kind (`mark`), so that only variables of one kind need to be
compared.  The variables of a rule are therefore sorted by where they come from (`RuleVars`): the
parts of keys, what is computed from these, and those that every rule has.  Of the three lists only
the first can have a repetition that the program is to blame for (`RuleVars.nodup_iff`).

The condition is on the names of the program, and it is an equivalence in both directions
(`Compiled.uncaptured_iff`).  For this the rules are traced back: a rule that is no fact belongs to a
table at a stage, or copies packets (`Compiled.fact_or_rule`), and a table that the control plane
fills does have its rule (`TableFlows.exists_ruleFlow`).  Declarations are another matter: such a
table has its relation whether it is applied or not, so columns are compared in all of them.
-/

namespace Flowline.Ddlog

mutual

/-- The patterns of the cases in an expression. -/
def Expr.patterns : Expr → List Expr
  | .choose subject cases => subject.patterns ++ casesPatterns cases
  | .ctor _ args => listPatterns args
  | .call _ args => listPatterns args
  | .apply left _ args => left.patterns ++ listPatterns args
  | .binary _ left right => left.patterns ++ right.patterns
  | .cast e _ => e.patterns
  | .ifElse cond thn els => cond.patterns ++ thn.patterns ++ els.patterns
  | .tuple elems => listPatterns elems
  | _ => []

def listPatterns : List Expr → List Expr
  | [] => []
  | e :: es => e.patterns ++ listPatterns es

def casesPatterns : List Case → List Expr
  | [] => []
  | .mk pattern result :: cs => pattern :: (result.patterns ++ casesPatterns cs)

end

/-- The patterns of the cases in a term. -/
def Term.patterns : Term → List Expr
  | .atom a => listPatterns a.args
  | .assign _ value => value.patterns
  | .cond e => e.patterns

/-- The variables that the terms of a rule bind. -/
def Rule.binds (r : Rule) : List Text := r.body.flatMap Term.binds

/-- No variable is bound twice: the terms of a body bind different ones, and each pattern binds
different ones that no term binds. -/
structure Rule.Fresh (r : Rule) : Prop where
  terms : r.binds.Nodup
  patterns : ∀ q ∈ r.body.flatMap Term.patterns, q.free.Nodup ∧ q.free.Disjoint r.binds

/-- No rule binds a variable twice, and no relation has two columns of one name. -/
structure Uncaptured (ds : Program) : Prop where
  rules : ∀ r ∈ ds.filterMap Decl.rule?, r.Fresh
  columns : ∀ r ∈ ds.relations, (r.columns.map Column.name).Nodup

end Flowline.Ddlog

namespace Flowline.Compile

open Ddlog (Column Decl Uncaptured casesPatterns listFree listPatterns)
open ControlFlow (Graph Vertex)
open Pipeline (Control Key Program Table idleControl ofDescription)
open Switch (Target)

/-! ## The rule of a flow -/

/-- The variables of the patterns in a term of a body. -/
def Binding.caseVars : Binding → List (List Text)
  | optional _ _ value _ => [[value], []]
  | choice cases => cases.map (·.vars)
  | _ => []

theorem listFree_vars (vs : List Text) : listFree (vs.map .var) = vs := by
  induction vs with
  | nil => rfl
  | cons v vs ih =>
    rw [List.map_cons, listFree, ih]
    rfl

theorem listPatterns_patterns (ps : List Pattern) : listPatterns (ps.map Pattern.expr) = [] := by
  induction ps with
  | nil => rfl
  | cons q ps ih =>
    rw [List.map_cons, listPatterns, ih]
    cases q <;> rfl

theorem map_free_casesPatterns (cases : List ActionCase) :
    (casesPatterns (cases.map ActionCase.expr)).map Ddlog.Expr.free = cases.map (·.vars) := by
  induction cases with
  | nil => rfl
  | cons c cases ih =>
    rw [List.map_cons, ActionCase.expr, casesPatterns, List.map_cons, List.map_cons, ← ih]
    exact congrArg (· :: _) (listFree_vars c.vars)

theorem Binding.map_free_patterns (x : Binding) :
    x.term.patterns.map Ddlog.Expr.free = x.caseVars := by
  cases x with
  | row relation patterns =>
    exact congrArg (List.map Ddlog.Expr.free) (listPatterns_patterns patterns)
  | choice cases => exact map_free_casesPatterns cases
  | _ => rfl

/-- The variables that the rule of a flow binds. -/
def StageFlow.bound (f : StageFlow) : List Text := f.bindings.flatMap Binding.binds ++ ["flow"]

theorem StageFlow.binds_rule {f : StageFlow} (h : f.bindings ≠ []) : f.rule.binds = f.bound := by
  have hbody : f.rule.body = f.bindings.map Binding.term ++ [.assign "flow" (.str f.flow.text)] := by
    rw [StageFlow.rule, if_neg (by simpa using h)]
  rw [Ddlog.Rule.binds, hbody, List.flatMap_append, List.flatMap_map, StageFlow.bound]
  exact congrArg (· ++ ["flow"]) (List.flatMap_congr fun x _ => x.binds_term)

theorem StageFlow.mem_patterns_rule {f : StageFlow} {q : Ddlog.Expr} :
    q ∈ f.rule.body.flatMap Ddlog.Term.patterns ↔
      ∃ x ∈ f.bindings, q ∈ x.term.patterns := by
  unfold StageFlow.rule
  split
  · next h => simp [List.isEmpty_iff.mp h]
  · have hlast : (Ddlog.Term.assign "flow" (.str f.flow.text)).patterns = [] := rfl
    simp [List.flatMap_append, List.flatMap_map, hlast]

theorem StageFlow.fresh_of_nil {f : StageFlow} (h : f.bindings = []) : f.rule.Fresh := by
  have hrule : f.rule.body = [] := by rw [StageFlow.rule, if_pos (by simp [h])]
  refine ⟨?_, ?_⟩
  · rw [Ddlog.Rule.binds, hrule]
    exact List.nodup_nil
  · rw [hrule]
    exact nofun

/-- The rule of a flow binds no variable twice where its terms do not. -/
theorem StageFlow.fresh_iff (f : StageFlow) :
    f.rule.Fresh ↔ f.bound.Nodup ∧
      ∀ x ∈ f.bindings, ∀ vs ∈ x.caseVars, vs.Nodup ∧ vs.Disjoint f.bound := by
  by_cases h : f.bindings = []
  · refine iff_of_true (fresh_of_nil h) ⟨?_, ?_⟩
    · rw [StageFlow.bound, h]
      exact List.nodup_singleton _
    · rw [h]
      exact nofun
  · constructor
    · intro hfresh
      refine ⟨f.binds_rule h ▸ hfresh.terms, fun x hx vs hvs => ?_⟩
      rw [← x.map_free_patterns] at hvs
      obtain ⟨q, hq, rfl⟩ := List.mem_map.mp hvs
      have hpattern := hfresh.patterns q (f.mem_patterns_rule.mpr ⟨x, hx, hq⟩)
      rwa [f.binds_rule h] at hpattern
    · rintro ⟨hbound, hcases⟩
      rw [← f.binds_rule h] at hbound hcases
      refine ⟨hbound, fun q hq => ?_⟩
      obtain ⟨x, hx, hq⟩ := f.mem_patterns_rule.mp hq
      exact hcases x hx _ (x.map_free_patterns ▸ List.mem_map_of_mem hq)

/-! ## Kinds of variables -/

/-- The first two letters of a variable. -/
def mark (v : Text) : List Char := v.toList.take 2

theorem mark_append {m : Text} (hm : m.toList.length = 2) (t : Text) : mark (m ++ t) = m.toList := by
  rw [mark, String.toList_append, ← hm, List.take_left]

theorem disjoint_of_mark {vs ws : List Text} (h : ∀ v ∈ vs, ∀ w ∈ ws, mark v ≠ mark w) :
    vs.Disjoint ws :=
  fun v hv hw => h v hv v hw rfl

/-- The variables of an element of a key that its column is taken apart into, behind the mark of
keys. -/
def keyParts (k : Key) : List Text :=
  match k.kind with
  | .ternary => [identifier k.name ++ "_value", identifier k.name ++ "_mask"]
  | .lpm => [identifier k.name ++ "_value", identifier k.name ++ "_plen"]
  | _ => [identifier k.name]

/-- The keys of a table have identifiers of their own. -/
def KeysDiffer (x : Table) : Prop := (x.keys.map fun k => identifier k.name).Nodup

/-- No two parts of the keys of a table are the same. -/
def PartsDiffer (x : Table) : Prop := (x.keys.flatMap keyParts).Nodup

instance (x : Table) : Decidable (KeysDiffer x) := List.nodupDecidable _

instance (x : Table) : Decidable (PartsDiffer x) := List.nodupDecidable _

/-- The variables that are made of those of a column. -/
structure KeyMatch.Derived (km : KeyMatch) : Prop where
  nodup : (km.bindings.flatMap Binding.binds).Nodup
  derived : ∀ v ∈ km.bindings.flatMap Binding.binds,
    ∃ z m, "k_" ++ z ∈ km.pattern.vars ∧ (m = "b_" ∨ m = "m_") ∧ v = m ++ z

variable {k : Key} {left : Flow.Expr} {km : KeyMatch} {bound : List Text}

theorem KeyForm.vars_pattern (h : KeyForm k left km) :
    km.pattern.vars = (keyParts k).map ("k_" ++ ·) := by
  cases h with
  | truth hkind | exact hkind => simp [Pattern.vars, keyParts, hkind, keyVar]
  | ternary hkind | lpm hkind => simp [Pattern.vars, keyParts, hkind, keyVar, String.append_assoc]
  | optional hkind => simp [Pattern.vars, keyParts, hkind, keyVar]

theorem KeyForm.derived (h : KeyForm k left km) : km.Derived := by
  cases h with
  | truth =>
    refine ⟨List.nodup_singleton _, List.forall_mem_singleton.mpr ?_⟩
    exact ⟨identifier k.name, "b_", List.mem_cons_self, Or.inl rfl, rfl⟩
  | optional =>
    refine ⟨List.nodup_singleton _, List.forall_mem_singleton.mpr ?_⟩
    exact ⟨identifier k.name, "m_", List.mem_cons_self, Or.inr rfl, rfl⟩
  | _ => exact ⟨List.nodup_nil, nofun⟩

theorem KeyForm.caseVars (h : KeyForm k left km) {x : Binding} (hx : x ∈ km.bindings)
    {vs : List Text} (hvs : vs ∈ x.caseVars) : vs.Nodup ∧ ∀ v ∈ vs, mark v = "v_".toList := by
  cases h with
  | truth =>
    cases List.mem_singleton.mp hx
    cases hvs
  | optional =>
    cases List.mem_singleton.mp hx
    rcases List.mem_cons.mp hvs with rfl | hvs
    · exact ⟨List.nodup_singleton _, List.forall_mem_singleton.mpr (mark_append rfl _)⟩
    · cases List.mem_singleton.mp hvs
      exact ⟨List.nodup_nil, nofun⟩
  | _ => cases hx

/-! ## Choices of actions -/

/-- The parameters of each action have identifiers of their own. -/
def ParamsDiffer (as : List Pipeline.Action) : Prop :=
  ∀ a ∈ as, (a.params.map fun q => identifier q.name).Nodup

instance (as : List Pipeline.Action) : Decidable (ParamsDiffer as) :=
  List.decidableBAll _ as

theorem nodup_paramVars_iff (ps : List Param) :
    (ps.map paramVar).Nodup ↔ (ps.map fun q => identifier q.name).Nodup := by
  have hmap : ps.map paramVar = (ps.map fun q => identifier q.name).map ("p_" ++ ·) := by
    rw [List.map_map]
    rfl
  rw [hmap]
  exact List.nodup_map_iff (append_injective _)

/-- The patterns of a choice bind no variable twice where the parameters of its actions differ. -/
theorem caseVars_choice_iff {typeName : Text} {g : Graph} {next : Pipeline.Action → Vertex}
    {as : List Pipeline.Action} {cases : List ActionCase}
    (hcases : List.Forall₂ (CaseOf typeName g next) as cases)
    (hbound : ∀ v ∈ bound, mark v ≠ "p_".toList) :
    (∀ vs ∈ (Binding.choice cases).caseVars, vs.Nodup ∧ vs.Disjoint bound) ↔ ParamsDiffer as := by
  constructor
  · intro h a ha
    obtain ⟨c, hc, hcase⟩ := exists_of_mem_left hcases ha
    have hnodup := (h c.vars (List.mem_map_of_mem hc)).1
    rw [hcase.vars_eq] at hnodup
    exact (nodup_paramVars_iff _).mp hnodup
  · intro h vs hvs
    obtain ⟨c, hc, rfl⟩ := List.mem_map.mp hvs
    obtain ⟨a, ha, hcase⟩ := exists_of_mem_right hcases hc
    rw [hcase.vars_eq]
    refine ⟨(nodup_paramVars_iff _).mpr (h a ha), disjoint_of_mark fun v hv w hw heq => ?_⟩
    obtain ⟨q, -, rfl⟩ := List.mem_map.mp hv
    exact hbound w hw (heq.symm.trans (mark_append rfl _))

/-! ## Rules of tables -/

/-- The variables that are named by the compiler alone. -/
def ownVars : List Text :=
  ["priority", "action", "actions", "flow", "mcast_id", "port", "clone_action"]

theorem mark_ne_of_mem_ownVars {v : Text} (hv : v ∈ ownVars) {m : Text}
    (hm : m ∈ ["k_", "b_", "m_", "v_", "p_"]) : mark v ≠ m.toList := by
  have hall : ∀ v ∈ ownVars, ∀ m ∈ ["k_", "b_", "m_", "v_", "p_"], mark v ≠ m.toList := by decide
  exact hall v hv m hm

section

variable {b : State} {ks : List Key} {kms : List KeyMatch}

theorem flatMap_vars_pattern (h : List.Forall₂ (KeyOf b) ks kms) :
    kms.flatMap (fun km => km.pattern.vars) = (ks.flatMap keyParts).map ("k_" ++ ·) := by
  induction h with
  | nil => rfl
  | cons hk _ ih =>
    obtain ⟨left, -, hform, -⟩ := hk
    rw [List.flatMap_cons, List.flatMap_cons, List.map_append, ih, hform.vars_pattern]

/-- What is made of different columns is different. -/
theorem nodup_derived (h : ∀ km ∈ kms, km.Derived)
    (hvars : (kms.flatMap fun km => km.pattern.vars).Nodup) :
    (kms.flatMap fun km => km.bindings.flatMap Binding.binds).Nodup := by
  rw [List.nodup_flatMap] at hvars ⊢
  refine ⟨fun km hkm => (h km hkm).nodup, hvars.2.imp_of_mem ?_⟩
  intro km km' hkm hkm' hdisjoint v hv hv'
  obtain ⟨z, m, hz, hm, rfl⟩ := (h km hkm).derived v hv
  obtain ⟨z', m', hz', hm', heq⟩ := (h km' hkm').derived _ hv'
  have hmark := congrArg mark heq
  have hlength : ∀ {m : Text}, m = "b_" ∨ m = "m_" → m.toList.length = 2 := by
    rintro _ (rfl | rfl) <;> rfl
  rw [mark_append (hlength hm), mark_append (hlength hm'), String.toList_inj] at hmark
  subst hmark
  exact hdisjoint hz (append_injective m heq ▸ hz')

end

section

variable {b : State} {x : Table} {g : Graph} {v : Vertex} {f : StageFlow}

/-- The variables that a rule over rows binds: the parts of its keys, what is made of them, and
variables of the compiler's own. -/
structure RuleVars (x : Table) (bound derived own : List Text) : Prop where
  perm : bound.Perm ((x.keys.flatMap keyParts).map ("k_" ++ ·) ++ (derived ++ own))
  marks : ∀ v ∈ derived, mark v = "b_".toList ∨ mark v = "m_".toList
  nodup : PartsDiffer x → derived.Nodup
  own : own.Sublist ownVars

/-- No variable is bound twice where no two parts of keys are the same. -/
theorem RuleVars.nodup_iff {derived own : List Text} (h : RuleVars x bound derived own) :
    bound.Nodup ↔ PartsDiffer x := by
  have hown : own.Nodup := h.own.nodup (by decide)
  have hapart : derived.Disjoint own := disjoint_of_mark fun v hv w hw heq => by
    rcases h.marks v hv with hmark | hmark
    · exact mark_ne_of_mem_ownVars (h.own.subset hw) (by simp) (heq.symm.trans hmark)
    · exact mark_ne_of_mem_ownVars (h.own.subset hw) (by simp) (heq.symm.trans hmark)
  have hkeys : ((x.keys.flatMap keyParts).map ("k_" ++ ·)).Disjoint (derived ++ own) := by
    refine disjoint_of_mark fun v hv w hw heq => ?_
    obtain ⟨z, -, rfl⟩ := List.mem_map.mp hv
    have hmark : mark w = "k_".toList := heq.symm.trans (mark_append rfl z)
    rcases List.mem_append.mp hw with hw | hw
    · rcases h.marks w hw with hw | hw
      · exact absurd (hmark.symm.trans hw) (by decide)
      · exact absurd (hmark.symm.trans hw) (by decide)
    · exact mark_ne_of_mem_ownVars (h.own.subset hw) (by simp) hmark
  rw [h.perm.nodup_iff, List.nodup_append', List.nodup_map_iff (append_injective _)]
  exact and_iff_left_of_imp fun hnodup =>
    ⟨List.nodup_append'.mpr ⟨h.nodup hnodup, hown, hapart⟩, hkeys⟩

/-- Patterns are of other kinds than terms. -/
theorem RuleVars.mark_ne {derived own : List Text} (h : RuleVars x bound derived own) {w : Text}
    (hw : w ∈ bound) : mark w ≠ "v_".toList ∧ mark w ≠ "p_".toList := by
  rcases List.mem_append.mp (h.perm.mem_iff.mp hw) with hw | hw
  · obtain ⟨z, -, rfl⟩ := List.mem_map.mp hw
    rw [mark_append rfl z]
    decide
  · rcases List.mem_append.mp hw with hw | hw
    · rcases h.marks w hw with hw | hw
      · rw [hw]
        decide
      · rw [hw]
        decide
    · exact ⟨mark_ne_of_mem_ownVars (h.own.subset hw) (by simp),
        mark_ne_of_mem_ownVars (h.own.subset hw) (by simp)⟩

theorem exists_ruleVars {kms : List KeyMatch} {act : Flow.Action} {chosen : List Binding}
    (hkms : List.Forall₂ (KeyOf b) x.keys kms) (hact : RuleAction x g v act chosen) :
    ∃ derived own, RuleVars x
      ((entryRow x kms :: kms.flatMap (·.bindings) ++ chosen).flatMap Binding.binds ++ ["flow"])
      derived own := by
  have hderived : ∀ km ∈ kms, km.Derived := by
    intro km hkm
    obtain ⟨k, -, left, -, hform, -⟩ := exists_of_mem_right hkms hkm
    exact hform.derived
  have hvars := flatMap_vars_pattern hkms
  set first := (if allExact x then [] else ["priority"]) ++
    (if needsActions x then ["action"] else []) with hfirst
  set last := chosen.flatMap Binding.binds ++ ["flow"] with hlast
  refine ⟨kms.flatMap fun km => km.bindings.flatMap Binding.binds, first ++ last, ?_, ?_, ?_, ?_⟩
  · have hrow : (entryRow x kms).binds = kms.flatMap (fun km => km.pattern.vars) ++ first := by
      have hpriority : (if allExact x then [] else [Pattern.var "priority"]).flatMap Pattern.vars =
          if allExact x then [] else ["priority"] := by split <;> rfl
      have haction : (if needsActions x then [Pattern.var "action"] else []).flatMap Pattern.vars =
          if needsActions x then ["action"] else [] := by split <;> rfl
      rw [entryRow, Binding.binds, List.flatMap_append, List.flatMap_append, List.flatMap_map,
        hpriority, haction, List.append_assoc]
    rw [← hvars, List.cons_append, List.flatMap_cons, List.flatMap_append, List.flatMap_assoc, hrow,
      List.append_assoc, List.append_assoc _ first, List.append_assoc _ _ ["flow"]]
    exact .append_left _ (List.perm_append_comm_assoc _ _ _)
  · intro w hw
    obtain ⟨km, hkm, hw⟩ := List.mem_flatMap.mp hw
    obtain ⟨z, m, -, rfl | rfl, rfl⟩ := (hderived km hkm).derived w hw
    · exact Or.inl (mark_append rfl z)
    · exact Or.inr (mark_append rfl z)
  · intro hnodup
    refine nodup_derived hderived ?_
    rw [hvars]
    exact (List.nodup_map_iff (append_injective _)).mpr hnodup
  · have hchosen : last = ["flow"] ∨ last = ["actions", "flow"] := by
      cases hact with
      | only => exact Or.inl rfl
      | choice => exact Or.inr rfl
    rw [hfirst]
    rcases hchosen with h | h <;> rw [h] <;> split <;> split <;> decide

/-- **The rule over the rows of a table** binds no variable twice exactly where no two parts of keys
are the same, and the parameters of each action differ. -/
theorem fresh_ruleFlow_iff (hf : RuleFlow b x g v f) :
    f.rule.Fresh ↔ PartsDiffer x ∧
      (needsActions x = true → ParamsDiffer (entryActions x)) := by
  obtain ⟨kms, act, chosen, hkms, hact, rfl⟩ := hf
  obtain ⟨derived, own, hvars⟩ := exists_ruleVars hkms hact
  rw [StageFlow.fresh_iff]
  refine and_congr hvars.nodup_iff ?_
  show (∀ y ∈ entryRow x kms :: kms.flatMap (·.bindings) ++ chosen, _) ↔ _
  rw [List.forall_mem_append, List.forall_mem_cons]
  have hkeys : ∀ y ∈ kms.flatMap (·.bindings), ∀ vs ∈ y.caseVars, vs.Nodup ∧ vs.Disjoint
      (flowOf ("table " ++ x.fullName) (entryGuard x v kms) act
        (entryRow x kms :: kms.flatMap (·.bindings) ++ chosen)).bound := by
    intro y hy vs hvs
    obtain ⟨km, hkm, hy⟩ := List.mem_flatMap.mp hy
    obtain ⟨k, -, left, -, hform, -⟩ := exists_of_mem_right hkms hkm
    obtain ⟨hnodup, hmarks⟩ := hform.caseVars hy hvs
    refine ⟨hnodup, disjoint_of_mark fun w hw u hu heq => ?_⟩
    exact (hvars.mark_ne hu).1 (heq.symm.trans (hmarks w hw))
  rw [and_iff_right ⟨nofun, hkeys⟩]
  cases hact with
  | only hneeds => exact iff_of_true nofun fun h => absurd h (by simp [hneeds])
  | choice hneeds hcases =>
    rw [List.forall_mem_singleton]
    refine (caseVars_choice_iff hcases fun w hw => (hvars.mark_ne hw).2).trans ?_
    exact ⟨fun h _ => h, fun h => h hneeds⟩

/-- The rule of a default action binds no variable twice exactly where the parameters of each action
differ. -/
theorem fresh_defaultFlow_iff (hf : DefaultFlow b x g v f) :
    f.rule.Fresh ↔ (hasConstDefault x = false → ParamsDiffer (defaultActions x)) := by
  rw [StageFlow.fresh_iff]
  cases hf with
  | fixed hconst =>
    exact iff_of_true ⟨List.nodup_singleton _, nofun⟩ fun h => absurd h (by simp [hconst])
  | @chosen cases hconst hcases =>
    have hmarks : ∀ w ∈ ["action", "actions", "flow"], mark w ≠ "p_".toList := by decide
    have hnodup : ["action", "actions", "flow"].Nodup := by decide
    show ["action", "actions", "flow"].Nodup ∧ (∀ y ∈ [_, Binding.choice cases], _) ↔ _
    rw [and_iff_right hnodup, List.forall_mem_cons, List.forall_mem_singleton]
    refine (and_iff_right ?_).trans ((caseVars_choice_iff hcases hmarks).trans ?_)
    · exact nofun
    · exact ⟨fun h _ => h, fun h => h hconst⟩

end

theorem fresh_groupFlow (ports : Ports) (stages : Stages) : (groupFlow ports stages).rule.Fresh := by
  refine (StageFlow.fresh_iff _).mpr ⟨?_, ?_⟩
  · show ["mcast_id", "port", "clone_action", "actions", "flow"].Nodup
    decide
  · exact List.forall_mem_cons.mpr ⟨nofun, List.forall_mem_cons.mpr ⟨nofun,
      List.forall_mem_cons.mpr ⟨nofun, List.forall_mem_cons.mpr ⟨nofun, nofun⟩⟩⟩⟩

/-! ## Where rules come from -/

section

variable {b : State} {x : Table} {g : Graph} {v : Vertex} {fs : List StageFlow}

/-- A flow of a table is a fact, the rule over its rows or that of its default action. -/
theorem TableFlows.fact_or_rule (h : TableFlows b x g v fs) {f : StageFlow} (hf : f ∈ fs) :
    f.bindings = [] ∨ (isParametric x = true ∧ RuleFlow b x g v f) ∨ DefaultFlow b x g v f := by
  rcases h.cases_of_mem hf with hrule | ⟨e, ms, act, -, -, rfl⟩ | hdefault
  · exact Or.inr (Or.inl hrule)
  · exact Or.inl rfl
  · exact Or.inr (Or.inr hdefault)

theorem TableFlows.exists_ruleFlow (h : TableFlows b x g v fs) (hparam : isParametric x = true) :
    ∃ f ∈ fs, RuleFlow b x g v f := by
  obtain ⟨hrules, -, -⟩ := h
  rw [if_pos hparam] at hrules
  obtain ⟨f, rfl, hf⟩ := hrules
  exact ⟨f, List.mem_append_left _ List.mem_cons_self, hf⟩

theorem TableFlows.exists_defaultFlow (h : TableFlows b x g v fs) :
    ∃ f ∈ fs, DefaultFlow b x g v f := by
  obtain ⟨-, -, hdefault⟩ := h
  exact ⟨_, List.mem_append_right _ (List.mem_append_right _ List.mem_cons_self), hdefault⟩

end

/-- **A flow is a fact**, the flow of multicast groups, or one of a table at a stage. -/
theorem Compiled.fact_or_rule {p : Program} {t : Target} {o : Output}
    {inControl outControl : Control} {ports : Ports} {b : State}
    (h : Compiled p t o inControl outControl ports b) {f : StageFlow} (hf : f ∈ o.flows) :
    f.bindings = [] ∨ f = groupFlow ports o.stages ∨
      ∃ g v x, TableAt p o g v x ∧ f ∈ o.flowsAt v.id := by
  cases h.origin hf with
  | group => exact Or.inr (Or.inl rfl)
  | table hat hf => exact Or.inr (Or.inr ⟨_, _, _, hat, hf⟩)
  | test _ _ _ hfact => exact Or.inl hfact
  | egressExit hf =>
    have hfacts : ∀ f ∈ egressExitFlows ports o.egress.exit, f.bindings = [] :=
      List.forall_mem_cons.mpr ⟨rfl, List.forall_mem_singleton.mpr rfl⟩
    exact Or.inl (hfacts f hf)
  | _ => exact Or.inl rfl

/-! ## Programs -/

theorem nodup_columns_iff (x : Table) :
    ((entryColumns x).map Column.name).Nodup ↔ KeysDiffer x := by
  set own := (if allExact x then [] else ["priority"]) ++
    (if needsActions x then ["action"] else []) with hown
  have hnames : (entryColumns x).map Column.name =
      (x.keys.map fun k => identifier k.name).map ("k_" ++ ·) ++ own := by
    have hpriority : (if allExact x then [] else [Column.mk "priority" (.bits 32)]).map Column.name =
        if allExact x then [] else ["priority"] := by split <;> rfl
    have haction : (if needsActions x then [Column.mk "action" (.named (actionTypeName x))]
        else []).map Column.name = if needsActions x then ["action"] else [] := by split <;> rfl
    rw [entryColumns, List.map_append, List.map_append, hpriority, haction, List.append_assoc,
      List.map_map, List.map_map]
    rfl
  have hsublist : own.Sublist ownVars := by
    rw [hown]
    split <;> split <;> decide
  rw [hnames, List.nodup_append', List.nodup_map_iff (append_injective _)]
  refine and_iff_left ⟨hsublist.nodup (by decide), disjoint_of_mark fun v hv w hw heq => ?_⟩
  obtain ⟨z, -, rfl⟩ := List.mem_map.mp hv
  exact mark_ne_of_mem_ownVars (hsublist.subset hw) (by simp)
    (heq.symm.trans (mark_append rfl z))

theorem paramsDiffer_choices_iff (x : Table) :
    (∀ c ∈ choices x, ParamsDiffer c.2) ↔
      (isParametric x = true → needsActions x = true → ParamsDiffer (entryActions x)) ∧
        (hasConstDefault x = false → ParamsDiffer (defaultActions x)) := by
  unfold choices
  rw [List.forall_mem_append]
  refine and_congr ?_ ?_
  · split
    · next hparam => split <;> simp_all
    · next hparam => simp [hparam]
  · split <;> simp_all

theorem rule?_eq_none_builtinDecls {d : Decl} (hd : d ∈ builtinDecls) : d.rule? = none := by
  rcases List.mem_cons.mp hd with rfl | hd
  · rfl
  · cases List.mem_singleton.mp hd
    rfl

theorem rule?_eq_none_tableDecls {x : Table} {d : Decl} (hd : d ∈ tableDecls x) :
    d.rule? = none := by
  have hnone : ∀ d ∈ tableDecls x, d.rule? = none := by
    unfold tableDecls actionType
    split <;> split <;> try split
    all_goals simp [Decl.rule?]
  exact hnone d hd

/-- No name comes to be bound twice. -/
structure Legible (p : Program) (o : Output) : Prop where
  /-- The keys of a table that the control plane fills have identifiers of their own. -/
  columns : ∀ x ∈ tablesOf p, isParametric x = true → KeysDiffer x
  /-- Where such a table is applied, no two parts of its keys are the same. -/
  keys : ∀ g v x, TableAt p o g v x → isParametric x = true → PartsDiffer x
  /-- Where a table is applied, the parameters of each action that is chosen have identifiers of
  their own. -/
  params : ∀ g v x, TableAt p o g v x → ∀ c ∈ choices x, ParamsDiffer c.2

/-- No name is bound twice in the relation and the rules of a table, if it has all of them. -/
def NamesDiffer (x : Table) : Prop :=
  KeysDiffer x ∧ PartsDiffer x ∧ ∀ c ∈ choices x, ParamsDiffer c.2

instance (x : Table) : Decidable (NamesDiffer x) :=
  inferInstanceAs (Decidable (KeysDiffer x ∧ PartsDiffer x ∧ ∀ c ∈ choices x, ParamsDiffer c.2))

namespace Compiled

variable {p : Program} {t : Target} {o : Output} {inControl outControl : Control} {ports : Ports}
  {b : State} (h : Compiled p t o inControl outControl ports b)

include h

theorem fresh_iff : (∀ f ∈ o.flows, f.rule.Fresh) ↔
    ∀ g v x, TableAt p o g v x → (isParametric x = true → PartsDiffer x) ∧
      ∀ c ∈ choices x, ParamsDiffer c.2 := by
  constructor
  · intro hfresh g v x hat
    have htable := h.tableFlows hat
    have hflows : ∀ f ∈ o.flowsAt v.id, f.rule.Fresh := fun f hf =>
      hfresh f (List.mem_of_mem_filter hf)
    obtain ⟨d, hd, hdefault⟩ := htable.exists_defaultFlow
    have hrule : isParametric x = true → PartsDiffer x ∧
        (needsActions x = true → ParamsDiffer (entryActions x)) := by
      intro hparam
      obtain ⟨f, hf, hrule⟩ := htable.exists_ruleFlow hparam
      exact (fresh_ruleFlow_iff hrule).mp (hflows f hf)
    refine ⟨fun hparam => (hrule hparam).1, (paramsDiffer_choices_iff x).mpr ⟨?_, ?_⟩⟩
    · exact fun hparam => (hrule hparam).2
    · exact (fresh_defaultFlow_iff hdefault).mp (hflows d hd)
  · intro htables f hf
    rcases h.fact_or_rule hf with hnil | rfl | ⟨g, v, x, hat, hf⟩
    · exact StageFlow.fresh_of_nil hnil
    · exact fresh_groupFlow ports o.stages
    · obtain ⟨hkeys, hchoices⟩ := htables g v x hat
      obtain ⟨hentry, hdefault⟩ := (paramsDiffer_choices_iff x).mp hchoices
      rcases (h.tableFlows hat).fact_or_rule hf with hnil | ⟨hparam, hrule⟩ | hflow
      · exact StageFlow.fresh_of_nil hnil
      · exact (fresh_ruleFlow_iff hrule).mpr ⟨hkeys hparam, hentry hparam⟩
      · exact (fresh_defaultFlow_iff hflow).mpr hdefault

theorem mem_rules {r : Ddlog.Rule} :
    r ∈ o.program.filterMap Decl.rule? ↔ ∃ f ∈ o.flows, f.rule = r := by
  rw [List.mem_filterMap]
  constructor
  · rintro ⟨d, hd, heq⟩
    rw [Output.program, List.mem_append, List.mem_append, h.declarations, List.mem_append,
      List.mem_flatMap] at hd
    rcases hd with (hd | hd | ⟨x, -, hd⟩) | hd
    · obtain ⟨f, rfl⟩ := h.exists_function hd
      cases heq
    · rw [rule?_eq_none_builtinDecls hd] at heq
      cases heq
    · rw [rule?_eq_none_tableDecls hd] at heq
      cases heq
    · obtain ⟨f, hf, rfl⟩ := List.mem_map.mp hd
      exact ⟨f, hf, Option.some.inj heq⟩
  · rintro ⟨f, hf, rfl⟩
    exact ⟨f.decl, List.mem_append_right _ (List.mem_map_of_mem hf), rfl⟩

/-- The relations of a program are those that are declared for its tables, and those of every
program. -/
theorem mem_relations {q : Ddlog.Relation} : q ∈ o.program.relations ↔
    .relation q ∈ builtinDecls ∨ ∃ x ∈ tablesOf p, .relation q ∈ tableDecls x := by
  have hmem : q ∈ o.program.relations ↔ .relation q ∈ o.program := by
    rw [Ddlog.Program.relations, List.mem_filterMap]
    constructor
    · rintro ⟨d, hd, heq⟩
      cases d with
      | relation r =>
        cases heq
        exact hd
      | _ => cases heq
    · exact fun hq => ⟨_, hq, rfl⟩
  rw [hmem, Output.program, List.mem_append, List.mem_append, h.declarations, List.mem_append,
    List.mem_flatMap, h.tablesOf_eq]
  constructor
  · rintro ((hq | hq) | hq)
    · obtain ⟨f, hf⟩ := h.exists_function hq
      cases hf
    · exact hq
    · obtain ⟨f, -, hf⟩ := List.mem_map.mp hq
      cases hf
  · exact fun hq => Or.inl (Or.inr hq)

theorem nodup_columns_iff : (∀ q ∈ o.program.relations, (q.columns.map Column.name).Nodup) ↔
    ∀ x ∈ tablesOf p, isParametric x = true → KeysDiffer x := by
  constructor
  · intro hcolumns x hx hparam
    have hmem : .relation (entryRelation x) ∈ tableDecls x := by simp [tableDecls, hparam]
    exact (Compile.nodup_columns_iff x).mp
      (hcolumns (entryRelation x) (h.mem_relations.mpr (Or.inr ⟨x, hx, hmem⟩)))
  · intro htables q hq
    rcases h.mem_relations.mp hq with hq | ⟨x, hx, hq⟩
    · have hall : ∀ d ∈ builtinDecls, ∀ q ∈ d.relation?, (q.columns.map Column.name).Nodup := by
        refine List.forall_mem_cons.mpr ⟨?_, List.forall_mem_singleton.mpr ?_⟩
        · rintro _ ⟨⟩
          decide
        · rintro _ ⟨⟩
          decide
      exact hall _ hq q rfl
    · rcases relation_of_mem hq with ⟨hparam, rfl⟩ | ⟨-, rfl⟩
      · exact (Compile.nodup_columns_iff x).mpr (htables x hx hparam)
      · exact List.nodup_singleton _

theorem uncaptured_iff : Uncaptured o.program ↔ Legible p o := by
  have hrules : (∀ r ∈ o.program.filterMap Decl.rule?, r.Fresh) ↔ ∀ f ∈ o.flows, f.rule.Fresh := by
    constructor
    · exact fun hall f hf => hall _ (h.mem_rules.mpr ⟨f, hf, rfl⟩)
    · intro hall r hr
      obtain ⟨f, hf, rfl⟩ := h.mem_rules.mp hr
      exact hall f hf
  have hfresh := hrules.trans h.fresh_iff
  constructor
  · intro hclear
    have htables := hfresh.mp hclear.rules
    exact ⟨h.nodup_columns_iff.mp hclear.columns, fun g v x hat => (htables g v x hat).1,
      fun g v x hat => (htables g v x hat).2⟩
  · intro hclear
    exact ⟨hfresh.mpr fun g v x hat => ⟨hclear.keys g v x hat, hclear.params g v x hat⟩,
      h.nodup_columns_iff.mpr hclear.columns⟩

/-- Names that differ in all tables differ in those that are applied. -/
theorem legible_of_forall (hall : ∀ x ∈ tablesOf p, NamesDiffer x) : Legible p o := by
  have hat : ∀ g v x, TableAt p o g v x → NamesDiffer x := fun g v x hat =>
    hall x (h.tablesOf_eq ▸ h.mem_of_tableAt hat)
  exact ⟨fun x hx _ => (hall x hx).1, fun g v x hx _ => (hat g v x hx).2.1,
    fun g v x hx => (hat g v x hx).2.2⟩

end Compiled

/-- **No variable is captured exactly where names differ.**  For every program that compiles, each
rule of the output binds different variables by its terms, each pattern of a case binds different
ones that no term binds, and the columns of each relation have different names, if and only if the keys
of each table that the control plane fills have identifiers of their own, no two parts of the keys
of such a table are the same where it is applied, and neither are the identifiers of two parameters
of an action that is chosen there. -/
theorem variables_uncaptured_iff {p : Program} {t : Target} {o : Output}
    (hcompile : (compile p t).result = .ok o) : Uncaptured o.program ↔ Legible p o := by
  obtain ⟨inControl, outControl, ports, b, h⟩ := compiled_of_ok hcompile
  exact h.uncaptured_iff

theorem variables_uncaptured_iff_sampleProgram :
    ∃ o, (compile sampleProgram {}).result = .ok o ∧ Uncaptured o.program := by
  obtain ⟨o, ho⟩ := compile_sampleProgram
  obtain ⟨inControl, outControl, ports, b, h⟩ := compiled_of_ok ho
  have hall : ∀ x ∈ tablesOf sampleProgram, NamesDiffer x := by decide +kernel
  exact ⟨o, ho, (variables_uncaptured_iff ho).mpr (h.legible_of_forall hall)⟩

/-- A table whose keys are fields of one name in different groups. -/
def keysDescription : Description.Program where
  metadata := [{ name := "x", width := 8 }]
  standard := [{ name := "x", width := 8 }]
  ingress := some { idleControl with
    actions := [{ name := "a" }]
    tables := [{ name := "t", keys := [{ expr := "m.x" }, { expr := "s.x" }]
                 actions := [{ name := "a" }] }] }
  egress := some idleControl

/-- Both keys bear the name of their field. -/
theorem not_uncaptured_keysDescription :
    ∃ p o, ofDescription keysDescription = .ok p ∧ (compile p {}).result = .ok o ∧
      ¬Uncaptured o.program := by
  obtain ⟨p, o, hload, hcompile, htest⟩ :=
    exists_of_passes keysDescription
      (fun p => decide (∃ x ∈ tablesOf p, isParametric x = true ∧ ¬KeysDiffer x)) (by decide +kernel)
  obtain ⟨inControl, outControl, ports, b, h⟩ := compiled_of_ok hcompile
  obtain ⟨x, hx, hparam, hkeys⟩ := of_decide_eq_true htest
  exact ⟨p, o, hload, hcompile, fun hclear =>
    hkeys ((h.uncaptured_iff.mp hclear).columns x hx hparam)⟩

end Flowline.Compile
