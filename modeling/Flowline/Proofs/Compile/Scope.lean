import Flowline.Proofs.Compile.Identifiers
import Flowline.Proofs.Compile.Stages

/-!
# Variables of rules are bound

The body of a rule binds variables from left to right, and the string literals in it interpolate
them.  A rule is closed when each variable is bound before it is used, or by the pattern of the case
around it: those that its terms name (`Rule.Scoped`), and those that stand inside its literals
(`StageFlow.Closed`).  All rules are, and they call no functions but those that make masks of prefix
lengths, at widths that were asked for (`Compiled.sound_of_mem`).

Inside literals variables are only text.  Which of them a text has is read off it as the program that
runs the rules would do it, and need not be what was meant.  So every name that goes into a literal
is kept with a proof that it can be read there (`Readable`): it is the variable itself, or the call
that makes a mask from one.  `variables_of_hole` then covers the shifts that a literal may add.

What is shown of a flow grows with its body: `sound_flowOf` puts one together from bindings that are
closed in the scope of those in front, and from what its match and its action use.  Larger scopes keep
everything (`ClosedFrom.mono`), so that keys can be added one by one.
-/

namespace Flowline.Ddlog

/-! ## Variables that terms name -/

mutual

/-- The variables of an expression outside its literals, without those that patterns bind. -/
def Expr.free : Expr → List Text
  | .var name => [name]
  | .choose subject cases => subject.free ++ casesFree cases
  | .ctor _ args => listFree args
  | .call _ args => listFree args
  | .apply left _ args => left.free ++ listFree args
  | .binary _ left right => left.free ++ right.free
  | .cast e _ => e.free
  | .ifElse cond thn els => cond.free ++ thn.free ++ els.free
  | .tuple elems => listFree elems
  | _ => []

def listFree : List Expr → List Text
  | [] => []
  | e :: es => e.free ++ listFree es

def casesFree : List Case → List Text
  | [] => []
  | .mk pattern result :: cs => result.free.filter (· ∉ pattern.free) ++ casesFree cs

end

/-- The variables that a term uses.  Those of an atom are bound by it. -/
def Term.free : Term → List Text
  | .atom _ => []
  | .assign _ value => value.free
  | .cond e => e.free

/-- The variables that a term binds. -/
def Term.binds : Term → List Text
  | .atom a => listFree a.args
  | .assign name _ => [name]
  | .cond _ => []

/-- Each term uses what was bound before it, and the head uses what the body binds. -/
def ScopedFrom (head : List Expr) (scope : List Text) : List Term → Prop
  | [] => ∀ v ∈ listFree head, v ∈ scope
  | t :: ts => (∀ v ∈ t.free, v ∈ scope) ∧ ScopedFrom head (scope ++ t.binds) ts

/-- A rule names no variable that it does not bind before. -/
def Rule.Scoped (r : Rule) : Prop := ScopedFrom r.head.args [] r.body

end Flowline.Ddlog

namespace Flowline.Compile

open Ddlog (ScopedFrom casesFree listFree)
open Flowline.Flow (Hole Match Piece holes)
open ControlFlow (Graph Vertex)
open Lower
open Pipeline (Control Key Program Table)
open Switch (Target)

/-! ## Scopes -/

/-- The variables of a pattern. -/
def Pattern.vars : Pattern → List Text
  | var name => [name]
  | pair first second => [first, second]

/-- The variables that a term of a body binds. -/
def Binding.binds : Binding → List Text
  | row _ patterns => patterns.flatMap Pattern.vars
  | nonzero _ => []
  | flag name _ => [name]
  | optional name _ _ _ => [name]
  | choice _ => ["actions"]
  | actionText name _ => [name]
  | joined name _ _ => [name]

/-- A literal interpolates variables in scope only. -/
def InScope (scope : List Text) (ps : List Piece) : Prop :=
  ∀ t ∈ holes ps, ∀ v ∈ variablesIn t, v ∈ scope

/-- A term of a body uses variables in scope only, or those of the pattern around a literal. -/
def Binding.Closed (scope : List Text) : Binding → Prop
  | row _ _ => True
  | nonzero v => v ∈ scope
  | flag _ source => source ∈ scope
  | optional _ source value m => source ∈ scope ∧ InScope (value :: scope) m.pieces
  | choice cases => "action" ∈ scope ∧ ∀ c ∈ cases, InScope (c.vars ++ scope) c.action.pieces
  | actionText _ a => InScope scope a.pieces
  | joined _ source group => source ∈ scope ∧ group ∈ scope

/-- Each term of a body uses what was bound before it. -/
def ClosedFrom (scope : List Text) : List Binding → Prop
  | [] => True
  | x :: xs => x.Closed scope ∧ ClosedFrom (scope ++ x.binds) xs

/-- A rule uses no variable that it does not bind before. -/
structure StageFlow.Closed (f : StageFlow) : Prop where
  body : ClosedFrom [] f.bindings
  head : InScope (f.bindings.flatMap Binding.binds) f.flow.pieces

/-- The pieces of the literals of a term. -/
def Binding.pieces : Binding → List Piece
  | optional _ _ _ m => m.pieces
  | choice cases => cases.flatMap fun c => c.action.pieces
  | actionText _ a => a.pieces
  | _ => []

/-- The functions that the literals of a rule call. -/
def StageFlow.calls (f : StageFlow) : List Text :=
  (holes (f.bindings.flatMap Binding.pieces ++ f.flow.pieces)).flatMap callsIn

/-! ## The terms of a rule -/

theorem listFree_patterns (ps : List Pattern) :
    listFree (ps.map Pattern.expr) = ps.flatMap Pattern.vars := by
  induction ps with
  | nil => rfl
  | cons q ps ih =>
    rw [List.map_cons, listFree, ih, List.flatMap_cons]
    cases q <;> rfl

theorem casesFree_choice (cases : List ActionCase) : casesFree (cases.map ActionCase.expr) = [] := by
  induction cases with
  | nil => rfl
  | cons c cases ih =>
    rw [List.map_cons, ActionCase.expr, casesFree, ih]
    rfl

theorem Binding.binds_term (x : Binding) : x.term.binds = x.binds := by
  cases x with
  | row relation patterns => exact listFree_patterns patterns
  | _ => rfl

theorem Binding.Closed.free {scope : List Text} {x : Binding} (h : x.Closed scope) :
    ∀ v ∈ x.term.free, v ∈ scope := by
  cases x with
  | row => exact nofun
  | nonzero v | flag name source => exact List.forall_mem_singleton.mpr h
  | optional name source value m => exact List.forall_mem_singleton.mpr h.1
  | choice cases =>
    show ∀ v ∈ "action" :: casesFree (cases.map ActionCase.expr), v ∈ scope
    rw [casesFree_choice]
    exact List.forall_mem_singleton.mpr h.1
  | actionText => exact nofun
  | joined name source group =>
    exact List.forall_mem_cons.mpr ⟨h.1, List.forall_mem_singleton.mpr h.2⟩

variable {xs : List Binding} {x : Text} {guard : Match} {km : KeyMatch}

theorem ClosedFrom.scoped {scope : List Text} (h : ClosedFrom scope xs) (text : Text) :
    ScopedFrom [.var "flow"] scope
      (xs.map Binding.term ++ [.assign "flow" (.str text)]) := by
  induction xs generalizing scope with
  | nil =>
    refine ⟨nofun, List.forall_mem_singleton.mpr ?_⟩
    exact List.mem_append_right _ List.mem_cons_self
  | cons x xs ih =>
    refine ⟨h.1.free, ?_⟩
    rw [x.binds_term]
    exact ih h.2

/-- The rule of a closed flow names no variable that it does not bind before. -/
theorem StageFlow.Closed.scoped {f : StageFlow} (h : f.Closed) : f.rule.Scoped := by
  unfold StageFlow.rule
  split
  · exact nofun
  · exact h.body.scoped f.flow.text

/-! ## Larger scopes -/

theorem InScope.mono {scope scope' : List Text} (hsub : scope ⊆ scope') {ps : List Piece}
    (h : InScope scope ps) : InScope scope' ps :=
  fun t ht v hv => hsub (h t ht v hv)

theorem Binding.Closed.mono {scope scope' : List Text} (hsub : scope ⊆ scope') {x : Binding}
    (h : x.Closed scope) : x.Closed scope' := by
  cases x with
  | row => trivial
  | nonzero v | flag name source => exact hsub h
  | optional name source value m => exact ⟨hsub h.1, h.2.mono (List.cons_subset_cons _ hsub)⟩
  | choice cases =>
    refine ⟨hsub h.1, fun c hc => (h.2 c hc).mono ?_⟩
    exact List.append_subset.mpr ⟨List.subset_append_left _ _,
      List.Subset.trans hsub (List.subset_append_right _ _)⟩
  | actionText name a => exact InScope.mono hsub h
  | joined name source group => exact ⟨hsub h.1, hsub h.2⟩

theorem ClosedFrom.mono {scope scope' : List Text} (hsub : scope ⊆ scope')
    (h : ClosedFrom scope xs) : ClosedFrom scope' xs := by
  induction xs generalizing scope scope' with
  | nil => trivial
  | cons x xs ih =>
    refine ⟨h.1.mono hsub, ih ?_ h.2⟩
    exact List.append_subset.mpr ⟨List.Subset.trans hsub (List.subset_append_left _ _),
      List.subset_append_right _ _⟩

theorem closedFrom_append {scope : List Text} {ys : List Binding} :
    ClosedFrom scope (xs ++ ys) ↔
      ClosedFrom scope xs ∧ ClosedFrom (scope ++ xs.flatMap Binding.binds) ys := by
  induction xs generalizing scope with
  | nil => simp [ClosedFrom]
  | cons x xs ih =>
    rw [List.cons_append, ClosedFrom, ClosedFrom, ih, List.flatMap_cons, List.append_assoc,
      and_assoc]

/-- Bodies that are closed in one scope are closed one after the other. -/
theorem closedFrom_flatMap {α : Type} {scope : List Text} {f : α → List Binding} {xs : List α}
    (h : ∀ x ∈ xs, ClosedFrom scope (f x)) : ClosedFrom scope (xs.flatMap f) := by
  induction xs with
  | nil => trivial
  | cons x xs ih =>
    rw [List.forall_mem_cons] at h
    rw [List.flatMap_cons, closedFrom_append]
    exact ⟨h.1, (ih h.2).mono (List.subset_append_left _ _)⟩

/-! ## Variables that can be read -/

/-- The text of a variable of a flow, in a scope: a name in it, or a mask made of one. -/
inductive Readable (scope : List Text) (widths : List Int64) : Text → Prop
  | name {x : Text} (hname : isName x = true) (hx : x ∈ scope) : Readable scope widths x
  | mask {w : Int64} {x : Text} (hw : w ∈ widths) (hmask : isName (prefixMaskName w) = true)
      (hname : isName x = true) (hx : x ∈ scope) :
      Readable scope widths (prefixMaskName w ++ "(" ++ x ++ ")")

/-- Functions that are called make masks of some widths. -/
def CallsMasks (widths : List Int64) (ps : List Piece) : Prop :=
  ∀ t ∈ holes ps, ∀ name ∈ callsIn t, ∃ w ∈ widths, name = prefixMaskName w

section

variable {scope scope' : List Text} {widths : List Int64}

theorem Readable.mono (hsub : scope ⊆ scope') (h : Readable scope widths x) :
    Readable scope' widths x := by
  cases h with
  | name hname hx => exact .name hname (hsub hx)
  | mask hw hmask hname hx => exact .mask hw hmask hname (hsub hx)

theorem Readable.variables (h : Readable scope widths x) :
    (∀ v ∈ variablesIn x, v ∈ scope) ∧
      ∀ name ∈ callsIn x, ∃ w ∈ widths, name = prefixMaskName w := by
  cases h with
  | name hname hx =>
    rw [(variablesIn_name hname).1, (variablesIn_name hname).2]
    exact ⟨List.forall_mem_singleton.mpr hx, nofun⟩
  | @mask w x hw hmask hname hx =>
    rw [(variablesIn_call hmask hname).1, (variablesIn_call hmask hname).2]
    exact ⟨List.forall_mem_singleton.mpr hx, List.forall_mem_singleton.mpr ⟨w, hw, rfl⟩⟩

theorem variables_of_hole {names : List Text} (hnames : ∀ x ∈ names, Readable scope widths x)
    {t : Text} (h : Hole names t) :
    (∀ v ∈ variablesIn t, v ∈ scope) ∧
      ∀ name ∈ callsIn t, ∃ w ∈ widths, name = prefixMaskName w := by
  cases h with
  | bare hx => exact (hnames t hx).variables
  | @moved name hx r =>
    rw [(variablesIn_movedHole name r).1, (variablesIn_movedHole name r).2]
    exact (hnames name hx).variables

theorem readable_match {m : Match} (h : ∀ x ∈ m.vars, Readable scope widths x) :
    InScope scope m.pieces ∧ CallsMasks widths m.pieces :=
  ⟨fun _ ht => (variables_of_hole h (Match.hole_of_mem ht)).1,
    fun _ ht => (variables_of_hole h (Match.hole_of_mem ht)).2⟩

theorem readable_action {a : Flow.Action} (h : ∀ x ∈ a.vars, Readable scope widths x) :
    InScope scope a.pieces ∧ CallsMasks widths a.pieces :=
  ⟨fun t ht => (h t (Flow.Action.mem_vars_of_mem_holes ht)).variables.1,
    fun t ht => (h t (Flow.Action.mem_vars_of_mem_holes ht)).variables.2⟩

end

/-! ## Rules -/

/-- A rule is closed, and calls nothing but makers of masks. -/
structure StageFlow.Sound (widths : List Int64) (f : StageFlow) : Prop where
  closed : f.Closed
  calls : ∀ name ∈ f.calls, ∃ w ∈ widths, name = prefixMaskName w

theorem holes_flowOf (comment : Text) (act : Flow.Action) (B : List Binding) :
    holes (flowOf comment guard act B).flow.pieces =
      holes guard.simplify.pieces ++ holes act.simplify.pieces := by
  show holes (guard.simplify.pieces ++ .plain " actions=" :: act.simplify.pieces) = _
  rw [Flow.holes_append, Flow.holes_plain]

theorem sound_flowOf {widths : List Int64} {comment : Text} {act : Flow.Action} {B : List Binding}
    {J : List Int64} {N : List Text} (hbody : ClosedFrom [] B)
    (hmasks : ∀ x ∈ B, CallsMasks widths x.pieces)
    (hguard : ∀ x ∈ guard.vars, Readable (B.flatMap Binding.binds) widths x) (hact : act.Within J N)
    (hnames : ∀ x ∈ N, Readable (B.flatMap Binding.binds) widths x) :
    (flowOf comment guard act B).Sound widths := by
  have hguard' := readable_match (m := guard.simplify) fun x hx =>
    hguard x (Match.vars_simplify guard ▸ hx)
  have hact' := readable_action (a := act.simplify) fun x hx => hnames x (hact.simplify.vars hx)
  refine ⟨⟨hbody, ?_⟩, ?_⟩
  · intro t ht
    rw [holes_flowOf] at ht
    exact (List.mem_append.mp ht).elim (hguard'.1 t) (hact'.1 t)
  · intro name hname
    obtain ⟨t, ht, hname⟩ := List.mem_flatMap.mp hname
    rw [Flow.holes_append, holes_flowOf, List.mem_append, List.mem_append] at ht
    rcases ht with ht | ht | ht
    · rw [Flow.holes_flatMap] at ht
      obtain ⟨x, hx, ht⟩ := List.mem_flatMap.mp ht
      exact hmasks x hx t ht name hname
    · exact hguard'.2 t ht name hname
    · exact hact'.2 t ht name hname

theorem sound_fact {widths : List Int64} {comment : Text} {act : Flow.Action} {J : List Int64}
    (hguard : guard.vars = []) (hact : act.Within J []) :
    (flowOf comment guard act []).Sound widths :=
  sound_flowOf trivial nofun (by rw [hguard]; exact nofun) hact nofun

/-! ## Choices of actions -/

theorem vars_stageGuard (stage : Int64) (priority : Flow.Expr) {ms : List Match}
    (h : ∀ m ∈ ms, m.vars = []) : (stageGuard stage priority ms).vars = priority.vars := by
  rw [stageGuard, Match.vars_foldl, List.flatMap_eq_nil_iff.mpr h, List.append_nil]
  rfl

section

variable {typeName : Text} {g : Graph} {next : Pipeline.Action → Vertex} {as : List Pipeline.Action}
  {cases : List ActionCase} (hcases : List.Forall₂ (CaseOf typeName g next) as cases)
  (widths : List Int64)

include hcases

/-- The cases of a choice use the variables of their patterns. -/
theorem readable_case {c : ActionCase} (hc : c ∈ cases) :
    InScope c.vars c.action.pieces ∧ CallsMasks widths c.action.pieces := by
  obtain ⟨a, -, hcase⟩ := exists_of_mem_right hcases hc
  refine readable_action fun x hx => ?_
  have hx' := hcase.within.vars hx
  refine .name ?_ hx'
  rw [hcase.vars_eq] at hx'
  obtain ⟨q, -, rfl⟩ := List.mem_map.mp hx'
  exact isName_paramVar q

theorem closed_choice {scope : List Text} (haction : "action" ∈ scope) :
    (Binding.choice cases).Closed scope ∧ CallsMasks widths (Binding.choice cases).pieces := by
  refine ⟨⟨haction, fun c hc => ?_⟩, ?_⟩
  · exact (readable_case hcases widths hc).1.mono (List.subset_append_left _ _)
  · intro t ht
    rw [Binding.pieces, Flow.holes_flatMap] at ht
    obtain ⟨c, hc, ht⟩ := List.mem_flatMap.mp ht
    exact (readable_case hcases widths hc).2 t ht

end

/-! ## Keys -/

/-- What a rule has for an element of a key: its bindings use the columns of the row, and its match
uses these and the bindings. -/
structure KeyMatch.Sound (km : KeyMatch) (widths : List Int64) : Prop where
  body : ClosedFrom km.pattern.vars km.bindings
  masks : ∀ x ∈ km.bindings, CallsMasks widths x.pieces
  guard : ∀ x ∈ km.guard.vars,
    Readable (km.pattern.vars ++ km.bindings.flatMap Binding.binds) widths x
  prereqs : ∀ m ∈ km.prereqs, m.vars = []

theorem KeyForm.sound {k : Key} {left : Flow.Expr} (h : KeyForm k left km) (hleft : left.vars = [])
    {widths : List Int64}
    (hlpm : k.kind = .lpm → k.expr.type.width ∈ widths ∧ 0 ≤ k.expr.type.width.toInt) :
    km.Sound widths := by
  have hprereqs : ∀ m ∈ prereqs k.expr, m.vars = [] := fun m hm => (bare_of_mem_prereqs hm).vars
  cases h with
  | truth hkind hbool =>
    refine ⟨⟨List.mem_cons_self, trivial⟩, by simp [CallsMasks, Binding.pieces], ?_, hprereqs⟩
    rw [vars_equals hleft, Option.elim_none, List.forall_mem_singleton]
    exact .name (isName_marked (by decide) (by decide) _) (by simp [Binding.binds])
  | exact hkind hbool =>
    refine ⟨trivial, List.forall_mem_nil _, ?_, hprereqs⟩
    rw [vars_equals hleft, Option.elim_none, List.forall_mem_singleton]
    exact .name (isName_keyVar k) (by simp [Pattern.vars])
  | ternary hkind =>
    refine ⟨trivial, List.forall_mem_nil _, ?_, hprereqs⟩
    rw [vars_equals hleft, List.forall_mem_cons]
    exact ⟨.name (isName_keyVar_append k (by decide)) (by simp [Pattern.vars]),
      List.forall_mem_singleton.mpr
        (.name (isName_keyVar_append k (by decide)) (by simp [Pattern.vars]))⟩
  | lpm hkind =>
    refine ⟨trivial, List.forall_mem_nil _, ?_, hprereqs⟩
    rw [vars_equals hleft, List.forall_mem_cons]
    refine ⟨.name (isName_keyVar_append k (by decide)) (by simp [Pattern.vars]),
      List.forall_mem_singleton.mpr ?_⟩
    rw [maskCall_eq]
    exact .mask (hlpm hkind).1 (isName_prefixMaskName (hlpm hkind).2)
      (isName_keyVar_append k (by decide)) (by simp [Pattern.vars])
  | @optional m hkind hm =>
    have hm' : InScope ["v_" ++ identifier k.name] m.pieces ∧ CallsMasks widths m.pieces := by
      refine readable_match ?_
      rw [vars_optional hleft hm]
      exact List.forall_mem_singleton.mpr
        (.name (isName_marked (by decide) (by decide) _) List.mem_cons_self)
    refine ⟨⟨⟨List.mem_cons_self, hm'.1.mono (by simp)⟩, trivial⟩,
      List.forall_mem_singleton.mpr hm'.2, ?_, List.forall_mem_nil _⟩
    exact List.forall_mem_singleton.mpr
      (.name (isName_marked (by decide) (by decide) _) (by simp [Binding.binds]))

/-! ## Rules of tables -/

section

variable {b : State} {t : Table} {g : Graph} {v : Vertex} {f : StageFlow}

theorem KeyOf.sound {k : Key} (h : KeyOf b k km)
    (hwidths : ∀ w ∈ b.prefixWidths, 0 ≤ w.toInt) : km.Sound b.prefixWidths := by
  obtain ⟨left, hgives, hform, hlpm⟩ := h
  exact hform.sound ((ensures_value_nil k.expr).of_gives hgives) fun hkind =>
    ⟨hlpm hkind, hwidths _ (hlpm hkind)⟩

theorem pattern_subset_entryRow {kms : List KeyMatch} (hkm : km ∈ kms) :
    km.pattern.vars ⊆ (entryRow t kms).binds := by
  intro x hx
  simp only [entryRow, Binding.binds, List.flatMap_append, List.mem_append]
  exact Or.inl (Or.inl (List.mem_flatMap.mpr ⟨_, List.mem_map_of_mem hkm, hx⟩))

/-- The match of a rule over rows has the variables of the keys and, unless all are exact, the
priority. -/
theorem mem_vars_entryGuard {kms : List KeyMatch}
    (hprereqs : ∀ km ∈ kms, ∀ m ∈ km.prereqs, m.vars = []) (hx : x ∈ (entryGuard t v kms).vars) :
    (allExact t = false ∧ x = "priority") ∨ ∃ km ∈ kms, x ∈ km.guard.vars := by
  rw [entryGuard, stageGuard, Match.vars_foldl, List.flatMap_append, List.mem_append,
    List.mem_append] at hx
  rcases hx with hx | hx | hx
  · by_cases hexact : allExact t = true
    · rw [if_pos hexact] at hx
      cases hx
    · rw [if_neg hexact] at hx
      exact Or.inl ⟨Bool.eq_false_iff.mpr hexact, List.mem_singleton.mp hx⟩
  · obtain ⟨m, hm, hx⟩ := List.mem_flatMap.mp hx
    obtain ⟨km, hkm, hm⟩ := List.mem_flatMap.mp (List.mem_eraseDups.mp hm)
    rw [hprereqs km hkm m hm] at hx
    cases hx
  · obtain ⟨m, hm, hx⟩ := List.mem_flatMap.mp hx
    obtain ⟨km, hkm, rfl⟩ := List.mem_map.mp hm
    exact Or.inr ⟨km, hkm, hx⟩

/-- The match of a rule over rows uses the columns, and what is made of them. -/
theorem readable_entryGuard {kms : List KeyMatch} {widths : List Int64}
    (hkms : ∀ km ∈ kms, km.Sound widths) (hx : x ∈ (entryGuard t v kms).vars) :
    Readable ((entryRow t kms).binds ++ (kms.flatMap (·.bindings)).flatMap Binding.binds)
      widths x := by
  rcases mem_vars_entryGuard (fun km hkm => (hkms km hkm).prereqs) hx with
    ⟨hexact, rfl⟩ | ⟨km, hkm, hx⟩
  · refine .name (by decide) (List.mem_append_left _ ?_)
    simp [entryRow, Binding.binds, hexact, Pattern.vars]
  · refine ((hkms km hkm).guard x hx).mono (List.append_subset.mpr ⟨?_, ?_⟩)
    · exact List.Subset.trans (pattern_subset_entryRow hkm) (List.subset_append_left _ _)
    · intro y hy
      obtain ⟨z, hz, hy⟩ := List.mem_flatMap.mp hy
      exact List.mem_append_right _
        (List.mem_flatMap.mpr ⟨z, List.mem_flatMap.mpr ⟨km, hkm, hz⟩, hy⟩)

theorem within_actions : (Flow.Action.var "actions").Within [] ["actions"] :=
  ⟨nofun, rfl, List.Subset.refl _⟩

theorem sound_ruleFlow (hf : RuleFlow b t g v f)
    (hwidths : ∀ w ∈ b.prefixWidths, 0 ≤ w.toInt) : f.Sound b.prefixWidths := by
  obtain ⟨kms, act, chosen, hkms, hact, rfl⟩ := hf
  have hkm : ∀ km ∈ kms, km.Sound b.prefixWidths := by
    intro km hkm
    obtain ⟨k, -, hk⟩ := exists_of_mem_right hkms hkm
    exact hk.sound hwidths
  have hkeys : ClosedFrom (entryRow t kms).binds (kms.flatMap (·.bindings)) :=
    closedFrom_flatMap fun km hmem => (hkm km hmem).body.mono (pattern_subset_entryRow hmem)
  have hmasks : ∀ x ∈ entryRow t kms :: kms.flatMap (·.bindings),
      CallsMasks b.prefixWidths x.pieces := by
    refine List.forall_mem_cons.mpr ⟨nofun, fun x hx => ?_⟩
    obtain ⟨km, hmem, hx⟩ := List.mem_flatMap.mp hx
    exact (hkm km hmem).masks x hx
  have hguard := fun x (hx : x ∈ (entryGuard t v kms).vars) => readable_entryGuard hkm hx
  cases hact with
  | only hneeds has hact =>
    rw [List.append_nil]
    exact sound_flowOf ⟨trivial, hkeys⟩ hmasks hguard hact nofun
  | @choice cases hneeds hcases =>
    have haction : "action" ∈ (entryRow t kms).binds := by
      simp [entryRow, Binding.binds, hneeds, Pattern.vars]
    have hchoice := closed_choice hcases b.prefixWidths
      (List.mem_append_left ((kms.flatMap (·.bindings)).flatMap Binding.binds) haction)
    refine sound_flowOf (closedFrom_append.mpr ⟨⟨trivial, hkeys⟩, hchoice.1, trivial⟩) ?_ ?_
      within_actions ?_
    · exact List.forall_mem_append.mpr ⟨hmasks, List.forall_mem_singleton.mpr hchoice.2⟩
    · intro x hx
      rw [List.flatMap_append]
      exact (hguard x hx).mono (List.subset_append_left _ _)
    · refine List.forall_mem_singleton.mpr (.name (by decide) ?_)
      simp [Binding.binds]

theorem sound_entryFlow {e : Pipeline.Entry × Nat} (hf : EntryFlow b t g v e f)
    (widths : List Int64) : f.Sound widths := by
  obtain ⟨ms, act, hms, hact, rfl⟩ := hf
  exact sound_fact (vars_stageGuard _ _ fun m hm => (bare_of_mem_keys hms hm).vars)
    ((ensures_constAction _ _ _).of_gives hact)

theorem sound_defaultFlow (hf : DefaultFlow b t g v f) (widths : List Int64) : f.Sound widths := by
  have hguard : (stageGuard v.id (.number lowPriority) []).vars = [] := vars_stageGuard _ _ nofun
  cases hf with
  | fixed hconst hact => exact sound_fact hguard ((ensures_fixedDefault _ _ _).of_gives hact)
  | chosen hconst hcases =>
    have haction : "action" ∈ ["action"] := List.mem_cons_self
    have hchoice := closed_choice hcases widths haction
    refine sound_flowOf ⟨trivial, hchoice.1, trivial⟩ ?_ (by rw [hguard]; exact nofun)
      within_actions ?_
    · exact List.forall_mem_cons.mpr ⟨nofun, List.forall_mem_singleton.mpr hchoice.2⟩
    · exact List.forall_mem_singleton.mpr (.name (by decide) (by simp [Binding.binds]))

end

/-! ## All rules -/

theorem sound_goTo (hguard : guard.vars = []) (comment : Text) (next : Vertex)
    (widths : List Int64) : (flowOf comment guard (goTo next) []).Sound widths :=
  sound_fact hguard (.resubmit (List.mem_cons_self (a := next.id) (l := [])))

theorem sound_stageFlows {b : State} {tables : List Checked} {g : Graph} {v : Vertex}
    {fs : List StageFlow} (hfs : StageFlows b tables g v fs)
    (hwidths : ∀ w ∈ b.prefixWidths, 0 ≤ w.toInt) :
    ∀ f ∈ fs, f.Sound b.prefixWidths := by
  cases hfs with
  | dummy =>
    intro f hf
    obtain ⟨e, he, rfl⟩ := List.mem_map.mp hf
    exact sound_goTo rfl _ _ _
  | cond hrole hm =>
    refine List.forall_mem_cons.mpr ⟨sound_goTo (vars_stageGuard _ _ fun x hx => ?_) _ _ _,
      List.forall_mem_singleton.mpr (sound_goTo rfl _ _ _)⟩
    exact ((ensures_condition_bare _).of_gives hm x (Option.mem_toList.mp hx)).vars
  | table hrole hfind hfs =>
    intro f hf
    rcases hfs.cases_of_mem hf with ⟨-, hrule⟩ | ⟨e, hentry⟩ | hdefault
    · exact sound_ruleFlow hrule hwidths
    · exact sound_entryFlow hentry _
    · exact sound_defaultFlow hdefault _

/-- The rule that copies packets uses the columns of a group. -/
theorem sound_groupFlow (ports : Ports) (stages : Stages) (widths : List Int64) :
    (groupFlow ports stages).Sound widths := by
  have hvars : (groupClone ports stages).simplify.vars = ["port"] := rfl
  have hclone : InScope ["mcast_id", "port"] (groupClone ports stages).simplify.pieces ∧
      CallsMasks widths (groupClone ports stages).simplify.pieces := by
    refine readable_action ?_
    rw [hvars]
    exact List.forall_mem_singleton.mpr (.name (by decide) (by simp))
  refine sound_flowOf ?_ ?_ ?_ within_actions ?_
  · exact ⟨trivial, List.mem_cons_self, hclone.1,
      by simp [Binding.Closed, Binding.binds, Pattern.vars], trivial⟩
  · exact List.forall_mem_cons.mpr ⟨nofun, List.forall_mem_cons.mpr ⟨nofun,
      List.forall_mem_cons.mpr ⟨hclone.2, List.forall_mem_cons.mpr ⟨nofun, nofun⟩⟩⟩⟩
  · have hguard : (stageGuard stages.multicast (.number multicastPriority)
        [ports.groupIs (.var "mcast_id" 16)]).vars = ["mcast_id"] := rfl
    rw [hguard]
    exact List.forall_mem_singleton.mpr (.name (by decide) List.mem_cons_self)
  · exact List.forall_mem_singleton.mpr (.name (by decide) (by simp [Binding.binds]))

theorem sound_blocks {b : State} {c : Control} {g : Graph} {exitFlows : Vertex → List StageFlow}
    {blocks : List (List StageFlow)} (hblocks : GraphBlocks b c g exitFlows blocks)
    (hwidths : ∀ w ∈ b.prefixWidths, 0 ≤ w.toInt)
    (hexit : ∀ v, ∀ f ∈ exitFlows v, f.Sound b.prefixWidths) :
    ∀ f ∈ blocks.flatten, f.Sound b.prefixWidths := by
  intro f hf
  obtain ⟨block, hmem, hf⟩ := List.mem_flatten.mp hf
  obtain ⟨v, -, hblock⟩ := exists_of_mem_right hblocks hmem
  split at hblock
  · exact hexit v f (hblock ▸ hf)
  · exact sound_stageFlows hblock hwidths f hf

/-- **All rules are closed**, and call no functions but those that make masks. -/
theorem Compiled.sound_of_mem {p : Program} {t : Target} {o : Output}
    {inControl outControl : Control} {ports : Ports} {b : State}
    (h : Compiled p t o inControl outControl ports b) : ∀ f ∈ o.flows, f.Sound b.prefixWidths := by
  obtain ⟨inBlocks, outBlocks, hin, hout, hflows⟩ := h.flows
  rw [hflows]
  simp only [List.forall_mem_cons, List.forall_mem_append]
  have hresubmit : ∀ stage : Int64, (Flow.Action.resubmit stage).Within [stage] [] :=
    fun stage => .resubmit List.mem_cons_self
  refine ⟨sound_fact rfl (within_init _), sound_blocks hin h.widths_nonneg ?_,
    sound_fact rfl (hresubmit _), sound_groupFlow ports o.stages _, sound_blocks hout h.widths_nonneg ?_⟩
  · exact fun v => List.forall_mem_singleton.mpr (sound_fact rfl (hresubmit _))
  · intro v
    exact List.forall_mem_cons.mpr ⟨sound_fact (J := []) rfl ⟨nofun, rfl, nofun⟩,
      List.forall_mem_singleton.mpr (sound_fact (J := []) rfl ⟨nofun, rfl, nofun⟩)⟩

end Flowline.Compile
