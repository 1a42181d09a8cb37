import Flowline.Proofs.Compile.Keys
import Flowline.Proofs.Lower.Repeating
import Flowline.Proofs.Pipeline.Accepting

/-!
# What is checked of a table

A table is checked before any flow is made, and its flows are made much later: other tables have
registers by then, the exit has a number, and the graph says where each action leads.  The check
still covers all that rules over rows need.  Keys and bodies were lowered by it, and are lowered
again in every later state without asking for a register (`Recurs`), so rules are emitted without a
problem (`after_emitEntryRule`, `after_emitDefault`).

One thing is not checked.  A key that is compared as a whole is written with the mask of its
register, and the mask of a very wide part of a packet field cannot be formed (`HasWholeMask`).
-/

namespace Flowline.Compile

open Flowline.Flow (Match)
open ControlFlow (Graph Vertex graphOf)
open Lower
open Pipeline (Key Program Table exists_of_accepts idleControl ofDescription)
open Switch (Allocator Limits Register)
open Switch.Allocator (Request)

/-! ## Later states -/

theorem grows_take (a : Allocator) (q : Request) : Grows a (a.take q) := by
  unfold Allocator.take
  split
  · next r a' hcall =>
    exact (yields_allocate (yields_allocate_iff.2 hcall)).1
  · exact Grows.refl a

theorem grows_serve (a : Allocator) (qs : List Request) : Grows a (a.serve qs) := by
  induction qs generalizing a with
  | nil => exact Grows.refl a
  | cons q qs ih => exact (grows_take a q).trans (ih (a.take q))

variable {left : Flow.Expr} {s : State} {k : Key} {m : Match} {r : Register} {km : KeyMatch}

/-- A lowering that asks for no register leaves the state as it is. -/
theorem after_lower?_of_yields {α : Type} {m : Lowering α} {v : α}
    (h : Yields m s.allocator v s.allocator) : after (lower? m) s = (some v, s) := by
  have hlower : after (lower m) s = (.ok v, s) := by
    have heq : after (lower m) s = ((outcome m s.allocator).1,
        { s with
          allocator := (outcome m s.allocator).2
          trace := s.trace ++ allocationLines s.allocator (outcome m s.allocator).2 }) := rfl
    rw [heq, h, allocationLines, List.drop_length, List.map_nil, List.append_nil]
  rw [lower?, after_bind, hlower]
  rfl

/-! ## Keys -/

/-- A key that denotes a register has it again. -/
theorem recurs_keyRegister (k : Key) :
    Recurs (keyRegister k) (value [] k.expr) fun r left => left.asRegister = some r := by
  have hbind : Recurs (keyRegister k) (value [] k.expr >>= pure)
      fun r left => left.asRegister = some r := by
    refine (recurs_value [] k.expr).bind_eq fun left => ?_
    split
    · next r hr => exact recurs_pure hr
    · exact recurs_refuse _ _ _
  rwa [bind_pure] at hbind

/-- The widths for which keys need masks of prefix lengths. -/
def maskWidths (ks : List Key) : List Int64 :=
  (ks.filter fun k => k.kind = .lpm).map fun k => k.expr.type.width

/-- An element of a key in a rule, and the register that it is compared with. -/
structure KeyAt (a : Allocator) (k : Key) (km : KeyMatch) (left : Flow.Expr) (r : Register) :
    Prop where
  yields : Yields (value [] k.expr) a left a
  register : left.asRegister = some r
  form : KeyForm k left km

/-- A key whose value is known asks for nothing but masks of prefix lengths. -/
theorem after_emitKey_of_yields (hkind : k.kind ≠ .range)
    (h : Yields (value [] k.expr) s.allocator left s.allocator) :
    ∃ km, KeyForm k left km ∧ after (emitKey k) s =
      (some km, { s with prefixWidths := s.prefixWidths ++ maskWidths [k] }) := by
  obtain ⟨km, hkm⟩ := keyMatch?_isSome hkind left
  refine ⟨km, keyForm_of_keyMatch? hkm, ?_⟩
  rw [emitKey, after_bind, after_lower?_of_yields h]
  dsimp only
  rw [hkm]
  by_cases hlpm : k.kind = .lpm
  · rw [if_pos hlpm]
    have hwidths : maskWidths [k] = [k.expr.type.width] := by
      simp [maskWidths, hlpm]
    rw [hwidths]
    rfl
  · rw [if_neg hlpm]
    have hwidths : maskWidths [k] = [] := by
      simp [maskWidths, hlpm]
    rw [hwidths, List.append_nil]
    rfl

/-- A key whose elements have registers gets its form. -/
theorem after_emitKeys {a : Allocator} {ks : List Key} (h : ∀ k ∈ ks, k.kind ≠ .range ∧
      ∃ left r, Yields (value [] k.expr) a left a ∧ left.asRegister = some r)
    (hs : s.allocator = a) :
    ∃ kms, List.Forall₂ (fun k km => ∃ left r, KeyAt a k km left r) ks kms ∧
      after (emitKeys ks) s =
        (some kms, { s with prefixWidths := s.prefixWidths ++ maskWidths ks }) := by
  induction ks generalizing s with
  | nil =>
    refine ⟨[], .nil, ?_⟩
    show (some [], s) = _
    rw [maskWidths, List.filter_nil, List.map_nil, List.append_nil]
  | cons k ks ih =>
    obtain ⟨⟨hkind, left, r, hyields, hr⟩, hks⟩ := List.forall_mem_cons.mp h
    obtain ⟨km, hform, hkey⟩ := after_emitKey_of_yields hkind (hs ▸ hyields)
    obtain ⟨kms, hkms, hkeys⟩ :=
      ih hks (s := { s with prefixWidths := s.prefixWidths ++ maskWidths [k] }) hs
    refine ⟨km :: kms, .cons ⟨left, r, hyields, hr, hform⟩ hkms, ?_⟩
    rw [emitKeys, after_bind, hkey]
    dsimp only
    rw [after_bind, hkeys]
    have hwidths : maskWidths (k :: ks) = maskWidths [k] ++ maskWidths ks := by
      rw [maskWidths, ← List.singleton_append, List.filter_append, List.map_append]
      rfl
    rw [hwidths, ← List.append_assoc]
    rfl

/-! ## Actions -/

/-- The body of an action was lowered, for some exit. -/
def Lowered (b : Allocator) (a : Pipeline.Action) : Prop :=
  ∃ act, Gives b (body (paramVars a) 0 a.body) act

theorem exists_runAction {b : Allocator} {a : Pipeline.Action} (h : Lowered b a) (g : Graph)
    (next : Vertex) : ∃ act, Yields (runAction (paramVars a) g a next) b act b := by
  obtain ⟨act, hact⟩ := h
  obtain ⟨act', hact', -⟩ := (recurs_body (paramVars a) 0 g.exit.id a.body).of_gives hact
  exact ⟨_, yields_bind.2 ⟨act', b, hact', yields_pure.2 ⟨rfl, rfl⟩⟩⟩

theorem exists_actionCases {b : Allocator} {as : List Pipeline.Action} (h : ∀ a ∈ as, Lowered b a)
    (typeName : Text) (g : Graph) (next : Pipeline.Action → Vertex) :
    ∃ cases, Yields (actionCases typeName g next as) b cases b := by
  induction as with
  | nil => exact ⟨[], yields_pure.2 ⟨rfl, rfl⟩⟩
  | cons a as ih =>
    obtain ⟨ha, has⟩ := List.forall_mem_cons.mp h
    obtain ⟨act, hact⟩ := exists_runAction ha g (next a)
    obtain ⟨cases, hcases⟩ := ih has
    exact ⟨_, yields_bind.2 ⟨act, b, hact,
      yields_bind.2 ⟨cases, b, hcases, yields_pure.2 ⟨rfl, rfl⟩⟩⟩⟩

theorem exists_entryAction {b : Allocator} {t : Table} (h : ∀ a ∈ entryActions t, Lowered b a)
    (g : Graph) (v : Vertex) :
    ∃ act chosen, Yields (entryAction t g v) b (act, chosen) b ∧
      ∀ l, chosen.all (Binding.hasText l) = true := by
  obtain ⟨r, hr⟩ : ∃ r, Yields (entryAction t g v) b r b := by
    unfold entryAction
    dsimp only
    split
    · next a as hneeds has =>
      -- The only action is lowered without parameters, and it has none.
      have hempty : paramVars a = [] := by
        rw [needsActions, has] at hneeds
        split at hneeds
        · next a' heq =>
          cases heq
          rw [Bool.not_eq_false', List.isEmpty_iff] at hneeds
          rw [paramVars, hneeds, List.map_nil]
        · cases hneeds
      obtain ⟨act, hact⟩ := exists_runAction (h a (by rw [has]; exact List.mem_cons_self)) g
        (g.afterHit v a.name)
      rw [hempty] at hact
      exact ⟨_, yields_bind.2 ⟨act, b, hact, yields_pure.2 ⟨rfl, rfl⟩⟩⟩
    · obtain ⟨cases, hcases⟩ := exists_actionCases h (actionTypeName t) g
        fun a => g.afterHit v a.name
      exact ⟨_, yields_bind.2 ⟨cases, b, hcases, yields_pure.2 ⟨rfl, rfl⟩⟩⟩
  obtain ⟨act, chosen⟩ := r
  refine ⟨act, chosen, hr, ?_⟩
  cases (ensures_entryAction t g v).holds hr (Grows.refl b) with
  | only | choice => exact fun _ => rfl

/-! ## Texts -/

/-- The masks that the rule over rows of a table needs can be formed. -/
def MasksFormed (a : Allocator) (t : Table) : Prop :=
  ∀ k ∈ t.keys, ComparesWhole k → ∀ r ∈ result? (keyRegister k) a, HasWholeMask a.target.limits r

instance (a : Allocator) (t : Table) : Decidable (MasksFormed a t) :=
  inferInstanceAs (Decidable (∀ k ∈ t.keys, _ → ∀ r ∈ result? (keyRegister k) a, _))

variable {l : Limits}

theorem hasText_flowOf (comment : Text) (guard : Match) (action : Flow.Action)
    (bindings : List Binding) :
    (flowOf comment guard action bindings).hasText l = true ↔
      guard.hasText l = true ∧ ∀ x ∈ bindings, x.hasText l = true := by
  show (guard.simplify.hasText l && bindings.all (Binding.hasText l)) = true ↔ _
  rw [Match.hasText_simplify, Bool.and_eq_true, List.all_eq_true]

theorem hasText_stageGuard (stage : Int64) (priority : Flow.Expr) (ms : List Match) :
    (stageGuard stage priority ms).hasText l = true ↔ ∀ m ∈ ms, m.hasText l = true := by
  rw [stageGuard, Match.hasText_foldl]
  exact and_iff_right rfl

/-- The prerequisites of an element of a key have texts. -/
theorem hasText_of_mem_keyPrereqs (h : KeyForm k left km) (hm : m ∈ km.prereqs) :
    m.hasText l = true := by
  cases h with
  | optional => cases hm
  | _ => exact hasText_of_mem_prereqs hm

theorem keyRegister_of_keyAt {a : Allocator} (h : KeyAt a k km left r) :
    result? (keyRegister k) a = some r := by
  have hyields : Yields (keyRegister k) a r a := by
    refine yields_bind.2 ⟨left, a, h.yields, ?_⟩
    rw [h.register]
    exact yields_pure.2 ⟨rfl, rfl⟩
  exact hyields.result?

section

variable {a : Allocator} {t : Table} {kms : List KeyMatch}

theorem masksFormed_iff
    (hkms : List.Forall₂ (fun k km => ∃ left r, KeyAt a k km left r) t.keys kms) :
    MasksFormed a t ↔
      ∀ km ∈ kms, km.guard.hasText a.target.limits = true ∧
        ∀ x ∈ km.bindings, x.hasText a.target.limits = true := by
  constructor
  · intro h km hkm
    obtain ⟨k, hk, left, r, hkey⟩ := exists_of_mem_right hkms hkm
    exact (hasText_of_form hkey.register hkey.form).mpr fun hwhole =>
      h k hk hwhole r (keyRegister_of_keyAt hkey)
  · intro h k hk hwhole r hr
    obtain ⟨km, hkm, left, r', hkey⟩ := exists_of_mem_left hkms hk
    obtain rfl : r' = r := Option.some.inj ((keyRegister_of_keyAt hkey).symm.trans hr)
    exact (hasText_of_form hkey.register hkey.form).mp (h km hkm) hwhole

/-- The text of a rule over rows exists if all masks do that it needs. -/
theorem hasText_entryRule
    (hkms : List.Forall₂ (fun k km => ∃ left r, KeyAt a k km left r) t.keys kms) (v : Vertex)
    (act : Flow.Action) {chosen : List Binding}
    (hchosen : chosen.all (Binding.hasText a.target.limits) = true) :
    (flowOf ("table " ++ t.fullName) (entryGuard t v kms) act
      (entryRow t kms :: kms.flatMap (·.bindings) ++ chosen)).hasText a.target.limits = true ↔
      MasksFormed a t := by
  have hprereqs : ∀ m ∈ (kms.flatMap (·.prereqs)).eraseDups, m.hasText a.target.limits = true := by
    intro m hm
    obtain ⟨km, hkm, hm⟩ := List.mem_flatMap.mp (List.mem_eraseDups.mp hm)
    obtain ⟨k, -, left, r, hkey⟩ := exists_of_mem_right hkms hkm
    exact hasText_of_mem_keyPrereqs hkey.form hm
  have hrow : (entryRow t kms).hasText a.target.limits = true := rfl
  rw [List.all_eq_true] at hchosen
  rw [masksFormed_iff hkms, hasText_flowOf, entryGuard, hasText_stageGuard,
    List.forall_mem_append, and_iff_right hprereqs, List.forall_mem_map, List.cons_append,
    List.forall_mem_cons, and_iff_right hrow, List.forall_mem_append, and_iff_left hchosen,
    List.forall_mem_flatMap]
  exact ⟨fun h km hkm => ⟨h.1 km hkm, h.2 km hkm⟩,
    fun h => ⟨fun km hkm => (h km hkm).1, fun km hkm => (h km hkm).2⟩⟩

end

/-! ## Rules -/

/-- A flow that is made for each row of a relation. -/
def ReadsRows (f : StageFlow) (relation : Text) : Prop :=
  ∃ patterns, f.bindings.head? = some (.row relation patterns)

section

variable {b : State} {t : Table}

/-- A table stays right while registers are given out. -/
theorem right_of_grows (hcheck : (after (checkTable t) s).1 = [])
    (hgrows : Grows (after (checkTable t) s).2.allocator b.allocator) : Right b t := by
  -- The masks of prefix lengths so far have no part in it.
  let b' : State := { b with prefixWidths := (after (checkTable t) s).2.prefixWidths }
  have hright : Right b' t :=
    ((checks_checkTable t).finds s hcheck).2 b' ⟨hgrows, List.Subset.refl _⟩
  exact ⟨hright.keys, hright.truths, hright.actions, hright.entries, hright.default, hright.bodies⟩

/-- The actions that a table may run, in one place or another, were lowered. -/
theorem lowered_of_mem (h : Right b t) {p : Pipeline.ActionRef → Bool} :
    ∀ a ∈ (t.actions.filter p).map (·.action), Lowered b.allocator a := by
  intro a ha
  obtain ⟨r, hr, rfl⟩ := List.mem_map.mp ha
  exact h.bodies r (List.mem_filter.mp hr).1

/-- The rule over rows of a table that was found right. -/
theorem after_emitEntryRule (h : Right b t) (g : Graph) (v : Vertex) :
    ∃ f, after (emitEntryRule t g v) b = ((), { b with
        flows := b.flows ++ [f]
        prefixWidths := b.prefixWidths ++ maskWidths t.keys }) ∧
      ReadsRows f (relationName t) ∧
        (f.hasText b.allocator.target.limits = true ↔ MasksFormed b.allocator t) := by
  have hkeys : ∀ k ∈ t.keys, k.kind ≠ .range ∧ ∃ left r,
      Yields (value [] k.expr) b.allocator left b.allocator ∧ left.asRegister = some r := by
    intro k hk
    obtain ⟨hkind, r, hr⟩ := h.keys k hk
    obtain ⟨left, hleft, hregister⟩ := (recurs_keyRegister k).of_gives hr
    exact ⟨hkind, left, r, hleft, hregister⟩
  obtain ⟨kms, hkms, hafter⟩ := after_emitKeys hkeys (s := b) rfl
  obtain ⟨act, chosen, haction, hchosen⟩ :=
    exists_entryAction (lowered_of_mem h) g v
  refine ⟨flowOf ("table " ++ t.fullName) (entryGuard t v kms) act
    (entryRow t kms :: kms.flatMap (·.bindings) ++ chosen), ?_, ⟨_, rfl⟩,
    hasText_entryRule hkms v act (hchosen _)⟩
  have hlower := after_lower?_of_yields
    (s := { b with prefixWidths := b.prefixWidths ++ maskWidths t.keys }) haction
  rw [emitEntryRule, after_bind, hafter]
  dsimp only
  rw [after_bind, hlower]
  rfl

/-- The rule of a default action that the control plane chooses. -/
theorem after_emitDefault (h : Right b t) (hconst : hasConstDefault t = false) (g : Graph)
    (v : Vertex) :
    ∃ f, after (emitDefault t g v) b = ((), { b with flows := b.flows ++ [f] }) ∧
      ReadsRows f (defaultRelationName t) ∧ ∀ l, f.hasText l = true := by
  have hlowered : ∀ a ∈ defaultActions t, Lowered b.allocator a := lowered_of_mem h
  obtain ⟨cases, hcases⟩ := exists_actionCases hlowered (defaultTypeName t) g
    fun a => g.afterMiss v a.name
  refine ⟨flowOf ("table " ++ t.fullName ++ " default")
    (stageGuard v.id (.number lowPriority) []) (.var "actions")
    [.row (defaultRelationName t) [.var "action"], .choice cases], ?_, ⟨_, rfl⟩, ?_⟩
  · rw [emitDefault, if_neg (by rw [hconst]; exact Bool.false_ne_true), after_bind,
      after_lower?_of_yields hcases]
    rfl
  · intro l
    rw [hasText_flowOf, hasText_stageGuard]
    exact ⟨List.forall_mem_nil _, List.forall_mem_cons.mpr
      ⟨rfl, List.forall_mem_singleton.mpr rfl⟩⟩

end

/-- **What is found right stays right.**  Let nothing be found wrong with a table, and let any
registers be given out after that.  Then the rule over its rows is emitted without a problem, and
nothing but this rule and its masks is new; its text exists if and only if the masks can be formed
of the registers that are compared as a whole.  The rule of a default that the control plane
chooses is emitted in the same way, and has a text.  Every entry has a key for each of the
table's. -/
theorem checkTable_covers_rules {t : Table} {s b : State} {qs : List Request}
    (hcheck : (after (checkTable t) s).1 = [])
    (hlater : b.allocator = (after (checkTable t) s).2.allocator.serve qs) (g : Graph)
    (v : Vertex) :
    (∃ f, after (emitEntryRule t g v) b = ((), { b with
        flows := b.flows ++ [f]
        prefixWidths := b.prefixWidths ++ maskWidths t.keys }) ∧
      ReadsRows f (relationName t) ∧
        (f.hasText b.allocator.target.limits = true ↔ MasksFormed b.allocator t)) ∧
    (hasConstDefault t = false →
      ∃ f, after (emitDefault t g v) b = ((), { b with flows := b.flows ++ [f] }) ∧
        ReadsRows f (defaultRelationName t) ∧ ∀ l, f.hasText l = true) ∧
    ∀ e ∈ t.entries, ∀ j < t.keys.length, ∃ key, e.keys[j]? = some key := by
  have hright : Right b t := right_of_grows hcheck (hlater ▸ grows_serve _ qs)
  refine ⟨after_emitEntryRule hright g v, fun hconst => after_emitDefault hright hconst g v, ?_⟩
  intro e he j hj
  obtain ⟨i, hi⟩ := List.mem_iff_getElem?.mp he
  exact ⟨_, List.getElem?_eq_getElem (length_keys hright hi ▸ hj)⟩

/-- The state in which the first table of a program is checked. -/
def storedState (p : Program) : State :=
  (after (allocateStorage p) { allocator := .fresh {} }).2

/-- A state after the check of the sample table, and after two more calls for registers. -/
def sampleLater : State :=
  { allocator := (after (checkTable sampleRoute) (storedState sampleProgram)).2.allocator.serve
      [⟨"meta.mark", 16, 16, false⟩, ⟨"meta.kind", 8, 8, false⟩] }

/-- Rules of a sample table, at the first stage of its control, and entries of another one. -/
theorem checkTable_covers_rules_sampleProgram :
    (after (checkTable sampleRoute) (storedState sampleProgram)).1 = [] ∧
    hasConstDefault sampleRoute = false ∧
    (∃ f, (after (emitEntryRule sampleRoute (graphOf sampleIngress 1)
        (graphOf sampleIngress 1).entry) sampleLater).2.flows = [f] ∧
      ReadsRows f (relationName sampleRoute) ∧ f.hasText {} = true) ∧
    (∃ f, (after (emitDefault sampleRoute (graphOf sampleIngress 1)
        (graphOf sampleIngress 1).entry) sampleLater).2.flows = [f] ∧
      ReadsRows f (defaultRelationName sampleRoute) ∧ f.hasText {} = true) ∧
    (after (checkTable sampleAcl) (storedState sampleProgram)).1 = [] ∧
    ∀ e ∈ sampleAcl.entries, ∃ key, e.keys[1]? = some key := by
  have hroute : (after (checkTable sampleRoute) (storedState sampleProgram)).1 = [] := by
    decide +kernel
  have hacl : (after (checkTable sampleAcl) (storedState sampleProgram)).1 = [] := by
    decide +kernel
  have hmasks : MasksFormed sampleLater.allocator sampleRoute := by decide +kernel
  obtain ⟨⟨f, hf, hrows, htext⟩, hdefault, -⟩ := checkTable_covers_rules (b := sampleLater)
    hroute rfl (graphOf sampleIngress 1) (graphOf sampleIngress 1).entry
  obtain ⟨d, hd, hdrows, hdtext⟩ := hdefault rfl
  have hnone : (after (checkTable sampleAcl) (storedState sampleProgram)).2.allocator =
    (after (checkTable sampleAcl) (storedState sampleProgram)).2.allocator.serve [] := rfl
  obtain ⟨-, -, hkeys⟩ := checkTable_covers_rules hacl hnone (graphOf sampleIngress 1)
    (graphOf sampleIngress 1).entry
  refine ⟨hroute, rfl, ⟨f, ?_, hrows, htext.mpr hmasks⟩, ⟨d, ?_, hdrows, hdtext _⟩, hacl,
    fun e he => hkeys e he 1 (by decide)⟩
  · rw [hf]
    rfl
  · rw [hd]
    rfl

/-- A key that is part of a packet field, and too wide for a mask. -/
def partDescription : Description.Program where
  metadata := [{ name := "f", width := 4611686018427387904, packet := "f" }]
  ingress := some { idleControl with
    actions := [{ name := "a" }]
    tables := [{ name := "t", keys := [{ expr := "m.f[4611686018427387902:0]" }]
                 actions := [{ name := "a" }] }]
    apply := "t.apply();" }
  egress := some idleControl

/-- Whether nothing is found wrong with a table that the control plane fills, although a mask cannot
be formed. -/
def missesMask (s : State) (t : Table) : Bool :=
  isParametric t && (after (checkTable t) s).1.isEmpty &&
    !decide (MasksFormed (after (checkTable t) s).2.allocator t)

/-- The program is accepted and nothing is found wrong with its table, but the rule has no text, and
the program is not compiled. -/
theorem checkTable_misses_partDescription :
    ∃ p c t, ofDescription partDescription = .ok p ∧ c ∈ p.controls ∧ t ∈ c.tables ∧
      isParametric t = true ∧ (after (checkTable t) (storedState p)).1 = [] ∧
      (∀ g v, ∃ f, f.hasText (storedState p).allocator.target.limits = false ∧
        (after (emitEntryRule t g v) (after (checkTable t) (storedState p)).2).2.flows =
          (after (checkTable t) (storedState p)).2.flows ++ [f]) ∧
      (compile p {}).result.toOption.isNone = true := by
  obtain ⟨p, hload, htest⟩ := exists_of_accepts partDescription
    (fun p => (compile p {}).result.toOption.isNone &&
      p.controls.any fun c => c.tables.any (missesMask (storedState p))) (by decide +kernel)
  obtain ⟨hnone, hany⟩ := Bool.and_eq_true_iff.mp htest
  obtain ⟨c, hc, hany⟩ := List.any_eq_true.mp hany
  obtain ⟨t, ht, hmisses⟩ := List.any_eq_true.mp hany
  rw [missesMask, Bool.and_eq_true, Bool.and_eq_true, List.isEmpty_iff, Bool.not_eq_true',
    decide_eq_false_iff_not] at hmisses
  obtain ⟨⟨hparametric, hcheck⟩, hmasks⟩ := hmisses
  refine ⟨p, c, t, hload, hc, ht, hparametric, hcheck, fun g v => ?_, hnone⟩
  obtain ⟨f, hf, -, htext⟩ := after_emitEntryRule (right_of_grows hcheck (Grows.refl _)) g v
  rw [((checks_checkTable t).finds _ hcheck).1.grows.target_eq] at htext
  exact ⟨f, Bool.eq_false_iff.mpr fun h => hmasks (htext.mp h), by rw [hf]⟩

end Flowline.Compile
