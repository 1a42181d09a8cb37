import Flowline.Proofs.Compile.Choices
import Flowline.Proofs.Lower.Prerequisites

/-!
# Every flow asks for the prerequisites of its fields

Four kinds of flows compare what the program reads: those of conditions, of rules over rows, with and
without optional keys, and of constant entries.  In each of them the prerequisites of a field stand in
front of the comparison of the field (`Guards`, `RuleGuards`), and each is asked for once.

The prerequisites come in front in different ways: of a condition as a whole, of the keys of a rule
that every row has a value for, in the texts of its optional keys, and of the keys that an entry looks
at.  Everywhere the conditions of the match are a stage, a priority, prerequisites, and comparisons
(`guards_stageGuard`).

A match is compared with the expressions that it is about, one comparison for each and in their order.
That rules out a statement about nothing: a match without comparisons guards only the empty list.  In
the texts of rules the row decides which keys are compared (`RowKeys.compared`), so `RuleGuards` is
for all rows.  Optional keys bring their prerequisites with them, and what a key in front has asked
for may come again there; that each is asked for once holds of each of these texts.

All other flows read none of the program's storage.  They compare the two registers that are reserved
for the output port and the group, or nothing (`ComparesReserved`).
-/

namespace Flowline.Compile

open Flowline.Flow (Match listed)
open ControlFlow (Graph Vertex)
open Lower
open Pipeline (Control Entry Key Program Table)
open Source (Expr)
open Switch (Allocator Register Target)

variable {a : Allocator}

/-! ## Matches -/

/-- A match compares expressions, each behind the prerequisites of its fields.  These are written
with commas between them, none is asked for twice, and there are no others. -/
structure Guards (a : Allocator) (m : Match) (es : List Expr) : Prop where
  text : m.text = ", ".intercalate (m.conditions.map Match.text)
  guarded : Guarded a [] m.conditions es
  nodup : m.required.Nodup
  declared : ∀ t ∈ m.required, ∃ e ∈ es, Declares e t

/-- A list of the prerequisites of expressions, and of nothing else. -/
structure PrereqsOf (es : List Expr) (ps : List Match) : Prop where
  nodup : ps.Nodup
  mem_iff : ∀ m, m ∈ ps ↔ ∃ e ∈ es, ∃ t, Declares e t ∧ m = .prereq t

theorem prereq_injective : Function.Injective Match.prereq := fun _ _ h => Match.prereq.inj h

theorem prereqsOf_singleton (e : Expr) : PrereqsOf [e] (prereqs e) where
  nodup := (nodup_eraseDups _).map prereq_injective
  mem_iff m := by
    rw [mem_prereqs]
    simp

/-- The prerequisites of several expressions, each once. -/
theorem prereqsOf_eraseDups (es : List Expr) : PrereqsOf es (es.flatMap prereqs).eraseDups where
  nodup := nodup_eraseDups _
  mem_iff m := by
    rw [List.mem_eraseDups, List.mem_flatMap]
    simp only [mem_prereqs]

namespace PrereqsOf

variable {es : List Expr} {ps : List Match}

theorem exists_texts (h : PrereqsOf es ps) :
    ∃ ts : List Text, ps = ts.map .prereq ∧ ts.Nodup ∧ ∀ t, t ∈ ts ↔ ∃ e ∈ es, Declares e t := by
  have hmap : (ps.filterMap Match.prereq?).map Match.prereq = ps := by
    rw [List.map_filterMap]
    refine (List.filterMap_congr fun m hm => ?_).trans List.filterMap_some
    obtain ⟨e, -, t, -, rfl⟩ := (h.mem_iff m).mp hm
    rfl
  refine ⟨ps.filterMap Match.prereq?, hmap.symm, ?_, fun t => ?_⟩
  · exact List.Nodup.of_map _ (hmap ▸ h.nodup)
  · rw [← List.mem_map_of_injective prereq_injective, hmap, h.mem_iff]
    constructor
    · rintro ⟨e, he, t', ht', heq⟩
      cases heq
      exact ⟨e, he, ht'⟩
    · rintro ⟨e, he, ht⟩
      exact ⟨e, he, t, ht, rfl⟩

theorem flatMap_conditions (h : PrereqsOf es ps) : ps.flatMap Match.conditions = ps := by
  obtain ⟨ts, rfl, -, -⟩ := h.exists_texts
  rw [List.flatMap_map]
  exact List.map_eq_flatMap.symm

end PrereqsOf

theorem filterMap_prereq?_map (ts : List Text) :
    (ts.map Match.prereq).filterMap Match.prereq? = ts := by
  rw [List.filterMap_map]
  exact List.filterMap_some

/-- **A stage, a priority, prerequisites and comparisons.** -/
theorem guards_stageGuard {es : List Expr} {rest ps cs : List Match} (stage : Int64) (n : Int)
    (hrest : rest.flatMap Match.conditions = ps ++ cs) (hps : PrereqsOf es ps)
    (hcs : Compared a cs es) : Guards a (stageGuard stage (.number n) rest).simplify es := by
  obtain ⟨ts, rfl, hnodup, hmem⟩ := hps.exists_texts
  have hprereqs : (ts.map Match.prereq).map Match.simplify = ts.map Match.prereq := by
    rw [List.map_map]
    rfl
  have hconditions : (stageGuard stage (.number n) rest).simplify.conditions =
      .table stage :: .priority (.number n) :: (ts.map .prereq ++ cs.map Match.simplify) := by
    rw [Match.conditions_simplify, stageGuard, Match.conditions_foldl, hrest, List.map_append,
      List.map_append, hprereqs]
    rfl
  have hguarded : Guarded a [] (stageGuard stage (.number n) rest).simplify.conditions es := by
    rw [hconditions]
    refine .stage (.priority (.prereqs (hcs.simplify.guarded fun e he t ht => ?_)))
    exact List.mem_append_left _ ((hmem t).mpr ⟨e, he, ht⟩)
  have hrequired : (stageGuard stage (.number n) rest).simplify.required = ts := by
    rw [Match.required, hconditions]
    show ((ts.map Match.prereq) ++ cs.map Match.simplify).filterMap Match.prereq? = ts
    rw [List.filterMap_append, filterMap_prereq?_map,
      List.filterMap_eq_nil_iff.mpr hcs.simplify.prereq?_eq_none, List.append_nil]
  exact ⟨Match.text_eq_intercalate hguarded.written, hguarded, hrequired ▸ hnodup,
    fun t ht => (hmem t).mp (hrequired ▸ ht)⟩

theorem guards_nil (stage : Int64) (n : Int) :
    Guards a (stageGuard stage (.number n) []).simplify [] :=
  guards_stageGuard stage n rfl (prereqsOf_eraseDups []) .nil

/-! ## Conditions -/

theorem prereqsOf_conjuncts (e : Expr) : PrereqsOf (conjuncts e) (prereqs e) where
  nodup := (prereqsOf_singleton e).nodup
  mem_iff m := by
    rw [mem_prereqs]
    constructor
    · rintro ⟨t, ht, rfl⟩
      obtain ⟨c, hc, ht⟩ := declares_iff_conjuncts.mp ht
      exact ⟨c, hc, t, ht, rfl⟩
    · rintro ⟨c, hc, t, ht, rfl⟩
      exact ⟨t, declares_iff_conjuncts.mpr ⟨c, hc, ht⟩, rfl⟩

variable {v : Vertex} {g : Graph} {x : Table} {f : StageFlow} {e : Expr} {q : LoweredKey}

theorem guards_condition {m : Option Match} (h : Gives a (condition e) m) (stage : Int64)
    (n : Int) : Guards a (stageGuard stage (.number n) m.toList).simplify (conjuncts e) := by
  obtain ⟨b, b', hyields, hgrows⟩ := h
  simp only [condition, yields_bind, yields_pure] at hyields
  obtain ⟨x, b₁, hx, rfl, rfl⟩ := hyields
  have hcompared := compared_bareCondition ⟨b, b₁, hx, hgrows⟩
  cases x with
  | none =>
    -- a condition that always holds compares nothing
    generalize conjuncts e = es at hcompared
    cases hcompared
    exact guards_nil stage n
  | some x =>
    obtain ⟨m, hm⟩ : ∃ m, Match.all? (prereqs e ++ [x]) = some m := by
      cases prereqs e <;> exact ⟨_, rfl⟩
    refine guards_stageGuard stage n ?_ (prereqsOf_conjuncts e) hcompared
    rw [Option.bind_some, hm, Option.toList_some, List.flatMap_singleton, Match.conditions_all? hm,
      List.flatMap_append, conditions_prereqs, List.flatMap_singleton]
    rfl

/-! ## Constant entries -/

/-- Whether an entry looks at a key. -/
def looksAt : Expr → Bool
  | .any => false
  | _ => true

/-- The keys that an entry looks at. -/
def lookedAt (qs : List (Key × Expr)) : List Expr :=
  (qs.filter fun q => looksAt q.2).map fun q => q.1.expr

theorem gives_entryKey {k : Key} {key : Expr} {m : Option Match} (h : Gives a (entryKey k key) m) :
    if looksAt key then
      ∃ left right mask, m = some (.equals left right mask) ∧ Gives a (value [] k.expr) left
    else m = none := by
  obtain ⟨b, b', hyields, hgrows⟩ := h
  simp only [entryKey, yields_bind] at hyields
  obtain ⟨left, b₁, hleft, hrest⟩ := hyields
  split at hrest
  · exact (yields_pure.mp hrest).1.symm
  · simp only [yields_bind, yields_pure] at hrest
    obtain ⟨n, b₂, hn, mask, b₃, hmask, rfl, rfl⟩ := hrest
    have hlater := (((ensures_fittingConst _ _ _ _).grows hn).trans
      ((ensures_fittingConst _ _ _ _).grows hmask)).trans hgrows
    exact ⟨left, n, some mask, rfl, b, b₁, hleft, hlater⟩
  · next hany _ =>
    simp only [yields_bind, yields_pure] at hrest
    obtain ⟨n, b₂, hn, rfl, rfl⟩ := hrest
    have hlooks : looksAt key = true := by
      cases key with
      | any => exact absurd rfl hany
      | _ => rfl
    rw [if_pos hlooks]
    have hlater := ((ensures_fittingConst _ _ _ _).grows hn).trans hgrows
    exact ⟨left, n, none, rfl, b, b₁, hleft, hlater⟩

/-- An entry compares the keys that it looks at, and has their prerequisites. -/
theorem compared_keys {b : State} {qs : List (Key × Expr)} {ms : List (Option Match)}
    (h : KeysOf b qs ms) : Compared b.allocator (ms.filterMap id) (lookedAt qs) ∧
      usedPrereqs qs ms = (lookedAt qs).flatMap prereqs := by
  induction h with
  | nil => exact ⟨.nil, rfl⟩
  | @cons q m qs ms hq _ ih =>
    have hkey := gives_entryKey hq
    split at hkey
    · next hlooks =>
      obtain ⟨left, right, mask, rfl, hleft⟩ := hkey
      have hlooked : lookedAt (q :: qs) = q.1.expr :: lookedAt qs := by
        rw [lookedAt, List.filter_cons, if_pos hlooks]
        rfl
      rw [hlooked]
      exact ⟨.comparison (examines_of_gives hleft) ih.1, congrArg (prereqs q.1.expr ++ ·) ih.2⟩
    · next hopen =>
      have hlooked : lookedAt (q :: qs) = lookedAt qs := by
        rw [lookedAt, List.filter_cons, if_neg hopen]
        rfl
      rw [hkey, hlooked]
      exact ih

theorem guards_entryFlow {b : State} {e : Entry × Nat} (h : EntryFlow b x g v e f) :
    Guards b.allocator f.flow.guard (lookedAt (x.keys.zip e.1.keys)) := by
  obtain ⟨ms, act, hms, -, rfl⟩ := h
  obtain ⟨hcompared, hused⟩ := compared_keys hms
  have hps := prereqsOf_eraseDups (lookedAt (x.keys.zip e.1.keys))
  refine guards_stageGuard v.id _ ?_ hps hcompared
  rw [hused, List.flatMap_append, hps.flatMap_conditions, hcompared.flatMap_conditions]

theorem guards_defaultFlow {b : State} (h : DefaultFlow b x g v f) : Guards a f.flow.guard [] := by
  cases h with
  | fixed | chosen => exact guards_nil _ _

/-! ## Rules -/

/-- The keys that the flow of a row compares. -/
def RowKeys.compared (row : RowKeys) : List Expr :=
  (row.filter fun q => q.1.key.kind ≠ .optional ∨ q.2 = true).map fun q => q.1.key.expr

/-- Whichever values a row has, its flow compares the keys that it has values for, each behind the
prerequisites of its fields.  The rule asks once for each prerequisite of the keys that every row has
a value for, and so does the text of an optional key for those of this key. -/
structure RuleGuards (a : Allocator) (x : Table) (f : StageFlow) : Prop where
  rows : ∃ qs, KeysLowered a x qs ∧ ∀ row : RowKeys, row.map Prod.fst = qs →
    ∃ ms, f.guardText? row.present = some (", ".intercalate (ms.map Match.text)) ∧
      Guarded a [] ms row.compared
  nodup : f.flow.guard.required.Nodup
  declared : ∀ t ∈ f.flow.guard.required, ∃ k ∈ x.keys, k.kind ≠ .optional ∧ Declares k.expr t
  optional : ∀ name source v m, .optional name source v m ∈ f.bindings →
    m.required.Nodup ∧ ∃ k ∈ x.keys, k.kind = .optional ∧ ∀ t ∈ m.required, Declares k.expr t

section

variable {seen : List Text}

/-- One key of a row. -/
theorem guarded_key (hq : Gives a (value [] q.key.expr) q.left)
    (hseen : q.key.kind ≠ .optional → Covered seen q.key.expr) (here : Bool) :
    Guarded a seen (q.conditions here) (RowKeys.compared [(q, here)]) := by
  unfold LoweredKey.conditions RowKeys.compared
  split
  · next hkind =>
    cases here with
    | false =>
      rw [List.filter_cons_of_neg (by simpa using hkind)]
      exact .nil
    | true =>
      obtain ⟨right, mask, heq⟩ := exists_comparison_eq q
      have hown : Covered ((prereqTexts q.key.expr).eraseDups ++ seen) q.key.expr := fun t ht =>
        List.mem_append_left _ (List.mem_eraseDups.mpr (mem_prereqTexts.mpr ht))
      rw [List.filter_cons_of_pos (by simp), heq]
      exact .prereqs (.comparison (examines_of_gives hq) hown .nil)
  · next hkind =>
    obtain ⟨right, mask, heq⟩ := simplify_comparison q
    rw [List.filter_cons_of_pos (by simpa using Or.inl hkind), heq]
    exact .comparison (examines_of_gives hq).fold (hseen hkind) .nil

theorem guarded_keys {row : RowKeys} (hrow : ∀ q ∈ row, Gives a (value [] q.1.key.expr) q.1.left)
    (hseen : ∀ q ∈ row, q.1.key.kind ≠ .optional → Covered seen q.1.key.expr) :
    Guarded a seen (row.flatMap fun q => q.1.conditions q.2) row.compared := by
  induction row with
  | nil => exact .nil
  | cons q row ih =>
    rw [List.forall_mem_cons] at hrow hseen
    have hcompared : RowKeys.compared (q :: row) = RowKeys.compared [q] ++ RowKeys.compared row := by
      rw [RowKeys.compared, ← List.singleton_append, List.filter_append, List.map_append]
      rfl
    rw [List.flatMap_cons, hcompared]
    exact (guarded_key hrow.1 hseen.1 q.2).append (ih hrow.2 hseen.2)

end

/-- **The flow of a row.** -/
theorem guarded_row {row : RowKeys} (hrow : ∀ q ∈ row, Gives a (value [] q.1.key.expr) q.1.left) :
    Guarded a [] row.conditions row.compared := by
  obtain ⟨ts, hts, -, hmem⟩ := (prereqsOf_eraseDups (givenKeys (row.map Prod.fst))).exists_texts
  rw [RowKeys.conditions, hts]
  refine .prereqs (guarded_keys hrow fun q hq hkind t ht => ?_)
  refine List.mem_append_left _ ((hmem t).mpr ⟨_, List.mem_map_of_mem ?_, ht⟩)
  exact List.mem_filter.mpr ⟨List.mem_map_of_mem hq, by simpa using hkind⟩

section

variable {qs : List LoweredKey} {kms : List KeyMatch}

/-- The matches of keys ask for no prerequisites themselves. -/
theorem KeyForm.prereq?_eq_none {km : KeyMatch} (h : KeyForm q.key q.left km) :
    ∀ m ∈ km.guard.simplify.conditions, m.prereq? = none := by
  by_cases hkind : q.key.kind = .optional
  · obtain ⟨m, -, rfl⟩ := h.of_optional hkind
    exact List.forall_mem_singleton.mpr rfl
  · obtain ⟨right, mask, heq⟩ := simplify_comparison q
    rw [(h.of_not_optional hkind).1, heq]
    exact List.forall_mem_singleton.mpr rfl

/-- The prerequisites that a rule asks for. -/
theorem mem_required_entryGuard (h : KeyForms qs kms) (x : Table) (v : Vertex) :
    (entryGuard x v kms).simplify.required.Nodup ∧
      ∀ t, t ∈ (entryGuard x v kms).simplify.required ↔ ∃ e ∈ givenKeys qs, Declares e t := by
  have hps := prereqsOf_eraseDups (givenKeys qs)
  have hguards : (((kms.map (·.guard)).map Match.simplify).flatMap Match.conditions).filterMap
      Match.prereq? = [] := by
    refine List.filterMap_eq_nil_iff.mpr fun m hm => ?_
    obtain ⟨c, hc, hm⟩ := List.mem_flatMap.mp hm
    obtain ⟨guard, hguard, rfl⟩ := List.mem_map.mp hc
    obtain ⟨km, hkm, rfl⟩ := List.mem_map.mp hguard
    obtain ⟨q, -, hform⟩ := exists_of_mem_right h hkm
    exact hform.prereq?_eq_none m hm
  obtain ⟨ts, hts, hnodup, hmem⟩ := hps.exists_texts
  have hrequired : (entryGuard x v kms).simplify.required = ts := by
    rw [Match.required, simplify_entryGuard h, Match.conditions_foldl, List.filterMap_append,
      List.flatMap_append, List.filterMap_append, hguards, List.append_nil, flatMap_prereqs h,
      hps.flatMap_conditions, hts, filterMap_prereq?_map]
    rfl
  rw [hrequired]
  exact ⟨hnodup, hmem⟩

/-- The prerequisites that the text of an optional key asks for. -/
theorem KeyForm.required_optional {km : KeyMatch} (h : KeyForm q.key q.left km)
    {name source value : Text} {m : Match} (hm : .optional name source value m ∈ km.bindings) :
    q.key.kind = .optional ∧ m.required = (prereqTexts q.key.expr).eraseDups := by
  by_cases hkind : q.key.kind = .optional
  · obtain ⟨m', hm', rfl⟩ := h.of_optional hkind
    cases List.mem_singleton.mp hm
    obtain ⟨right, mask, heq⟩ := exists_comparison_eq q
    refine ⟨hkind, ?_⟩
    rw [Match.required, Match.conditions_all? hm', List.flatMap_append, conditions_prereqs,
      List.filterMap_append, prereqs, filterMap_prereq?_map, heq]
    exact List.append_nil _
  · cases (h.of_not_optional hkind).2.2 _ hm

end

theorem ruleGuards_of_ruleFlow {b : State} (h : RuleFlow b x g v f) :
    RuleGuards b.allocator x f := by
  obtain ⟨qs, hqs, htext⟩ := h.exists_guardText?
  obtain ⟨kms, act, chosen, hkms, haction, rfl⟩ := h
  obtain ⟨qs', hqs', hforms⟩ := exists_keysLowered hkms
  obtain ⟨hnodup, hmem⟩ := mem_required_entryGuard hforms x v
  refine ⟨⟨qs, hqs, fun row hrow => ⟨.table v.id :: .priority (rulePriority x) :: row.conditions,
    ?_, .stage (.priority (guarded_row fun q hq => ?_))⟩⟩, hnodup, fun t ht => ?_, ?_⟩
  · rw [htext row hrow, List.map_cons, List.map_cons, Flow.intercalate_cons, Flow.listed_cons,
      ← String.append_assoc, ← String.append_assoc]
    rfl
  · exact hqs.gives q.1 (hrow ▸ List.mem_map_of_mem hq)
  · obtain ⟨e, he, ht⟩ := (hmem t).mp ht
    obtain ⟨q, hq, rfl⟩ := List.mem_map.mp he
    obtain ⟨hq, hkind⟩ := List.mem_filter.mp hq
    exact ⟨q.key, hqs'.keys ▸ List.mem_map_of_mem hq, by simpa using hkind, ht⟩
  · intro name source value m hm
    -- neither the row nor a choice of actions has a text of its own
    have hbinding : .optional name source value m ∈ kms.flatMap (·.bindings) := by
      rcases List.mem_append.mp hm with hm | hm
      · exact (List.mem_cons.mp hm).resolve_left fun heq => by cases heq
      · cases isOptional_of_ruleAction haction _ hm
    obtain ⟨km, hkm, hbinding⟩ := List.mem_flatMap.mp hbinding
    obtain ⟨q, hq, hform⟩ := exists_of_mem_right hforms hkm
    obtain ⟨hkind, hrequired⟩ := hform.required_optional hbinding
    rw [hrequired]
    refine ⟨nodup_eraseDups _, q.key, hqs'.keys ▸ List.mem_map_of_mem hq, hkind, fun t ht => ?_⟩
    exact mem_prereqTexts.mp (List.mem_eraseDups.mp ht)

/-! ## Stages -/

/-- The flows of a table: of its rows, of its constant entries, and of its default. -/
inductive TableGuards (a : Allocator) (x : Table) : List StageFlow → Prop
  | mk {rules entries : List StageFlow} {default : StageFlow}
      (hrules : if isParametric x then ∃ f, rules = [f] ∧ RuleGuards a x f else rules = [])
      (hentries : if x.hasConstEntries then List.Forall₂ (fun e (f : StageFlow) =>
          Guards a f.flow.guard (lookedAt (x.keys.zip e.keys))) x.entries entries
        else entries = [])
      (hdefault : Guards a default.flow.guard []) :
      TableGuards a x (rules ++ (entries ++ [default]))

theorem tableGuards_of_tableFlows {b : State} {fs : List StageFlow} (h : TableFlows b x g v fs) :
    TableGuards b.allocator x fs := by
  obtain ⟨hrules, hentries, hdefault⟩ := h
  refine .mk ?_ ?_ (guards_defaultFlow hdefault)
  · split at hrules
    · next hparam =>
      rw [if_pos hparam]
      obtain ⟨f, rfl, hf⟩ := hrules
      exact ⟨f, rfl, ruleGuards_of_ruleFlow hf⟩
    · next hparam =>
      rw [if_neg hparam]
      exact hrules
  · split at hentries
    · next hconst =>
      rw [if_pos hconst]
      rw [← List.zipIdx_map_fst 0 x.entries, List.forall₂_map_left_iff]
      exact hentries.imp fun e f hf => guards_entryFlow hf
    · next hconst =>
      rw [if_neg hconst]
      exact hentries

/-- The two flows of a condition. -/
theorem exists_guards_of_block {b : State} {c : Control} {first : Int64} (hg : g.Onward first)
    (hexit : g.exit.role = .dummy) (hv : g.Reaches v) (hrole : v.role = .cond e)
    {exitBlock block : List StageFlow}
    (hblock : if v.position = g.exit.position then block = exitBlock
      else StageFlows b (rightTables c) g v block) :
    ∃ f f', block = [f, f'] ∧ Guards b.allocator f.flow.guard (conjuncts e) ∧
      Guards b.allocator f'.flow.guard [] := by
  split at hblock
  · next hposition =>
    rw [hg.eq_exit (hg.proper.mem_vertices_of_reaches hv) hposition, hexit] at hrole
    cases hrole
  · cases hblock with
    | dummy hdummy =>
      rw [hdummy] at hrole
      cases hrole
    | cond hcond hm =>
      rw [hcond] at hrole
      cases hrole
      exact ⟨_, _, rfl, guards_condition hm _ _, guards_nil _ _⟩
    | table htable =>
      rw [htable] at hrole
      cases hrole

/-! ## Stages that read nothing -/

/-- All that a match compares are the registers of the output port and of the multicast group. -/
def ComparesReserved (a : Allocator) (m : Match) : Prop :=
  ∀ left right mask, .equals left right mask ∈ m.conditions →
    ∃ r, left = .reg r ∧ (a.lookup outputPort = some r ∨ a.lookup multicastGroup = some r)

theorem comparesReserved_table (stage : Int64) :
    ComparesReserved a (Match.table stage).simplify := by
  intro left right mask h
  cases List.mem_singleton.mp h

theorem comparesReserved_stageGuard {rest : List Match}
    (h : ∀ c ∈ rest, ∃ r right mask, c = .equals (.reg r) right mask ∧
      (a.lookup outputPort = some r ∨ a.lookup multicastGroup = some r)) (stage : Int64) (n : Int) :
    ComparesReserved a (stageGuard stage (.number n) rest).simplify := by
  intro left right mask hmem
  rw [Match.conditions_simplify, stageGuard, Match.conditions_foldl, List.map_append,
    List.mem_append] at hmem
  rcases hmem with hmem | hmem
  · rcases List.mem_cons.mp hmem with heq | hmem
    · cases heq
    · cases List.mem_singleton.mp hmem
  · obtain ⟨c, hc, heq⟩ := List.mem_map.mp hmem
    obtain ⟨m, hm, hc⟩ := List.mem_flatMap.mp hc
    obtain ⟨r, right', mask', rfl, hr⟩ := h m hm
    cases List.mem_singleton.mp hc
    cases heq
    exact ⟨r, rfl, hr⟩

namespace Compiled

variable {p : Program} {t : Target} {o : Output} {inControl outControl : Control} {ports : Ports}
  {b : State}

theorem exists_guards (h : Compiled p t o inControl outControl ports b) (hv : StageOf o g v)
    (hrole : v.role = .cond e) :
    ∃ f f', o.flowsAt v.id = [f, f'] ∧ Guards b.allocator f.flow.guard (conjuncts e) ∧
      Guards b.allocator f'.flow.guard [] := by
  obtain ⟨rfl | rfl, hreaches⟩ := hv
  · exact exists_guards_of_block h.inOnward (h.inGraph ▸ rfl) hreaches hrole
      (h.flowsAt_ingress hreaches)
  · exact exists_guards_of_block h.outOnward (h.outGraph ▸ rfl) hreaches hrole
      (h.flowsAt_egress hreaches)

/-- Every flow is that of a condition or of a table, or compares nothing but reserved registers. -/
theorem cases_of_mem_flows (h : Compiled p t o inControl outControl ports b) (hf : f ∈ o.flows) :
    (∃ g v e, StageOf o g v ∧ v.role = .cond e ∧ f ∈ o.flowsAt v.id) ∨
      (∃ g v x, TableAt p o g v x ∧ f ∈ o.flowsAt v.id) ∨
      ComparesReserved b.allocator f.flow.guard := by
  have hports {c : Match} {right : Flow.Expr} {mask : Option Flow.Expr}
      (hc : c = .equals (.reg ports.output) right mask ∨ c = .equals (.reg ports.group) right mask)
      (stage : Int64) (n : Int) :
      ComparesReserved b.allocator (stageGuard stage (.number n) [c]).simplify := by
    refine comparesReserved_stageGuard (List.forall_mem_singleton.mpr ?_) stage n
    rcases hc with rfl | rfl
    · exact ⟨_, _, _, rfl, Or.inl h.output⟩
    · exact ⟨_, _, _, rfl, Or.inr h.group⟩
  cases h.origin hf with
  | test hv hrole hf _ => exact Or.inl ⟨_, _, _, hv, hrole, hf⟩
  | table hat hf => exact Or.inr (Or.inl ⟨_, _, _, hat, hf⟩)
  | noGroup | group => exact Or.inr (Or.inr (hports (Or.inr rfl) _ _))
  | egressExit hf =>
    have hreserved : ∀ f ∈ egressExitFlows ports o.egress.exit,
        ComparesReserved b.allocator f.flow.guard :=
      List.forall_mem_cons.mpr ⟨hports (Or.inl rfl) _ _, List.forall_mem_singleton.mpr
        (comparesReserved_stageGuard (List.forall_mem_nil _) _ _)⟩
    exact Or.inr (Or.inr (hreserved f hf))
  | _ => exact Or.inr (Or.inr (comparesReserved_table _))

end Compiled

/-- **Prerequisites come with every comparison.**  A program is compiled.  Then the match of a
condition compares its conjuncts, that of a constant entry the keys that it looks at, and that of a
rule, whichever values a row has for its optional keys, the keys that the row has values for: each
behind all prerequisites of the fields that it reads.  No other flow compares anything besides the two
reserved registers.  The lists of prerequisites have no repetitions, and consist of the prerequisites
of the fields that are read. -/
theorem prerequisites_precede_comparisons {p : Program} {t : Target} {o : Output}
    (h : (compile p t).result = .ok o) :
    (∀ g v e, StageOf o g v → v.role = .cond e → ∃ f f', o.flowsAt v.id = [f, f'] ∧
      Guards (finalRegisters p t) f.flow.guard (conjuncts e) ∧
      Guards (finalRegisters p t) f'.flow.guard []) ∧
    (∀ g v x, TableAt p o g v x → TableGuards (finalRegisters p t) x (o.flowsAt v.id)) ∧
    (∀ f ∈ o.flows, (∃ g v e, StageOf o g v ∧ v.role = .cond e ∧ f ∈ o.flowsAt v.id) ∨
      (∃ g v x, TableAt p o g v x ∧ f ∈ o.flowsAt v.id) ∨
      ComparesReserved (finalRegisters p t) f.flow.guard) ∧
    (∀ e, (prereqs e).Nodup ∧ ∀ m, m ∈ prereqs e ↔ ∃ text, Declares e text ∧ m = .prereq text) := by
  obtain ⟨inControl, outControl, ports, b, hb⟩ := compiled_of_ok h
  rw [← hb.registers]
  refine ⟨fun g v e hv hrole => hb.exists_guards hv hrole,
    fun g v x hat => tableGuards_of_tableFlows (hb.tableFlows hat),
    fun f hf => hb.cases_of_mem_flows hf,
    fun e => ⟨(prereqsOf_singleton e).nodup, fun m => mem_prereqs⟩⟩

/-! ## A program -/

/-- A condition on a part of an address, under a cast and behind another condition. -/
def sampleTest : Expr :=
  .binary .and (.field sampleFlag) (.binary .eq (.literal { value := 10 })
    (.cast { width := 8 } (.slice (.field sampleAddress) 31 24)))

/-- A control that filters some of its packets. -/
def filterIngress : Control :=
  { sampleIngress with
    tables := [sampleAcl, sampleFilter]
    body := [.apply ⟨"Ingress", "acl"⟩, .ifThen sampleTest (.apply ⟨"Ingress", "filter"⟩)] }

/-- A program with this control. -/
def filterProgram : Program := { sampleProgram with ingress := some filterIngress }

theorem compile_filterProgram : ∃ o, (compile filterProgram {}).result = .ok o :=
  exists_eq_ok_of_isOk (by decide +kernel)

/-- Whether a stage tests a condition on a field with a prerequisite. -/
def testsField (prereq : Text) (v : Vertex) : Bool :=
  match v.role with
  | .cond e => (conjuncts e).any fun c => (prereqTexts c).contains prereq
  | _ => false

theorem exists_cond_of_testsField {prereq : Text} (h : testsField prereq v = true) :
    ∃ e, v.role = .cond e ∧ ∃ c ∈ conjuncts e, Declares c prereq := by
  unfold testsField at h
  split at h
  · next e hrole =>
    obtain ⟨c, hc, hmem⟩ := List.any_eq_true.mp h
    exact ⟨e, hrole, c, hc, mem_prereqTexts.mp (List.contains_iff_mem.mp hmem)⟩
  · cases h

/-- The condition and the filter both look at addresses. -/
theorem prerequisites_precede_comparisons_filterProgram :
    ∃ o, (compile filterProgram {}).result = .ok o ∧
      (∃ g v e f f', StageOf o g v ∧ v.role = .cond e ∧ (∃ c ∈ conjuncts e, Declares c "ip") ∧
        o.flowsAt v.id = [f, f'] ∧
        Guards (finalRegisters filterProgram {}) f.flow.guard (conjuncts e)) ∧
      ∃ g v, TableAt filterProgram o g v sampleFilter ∧ isParametric sampleFilter = true ∧
        TableGuards (finalRegisters filterProgram {}) sampleFilter (o.flowsAt v.id) := by
  obtain ⟨o, ho⟩ := compile_filterProgram
  obtain ⟨inControl, outControl, ports, b, hb⟩ := compiled_of_ok ho
  obtain ⟨hconds, htables, -⟩ := prerequisites_precede_comparisons ho
  have htest : (o.ingress.reachable.any (testsField "ip")) = true := by
    rw [hb.inGraph, ← Option.some.inj hb.ingress]
    decide +kernel
  obtain ⟨v, hv, htest⟩ := List.any_eq_true.mp htest
  obtain ⟨e, hrole, hdeclares⟩ := exists_cond_of_testsField htest
  have hof : StageOf o o.ingress v := ⟨Or.inl rfl, hb.inOnward.proper.mem_reachable.mp hv⟩
  obtain ⟨f, f', hflows, hguards, -⟩ := hconds _ v e hof hrole
  obtain ⟨w, hat⟩ := exists_tableAt_ingress ho (c := filterIngress) (x := sampleFilter) rfl rfl
    (by decide +kernel)
  exact ⟨o, ho, ⟨_, v, e, f, f', hof, hrole, hdeclares, hflows, hguards⟩, _, w, hat, rfl,
    htables _ w _ hat⟩

end Flowline.Compile
