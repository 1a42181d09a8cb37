import Flowline.Proofs.ControlFlow.Onward

/-!
# What leaves a stage

The statements of a control fix how packets leave each of its stages, and with that what happens
there (`Fork.role`); a walk over them makes these stages in order (`walk_roles`).  The ways of stages
stand one after the other, so those out of one stage can be read off (`waysFrom_waysAt`).

A condition has two ways, one for each truth value.  Each of them occurs once, so it enters one
stage, and the condition has exactly two edges in the graph (`succs_of_cond`), whatever labels are
repeated elsewhere.
-/

namespace Flowline.ControlFlow

open Pipeline (Control)
open Source (Case Expr Stmt)

/-! ## What happens at the stages of statements -/

/-- What happens at the stage of a test. -/
def testRole (cond : Expr) : Role :=
  match hitTest cond with
  | some (t, _) => .table (some t.name)
  | none => .cond cond

/-- What happens at a stage that packets leave by a fork. -/
def Fork.role : Fork → Role
  | test cond => testRole cond
  | onward (some name) _ => .table (some name)
  | onward none _ => .dummy

namespace Draft

/-- What happens at the stages of a draft. -/
def roles (d : Draft) : List Role := d.nodes.map fun n => n.1.role

theorem roles_push (d : Draft) (name : Text) (role : Role) (preds : EdgeSet) :
    (d.push name role preds).2.roles = d.roles ++ [role] := by
  rw [roles, push_nodes, List.map_append]
  rfl

theorem roles_pushTest (d : Draft) (cond : Expr) (live : EdgeSet) :
    (d.pushTest cond live).2.roles = d.roles ++ [testRole cond] := by
  rw [pushTest, testRole]
  cases hitTest cond with
  | some tb | none => exact d.roles_push _ _ live

end Draft

mutual

theorem walk_roles : ∀ (s : Stmt) (live : EdgeSet) (d : Draft),
    (walk s live d).2.roles = d.roles ++ (forksOf s).map Fork.role
  | .block ss, live, d => by
    rw [walk, forksOf]
    exact walkAll_roles ss live d
  | .apply t, live, d => by
    rw [walk, forksOf]
    exact d.roles_push _ _ live
  | .ifThen cond thn, live, d => by
    simp only [walk, forksOf, List.map_cons, Fork.role]
    rw [walk_roles thn, d.roles_pushTest cond live, List.append_assoc, List.singleton_append]
  | .ifElse cond thn els, live, d => by
    simp only [walk, forksOf, List.map_cons, List.map_append, Fork.role]
    rw [walk_roles els, walk_roles thn, d.roles_pushTest cond live, List.append_assoc,
      List.append_assoc, List.singleton_append]
  | .switch subject cases, live, d => by
    cases subject with
    | actionRun t =>
      simp only [walk, forksOf, List.map_cons, Fork.role]
      rw [walkCases_roles _ cases, Draft.pushTable, Draft.roles_push, List.append_assoc,
        List.singleton_append]
    | _ =>
      simp only [walk, forksOf]
      exact (List.append_nil _).symm
  | .empty, live, d | .exit, live, d | .ret, live, d | .assign _ _, live, d
  | .call _ _ _, live, d => by
    simp only [walk, forksOf]
    exact (List.append_nil _).symm

theorem walkAll_roles : ∀ (ss : List Stmt) (live : EdgeSet) (d : Draft),
    (walkAll ss live d).2.roles = d.roles ++ (forksAll ss).map Fork.role
  | [], live, d => by
    rw [walkAll, forksAll, List.map_nil, List.append_nil]
  | s :: ss, live, d => by
    simp only [walkAll, forksAll, List.map_append]
    rw [walkAll_roles ss, walk_roles s, List.append_assoc]

/-- A walk over cases adds the stages of their bodies. -/
theorem walkCases_roles : ∀ (v : Vertex) (cs : List Case) (labels after : EdgeSet) (d : Draft),
    (walkCases v cs labels after d).2.roles = d.roles ++ (forksCases cs).map Fork.role
  | v, [], labels, after, d => by
    rw [walkCases, forksCases, List.map_nil, List.append_nil]
  | v, .bare l :: cs, labels, after, d => by
    rw [walkCases, forksCases]
    exact walkCases_roles v cs _ _ d
  | v, .arm l body :: cs, labels, after, d => by
    simp only [walkCases, forksCases, List.map_append]
    rw [walkCases_roles v cs, walkAll_roles body, List.append_assoc]

end

/-! ## The ways out of a stage -/

theorem Fork.eq_test_of_role {f : Fork} {e : Expr} (h : f.role = .cond e) :
    ∃ cond, f = .test cond := by
  cases f with
  | test cond => exact ⟨cond, rfl⟩
  | onward table => cases table <;> cases h

/-- The ways that start at a position. -/
def waysFrom (A : Multiset Way) (q : Nat) : Multiset Way := A.filter fun w => w.source = q

theorem waysFrom_add (A B : Multiset Way) (q : Nat) :
    waysFrom (A + B) q = waysFrom A q + waysFrom B q :=
  Multiset.filter_add _ A B

theorem waysFrom_eq_zero {A : Multiset Way} {q : Nat} (h : ∀ w ∈ A, w.source ≠ q) :
    waysFrom A q = 0 :=
  Multiset.filter_eq_nil.mpr h

theorem count_waysFrom (A : Multiset Way) (w : Way) :
    (waysFrom A w.source).count w = A.count w :=
  Multiset.count_filter_of_pos rfl

/-- The ways out of one of some stages; behind the last of them no way starts. -/
theorem waysFrom_waysAt (fs : List Fork) (p i : Nat) :
    waysFrom (waysAt fs p) (p + i) = fs[i]?.elim 0 (·.ways (p + i)) := by
  induction fs generalizing p i with
  | nil => rfl
  | cons g fs ih =>
    rw [waysAt, waysFrom_add]
    cases i with
    | zero =>
      have hrest : waysFrom (waysAt fs (p + 1)) (p + 0) = 0 :=
        waysFrom_eq_zero fun w hw => (Nat.lt_of_succ_le (source_of_mem_waysAt hw).1).ne'
      rw [hrest, add_zero]
      exact Multiset.filter_eq_self.mpr fun _ hw => Fork.source_of_mem_ways hw
    | succ i =>
      have hfirst : waysFrom (g.ways p) (p + (i + 1)) = 0 :=
        waysFrom_eq_zero fun w hw => by rw [Fork.source_of_mem_ways hw]; omega
      have hrest := ih (p + 1) i
      rw [Nat.add_right_comm, Nat.add_assoc] at hrest
      rw [hfirst, zero_add, hrest, List.getElem?_cons_succ]

/-! ## The edges out of a condition -/

variable {c : Control} {first : Int64}

theorem roles_nodesOf (c : Control) (first : Int64) :
    (nodesOf c first).map (fun n => n.1.role) = (controlForks c).map Fork.role ++ [.dummy] := by
  have hwalk := walkAll_roles c.body [⟨entryOf c first, .always, ""⟩] (Draft.start c first)
  rw [nodesOf, List.map_append, ← Draft.roles, walkBody, hwalk]
  rfl

theorem waysFrom_control (c : Control) (q : Nat) :
    waysFrom (waysAt (controlForks c) 0) q = (controlForks c)[q]?.elim 0 (·.ways q) := by
  have hways := waysFrom_waysAt (controlForks c) 0 q
  rwa [Nat.zero_add] at hways

theorem controlForks_of_cond {q : Nat} {e : Expr}
    (h : ((nodesOf c first).map fun n => n.1.role)[q]? = some (.cond e)) :
    ∃ cond, (controlForks c)[q]? = some (.test cond) := by
  rw [roles_nodesOf] at h
  by_cases hlt : q < ((controlForks c).map Fork.role).length
  · rw [List.getElem?_append_left hlt, List.getElem?_map] at h
    obtain ⟨f, hf, hrole⟩ := Option.map_eq_some_iff.mp h
    obtain ⟨cond, rfl⟩ := Fork.eq_test_of_role hrole
    exact ⟨cond, hf⟩
  · rw [List.getElem?_append_right (Nat.le_of_not_lt hlt), List.getElem?_singleton] at h
    split at h
    · cases Option.some.inj h
    · cases h

theorem count_bothWays_le_one (q : Nat) (w : Way) : (bothWays q).count w ≤ 1 :=
  Multiset.nodup_iff_count_le_one.mp (nodup_bothWays q) w

/-- Each way out of a condition enters one stage. -/
theorem waysFrom_nodesOf {q : Nat} {e : Expr}
    (h : ((nodesOf c first).map fun n => n.1.role)[q]? = some (.cond e)) :
    waysFrom ((nodesOf c first).map fun n => EdgeSet.ways n.2).sum q = bothWays q := by
  refine Multiset.ext.mpr fun w => ?_
  by_cases hq : w.source = q
  · subst hq
    obtain ⟨cond, hcond⟩ := controlForks_of_cond h
    have hcount : (waysAt (controlForks c) 0).count w = (bothWays w.source).count w := by
      rw [← count_waysFrom, waysFrom_control, hcond, Option.elim_some, Fork.ways]
    rw [count_waysFrom, count_ways_nodesOf c first, hcount]
    rw [hcount]
    exact count_bothWays_le_one _ w
  · rw [Multiset.count_eq_zero_of_notMem, Multiset.count_eq_zero_of_notMem]
    · exact fun hw => hq (Fork.source_of_mem_ways (f := .test e) hw)
    · exact fun hw => hq (Multiset.mem_filter.mp hw).2

/-- The edges out of a stage are the ways that start there. -/
theorem ways_outgoing (N : List Incoming) (v : Vertex) :
    (((outgoing N v).map fun e => (⟨v.position, e.kind, e.label⟩ : Way) : List Way) :
        Multiset Way) = waysFrom (N.map fun n => EdgeSet.ways n.2).sum v.position := by
  induction N with
  | nil => rfl
  | cons n N ih =>
    have hnode : (((n.2.filter fun e => e.node.position == v.position).map fun e =>
        (⟨v.position, e.kind, e.label⟩ : Way) : List Way) : Multiset Way) =
        waysFrom (EdgeSet.ways n.2) v.position := by
      rw [waysFrom, EdgeSet.ways, Multiset.filter_coe, List.filter_map]
      refine congrArg _ ?_
      have hfilter : (n.2.filter fun e => e.node.position == v.position) =
          n.2.filter ((fun w : Way => decide (w.source = v.position)) ∘ Edge.way) :=
        List.filter_congr fun e _ => Bool.eq_iff_iff.mpr (beq_iff_eq.trans decide_eq_true_iff.symm)
      rw [hfilter]
      refine List.map_congr_left fun e he => ?_
      have hpos := of_decide_eq_true (List.mem_filter.mp he).2
      rw [← hpos]
      rfl
    rw [List.map_cons, List.sum_cons, waysFrom_add, ← hnode, ← ih, Multiset.coe_add, outgoing,
      List.flatMap_cons, List.map_append, List.map_map]
    rfl

/-- Edges that are taken in different cases are all kept. -/
theorem EdgeSet.distinct_eq_self {es : List Edge} (h : es.Pairwise fun a b => a.kind ≠ b.kind) :
    EdgeSet.distinct es = es := by
  suffices hs : ∀ s : EdgeSet, ((s ++ es).Pairwise fun a b => a.kind ≠ b.kind) →
      es.foldl (fun s e => if s.any (·.equivalent e) then s else s ++ [e]) s = s ++ es from hs [] h
  clear h
  induction es with
  | nil => exact fun s _ => (List.append_nil s).symm
  | cons e es ih =>
    intro s hs
    have hnew : ¬(s.any (·.equivalent e)) = true := by
      rw [List.any_eq_true]
      rintro ⟨a, ha, hae⟩
      simp only [Edge.equivalent, Bool.and_eq_true, beq_iff_eq] at hae
      exact (List.pairwise_append.mp hs).2.2 a ha e List.mem_cons_self hae.1.1
    rw [List.append_cons] at hs ⊢
    rw [List.foldl_cons, if_neg hnew, ih _ hs]

theorem exists_perm_pair {α β : Type} {f : α → β} {l : List α} {s t : β}
    (h : ((l.map f : List β) : Multiset β) = {s} + {t}) :
    ∃ a b, l.Perm [a, b] ∧ f a = s ∧ f b = t := by
  classical
  obtain ⟨a, ha, hfa, hrest⟩ := (Multiset.map_eq_cons f (l : Multiset α) {t} s).mpr h
  obtain ⟨b, hb, hfb⟩ := Multiset.map_eq_singleton.mp hrest
  refine ⟨a, b, Multiset.coe_eq_coe.mp ?_, hfa, hfb⟩
  rw [← Multiset.cons_erase ha, hb]
  rfl

/-- A condition has an edge for each truth value, and no other. -/
theorem succs_of_cond {n : Node} (hn : n ∈ (graphOf c first).nodes) {e : Expr}
    (hrole : n.vertex.role = .cond e) :
    ∃ a b : Vertex, n.succs.Perm [⟨a, .onTrue, ""⟩, ⟨b, .onFalse, ""⟩] := by
  obtain ⟨⟨v, preds⟩, hm, rfl⟩ := List.mem_map.mp hn
  obtain ⟨i, hi⟩ := List.mem_iff_getElem?.mp hm
  have hpos : v.position = i := (nodesOf_sound c first).placed i _ hi
  have hget : ((nodesOf c first).map fun n => n.1.role)[v.position]? = some (.cond e) := by
    rw [hpos, List.getElem?_map, hi]
    exact congrArg some hrole
  have hways := ways_outgoing (nodesOf c first) v
  rw [waysFrom_nodesOf hget] at hways
  obtain ⟨⟨a, ka, la⟩, ⟨b, kb, lb⟩, hperm, ha, hb⟩ := exists_perm_pair hways
  obtain ⟨-, rfl, rfl⟩ := Way.mk.inj ha
  obtain ⟨-, rfl, rfl⟩ := Way.mk.inj hb
  refine ⟨a, b, ?_⟩
  have hkinds : (outgoing (nodesOf c first) v).Pairwise fun a b => a.kind ≠ b.kind :=
    (hperm.pairwise_iff fun h => h.symm).mpr (List.pairwise_pair.mpr EdgeKind.noConfusion)
  show (EdgeSet.distinct (outgoing (nodesOf c first) v)).Perm _
  rw [EdgeSet.distinct_eq_self hkinds]
  exact hperm

end Flowline.ControlFlow
