import Flowline.Proofs.ControlFlow.Ways

/-!
# What a walk over statements does to a draft

`Passes` says everything about a walk that later proofs use: stages are only added behind those
there are, positions and numbers count them, edges lead forward, and the balance of ways.  It speaks
of multisets of live ways, not of edge sets, so that walks compose: `Passes.trans` puts one walk
behind another, and `Passes.frame` keeps ways aside that a branch does not touch.

Two labels of one switch may be equal; its edges then fall together.  So there may be fewer ways
behind a walk than the balance has (`Passes.le`), but none is lost (`Passes.mem`), and a way that
occurs once is there once (`count_eq_of_le`).

The recursion of the walk is followed once, in `walk_passes`.
-/

namespace Flowline.ControlFlow

open Source (Expr Stmt Case)

namespace Draft

/-- The ways that lead to a stage of a draft or wait for its exit. -/
def ways (d : Draft) : Multiset Way :=
  (d.nodes.map fun n => EdgeSet.ways n.2).sum + EdgeSet.ways d.exits

/-- Nodes stand at their positions, and edges come from stages in front. -/
structure Sound (d : Draft) : Prop where
  placed : ∀ (i : Nat) (n : Incoming), d.nodes[i]? = some n → n.1.position = i
  forward : ∀ n ∈ d.nodes, ∀ w ∈ EdgeSet.ways n.2, w.source < n.1.position
  exits : ∀ w ∈ EdgeSet.ways d.exits, w.source < d.nodes.length

/-- The stages of a draft have consecutive numbers, the first of which is given. -/
structure Counted (first : Int64) (d : Draft) : Prop where
  next : d.next = first + Int64.ofNat d.nodes.length
  numbered : ∀ n ∈ d.nodes, n.1.id = first + Int64.ofNat n.1.position

/-- The vertex that `push` makes. -/
def vertex (d : Draft) (name : Text) (role : Role) : Vertex :=
  ⟨d.nodes.length, d.next, if name = "" then "node_" ++ Numeral.word d.next else name, role⟩

@[simp] theorem vertex_position (d : Draft) (name : Text) (role : Role) :
    (d.vertex name role).position = d.nodes.length := rfl

@[simp] theorem vertex_role (d : Draft) (name : Text) (role : Role) :
    (d.vertex name role).role = role := rfl

@[simp] theorem push_fst (d : Draft) (name : Text) (role : Role) (preds : EdgeSet) :
    (d.push name role preds).1 = d.vertex name role := rfl

@[simp] theorem push_nodes (d : Draft) (name : Text) (role : Role) (preds : EdgeSet) :
    (d.push name role preds).2.nodes = d.nodes ++ [(d.vertex name role, preds)] := rfl

@[simp] theorem push_exits (d : Draft) (name : Text) (role : Role) (preds : EdgeSet) :
    (d.push name role preds).2.exits = d.exits := rfl

theorem ways_push (d : Draft) (name : Text) (role : Role) (preds : EdgeSet) :
    (d.push name role preds).2.ways = d.ways + EdgeSet.ways preds := by
  simp only [ways, push_nodes, push_exits, List.map_append, List.map_cons, List.map_nil,
    List.sum_append, List.sum_cons, List.sum_nil]
  abel

theorem Sound.push {d : Draft} (hd : d.Sound) (name : Text) (role : Role) {preds : EdgeSet}
    (hp : ∀ w ∈ EdgeSet.ways preds, w.source < d.nodes.length) :
    (d.push name role preds).2.Sound where
  placed := by
    intro i n hn
    rw [push_nodes, List.getElem?_append] at hn
    split at hn
    · exact hd.placed i n hn
    · rename_i hi
      rw [List.getElem?_singleton] at hn
      split at hn
      · have hn' := Option.some.inj hn
        rw [← hn', vertex_position]
        omega
      · cases hn
  forward := by
    intro n hn w hw
    rw [push_nodes, List.mem_append, List.mem_singleton] at hn
    rcases hn with hn | rfl
    · exact hd.forward n hn w hw
    · exact hp w hw
  exits := by
    intro w hw
    rw [push_nodes, List.length_append]
    exact Nat.lt_add_right _ (hd.exits w hw)

theorem Counted.push {first : Int64} {d : Draft} (hd : d.Counted first) (name : Text) (role : Role)
    (preds : EdgeSet) : (d.push name role preds).2.Counted first where
  next := by
    show d.next + 1 = _
    rw [push_nodes, List.length_append, List.length_singleton, Int64.ofNat_add, hd.next,
      Int64.add_assoc]
    rfl
  numbered := by
    intro n hn
    rw [push_nodes, List.mem_append, List.mem_singleton] at hn
    rcases hn with hn | rfl
    · exact hd.numbered n hn
    · exact hd.next

/-- The node of a test is the application of a table or a condition. -/
theorem pushTest_eq (d : Draft) (cond : Expr) (live : EdgeSet) :
    ∃ name role onThen, d.pushTest cond live =
      ((d.vertex name role, onThen), (d.push name role live).2) := by
  rw [pushTest]
  cases hitTest cond with
  | some tb => exact ⟨tb.1.name, .table (some tb.1.name), tb.2, rfl⟩
  | none => exact ⟨"", .cond cond, true, rfl⟩

end Draft

/-! ## Passing statements -/

/-- How a draft with live ways `L` becomes one with live ways `L'` by adding `k` stages whose own
ways are `ws`. -/
structure Passes (k : Nat) (ws L : Multiset Way) (d : Draft) (L' : Multiset Way) (d' : Draft) :
    Prop where
  nodes : d.nodes <+: d'.nodes
  exits : ∀ w ∈ EdgeSet.ways d.exits, w ∈ EdgeSet.ways d'.exits
  length : d'.nodes.length = d.nodes.length + k
  sound : d.Sound → (∀ w ∈ L, w.source < d.nodes.length) →
    d'.Sound ∧ ∀ w ∈ L', w.source < d'.nodes.length
  counted : ∀ first, d.Counted first → d'.Counted first
  le : d'.ways + L' ≤ d.ways + L + ws
  mem : ∀ w, w ∈ d'.ways + L' ↔ w ∈ d.ways + L + ws

namespace Passes

variable {k k' : Nat} {ws ws' L L' L'' : Multiset Way} {d d' d'' : Draft}

theorem refl (L : Multiset Way) (d : Draft) : Passes 0 0 L d L d where
  nodes := List.prefix_rfl
  exits := fun _ hw => hw
  length := rfl
  sound := fun hd hL => ⟨hd, hL⟩
  counted := fun _ hd => hd
  le := by rw [add_zero]
  mem := fun w => by rw [add_zero]

theorem trans (h : Passes k ws L d L' d') (h' : Passes k' ws' L' d' L'' d'') :
    Passes (k + k') (ws + ws') L d L'' d'' where
  nodes := h.nodes.trans h'.nodes
  exits := fun w hw => h'.exits w (h.exits w hw)
  length := by rw [h'.length, h.length, Nat.add_assoc]
  sound := fun hd hL => h'.sound (h.sound hd hL).1 (h.sound hd hL).2
  counted := fun first hd => h'.counted first (h.counted first hd)
  le := by
    rw [← add_assoc]
    exact h'.le.trans (add_le_add_left h.le ws')
  mem := fun w => by rw [h'.mem, Multiset.mem_add, h.mem, ← Multiset.mem_add, add_assoc _ ws]

/-- Ways that are kept aside stay as they are. -/
theorem frame (h : Passes k ws L d L' d') (P : Multiset Way) :
    Passes k ws (L + P) d (L' + P) d' where
  nodes := h.nodes
  exits := h.exits
  length := h.length
  sound := by
    intro hd hL
    have hs := h.sound hd fun w hw => hL w (Multiset.mem_add.mpr (Or.inl hw))
    refine ⟨hs.1, fun w hw => ?_⟩
    rcases Multiset.mem_add.mp hw with hw | hw
    · exact hs.2 w hw
    · rw [h.length]
      exact Nat.lt_add_right _ (hL w (Multiset.mem_add.mpr (Or.inr hw)))
  counted := h.counted
  le := by
    rw [← add_assoc, ← add_assoc, add_right_comm _ P]
    exact add_le_add_left h.le P
  mem := fun w => by
    rw [← add_assoc, Multiset.mem_add, h.mem, ← Multiset.mem_add, ← add_assoc, add_right_comm _ ws]

theorem merge {s t : EdgeSet} (h : Passes k ws L d (EdgeSet.ways s + EdgeSet.ways t) d') :
    Passes k ws L d (EdgeSet.ways (EdgeSet.merge s t)) d' where
  nodes := h.nodes
  exits := h.exits
  length := h.length
  sound := by
    intro hd hL
    have hs := h.sound hd hL
    refine ⟨hs.1, fun w hw => hs.2 w ?_⟩
    rwa [EdgeSet.mem_ways_merge, ← Multiset.mem_add] at hw
  counted := h.counted
  le := (add_le_add_right (EdgeSet.ways_merge_le s t) _).trans h.le
  mem := fun w => by
    rw [← h.mem, Multiset.mem_add, Multiset.mem_add, EdgeSet.mem_ways_merge, Multiset.mem_add]

/-- A new stage takes all live ways, and its own ways are live behind it. -/
theorem push (d : Draft) (name : Text) (role : Role) (live : EdgeSet) (own : Multiset Way)
    (hown : ∀ w ∈ own, w.source = d.nodes.length) :
    Passes 1 own (EdgeSet.ways live) d own (d.push name role live).2 where
  nodes := List.prefix_append _ _
  exits := fun _ hw => hw
  length := by rw [Draft.push_nodes, List.length_append, List.length_singleton]
  sound := by
    intro hd hL
    refine ⟨hd.push name role hL, fun w hw => ?_⟩
    rw [hown w hw, Draft.push_nodes, List.length_append, List.length_singleton]
    exact Nat.lt_succ_self _
  counted := fun _ hd => hd.push name role live
  le := by rw [Draft.ways_push]
  mem := fun w => by rw [Draft.ways_push]

/-- Leaving the control makes all live ways wait for the exit. -/
theorem leave (d : Draft) (live : EdgeSet) :
    Passes 0 0 (EdgeSet.ways live) d 0 (d.leave live) where
  nodes := List.prefix_rfl
  exits := fun w hw => EdgeSet.mem_ways_merge.mpr (Or.inl hw)
  length := rfl
  sound := by
    refine fun hd hL => ⟨⟨hd.placed, hd.forward, fun w hw => ?_⟩, fun w hw => ?_⟩
    · rcases EdgeSet.mem_ways_merge.mp hw with hw | hw
      · exact hd.exits w hw
      · exact hL w hw
    · exact absurd hw (Multiset.notMem_zero w)
  counted := fun _ hd => ⟨hd.next, hd.numbered⟩
  le := by
    rw [add_zero, add_zero, Draft.ways, Draft.ways, add_assoc]
    exact add_le_add_right (EdgeSet.ways_merge_le d.exits live) _
  mem := fun w => by
    rw [add_zero, add_zero, Draft.ways, Draft.ways, Draft.leave, Multiset.mem_add,
      EdgeSet.mem_ways_merge, Multiset.mem_add, Multiset.mem_add, or_assoc]

/-- A problem changes no way. -/
theorem refuse (L : Multiset Way) (d : Draft) (p : Problem) : Passes 0 0 L d L (d.refuse p) where
  nodes := List.prefix_rfl
  exits := fun _ hw => hw
  length := rfl
  sound := fun hd hL => ⟨⟨hd.placed, hd.forward, hd.exits⟩, hL⟩
  counted := fun _ hd => ⟨hd.next, hd.numbered⟩
  le := by
    rw [add_zero]
    rfl
  mem := fun w => by
    rw [add_zero]
    rfl

/-- A label joins those that wait for a body. -/
theorem add (labels : EdgeSet) (e : Edge) (d : Draft) (he : e.node.position < d.nodes.length) :
    Passes 0 {e.way} (EdgeSet.ways labels) d (EdgeSet.ways (EdgeSet.add labels e)) d where
  nodes := List.prefix_rfl
  exits := fun _ hw => hw
  length := rfl
  sound := by
    refine fun hd hL => ⟨hd, fun w hw => ?_⟩
    rcases EdgeSet.mem_ways_add.mp hw with hw | rfl
    · exact hL w hw
    · exact he
  counted := fun _ hd => hd
  le := by
    rw [add_assoc]
    exact add_le_add_right (EdgeSet.ways_add_le labels e) _
  mem := fun w => by
    rw [Multiset.mem_add, EdgeSet.mem_ways_add, Multiset.mem_add, Multiset.mem_add,
      Multiset.mem_singleton, or_assoc]

theorem append {fs gs : List Fork} (h : Passes fs.length (waysAt fs d.nodes.length) L d L' d')
    (h' : Passes gs.length (waysAt gs d'.nodes.length) L' d' L'' d'') :
    Passes (fs ++ gs).length (waysAt (fs ++ gs) d.nodes.length) L d L'' d'' := by
  rw [h.length] at h'
  rw [List.length_append, waysAt_append]
  exact h.trans h'

end Passes

/-! ## The walk -/

theorem onTruth_add_onTruth_not (p : Nat) (b : Bool) :
    ({Way.onTruth p b} + {Way.onTruth p !b} : Multiset Way) = bothWays p := by
  cases b
  · exact add_comm _ _
  · rfl

/-- The node of a test takes the live ways, and leaves a way for each truth value. -/
theorem Passes.test (d : Draft) (cond : Expr) (name : Text) (role : Role) (live : EdgeSet)
    (b : Bool) : Passes [Fork.test cond].length (waysAt [.test cond] d.nodes.length)
      (EdgeSet.ways live) d (EdgeSet.ways [Edge.onTruth (d.vertex name role) b] +
        EdgeSet.ways [Edge.onTruth (d.vertex name role) !b]) (d.push name role live).2 := by
  rw [EdgeSet.ways_singleton, EdgeSet.ways_singleton, Edge.way_onTruth, Edge.way_onTruth,
    Draft.vertex_position, onTruth_add_onTruth_not, waysAt_singleton]
  exact Passes.push d name role live _ fun w hw => Fork.source_of_mem_ways (f := .test cond) hw

mutual

theorem walk_passes : ∀ (s : Stmt) (live : EdgeSet) (d : Draft),
    Passes (forksOf s).length (waysAt (forksOf s) d.nodes.length) (EdgeSet.ways live) d
      (EdgeSet.ways (walk s live d).1) (walk s live d).2
  | .block ss, live, d => by
    rw [walk, forksOf]
    exact walkAll_passes ss live d
  | .empty, live, d => by
    simp only [walk, forksOf]
    exact Passes.refl _ d
  | .exit, live, d | .ret, live, d => by
    simp only [walk, forksOf]
    exact Passes.leave d live
  | .apply t, live, d => by
    rw [walk, forksOf, waysAt_singleton]
    exact Passes.push d t.name (.table (some t.name)) live _ fun w hw => Fork.source_of_mem_ways hw
  | .ifThen cond thn, live, d => by
    obtain ⟨name, role, onThen, heq⟩ := d.pushTest_eq cond live
    simp only [walk, forksOf, heq]
    exact ((Passes.test d cond name role live onThen).append ((walk_passes thn _ _).frame _)).merge
  | .ifElse cond thn els, live, d => by
    obtain ⟨name, role, onThen, heq⟩ := d.pushTest_eq cond live
    simp only [walk, forksOf, heq]
    -- the way to the second branch is kept aside in the first one, and the other way round
    have hfirst := (Passes.test d cond name role live onThen).append ((walk_passes thn _ _).frame _)
    rw [add_comm (EdgeSet.ways _)] at hfirst
    have hboth := hfirst.append ((walk_passes els _ _).frame _)
    rw [add_comm (EdgeSet.ways _)] at hboth
    exact hboth.merge
  | .switch subject cases, live, d => by
    cases subject with
    | actionRun t =>
      simp only [walk, forksOf]
      have hpush := Passes.push d t.name (.table (some t.name)) live
        {(⟨d.nodes.length, .always, ""⟩ : Way)} fun w hw => by
          rw [Multiset.mem_singleton] at hw
          rw [hw]
      have hlen := hpush.length
      have hcases := walkCases_passes (d.vertex t.name (.table (some t.name))) cases []
        [⟨d.vertex t.name (.table (some t.name)), .always, ""⟩]
        (d.push t.name (.table (some t.name)) live).2 (by
          rw [hlen, Draft.vertex_position]
          exact Nat.lt_succ_self _)
      rw [hlen, EdgeSet.ways_nil, zero_add] at hcases
      rw [List.length_cons, Nat.add_comm, waysAt, Fork.ways, add_assoc]
      exact hpush.trans hcases
    | _ =>
      simp only [walk, forksOf]
      exact Passes.refuse _ d _
  | .assign left right, live, d | .call target method args, live, d => by
    simp only [walk, forksOf]
    exact Passes.refuse _ d _

theorem walkAll_passes : ∀ (ss : List Stmt) (live : EdgeSet) (d : Draft),
    Passes (forksAll ss).length (waysAt (forksAll ss) d.nodes.length) (EdgeSet.ways live) d
      (EdgeSet.ways (walkAll ss live d).1) (walkAll ss live d).2
  | [], live, d => by
    rw [walkAll, forksAll]
    exact Passes.refl _ d
  | s :: ss, live, d => by
    simp only [walkAll, forksAll]
    exact (walk_passes s live d).append (walkAll_passes ss _ _)

/-- What walking the cases of a switch does, from the labels that wait and the edges that have left
the switch. -/
theorem walkCases_passes : ∀ (v : Vertex) (cs : List Case) (labels after : EdgeSet) (d : Draft),
    v.position < d.nodes.length →
    Passes (forksCases cs).length
      (labelWays v.position (cs.map Case.label) + waysAt (forksCases cs) d.nodes.length)
      (EdgeSet.ways labels + EdgeSet.ways after) d
      (EdgeSet.ways (walkCases v cs labels after d).1) (walkCases v cs labels after d).2
  | v, [], labels, after, d, _ => by
    rw [walkCases, forksCases, add_comm (EdgeSet.ways labels)]
    exact (Passes.refl _ d).merge
  | v, .bare l :: cs, labels, after, d, hv => by
    simp only [walkCases, forksCases, List.map_cons, Case.label]
    have hadd := (Passes.add labels ⟨v, .onLabel, l⟩ d hv).frame (EdgeSet.ways after)
    have hcs := walkCases_passes v cs (EdgeSet.add labels ⟨v, .onLabel, l⟩) after d hv
    have h := hadd.trans hcs
    rwa [Nat.zero_add, ← add_assoc] at h
  | v, .arm l body :: cs, labels, after, d, hv => by
    simp only [walkCases, forksCases, List.map_cons, Case.label]
    have hadd := Passes.add labels ⟨v, .onLabel, l⟩ d hv
    have hbody := walkAll_passes body (EdgeSet.add labels ⟨v, .onLabel, l⟩) d
    have harm := (hadd.trans hbody).frame (EdgeSet.ways after)
    rw [add_comm (EdgeSet.ways (walkAll body _ d).1), Nat.zero_add] at harm
    have hcs := walkCases_passes v cs []
      (EdgeSet.merge after (walkAll body (EdgeSet.add labels ⟨v, .onLabel, l⟩) d).1)
      (walkAll body (EdgeSet.add labels ⟨v, .onLabel, l⟩) d).2 (by
        rw [hbody.length]
        exact Nat.lt_add_right _ hv)
    rw [hbody.length, EdgeSet.ways_nil, zero_add] at hcs
    rw [labelWays_cons, List.length_append, waysAt_append, add_add_add_comm]
    exact harm.merge.trans hcs

end

end Flowline.ControlFlow
