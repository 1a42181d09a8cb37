import Flowline.Proofs.ControlFlow.Building

/-!
# Following the edges of a finished graph

Successors are read off the predecessors of all nodes, with repetitions left out, and the next stage
is found by trying several cases in order.  Here this becomes one statement: where each way enters
one stage only, the next stage is the one that the way taken enters (`Finished.next_eq`).

Leaving out repetitions does no harm by itself: an edge is left out only behind one with the same
case, and the search for a case finds the earlier one (`EdgeSet.find?_distinct`).
-/

namespace Flowline.ControlFlow

open Source (Expr Stmt Case)

/-! ## Successors -/

/-- A search that only looks at when edges are taken does not notice that repetitions are left
out. -/
theorem EdgeSet.find?_distinct (P : EdgeKind → Text → Bool) (es : List Edge) :
    (EdgeSet.distinct es).find? (fun e => P e.kind e.label) =
      es.find? fun e => P e.kind e.label := by
  suffices h : ∀ s : EdgeSet,
      (es.foldl (fun s e => if s.any (·.equivalent e) then s else s ++ [e]) s).find?
          (fun e => P e.kind e.label) = (s ++ es).find? fun e => P e.kind e.label from h []
  induction es with
  | nil => intro s; rw [List.foldl_nil, List.append_nil]
  | cons e es ih =>
    intro s
    rw [List.foldl_cons, ih]
    split
    · rename_i hs
      obtain ⟨x, hx, hxe⟩ := List.any_eq_true.mp hs
      simp only [Edge.equivalent, Bool.and_eq_true, beq_iff_eq] at hxe
      rw [List.find?_append, List.find?_append, List.find?_cons]
      split
      · -- the edge left out would have been found behind the one it repeats
        rename_i he
        rw [← hxe.1.1, ← hxe.1.2] at he
        have hsome : (s.find? fun e => P e.kind e.label).isSome = true :=
          List.find?_isSome.mpr ⟨x, hx, he⟩
        obtain ⟨y, hy⟩ := Option.isSome_iff_exists.mp hsome
        rw [hy, Option.some_or, Option.some_or]
      · rfl
    · rw [List.append_assoc, List.singleton_append]

/-- A way is the one wanted out of the stage at position `p`. -/
def Way.Fits (w : Way) (p : Nat) (kind : EdgeKind) (label : Text) : Prop :=
  w.source = p ∧ w.kind = kind ∧ (kind = .onLabel → w.label = label)

/-- A way enters a stage. -/
def Enters (N : List Incoming) (w : Way) (n : Vertex) : Prop :=
  ∃ preds, (n, preds) ∈ N ∧ w ∈ EdgeSet.ways preds

/-- The edges out of a stage, before repetitions are left out. -/
def outgoing (N : List Incoming) (v : Vertex) : List Edge :=
  N.flatMap fun (n, preds) =>
    (preds.filter fun e => e.node.position == v.position).map fun e => ⟨n, e.kind, e.label⟩

variable {n v : Vertex} {w : Way} {kind : EdgeKind} {label : Text}

theorem mem_outgoing {N : List Incoming} {e : Edge} :
    e ∈ outgoing N v ↔ Enters N ⟨v.position, e.kind, e.label⟩ e.node := by
  simp only [outgoing, List.mem_flatMap, List.mem_map, List.mem_filter, beq_iff_eq, Enters,
    EdgeSet.mem_ways, Edge.way, Way.mk.injEq]
  constructor
  · rintro ⟨⟨n, preds⟩, hn, x, ⟨hx, hpos⟩, rfl⟩
    exact ⟨preds, hn, x, hx, hpos, rfl, rfl⟩
  · rintro ⟨preds, hn, x, hx, hpos, hk, hl⟩
    exact ⟨⟨e.node, preds⟩, hn, x, ⟨hx, hpos⟩, by rw [hk, hl]⟩

theorem target?_successors (N : List Incoming) (v : Vertex) (kind : EdgeKind) (label : Text) :
    (successors N v).target? kind label =
      ((outgoing N v).find? fun e =>
        e.kind == kind && (kind != .onLabel || e.label == label)).map (·.node) :=
  congrArg _ (EdgeSet.find?_distinct (fun k l => k == kind && (kind != .onLabel || l == label)) _)

/-- The test of an edge in a search is the way that fits. -/
theorem isWanted_iff (v : Vertex) (e : Edge) (kind : EdgeKind) (label : Text) :
    (e.kind == kind && (kind != .onLabel || e.label == label)) = true ↔
      (⟨v.position, e.kind, e.label⟩ : Way).Fits v.position kind label := by
  simp only [Way.Fits, Bool.and_eq_true, Bool.or_eq_true, beq_iff_eq, bne_iff_ne, ne_eq, true_and]
  tauto

theorem target?_eq_none {N : List Incoming}
    (h : ∀ w n, Enters N w n → ¬ w.Fits v.position kind label) :
    (successors N v).target? kind label = none := by
  rw [target?_successors, Option.map_eq_none_iff, List.find?_eq_none]
  intro e he hw
  exact h _ _ (mem_outgoing.mp he) ((isWanted_iff v e kind label).mp hw)

theorem target?_eq_some {N : List Incoming} (hn : Enters N w n) (hw : w.Fits v.position kind label)
    (honly : ∀ w' m, Enters N w' m → w'.Fits v.position kind label → m = n) :
    (successors N v).target? kind label = some n := by
  have hmem : (⟨n, w.kind, w.label⟩ : Edge) ∈ outgoing N v := by
    rw [mem_outgoing, ← hw.1]
    exact hn
  have hsome : ((outgoing N v).find? fun e =>
      e.kind == kind && (kind != .onLabel || e.label == label)).isSome = true := by
    rw [List.find?_isSome]
    refine ⟨_, hmem, (isWanted_iff v _ kind label).mpr ?_⟩
    rw [← hw.1]
    exact ⟨rfl, hw.2⟩
  obtain ⟨e, he⟩ := Option.isSome_iff_exists.mp hsome
  rw [target?_successors, he, Option.map_some]
  have hwanted := List.find?_some he
  exact congrArg some (honly _ _ (mem_outgoing.mp (List.mem_of_find?_eq_some he))
    ((isWanted_iff v e kind label).mp hwanted))

/-! ## Finished graphs -/

theorem mem_sum_ways {N : List Incoming} :
    w ∈ (N.map fun n => EdgeSet.ways n.2).sum ↔ ∃ n, Enters N w n := by
  induction N with
  | nil => simp [Enters]
  | cons a N ih =>
    rw [List.map_cons, List.sum_cons, Multiset.mem_add, ih]
    constructor
    · rintro (hw | ⟨n, preds, hn, hw⟩)
      · exact ⟨a.1, a.2, List.mem_cons_self, hw⟩
      · exact ⟨n, preds, List.mem_cons_of_mem _ hn, hw⟩
    · rintro ⟨n, preds, hn, hw⟩
      rcases List.mem_cons.mp hn with rfl | hn
      · exact Or.inl hw
      · exact Or.inr ⟨n, preds, hn, hw⟩

/-- Where no way occurs twice, each enters one stage. -/
theorem enters_unique {N : List Incoming} (hN : (N.map fun n => EdgeSet.ways n.2).sum.Nodup)
    {m : Vertex} (hn : Enters N w n) (hm : Enters N w m) : n = m := by
  induction N with
  | nil =>
    obtain ⟨_, hmem, _⟩ := hn
    exact absurd hmem List.not_mem_nil
  | cons a N ih =>
    rw [List.map_cons, List.sum_cons, Multiset.nodup_add, Multiset.disjoint_left] at hN
    obtain ⟨-, hrest, hdis⟩ := hN
    obtain ⟨p, hp, hwn⟩ := hn
    obtain ⟨q, hq, hwm⟩ := hm
    rcases List.mem_cons.mp hp with rfl | hpN <;> rcases List.mem_cons.mp hq with heq | hqN
    · exact (congrArg Prod.fst heq).symm
    · exact absurd (mem_sum_ways.mpr ⟨m, q, hqN, hwm⟩) (hdis hwn)
    · subst heq
      exact absurd (mem_sum_ways.mpr ⟨n, p, hpN, hwn⟩) (hdis hwm)
    · exact ih hrest ⟨p, hpN, hwn⟩ ⟨q, hqN, hwm⟩

/-- A graph made of nodes in which each way enters one stage, and leads forward. -/
structure Finished (g : Graph) (N : List Incoming) : Prop where
  nodes : g.nodes = N.map fun n => ⟨n.1, n.2, successors N n.1⟩
  placed : ∀ (i : Nat) (n : Incoming), N[i]? = some n → n.1.position = i
  forward : ∀ w n, Enters N w n → w.source < n.position
  unique : ∀ w n m, Enters N w n → Enters N w m → n = m

namespace Finished

variable {g : Graph} {N : List Incoming}

theorem succs_eq (hg : Finished g N) (hv : v.position < N.length) : g.succs v = successors N v := by
  have hget : N[v.position]? = some N[v.position] := List.getElem?_eq_getElem hv
  have hpos := hg.placed _ _ hget
  rw [Graph.succs, hg.nodes, List.getElem?_map, hget]
  simp only [Option.map_some, successors, hpos]

/-- The next stage is the one that the way taken enters, if no case tried before fits any way. -/
theorem next_eq (hg : Finished g N) (hv : v.position < N.length)
    {tried rest : List (EdgeKind × Text)}
    (htried : ∀ q ∈ tried, ∀ w m, Enters N w m → ¬ w.Fits v.position q.1 q.2) (hn : Enters N w n)
    (hw : w.Fits v.position kind label)
    (honly : ∀ w' m, Enters N w' m → w'.Fits v.position kind label → w' = w) :
    g.next v (tried ++ (kind, label) :: rest) = n := by
  have hnone : tried.findSome? (fun q => (g.succs v).target? q.1 q.2) = none := by
    rw [List.findSome?_eq_none_iff]
    intro q hq
    rw [hg.succs_eq hv]
    exact target?_eq_none (htried q hq)
  have hsome : (g.succs v).target? kind label = some n := by
    rw [hg.succs_eq hv]
    refine target?_eq_some hn hw fun w' m hm hfit => ?_
    rw [honly w' m hm hfit] at hm
    exact hg.unique _ _ _ hm hn
  rw [Graph.next, List.findSome?_append, hnone, Option.none_or, List.findSome?_cons]
  simp only [hsome, Option.getD_some]

end Finished

/-! ## Coming to the exit -/

/-- From a stage, with some visits made, a packet comes to the exit with the visits given last.
Every step leads to a later stage. -/
inductive Ends (g : Graph) (o : Oracle) : Vertex → List Visit → List Visit → Prop where
  | exit {v : Vertex} {h : List Visit} (hv : v.position = g.exit.position) : Ends g o v h h
  | step {v : Vertex} {h h' : List Visit} (hv : v.position ≠ g.exit.position)
      (hlt : v.position < (g.step o v h).1.position)
      (hrest : Ends g o (g.step o v h).1 (g.step o v h).2 h') : Ends g o v h h'

theorem Ends.position_le {g : Graph} {o : Oracle} {h h' : List Visit} (he : Ends g o v h h') :
    v.position ≤ g.exit.position := by
  induction he with
  | exit hv => exact le_of_eq hv
  | step _ hlt _ ih => exact le_trans (le_of_lt hlt) ih

/-- As many steps as there are positions up to the exit are enough. -/
theorem Ends.follow_eq {g : Graph} {o : Oracle} {h h' : List Visit} (he : Ends g o v h h') :
    ∀ n, g.exit.position ≤ v.position + n → g.follow o n v h = some h' := by
  induction he with
  | exit hv =>
    intro n _
    cases n <;> simp [Graph.follow, hv]
  | step hv hlt hrest ih =>
    intro n hn
    have hle := hrest.position_le
    cases n with
    | zero => omega
    | succ n =>
      rw [Graph.follow, if_neg hv]
      exact ih n (by omega)

end Flowline.ControlFlow
