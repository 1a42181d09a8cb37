import Flowline.ControlFlow.Basic
import Mathlib.Algebra.Order.BigOperators.Group.List
import Mathlib.Algebra.Order.Ring.Nat
import Mathlib.Data.List.Nodup
import Mathlib.Data.List.Perm.Subperm

/-!
# The stages that packets can come to

`Graph.reachable` searches a graph from its entry and takes each number once.  Where nodes stand at
their positions and have numbers of their own, it finds the vertices that edges lead to from the
entry (`Graph.Reaches`), all of them and each once.

## Why the search never stops early

The search is counted.  Every step takes a vertex from the queue, and only a vertex that is seen for
the first time puts anything there: one vertex for each edge that leaves it.  So the length of the
queue and the number of edges still to be followed together fall by one with every step, and they
start at the number of all edges and one.
-/

namespace Flowline.ControlFlow

variable {v w : Vertex} {seen : List Vertex}

namespace Graph

/-- The vertices of a graph, by position. -/
def vertices (g : Graph) : List Vertex := g.nodes.map fun n => n.vertex

/-- Nodes stand at their positions and have numbers of their own, and edges lead to nodes. -/
structure Proper (g : Graph) : Prop where
  placed : ∀ (i : Nat) (n : Node), g.nodes[i]? = some n → n.vertex.position = i
  closed : ∀ n ∈ g.nodes, ∀ e ∈ n.succs, e.node ∈ g.vertices
  entry : g.entry ∈ g.vertices
  ids : (g.vertices.map fun v => v.id).Nodup

/-- Edges lead to a vertex from the entry. -/
inductive Reaches (g : Graph) : Vertex → Prop where
  | entry : Reaches g g.entry
  | step {v : Vertex} {e : Edge} (hv : Reaches g v) (he : e ∈ g.succs v) : Reaches g e.node

variable {g : Graph}

namespace Proper

variable (hg : g.Proper)

include hg

theorem succs_eq {n : Node} (hn : n ∈ g.nodes) : g.succs n.vertex = n.succs := by
  obtain ⟨i, hi⟩ := List.mem_iff_getElem?.mp hn
  rw [succs, hg.placed i n hi, hi]

theorem mem_vertices {e : Edge} (he : e ∈ g.succs v) : e.node ∈ g.vertices := by
  rw [succs] at he
  split at he
  · next n hn => exact hg.closed n (List.mem_of_getElem? hn) e he
  · cases he

theorem mem_vertices_of_reaches (hv : g.Reaches v) : v ∈ g.vertices := by
  cases hv with
  | entry => exact hg.entry
  | step _ he => exact hg.mem_vertices he

theorem eq_of_position (hv : v ∈ g.vertices) (hw : w ∈ g.vertices)
    (h : v.position = w.position) : v = w := by
  obtain ⟨n, hn, rfl⟩ := List.mem_map.mp hv
  obtain ⟨m, hm, rfl⟩ := List.mem_map.mp hw
  obtain ⟨i, hi⟩ := List.mem_iff_getElem?.mp hn
  obtain ⟨j, hj⟩ := List.mem_iff_getElem?.mp hm
  have hij : i = j := by rw [← hg.placed i n hi, ← hg.placed j m hj, h]
  rw [hij, hj] at hi
  rw [Option.some.inj hi]

theorem eq_of_id (hv : v ∈ g.vertices) (hw : w ∈ g.vertices) (h : v.id = w.id) : v = w :=
  List.inj_on_of_nodup_map hg.ids hv hw h

/-- No more edges leave some different vertices than there are in the graph. -/
theorem sum_length_le_size (hnodup : seen.Nodup) (hsub : seen ⊆ g.vertices) :
    (seen.map fun v => (g.succs v).length).sum ≤ g.size := by
  have hall : (g.vertices.map fun v => (g.succs v).length).sum = g.size := by
    rw [size, List.length_flatMap, vertices, List.map_map]
    exact congrArg List.sum (List.map_congr_left fun n hn => congrArg List.length (hg.succs_eq hn))
  obtain ⟨l, hperm, hl⟩ := List.subperm_of_subset hnodup hsub
  rw [← hall, ← (hperm.map fun v => (g.succs v).length).sum_eq]
  exact (hl.map _).sum_le_sum fun _ _ => Nat.zero_le _

end Proper

/-! ## One search -/

theorem reaches_of_mem_ahead (hv : g.Reaches v) (hw : w ∈ g.ahead seen v) : g.Reaches w := by
  obtain ⟨e, he, rfl⟩ := List.mem_map.mp (List.mem_filter.mp hw).1
  exact .step hv he

/-- A search finds nothing but what can be reached. -/
theorem reaches_of_mem_visit (n : Nat) (queue seen : List Vertex)
    (hqueue : ∀ v ∈ queue, g.Reaches v) (hseen : ∀ v ∈ seen, g.Reaches v) :
    ∀ v ∈ g.visit n queue seen, g.Reaches v := by
  fun_induction g.visit n queue seen with
  | case1 | case2 => exact hseen
  | case3 n v queue seen _ ih => exact ih (List.forall_mem_cons.mp hqueue).2 hseen
  | case4 n v queue seen _ ih =>
    obtain ⟨hv, hqueue⟩ := List.forall_mem_cons.mp hqueue
    refine ih (List.forall_mem_append.mpr ⟨hqueue, fun w => reaches_of_mem_ahead hv⟩) ?_
    exact List.forall_mem_append.mpr ⟨hseen, List.forall_mem_singleton.mpr hv⟩

theorem nodup_snoc (hseen : (seen.map fun v => v.id).Nodup)
    (hnew : ¬(seen.any (·.id == v.id)) = true) : ((seen ++ [v]).map fun v => v.id).Nodup := by
  rw [List.map_append, List.map_singleton, List.nodup_append]
  refine ⟨hseen, List.nodup_singleton _, ?_⟩
  rintro a ha b hb rfl
  obtain ⟨w, hw, hid⟩ := List.mem_map.mp ha
  refine hnew (List.any_eq_true.mpr ⟨w, hw, ?_⟩)
  rw [beq_iff_eq, hid, List.mem_singleton.mp hb]

theorem nodup_visit (n : Nat) (queue seen : List Vertex) (hseen : (seen.map fun v => v.id).Nodup) :
    ((g.visit n queue seen).map fun v => v.id).Nodup := by
  fun_induction g.visit n queue seen with
  | case1 | case2 => exact hseen
  | case3 _ _ _ _ _ ih => exact ih hseen
  | case4 n v queue seen hnew ih => exact ih (nodup_snoc hseen hnew)

/-- A search that goes on until its queue is empty, however many steps that takes. -/
inductive Finds (g : Graph) : List Vertex → List Vertex → List Vertex → Prop
  | done {seen : List Vertex} : Finds g [] seen seen
  | skip {v : Vertex} {queue seen found : List Vertex} (hold : seen.any (·.id == v.id) = true)
      (h : Finds g queue seen found) : Finds g (v :: queue) seen found
  | take {v : Vertex} {queue seen found : List Vertex} (hnew : ¬seen.any (·.id == v.id) = true)
      (h : Finds g (queue ++ g.ahead (seen ++ [v]) v) (seen ++ [v]) found) :
      Finds g (v :: queue) seen found

namespace Proper

variable {queue found : List Vertex} (hg : g.Proper)

include hg

/-- Where a number was seen, its vertex was. -/
theorem mem_of_any (hseen : seen ⊆ g.vertices) (hv : v ∈ g.vertices)
    (h : seen.any (·.id == v.id) = true) : v ∈ seen := by
  obtain ⟨w, hw, hid⟩ := List.any_eq_true.mp h
  rw [← hg.eq_of_id (hseen hw) hv (beq_iff_eq.mp hid)]
  exact hw

/-- A step stays among the vertices of the graph. -/
theorem subset_take (hqueue : v :: queue ⊆ g.vertices) (hseen : seen ⊆ g.vertices) :
    queue ++ g.ahead (seen ++ [v]) v ⊆ g.vertices ∧ seen ++ [v] ⊆ g.vertices := by
  obtain ⟨hv, hqueue⟩ := List.cons_subset.mp hqueue
  refine ⟨List.append_subset.mpr ⟨hqueue, fun w hw => ?_⟩,
    List.append_subset.mpr ⟨hseen, List.cons_subset.mpr ⟨hv, List.nil_subset _⟩⟩⟩
  obtain ⟨e, he, rfl⟩ := List.mem_map.mp (List.mem_filter.mp hw).1
  exact hg.mem_vertices he

/-- A search with enough steps comes to its end. -/
theorem finds_visit (n : Nat) (queue seen : List Vertex) (hqueue : queue ⊆ g.vertices)
    (hseen : seen ⊆ g.vertices) (hnodup : (seen.map fun v => v.id).Nodup)
    (hsteps : queue.length + g.size < n + (seen.map fun v => (g.succs v).length).sum) :
    g.Finds queue seen (g.visit n queue seen) := by
  fun_induction g.visit n queue seen with
  | case1 queue seen =>
    have hle := hg.sum_length_le_size (hnodup.of_map _) hseen
    omega
  | case2 n seen => exact .done
  | case3 n v queue seen hold ih =>
    rw [List.length_cons] at hsteps
    exact .skip hold (ih (List.cons_subset.mp hqueue).2 hseen hnodup (by omega))
  | case4 n v queue seen hnew ih =>
    obtain ⟨hqueue', hseen'⟩ := hg.subset_take hqueue hseen
    refine .take hnew (ih hqueue' hseen' (nodup_snoc hnodup hnew) ?_)
    -- the edges of `v` are counted from now on, and no more of them than that join the queue
    have hahead : (g.ahead (seen ++ [v]) v).length ≤ (g.succs v).length := by
      rw [← List.length_map (f := fun e : Edge => e.node)]
      exact List.length_filter_le _ _
    rw [List.length_cons] at hsteps
    rw [List.length_append, List.map_append, List.sum_append, List.map_singleton,
      List.sum_singleton]
    omega

/-- A search finds its queue, and all that edges lead to from what it finds. -/
theorem closed_of_finds (h : g.Finds queue seen found)
    (hqueue : queue ⊆ g.vertices) (hseen : seen ⊆ g.vertices)
    (hedges : ∀ v ∈ seen, ∀ e ∈ g.succs v, e.node ∈ seen ∨ e.node ∈ queue) :
    seen ++ queue ⊆ found ∧ ∀ v ∈ found, ∀ e ∈ g.succs v, e.node ∈ found := by
  induction h with
  | done => exact ⟨by simp, fun v hv e he => (hedges v hv e he).resolve_right List.not_mem_nil⟩
  | @skip v queue seen found hold _ ih =>
    -- the vertex was seen, so nothing is lost when it leaves the queue
    have hv := hg.mem_of_any hseen (hqueue List.mem_cons_self) hold
    obtain ⟨hall, hclosed⟩ := ih (List.cons_subset.mp hqueue).2 hseen fun x hx e he => by
      rcases hedges x hx e he with h | h
      · exact .inl h
      · exact (List.mem_cons.mp h).imp_left fun heq => by rwa [heq]
    refine ⟨fun x hx => hall ?_, hclosed⟩
    simp only [List.mem_append, List.mem_cons] at hx ⊢
    rcases hx with hx | rfl | hx
    · exact .inl hx
    · exact .inl hv
    · exact .inr hx
  | @take v queue seen found hnew _ ih =>
    obtain ⟨hqueue', hseen'⟩ := hg.subset_take hqueue hseen
    obtain ⟨hall, hclosed⟩ := ih hqueue' hseen' fun x hx e he => by
      rcases List.mem_append.mp hx with hx | hx
      · have hold := hedges x hx e he
        simp only [List.mem_append, List.mem_cons, List.not_mem_nil, or_false] at hold ⊢
        tauto
      · -- what the new vertex leads to was seen, or it joins the queue
        rw [List.mem_singleton.mp hx] at he
        by_cases hany : (seen ++ [v]).any (·.id == e.node.id) = true
        · exact .inl (hg.mem_of_any hseen' (hg.mem_vertices he) hany)
        · refine .inr (List.mem_append_right _ (List.mem_filter.mpr ⟨?_, ?_⟩))
          · exact List.mem_map.mpr ⟨e, he, rfl⟩
          · rw [Bool.eq_false_iff.mpr hany]
            rfl
    refine ⟨fun x hx => hall ?_, hclosed⟩
    simp only [List.mem_append, List.mem_cons, List.not_mem_nil, or_false] at hx ⊢
    tauto

end Proper

/-! ## The whole search -/

theorem insertById_perm (v : Vertex) (ws : List Vertex) : (insertById v ws).Perm (v :: ws) := by
  induction ws with
  | nil => exact .refl _
  | cons w ws ih =>
    rw [insertById]
    split
    · exact .refl _
    · exact (ih.cons w).trans (.swap v w ws)

theorem reachable_perm (g : Graph) : g.reachable.Perm (g.visit (g.size + 2) [g.entry] []) := by
  rw [reachable]
  induction g.visit (g.size + 2) [g.entry] [] with
  | nil => exact .refl _
  | cons v vs ih =>
    rw [List.foldr_cons]
    exact (insertById_perm v _).trans (ih.cons v)

theorem reaches_of_mem_reachable (hv : v ∈ g.reachable) : g.Reaches v := by
  rw [g.reachable_perm.mem_iff] at hv
  refine reaches_of_mem_visit _ _ _ (fun w hw => ?_) (fun w hw => by cases hw) v hv
  rw [List.mem_singleton.mp hw]
  exact .entry

theorem Proper.finds_reachable (hg : g.Proper) :
    g.Finds [g.entry] [] (g.visit (g.size + 2) [g.entry] []) :=
  hg.finds_visit _ _ _ (List.cons_subset.mpr ⟨hg.entry, List.nil_subset _⟩) (List.nil_subset _)
    List.nodup_nil (by rw [List.length_singleton, List.map_nil, List.sum_nil]; omega)

/-- The search finds exactly the vertices that can be reached. -/
theorem Proper.mem_reachable (hg : g.Proper) : v ∈ g.reachable ↔ g.Reaches v := by
  refine ⟨reaches_of_mem_reachable, fun hv => ?_⟩
  rw [g.reachable_perm.mem_iff]
  obtain ⟨hentry, hclosed⟩ := hg.closed_of_finds hg.finds_reachable
    (List.cons_subset.mpr ⟨hg.entry, List.nil_subset _⟩) (List.nil_subset _) nofun
  induction hv with
  | entry => exact hentry List.mem_cons_self
  | step _ he ih => exact hclosed _ ih _ he

theorem nodup_reachable (g : Graph) : (g.reachable.map fun v => v.id).Nodup :=
  (g.reachable_perm.map _).nodup_iff.mpr (nodup_visit _ _ _ List.nodup_nil)

/-! ## The order of what is found -/

theorem pairwise_insertById {ws : List Vertex} (h : ws.Pairwise fun a b => a.id ≤ b.id) :
    (insertById v ws).Pairwise fun a b => a.id ≤ b.id := by
  induction ws with
  | nil => exact List.pairwise_singleton _ _
  | cons w ws ih =>
    obtain ⟨hfirst, hrest⟩ := List.pairwise_cons.mp h
    rw [insertById]
    split
    · next hle =>
      refine List.pairwise_cons.mpr ⟨List.forall_mem_cons.mpr ⟨hle, fun x hx => ?_⟩, h⟩
      exact Int64.le_trans hle (hfirst x hx)
    · next hle =>
      refine List.pairwise_cons.mpr ⟨fun x hx => ?_, ih hrest⟩
      rcases List.mem_cons.mp ((insertById_perm v ws).mem_iff.mp hx) with rfl | hx
      · exact (Int64.le_total x.id w.id).resolve_left hle
      · exact hfirst x hx

/-- What is found is listed by number, and no number twice. -/
theorem pairwise_reachable (g : Graph) : g.reachable.Pairwise fun a b => a.id < b.id := by
  have hsorted : g.reachable.Pairwise fun a b => a.id ≤ b.id := by
    rw [reachable]
    induction g.visit (g.size + 2) [g.entry] [] with
    | nil => exact .nil
    | cons v vs ih => exact pairwise_insertById ih
  have hdistinct : g.reachable.Pairwise fun a b => a.id ≠ b.id :=
    List.pairwise_map.mp g.nodup_reachable
  exact hsorted.imp₂ (fun a b hle hne => Int64.lt_of_le_of_ne hle hne) hdistinct

/-- **The search is exact.**  In every graph whose nodes have numbers of their own, the search comes
to its end, and what it has found then is listed: the vertices that edges lead to from the entry, all
of them and no other, each once, by increasing number. -/
theorem reachable_exact (hg : g.Proper) :
    (∃ found, g.Finds [g.entry] [] found ∧ g.reachable.Perm found) ∧
      (∀ v, v ∈ g.reachable ↔ g.Reaches v) ∧ g.reachable.Pairwise fun a b => a.id < b.id :=
  ⟨⟨_, hg.finds_reachable, g.reachable_perm⟩, fun _ => hg.mem_reachable, g.pairwise_reachable⟩

/-- A loop of three stages with numbers that fall, with an edge from one of them to itself and two
edges between two others, and a stage that only leads there. -/
def sampleLoop : Graph :=
  let a : Vertex := ⟨0, 9, "a", .dummy⟩
  let b : Vertex := ⟨1, 5, "b", .dummy⟩
  let c : Vertex := ⟨2, 3, "c", .dummy⟩
  let d : Vertex := ⟨3, 1, "d", .dummy⟩
  .ofPreds "loop"
    [(a, [⟨c, .always, ""⟩]), (b, [⟨a, .onTrue, ""⟩, ⟨a, .onFalse, ""⟩, ⟨b, .always, ""⟩]),
      (c, [⟨b, .always, ""⟩, ⟨d, .always, ""⟩]), (d, [])] a d

theorem proper_sampleLoop : sampleLoop.Proper where
  placed i n h := by
    match i with
    | 0 | 1 | 2 | 3 => cases h; rfl
    | _ + 4 => cases h
  closed := by
    simp [sampleLoop, ofPreds, vertices, successors, EdgeSet.distinct, Edge.equivalent,
      Vertex.sameDestination, Role.table?]
  entry := List.mem_cons_self
  ids := by decide

theorem reachable_exact_sampleLoop :
    sampleLoop.Proper ∧ sampleLoop.reachable.map (·.id) = [3, 5, 9] ∧
      ∀ v, v ∈ sampleLoop.reachable ↔ sampleLoop.Reaches v :=
  ⟨proper_sampleLoop, by decide, (reachable_exact proper_sampleLoop).2.1⟩

end Graph

end Flowline.ControlFlow
