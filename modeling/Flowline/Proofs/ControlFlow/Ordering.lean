import Flowline.Proofs.ControlFlow.Branching

/-!
# The order of stages

The graph of a control is laid out in order: from the entry, which is its first node, edges lead
further on in the list of nodes until they come to the exit, which is the last (`Graph.Ordered`).
So the search for cycles finds none (`Forward.cycles_eq_nil`), and `Graph.verify` refuses a graph
for one reason only, which is a table that is applied right behind itself.

Numbers follow the order of nodes as long as there are machine words for them.  Behind the largest
word they go on with the smallest one.  They no longer follow the order then, but they still differ,
and the rest stays true.
-/

namespace Flowline.ControlFlow

open Pipeline (Control)
open Source (Expr)

theorem Role.table?_eq_some {r : Role} {t : Text} : r.table? = some t ↔ r = .table (some t) := by
  cases r <;> simp [table?]

/-- Vertices at different positions are one destination if they apply the same table. -/
theorem Vertex.sameDestination_iff {v w : Vertex} (h : v.position ≠ w.position) :
    v.sameDestination w = true ↔
      ∃ t, w.role = .table (some t) ∧ v.role = .table (some t) := by
  simp only [sameDestination, beq_eq_false_iff_ne.mpr h, Bool.false_or, Bool.and_eq_true,
    beq_iff_eq, Option.isSome_iff_exists, ← Role.table?_eq_some]
  constructor
  · rintro ⟨⟨t, ht⟩, heq⟩
    exact ⟨t, heq ▸ ht, ht⟩
  · rintro ⟨t, hw, hv⟩
    exact ⟨⟨t, hv⟩, hv.trans hw.symm⟩

namespace Graph

variable {g : Graph}

/-! ## The search for cycles -/

/-- A number belongs to a vertex behind a position. -/
def Behind (g : Graph) (p : Nat) (id : Int64) : Prop :=
  ∃ v ∈ g.vertices, v.id = id ∧ p < v.position

namespace Forward

/-- Edges lead further on. -/
theorem behind_of_mem_nextIds (hg : g.Forward) {p : Nat} {v : Vertex} (hv : v ∈ g.vertices)
    (hp : p ≤ v.position) : ∀ id ∈ g.nextIds v.id, g.Behind p id := by
  intro id hid
  obtain ⟨n, hn, hid⟩ := List.mem_flatMap.mp hid
  rw [List.mem_filter, beq_iff_eq] at hn
  obtain ⟨e, he, rfl⟩ := List.mem_map.mp (List.mem_filter.mp hid).1
  have hnv : n.vertex = v := hg.proper.eq_of_id (List.mem_map_of_mem hn.1) hv hn.2
  have hsuccs := hg.proper.succs_eq hn.1
  rw [hnv] at hsuccs
  rw [← hsuccs] at he
  exact ⟨e.node, hg.proper.mem_vertices he, rfl, lt_of_le_of_lt hp (hg.forward v e he)⟩

/-- A search that starts behind a position stays behind it. -/
theorem behind_of_mem_closure (hg : g.Forward) {p : Nat} (n : Nat) (queue seen : List Int64)
    (hqueue : ∀ id ∈ queue, g.Behind p id) (hseen : ∀ id ∈ seen, g.Behind p id) :
    ∀ id ∈ g.closure n queue seen, g.Behind p id := by
  fun_induction g.closure n queue seen with
  | case1 | case2 => exact hseen
  | case3 n i queue seen _ ih => exact ih (fun j hj => hqueue j (List.mem_cons_of_mem _ hj)) hseen
  | case4 n i queue seen _ ih =>
    have hi := hqueue i List.mem_cons_self
    refine ih (fun j hj => ?_) (List.forall_mem_cons.mpr ⟨hi, hseen⟩)
    rcases List.mem_append.mp hj with hj | hj
    · obtain ⟨v, hv, rfl, hlt⟩ := hi
      exact hg.behind_of_mem_nextIds hv hlt.le j hj
    · exact hqueue j (List.mem_cons_of_mem _ hj)

/-- No stage is reachable from itself. -/
theorem cyclic_eq_nil (hg : g.Forward) : g.cyclic = [] := by
  rw [cyclic, List.filter_eq_nil_iff]
  rintro ⟨i, reached⟩ hi hmem
  obtain ⟨j, hj, hpair⟩ := List.mem_map.mp hi
  obtain ⟨rfl, rfl⟩ := Prod.mk.inj hpair
  rw [ids, List.mem_eraseDups] at hj
  obtain ⟨n, hn, rfl⟩ := List.mem_map.mp hj
  have hv : n.vertex ∈ g.vertices := List.mem_map_of_mem hn
  obtain ⟨w, hw, hid, hlt⟩ := hg.behind_of_mem_closure _ _ []
    (hg.behind_of_mem_nextIds hv le_rfl) (fun _ h => nomatch h) _ (List.contains_iff_mem.mp hmem)
  rw [hg.proper.eq_of_id hw hv hid] at hlt
  exact Nat.lt_irrefl _ hlt

theorem cycles_eq_nil (hg : g.Forward) : g.cycles = [] := by
  have hordered : g.orderedComponents = [] := by
    simp [orderedComponents, components, hg.cyclic_eq_nil]
  rw [cycles, hordered]

end Forward

/-! ## What is refused -/

theorem eraseDups_of_nodup {l : List Int64} (h : l.Nodup) : l.eraseDups = l := by
  induction l with
  | nil => rfl
  | cons a l ih =>
    obtain ⟨ha, hl⟩ := List.nodup_cons.mp h
    have hfilter : l.filter (fun b => !b == a) = l :=
      List.filter_eq_self.mpr fun b hb => by
        rw [Bool.not_eq_true', beq_eq_false_iff_ne]
        rintro rfl
        exact ha hb
    rw [List.eraseDups_cons, hfilter, ih hl]

theorem Proper.hasRepeatedId_eq_false (hg : g.Proper) : g.hasRepeatedId = false := by
  have hids : g.ids = g.vertices.map fun v => v.id := by
    rw [Graph.ids, ← eraseDups_of_nodup hg.ids, vertices, List.map_map]
    rfl
  rw [hasRepeatedId, hids, List.length_map, vertices, List.length_map, bne_self_eq_false]

/-- A graph is refused if a table is applied right behind itself, and for no other reason. -/
theorem Forward.verify_ne_nil_iff (hg : g.Forward) :
    g.verify ≠ [] ↔ ∃ n ∈ g.nodes, ∃ e ∈ n.succs, ∃ t,
      n.vertex.role = .table (some t) ∧ e.node.role = .table (some t) := by
  rw [verify, hg.proper.hasRepeatedId_eq_false, if_neg Bool.false_ne_true, hg.cycles_eq_nil,
    List.append_nil, loops, ne_eq, List.map_eq_nil_iff, List.filter_eq_nil_iff]
  push Not
  refine exists_congr fun n => and_congr_right fun hn => ?_
  rw [EdgeSet.isDestination, List.any_eq_true]
  refine exists_congr fun e => and_congr_right fun he => Vertex.sameDestination_iff ?_
  rw [← hg.proper.succs_eq hn] at he
  exact (hg.forward _ e he).ne'

/-! ## Order -/

namespace Forward

/-- Edges lead from one node to another further on. -/
theorem exists_later (hg : g.Forward) {i : Nat} {n : Node} (hn : g.nodes[i]? = some n) {e : Edge}
    (he : e ∈ n.succs) : ∃ j m, i < j ∧ g.nodes[j]? = some m ∧ m.vertex = e.node := by
  have hmem := List.mem_of_getElem? hn
  obtain ⟨m, hm, hvertex⟩ := List.mem_map.mp (hg.proper.closed n hmem e he)
  obtain ⟨j, hj⟩ := List.mem_iff_getElem?.mp hm
  rw [← hg.proper.succs_eq hmem] at he
  have hlt := hg.forward _ e he
  rw [hg.proper.placed i n hn, ← hvertex, hg.proper.placed j m hj] at hlt
  exact ⟨j, m, hlt, hj, hvertex⟩

/-- The exit has no edges, and is the only node without. -/
theorem succs_eq_nil_iff (hg : g.Forward) {n : Node} (hn : n ∈ g.nodes) :
    n.succs = [] ↔ n.vertex = g.exit := by
  have hv : n.vertex ∈ g.vertices := List.mem_map_of_mem hn
  rw [← hg.proper.succs_eq hn]
  constructor
  · intro hnil
    by_contra hne
    have hlt := lt_of_le_of_ne (hg.last _ hv) fun h => hne (hg.eq_exit hv h)
    exact hg.continues _ hv hlt hnil
  · intro hexit
    refine List.eq_nil_iff_forall_not_mem.mpr fun e he => ?_
    have hlt := hg.forward _ e he
    have hle := hg.last _ (hg.proper.mem_vertices he)
    rw [hexit] at hlt
    exact absurd hlt hle.not_gt

end Forward

/-- Numbers increase with the order of nodes, and along edges. -/
def Increasing (g : Graph) : Prop :=
  (g.vertices.Pairwise fun v w => v.id < w.id) ∧
    ∀ n ∈ g.nodes, ∀ e ∈ n.succs, n.vertex.id < e.node.id

/-- The order of a graph whose first number is given. -/
structure Ordered (g : Graph) (first : Int64) : Prop where
  entry : g.vertices.head? = some g.entry
  exit : g.vertices.getLast? = some g.exit
  /-- Edges lead from one node to another further on. -/
  forward : ∀ (i : Nat) (n : Node), g.nodes[i]? = some n → ∀ e ∈ n.succs,
    ∃ j m, i < j ∧ g.nodes[j]? = some m ∧ m.vertex = e.node
  /-- Numbers increase unless they run out of machine words. -/
  increasing : g.Increasing ↔ first.toInt + g.nodes.length ≤ 2 ^ 63
  /-- The exit has no edges, and is the only node without. -/
  ends : ∀ n ∈ g.nodes, n.succs = [] ↔ n.vertex = g.exit
  /-- A condition has an edge for each truth value, and no other. -/
  branches : ∀ n ∈ g.nodes, ∀ e, n.vertex.role = .cond e →
    ∃ a b : Vertex, n.succs.Perm [⟨a, .onTrue, ""⟩, ⟨b, .onFalse, ""⟩]
  /-- Edges lead to the exit from everywhere. -/
  leads : ∀ v ∈ g.vertices, Relation.ReflTransGen g.LeadsTo v g.exit
  /-- The search for cycles finds none, and no number belongs to two nodes. -/
  acyclic : g.cycles = [] ∧ g.hasRepeatedId = false
  /-- What is refused is a table that is applied right behind itself. -/
  verify : g.verify ≠ [] ↔ ∃ n ∈ g.nodes, ∃ e ∈ n.succs, ∃ t,
    n.vertex.role = .table (some t) ∧ e.node.role = .table (some t)

end Graph

/-! ## The graph of a control -/

variable {c : Control} {first : Int64}

theorem pairwise_position_graphOf :
    (graphOf c first).vertices.Pairwise fun v w => v.position < w.position := by
  have h := List.pairwise_lt_range (n := stageCount c)
  rwa [← positions_graphOf c first, List.pairwise_map] at h

theorem length_vertices_graphOf : (graphOf c first).vertices.length = stageCount c := by
  rw [← List.length_map fun v : Vertex => v.position, positions_graphOf, List.length_range]

theorem id_getElem_graphOf {i : Nat} (hi : i < (graphOf c first).vertices.length) :
    ((graphOf c first).vertices[i]).id = first + Int64.ofNat i := by
  have hpos := List.getElem_of_eq (positions_graphOf c first) (by rwa [List.length_map])
  rw [List.getElem_map, List.getElem_range] at hpos
  rw [id_graphOf (List.getElem_mem hi), hpos]

/-- Numbers increase unless they run out of machine words: nothing is larger than the largest. -/
theorem increasing_graphOf :
    (graphOf c first).Increasing ↔ first.toInt + stageCount c ≤ 2 ^ 63 := by
  constructor
  · rintro ⟨hinc, -⟩
    by_contra hroom
    have hfirst := first.toInt_lt
    -- the vertex with the largest number, which is not the last
    obtain ⟨i, hi⟩ := Int.eq_ofNat_of_zero_le (show 0 ≤ 2 ^ 63 - 1 - first.toInt by omega)
    have hnext : i + 1 < (graphOf c first).vertices.length := by
      rw [length_vertices_graphOf]
      omega
    have hlt := List.pairwise_iff_getElem.mp hinc i (i + 1) (by omega) hnext (Nat.lt_succ_self i)
    rw [Int64.lt_iff_toInt_lt, id_getElem_graphOf, Switch.Word.toInt_add_ofNat (by omega)] at hlt
    have hmax := ((graphOf c first).vertices[i + 1]).id.toInt_lt
    omega
  · intro hroom
    have hg := onward_graphOf hroom
    refine ⟨?_, fun n hn e he => ?_⟩
    · refine pairwise_position_graphOf.imp_of_mem fun hv hw hlt => ?_
      exact hg.id_lt hv hw hlt
    · rw [← hg.proper.succs_eq hn] at he
      exact hg.id_lt (List.mem_map_of_mem hn) (hg.proper.mem_vertices he) (hg.forward _ e he)

theorem head?_vertices_graphOf :
    (graphOf c first).vertices.head? = some (graphOf c first).entry := by
  obtain ⟨rest, hrest⟩ := (walkBody_passes c first).nodes
  rw [vertices_graphOf, nodesOf, ← hrest]
  rfl

theorem getLast?_vertices_graphOf :
    (graphOf c first).vertices.getLast? = some (graphOf c first).exit := by
  rw [vertices_graphOf, nodesOf, List.map_append, List.map_singleton, List.getLast?_concat]
  rfl

/-- **Graphs are laid out in order.**  Whatever the first number, every graph that is built leads
from its first node, the entry, on to its last, the exit, without a cycle.  Its numbers increase,
along the list of nodes and along edges, exactly if they do not run out of machine words.  The
number of nodes is bounded only so far that there is a word for each of them. -/
theorem build_ordered {g : Graph} (hg : (build c first).1 = .ok g)
    (hlen : g.nodes.length ≤ 2 ^ 64) : g.Ordered first := by
  have hcount : g.nodes.length = stageCount c := by
    rw [build_eq_ok hg, ← length_nodesOf c first]
    exact List.length_map _
  rw [hcount] at hlen
  have hforward : g.Forward := by
    rw [build_eq_ok hg]
    exact forward_graphOf hlen
  exact {
    entry := by
      rw [build_eq_ok hg]
      exact head?_vertices_graphOf
    exit := by
      rw [build_eq_ok hg]
      exact getLast?_vertices_graphOf
    forward := fun i n hn e he => hforward.exists_later hn he
    increasing := by
      rw [hcount, build_eq_ok hg]
      exact increasing_graphOf
    ends := fun n hn => hforward.succs_eq_nil_iff hn
    branches := by
      rw [build_eq_ok hg]
      exact fun n hn e hrole => succs_of_cond hn hrole
    leads := fun v hv => hforward.leads_exit hv
    acyclic := ⟨hforward.cycles_eq_nil, hforward.proper.hasRepeatedId_eq_false⟩
    verify := hforward.verify_ne_nil_iff }

theorem build_ordered_sampleControl :
    ∃ g, (build sampleControl (-3)).1 = .ok g ∧ g.nodes.length = 7 ∧ g.Ordered (-3) := by
  have hg : (build sampleControl (-3)).1 = .ok (graphOf sampleControl (-3)) := rfl
  have hlen : (graphOf sampleControl (-3)).nodes.length = 7 := by decide
  exact ⟨_, hg, hlen, build_ordered hg (by rw [hlen]; decide)⟩

/-- A control without statements. -/
def blankControl : Control where
  name := "ingress"
  params := ["h", "m", "s"]
  locals := []
  actions := []
  tables := []
  body := []

/-- With the largest number for the entry, the exit has the smallest one. -/
theorem not_increasing_blankControl :
    ∃ g, (build blankControl 9223372036854775807).1 = .ok g ∧
      g.vertices.map (fun v => v.id) = [9223372036854775807, -9223372036854775808] ∧
      (¬ g.vertices.Pairwise fun v w => v.id < w.id) ∧
      ∃ n ∈ g.nodes, ∃ e ∈ n.succs, e.node.id < n.vertex.id := by
  refine ⟨graphOf blankControl 9223372036854775807, rfl, by decide, by decide, ?_⟩
  exact ⟨_, List.mem_cons_self, _, List.mem_cons_self, by decide⟩

end Flowline.ControlFlow
