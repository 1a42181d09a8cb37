import Flowline.Proofs.ControlFlow.Preservation
import Flowline.Proofs.ControlFlow.Search
import Flowline.Proofs.Switch.Word

/-!
# Stages lead onward

In the graph of a control, edges lead from earlier stages to later ones, and every stage but the
exit has an edge (`Graph.Forward`), so edges lead to the exit from everywhere.  Stages have
consecutive numbers, which follow their order as long as they are machine words (`Graph.Onward`).
Wherever a packet goes on, it comes to a stage that the search for reachable stages has found
(`Onward.reaches_next`).

Labels may be repeated here: of two edges on one label only the first is followed, but both are
there.  What is left out of the balance of ways is only how often an edge occurs, and none is lost
(`exists_enters`).
-/

namespace Flowline.ControlFlow

open Pipeline (Control)
open Source (Expr Stmt Case)

/-! ## Edges that are kept -/

theorem EdgeSet.subset_foldl_distinct (s es : List Edge) :
    s ⊆ es.foldl (fun s e => if s.any (·.equivalent e) then s else s ++ [e]) s := by
  induction es generalizing s with
  | nil => exact List.Subset.refl s
  | cons e es ih =>
    rw [List.foldl_cons]
    refine List.Subset.trans ?_ (ih _)
    split
    · exact List.Subset.refl s
    · exact List.subset_append_left s [e]

theorem EdgeSet.distinct_sublist (es : List Edge) : (EdgeSet.distinct es).Sublist es := by
  suffices h : ∀ s : EdgeSet,
      (es.foldl (fun s e => if s.any (·.equivalent e) then s else s ++ [e]) s).Sublist (s ++ es)
    from h []
  induction es with
  | nil => exact fun s => List.sublist_append_left s []
  | cons e es ih =>
    intro s
    rw [List.foldl_cons]
    split
    · exact (ih s).trans ((List.sublist_cons_self e es).append_left s)
    · have h := ih (s ++ [e])
      rwa [List.append_assoc, List.singleton_append] at h

theorem EdgeSet.distinct_subset (es : List Edge) : EdgeSet.distinct es ⊆ es :=
  (EdgeSet.distinct_sublist es).subset

theorem EdgeSet.distinct_ne_nil {es : List Edge} (h : es ≠ []) : EdgeSet.distinct es ≠ [] := by
  obtain ⟨e, es, rfl⟩ := List.exists_cons_of_ne_nil h
  exact List.ne_nil_of_mem (EdgeSet.subset_foldl_distinct [e] es List.mem_cons_self)

/-! ## Graphs that lead onward -/

namespace Graph

/-- Edges lead to later stages, and only the exit, which is the last, has none. -/
structure Forward (g : Graph) : Prop where
  proper : g.Proper
  forward : ∀ (v : Vertex), ∀ e ∈ g.succs v, v.position < e.node.position
  continues : ∀ v ∈ g.vertices, v.position < g.exit.position → g.succs v ≠ []
  last : ∀ v ∈ g.vertices, v.position ≤ g.exit.position
  exit : g.exit ∈ g.vertices

/-- Stages have consecutive numbers, and edges lead to later stages. -/
structure Onward (g : Graph) (first : Int64) : Prop extends g.Forward where
  numbered : ∀ v ∈ g.vertices, v.id.toInt = first.toInt + v.position

/-- An edge leads from one vertex to another. -/
def LeadsTo (g : Graph) (v w : Vertex) : Prop := ∃ e ∈ g.succs v, e.node = w

theorem Reaches.trans {g : Graph} {v w : Vertex} (hv : g.Reaches v)
    (h : Relation.ReflTransGen g.LeadsTo v w) : g.Reaches w := by
  induction h with
  | refl => exact hv
  | tail _ hstep ih =>
    obtain ⟨e, he, rfl⟩ := hstep
    exact .step ih he

namespace Forward

variable {g : Graph}

theorem eq_exit (hg : g.Forward) {v : Vertex} (hv : v ∈ g.vertices)
    (h : v.position = g.exit.position) : v = g.exit :=
  hg.proper.eq_of_position hv hg.exit h

/-- Edges lead to the exit from everywhere. -/
theorem leads_exit (hg : g.Forward) {v : Vertex} (hv : v ∈ g.vertices) :
    Relation.ReflTransGen g.LeadsTo v g.exit := by
  suffices h : ∀ n, ∀ v ∈ g.vertices, g.exit.position ≤ v.position + n →
      Relation.ReflTransGen g.LeadsTo v g.exit from h _ v hv (Nat.le_add_left _ _)
  intro n
  induction n with
  | zero =>
    intro v hv hn
    rw [hg.eq_exit hv (Nat.le_antisymm (hg.last v hv) hn)]
  | succ n ih =>
    intro v hv hn
    rcases Nat.eq_or_lt_of_le (hg.last v hv) with heq | hlt
    · rw [hg.eq_exit hv heq]
    · obtain ⟨e, he⟩ := List.exists_mem_of_ne_nil _ (hg.continues v hv hlt)
      have hstep := hg.forward v e he
      exact .head ⟨e, he, rfl⟩ (ih e.node (hg.proper.mem_vertices he) (by omega))

theorem reaches_exit (hg : g.Forward) : g.Reaches g.exit :=
  Reaches.entry.trans (hg.leads_exit hg.proper.entry)

end Forward

namespace Onward

variable {g : Graph} {first : Int64}

theorem id_lt (hg : g.Onward first) {v w : Vertex} (hv : v ∈ g.vertices) (hw : w ∈ g.vertices)
    (h : v.position < w.position) : v.id < w.id := by
  rw [Int64.lt_iff_toInt_lt, hg.numbered v hv, hg.numbered w hw]
  omega

/-- The next stage is at the end of an edge, or the exit. -/
theorem next_cases (g : Graph) (v : Vertex) (wanted : List (EdgeKind × Text)) :
    (∃ e ∈ g.succs v, g.next v wanted = e.node) ∨ g.next v wanted = g.exit := by
  have hnext : g.next v wanted =
      (wanted.findSome? fun q => (g.succs v).target? q.1 q.2).getD g.exit := rfl
  rw [hnext]
  cases h : wanted.findSome? fun q => (g.succs v).target? q.1 q.2 with
  | none => exact Or.inr rfl
  | some w =>
    obtain ⟨q, -, hq⟩ := List.exists_of_findSome?_eq_some h
    obtain ⟨e, he, rfl⟩ := Option.map_eq_some_iff.mp hq
    exact Or.inl ⟨e, List.mem_of_find?_eq_some he, rfl⟩

theorem reaches_next (hg : g.Onward first) {v : Vertex} (hv : g.Reaches v)
    (wanted : List (EdgeKind × Text)) : g.Reaches (g.next v wanted) := by
  rcases next_cases g v wanted with ⟨e, he, heq⟩ | heq
  · rw [heq]
    exact .step hv he
  · rw [heq]
    exact hg.reaches_exit

theorem id_lt_next (hg : g.Onward first) {v : Vertex} (hv : g.Reaches v)
    (hexit : v.position ≠ g.exit.position) (wanted : List (EdgeKind × Text)) :
    v.id < (g.next v wanted).id := by
  have hmem := hg.proper.mem_vertices_of_reaches hv
  refine hg.id_lt hmem (hg.proper.mem_vertices_of_reaches (hg.reaches_next hv wanted)) ?_
  rcases next_cases g v wanted with ⟨e, he, heq⟩ | heq
  · rw [heq]
    exact hg.forward v e he
  · rw [heq]
    exact lt_of_le_of_ne (hg.last v hmem) hexit

end Onward

end Graph

/-! ## The graph of a control -/

/-- The number of stages of a control, with its entry and its exit. -/
def stageCount (c : Control) : Nat := (forksAll c.body).length + 2

variable (c : Control) (first : Int64)

/-- The draft of a control with its exit. -/
def Draft.whole : Draft :=
  ((walkBody c first).2.push (c.name ++ ".exit") .dummy
    (EdgeSet.merge (walkBody c first).2.exits (walkBody c first).1)).2

theorem Draft.whole_nodes : (Draft.whole c first).nodes = nodesOf c first := rfl

theorem Draft.whole_counted : (Draft.whole c first).Counted first := by
  have hempty : Draft.Counted first { next := first } :=
    ⟨(Int64.add_zero first).symm, fun n hn => by cases hn⟩
  exact ((walkBody_passes c first).counted first (hempty.push _ _ _)).push _ _ _

theorem length_nodesOf : (nodesOf c first).length = stageCount c := by
  rw [nodesOf, List.length_append, (walkBody_passes c first).length, List.length_singleton,
    stageCount]
  show 1 + (forksAll c.body).length + 1 = _
  omega

theorem build_snd : (build c first).2 = first + Int64.ofNat (stageCount c) := by
  have hnext : (build c first).2 = (Draft.whole c first).next := by
    rw [build]
    simp only
    split <;> rfl
  rw [hnext, (Draft.whole_counted c first).next, Draft.whole_nodes, length_nodesOf]

/-- What keeps a graph from being built is known. -/
theorem build_ne_error_nil : (build c first).1 ≠ .error [] := by
  intro h
  rw [build] at h
  simp only at h
  split at h
  · cases h
  · next hne => exact hne (Except.error.inj h)

theorem vertices_graphOf : (graphOf c first).vertices = (nodesOf c first).map fun n => n.1 := by
  rw [Graph.vertices, graphOf, Graph.ofPreds, List.map_map]
  rfl

theorem succs_graphOf (v : Vertex) :
    ∀ e ∈ (graphOf c first).succs v, Enters (nodesOf c first) ⟨v.position, e.kind, e.label⟩ e.node
    := by
  intro e he
  rw [Graph.succs] at he
  split at he
  · next n hn =>
    rw [graphOf, Graph.ofPreds, List.getElem?_map, Option.map_eq_some_iff] at hn
    obtain ⟨m, hm, rfl⟩ := hn
    have hpos := (nodesOf_sound c first).placed _ _ hm
    rw [← hpos]
    exact mem_outgoing.mp (EdgeSet.distinct_subset _ he)
  · cases he

/-- A way of a control enters a stage. -/
theorem exists_enters {w : Way} (hw : w ∈ waysAt (controlForks c) 0) :
    ∃ n, Enters (nodesOf c first) w n :=
  mem_sum_ways.mp ((mem_ways_nodesOf c first).mpr hw)

theorem succs_graphOf_ne_nil {v : Vertex} (hv : v.position < (exitOf c first).position) :
    (graphOf c first).succs v ≠ [] := by
  have hlen : (exitOf c first).position = (forksAll c.body).length + 1 := by
    have h := (walkBody_passes c first).length
    rw [Nat.add_comm] at h
    exact h
  have hforks : (controlForks c).length = (forksAll c.body).length + 1 := rfl
  obtain ⟨w, hw, hsource⟩ : ∃ w ∈ waysAt (controlForks c) 0, w.source = v.position :=
    exists_mem_waysAt (Nat.zero_le _) (by omega)
  obtain ⟨n, hn⟩ := exists_enters c first hw
  have hout : outgoing (nodesOf c first) v ≠ [] := by
    refine List.ne_nil_of_mem (a := ⟨n, w.kind, w.label⟩) (mem_outgoing.mpr ?_)
    rw [← hsource]
    exact hn
  have hlt : v.position < (nodesOf c first).length := by
    rw [length_nodesOf, stageCount]
    omega
  have hget : (nodesOf c first)[v.position]? = some (nodesOf c first)[v.position] :=
    List.getElem?_eq_getElem hlt
  have hpos := (nodesOf_sound c first).placed _ _ hget
  rw [Graph.succs, graphOf, Graph.ofPreds, List.getElem?_map, hget]
  simp only [Option.map_some]
  refine EdgeSet.distinct_ne_nil ?_
  rw [hpos]
  exact hout

theorem positions_graphOf :
    ((graphOf c first).vertices.map fun v => v.position) = List.range (stageCount c) := by
  rw [vertices_graphOf, List.map_map, ← length_nodesOf c first]
  refine List.ext_getElem (by simp) fun i hi hi' => ?_
  rw [List.getElem_map, List.getElem_range]
  rw [List.length_map] at hi
  exact (nodesOf_sound c first).placed i _ (List.getElem?_eq_getElem hi)

theorem position_lt_stageCount {v : Vertex} (hv : v ∈ (graphOf c first).vertices) :
    v.position < stageCount c := by
  have hmem := List.mem_map_of_mem (f := fun v : Vertex => v.position) hv
  rwa [positions_graphOf, List.mem_range] at hmem

theorem exitOf_position : (exitOf c first).position + 1 = stageCount c := by
  have h := length_nodesOf c first
  rwa [nodesOf, List.length_append] at h

variable {c first}

theorem id_graphOf {v : Vertex} (hv : v ∈ (graphOf c first).vertices) :
    v.id = first + Int64.ofNat v.position := by
  rw [vertices_graphOf] at hv
  obtain ⟨n, hn, rfl⟩ := List.mem_map.mp hv
  exact (Draft.whole_counted c first).numbered n hn

theorem toInt_id_graphOf (hroom : first.toInt + stageCount c ≤ 2 ^ 63) {v : Vertex}
    (hv : v ∈ (graphOf c first).vertices) : v.id.toInt = first.toInt + v.position := by
  have hlt := position_lt_stageCount c first hv
  rw [id_graphOf hv]
  exact Switch.Word.toInt_add_ofNat (by omega)

/-- No number is given twice, unless there are more stages than words. -/
theorem nodup_ids_graphOf (hroom : stageCount c ≤ 2 ^ 64) :
    ((graphOf c first).vertices.map fun v => v.id).Nodup := by
  have hids : ((graphOf c first).vertices.map fun v => v.id) =
      (List.range (stageCount c)).map fun i => first + Int64.ofNat i := by
    rw [← positions_graphOf c first, List.map_map]
    exact List.map_congr_left fun v hv => id_graphOf hv
  rw [hids]
  refine List.nodup_range.map_on fun i hi j hj heq => ?_
  rw [List.mem_range] at hi hj
  exact Switch.Word.eq_of_ofNat_eq (by omega) (by omega) ((Int64.add_right_inj first).mp heq)

theorem proper_graphOf (hroom : stageCount c ≤ 2 ^ 64) : (graphOf c first).Proper where
  placed := by
    intro i n hn
    rw [graphOf, Graph.ofPreds, List.getElem?_map, Option.map_eq_some_iff] at hn
    obtain ⟨m, hm, rfl⟩ := hn
    exact (nodesOf_sound c first).placed i m hm
  closed := by
    intro n hn e he
    obtain ⟨m, hm, rfl⟩ := List.mem_map.mp hn
    obtain ⟨preds, hmem, -⟩ := mem_outgoing.mp (EdgeSet.distinct_subset _ he)
    rw [vertices_graphOf]
    exact List.mem_map_of_mem (f := fun n : Incoming => n.1) hmem
  entry := by
    rw [vertices_graphOf]
    refine List.mem_map_of_mem (f := fun n : Incoming => n.1) (a := (entryOf c first, [])) ?_
    exact List.mem_append_left _ ((walkBody_passes c first).nodes.subset List.mem_cons_self)
  ids := nodup_ids_graphOf hroom

theorem forward_graphOf (hroom : stageCount c ≤ 2 ^ 64) : (graphOf c first).Forward where
  proper := proper_graphOf hroom
  forward := by
    intro v e he
    obtain ⟨preds, hmem, hpreds⟩ := succs_graphOf c first v e he
    exact (nodesOf_sound c first).forward _ hmem _ hpreds
  continues := fun v _ hlt => succs_graphOf_ne_nil c first hlt
  last := by
    intro v hv
    have hlt := position_lt_stageCount c first hv
    rw [← exitOf_position c first] at hlt
    exact Nat.le_of_lt_succ hlt
  exit := by
    rw [vertices_graphOf, nodesOf, List.map_append, List.map_singleton]
    exact List.mem_append_right _ List.mem_cons_self

/-- The graph of a control leads onward, if the numbers of its stages are machine words. -/
theorem onward_graphOf (hroom : first.toInt + stageCount c ≤ 2 ^ 63) :
    (graphOf c first).Onward first where
  toForward := by
    have hfirst := first.le_toInt
    exact forward_graphOf (by omega)
  numbered := fun _ hv => toInt_id_graphOf hroom hv

end Flowline.ControlFlow
