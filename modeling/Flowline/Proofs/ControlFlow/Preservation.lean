import Flowline.ControlFlow.Verify
import Flowline.Proofs.ControlFlow.Simulation

/-!
# The graph of a control does what its statements do

Packets that follow the graph of a control make the visits that executing its statements makes, and
come to the exit.  The graph is the entry, the stages of the statements and the
exit; `graphOf` gives it without the problems that keep it from being built.
-/

namespace Flowline.ControlFlow

open Pipeline (Control)
open Source (Expr Stmt Case)

/-! ## The graph of a control -/

/-- The entry of a control. -/
def entryOf (c : Control) (first : Int64) : Vertex :=
  Draft.vertex { next := first } (c.name ++ ".entry") .dummy

/-- The draft of a control in which only the entry stands. -/
def Draft.start (c : Control) (first : Int64) : Draft :=
  (Draft.push { next := first } (c.name ++ ".entry") .dummy []).2

/-- The live edges and the draft behind the statements of a control. -/
def walkBody (c : Control) (first : Int64) : EdgeSet × Draft :=
  walkAll c.body [⟨entryOf c first, .always, ""⟩] (Draft.start c first)

/-- The exit of a control. -/
def exitOf (c : Control) (first : Int64) : Vertex :=
  (walkBody c first).2.vertex (c.name ++ ".exit") .dummy

/-- The nodes of the graph of a control. -/
def nodesOf (c : Control) (first : Int64) : List Incoming :=
  (walkBody c first).2.nodes ++
    [(exitOf c first, EdgeSet.merge (walkBody c first).2.exits (walkBody c first).1)]

/-- The graph of a control. -/
def graphOf (c : Control) (first : Int64) : Graph :=
  .ofPreds c.name (nodesOf c first) (entryOf c first) (exitOf c first)

/-- How packets leave the stages of a control, up to the exit. -/
def controlForks (c : Control) : List Fork := .onward none [] :: forksAll c.body

theorem build_eq_ok {c : Control} {first : Int64} {g : Graph} (h : (build c first).1 = .ok g) :
    g = graphOf c first := by
  rw [build] at h
  simp only at h
  split at h
  · exact (Except.ok.inj h).symm
  · cases h

variable (c : Control) (first : Int64)

/-! ## Its edges -/

theorem Draft.start_sound : (Draft.start c first).Sound := by
  refine Draft.Sound.push ⟨?_, ?_, ?_⟩ _ _ (by simp)
  · intro i n hn
    simp at hn
  · intro n hn
    simp at hn
  · intro w hw
    simp at hw

/-- The walk over the statements of a control starts on the one way out of the entry. -/
theorem walkBody_passes :
    Passes (forksAll c.body).length (waysAt (forksAll c.body) 1) {⟨0, .always, ""⟩}
      (Draft.start c first) (EdgeSet.ways (walkBody c first).1) (walkBody c first).2 :=
  walkAll_passes c.body [⟨entryOf c first, .always, ""⟩] (Draft.start c first)

theorem exitOf_position_pos : 0 < (exitOf c first).position :=
  (walkBody_passes c first).nodes.length_le

/-- With the exit, nodes stand at their positions and edges lead forward. -/
theorem nodesOf_sound :
    ((walkBody c first).2.push (c.name ++ ".exit") .dummy
      (EdgeSet.merge (walkBody c first).2.exits (walkBody c first).1)).2.Sound := by
  obtain ⟨hsound, hlive⟩ : (walkBody c first).2.Sound ∧
      ∀ w ∈ EdgeSet.ways (walkBody c first).1, w.source < (walkBody c first).2.nodes.length := by
    refine (walkBody_passes c first).sound (Draft.start_sound c first) fun w hw => ?_
    rw [Multiset.mem_singleton.mp hw]
    exact Nat.zero_lt_one
  refine hsound.push _ _ fun w hw => ?_
  rcases EdgeSet.mem_ways_merge.mp hw with hw | hw
  · exact hsound.exits w hw
  · exact hlive w hw

/-- No way of a control leads to more stages than it occurs. -/
theorem ways_nodesOf_le : ((nodesOf c first).map fun n => EdgeSet.ways n.2).sum ≤
    waysAt (controlForks c) 0 := by
  have hstart : (Draft.start c first).ways = 0 := rfl
  have hle := (walkBody_passes c first).le
  rw [hstart, zero_add, Draft.ways, add_assoc] at hle
  rw [nodesOf, List.map_append, List.sum_append, List.map_singleton, List.sum_singleton]
  exact (add_le_add_right (EdgeSet.ways_merge_le _ _) _).trans hle

/-- The ways of a control are those that lead to a stage. -/
theorem mem_ways_nodesOf {w : Way} : w ∈ ((nodesOf c first).map fun n => EdgeSet.ways n.2).sum ↔
    w ∈ waysAt (controlForks c) 0 := by
  have hstart : (Draft.start c first).ways = 0 := rfl
  have hmem := (walkBody_passes c first).mem w
  rw [hstart, zero_add, Draft.ways, add_assoc, Multiset.mem_add, Multiset.mem_add] at hmem
  rw [nodesOf, List.map_append, List.sum_append, List.map_singleton, List.sum_singleton,
    Multiset.mem_add, EdgeSet.mem_ways_merge]
  exact hmem

/-- A way that a control has once leads to one stage of its graph. -/
theorem count_ways_nodesOf {w : Way} (h : (waysAt (controlForks c) 0).count w ≤ 1) :
    ((nodesOf c first).map fun n => EdgeSet.ways n.2).sum.count w =
      (waysAt (controlForks c) 0).count w :=
  count_eq_of_le (ways_nodesOf_le c first) (fun _ => (mem_ways_nodesOf c first).mpr) h

/-- Ways that wait for the exit, and those live behind the last statement, enter the exit. -/
theorem enters_exitOf {w : Way} (hw : w ∈ EdgeSet.ways (walkBody c first).2.exits ∨
    w ∈ EdgeSet.ways (walkBody c first).1) : Enters (nodesOf c first) w (exitOf c first) := by
  refine ⟨_, ?_, EdgeSet.mem_ways_merge.mpr hw⟩
  rw [nodesOf, List.mem_append, List.mem_singleton]
  exact Or.inr rfl

variable {c}

section

variable (hl : DistinctLabelsAll c.body)

include hl

/-- The ways of a control with distinct labels occur once each. -/
theorem nodup_ways_control : (waysAt (controlForks c) 0).Nodup := by
  have hentry : (Fork.onward none []).labels.Nodup := List.nodup_nil
  exact nodup_waysAt (List.forall_mem_cons.mpr ⟨hentry, nodup_labels_forksAll hl⟩) 0

/-- Each way of a control leads to one stage of its graph. -/
theorem ways_nodesOf :
    ((nodesOf c first).map fun n => EdgeSet.ways n.2).sum = waysAt (controlForks c) 0 :=
  Multiset.ext.mpr fun w => count_ways_nodesOf c first
    (Multiset.nodup_iff_count_le_one.mp (nodup_ways_control hl) w)

theorem finished_graphOf :
    Finished (graphOf c first) (nodesOf c first) where
  nodes := rfl
  placed := (nodesOf_sound c first).placed
  forward := by
    rintro w n ⟨preds, hn, hw⟩
    exact (nodesOf_sound c first).forward (n, preds) hn w hw
  unique := by
    intro w n m hn hm
    refine enters_unique ?_ hn hm
    rw [ways_nodesOf first hl]
    exact nodup_ways_control hl

/-! ## Its statements -/

theorem within_graphOf :
    Within (graphOf c first) (nodesOf c first) 0 (controlForks c) (walkBody c first).2 where
  nodes := List.prefix_append _ _
  exits := fun w hw => enters_exitOf c first (Or.inl hw)
  before := le_rfl
  own := by
    intro w n hn _ _
    rw [← ways_nodesOf first hl]
    exact mem_sum_ways.mpr ⟨n, hn⟩

/-- The entry leads to where its one way leads. -/
theorem step_entryOf (o : Oracle) {n : Vertex} (hn : Enters (nodesOf c first) ⟨0, .always, ""⟩ n) :
    (graphOf c first).step o (entryOf c first) [] = (n, []) := by
  have hpos : (entryOf c first).position < (nodesOf c first).length := by
    rw [nodesOf, List.length_append]
    exact Nat.lt_add_right _ (exitOf_position_pos c first)
  have hnext : (graphOf c first).next (entryOf c first) ([] ++ (.always, "") :: []) = n := by
    refine (finished_graphOf first hl).next_eq hpos (by simp) hn ⟨rfl, rfl, fun _ => rfl⟩
      fun w m hm hfit => ?_
    rcases Fork.mem_ways_onward.mp ((within_graphOf first hl).first hm hfit.1) with hw | ⟨l, hmem, -⟩
    · exact hw
    · exact absurd hmem List.not_mem_nil
  exact congrArg (·, []) hnext

/-- From the entry, a packet comes to the exit with the visits of the statements. -/
theorem ends_graphOf (o : Oracle) :
    Ends (graphOf c first) o (entryOf c first) [] (executeAll o c.body []).visits := by
  have hcont : Continues (graphOf c first) (nodesOf c first) o (executeAll o c.body [])
      (walkBody c first).1 (executeAll o c.body []).visits := by
    rw [Continues]
    split
    · exact fun w hw => ⟨exitOf c first, enters_exitOf c first (Or.inr hw), Ends.exit rfl⟩
    · rfl
  obtain ⟨n, hn, hend⟩ := walkAll_arrives (finished_graphOf first hl) c.body _
    (Draft.start c first) (within_graphOf first hl).rest [] _ hcont ⟨0, .always, ""⟩
    (Multiset.mem_singleton_self _)
  have hstep := step_entryOf first hl o hn
  refine Ends.step (Nat.ne_of_lt (exitOf_position_pos c first)) ?_ ?_
  · rw [hstep]
    exact (finished_graphOf first hl).forward _ _ hn
  · rw [hstep]
    exact hend

end

/-- **The graph of a control does what its statements do.**  In every graph that is built for a
control in which the labels of each switch are distinct, packets make the visits that executing
the statements makes, and come to the exit, whatever tables and conditions give.  No stage is met
twice, so as many steps are enough as there are stages.  Nothing is asked of `Graph.verify`. -/
theorem follow_build {c : Control} {first : Int64} {g : Graph} (hg : (build c first).1 = .ok g)
    (hl : DistinctLabelsAll c.body) (o : Oracle) :
    g.follow o g.nodes.length g.entry [] = some (executeAll o c.body []).visits := by
  rw [build_eq_ok hg]
  refine (ends_graphOf first hl o).follow_eq _ ?_
  have hlen : (graphOf c first).nodes.length = (exitOf c first).position + 1 := by
    rw [(finished_graphOf first hl).nodes, List.length_map, nodesOf, List.length_append]
    rfl
  have hexit : (graphOf c first).exit = exitOf c first := rfl
  rw [hlen, hexit]
  omega

/-- A control with a label that shares a body, a trailing label, and a negated test of an
outcome. -/
def sampleControl : Control where
  name := "ingress"
  params := ["hdr", "meta", "std"]
  locals := []
  actions := []
  tables := []
  body :=
    [.switch (.actionRun ⟨"ingress", "t"⟩)
      [.bare "a", .arm "b" [.apply ⟨"ingress", "u"⟩, .exit], .bare "default"],
     .ifElse (.negation (.hit ⟨"ingress", "u"⟩ false)) (.block [.ret])
      (.ifThen (.valid ⟨"vlan", some "vlan"⟩) (.apply ⟨"ingress", "v"⟩))]

theorem follow_build_sampleControl :
    ∃ g, (build sampleControl 1).1 = .ok g ∧ g.verify = [] ∧
      DistinctLabelsAll sampleControl.body ∧
      ∀ o, g.follow o g.nodes.length g.entry [] =
        some (executeAll o sampleControl.body []).visits := by
  have hl : DistinctLabelsAll sampleControl.body := by decide
  exact ⟨graphOf sampleControl 1, rfl, by decide +kernel, hl, follow_build rfl hl⟩

end Flowline.ControlFlow
