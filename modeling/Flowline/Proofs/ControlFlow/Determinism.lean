import Flowline.Proofs.ControlFlow.Ordering
import Flowline.Proofs.Pipeline.Accepting

/-!
# How many edges a look-up chooses from

Packets are sent on by the first edge of a kind, and of edges on labels by the first with the wanted
label.  The statements bound how many there are: no way of a control leads to more stages than it
occurs, and each occurs once, except for a label that a switch has in several cases.  Such a label
may have an edge for each of the cases, and then the look-up does choose.

* `EdgeSet.candidates`: the edges that a look-up chooses from.
* `labelsAt`: the labels of the switch at a stage.
-/

namespace Flowline.ControlFlow

open Pipeline (Control Program exists_of_accepts idleControl ofDescription)

/-! ## Look-ups -/

/-- Whether an edge is one that a look-up wants. -/
def isWanted (kind : EdgeKind) (label : Text) (k : EdgeKind) (l : Text) : Bool :=
  k == kind && (kind != .onLabel || l == label)

theorem isWanted_onLabel_iff {label : Text} {k : EdgeKind} {l : Text} :
    isWanted .onLabel label k l = true ↔ k = .onLabel ∧ l = label := by
  simp [isWanted]

namespace EdgeSet

/-- The edges that a look-up chooses from. -/
def candidates (s : EdgeSet) (kind : EdgeKind) (label : Text) : List Edge :=
  s.filter fun e => isWanted kind label e.kind e.label

theorem target?_eq_head? (s : EdgeSet) (kind : EdgeKind) (label : Text) :
    s.target? kind label = (s.candidates kind label).head?.map fun e => e.node := by
  rw [candidates, List.head?_filter]
  rfl

theorem pairwise_distinct (es : List Edge) :
    (EdgeSet.distinct es).Pairwise fun a b => a.equivalent b = false := by
  suffices h : ∀ s : EdgeSet, (s.Pairwise fun a b => a.equivalent b = false) →
      (es.foldl (fun s e => if s.any (·.equivalent e) then s else s ++ [e]) s).Pairwise
        fun a b => a.equivalent b = false from h [] .nil
  induction es with
  | nil => exact fun s hs => hs
  | cons e es ih =>
    intro s hs
    rw [List.foldl_cons]
    refine ih _ ?_
    split
    · exact hs
    · next hnew =>
      rw [List.any_eq_true] at hnew
      refine List.pairwise_append.mpr ⟨hs, List.pairwise_singleton _ _, fun a ha b hb => ?_⟩
      rw [List.mem_singleton.mp hb]
      exact Bool.not_eq_true _ ▸ fun hae => hnew ⟨a, ha, hae⟩

end EdgeSet

/-- Edges on one label that are kept lead to different destinations. -/
theorem sameDestination_of_candidates {s : EdgeSet} {label : Text}
    (hs : s.Pairwise fun a b => a.equivalent b = false) :
    (s.candidates .onLabel label).Pairwise fun a b => a.node.sameDestination b.node = false := by
  refine List.Pairwise.imp_of_mem (fun {a b} ha hb hab => ?_) (hs.filter _)
  obtain ⟨hka, hla⟩ := isWanted_onLabel_iff.mp (List.mem_filter.mp ha).2
  obtain ⟨hkb, hlb⟩ := isWanted_onLabel_iff.mp (List.mem_filter.mp hb).2
  simpa [Edge.equivalent, hka, hkb, hla, hlb] using hab

/-! ## The labels of a stage -/

/-- The labels of the switch at a stage of a control; a stage without a switch has none. -/
def labelsAt (c : Control) (q : Nat) : List Text := ((controlForks c)[q]?.map Fork.labels).getD []

variable {c : Control} {first : Int64}

theorem count_labelWays (q : Nat) (labels : List Text) (l : Text) :
    (labelWays q labels).count ⟨q, .onLabel, l⟩ = labels.count l := by
  rw [labelWays, Multiset.coe_count]
  exact List.count_map_of_injective labels _ (fun a b h => (Way.mk.inj h).2.2) l

theorem Fork.count_ways (f : Fork) (q : Nat) (l : Text) :
    (f.ways q).count ⟨q, .onLabel, l⟩ = f.labels.count l := by
  cases f with
  | test => simp [Fork.ways, Fork.labels, bothWays, Way.onTruth]
  | onward =>
    rw [Fork.ways, Multiset.count_add, count_labelWays, Multiset.count_singleton,
      if_neg (by simp), Nat.zero_add, Fork.labels]

/-- A label is on as many ways out of a stage as cases of its switch have it. -/
theorem count_labelsAt (c : Control) (q : Nat) (l : Text) :
    (labelsAt c q).count l = (waysAt (controlForks c) 0).count ⟨q, .onLabel, l⟩ := by
  rw [← count_waysFrom, labelsAt, waysFrom_control]
  cases (controlForks c)[q]? with
  | none => rfl
  | some f =>
    rw [Option.elim_some, f.count_ways]
    rfl

/-- The ways out of a stage that a look-up wants. -/
theorem Fork.countP_ways_le (f : Fork) (q : Nat) {kind : EdgeKind} (hkind : kind ≠ .onLabel)
    (label : Text) :
    (f.ways q).countP (fun w => isWanted kind label w.kind w.label = true) ≤ 1 := by
  cases f with
  | test =>
    show Multiset.countP _ (([Way.onTruth q true, Way.onTruth q false] : List Way) : Multiset Way) ≤ 1
    rw [Multiset.coe_countP]
    cases kind <;> simp [isWanted, Way.onTruth]
  | onward _ labels =>
    have hlabels : (labelWays q labels).countP
        (fun w => isWanted kind label w.kind w.label = true) = 0 := by
      refine Multiset.countP_eq_zero.mpr fun w hw => ?_
      obtain ⟨l, -, rfl⟩ := List.mem_map.mp (Multiset.mem_coe.mp hw)
      simp [isWanted, hkind.symm]
    rw [Fork.ways, Multiset.countP_add, hlabels, Nat.add_zero]
    exact (Multiset.countP_le_card _ _).trans (Multiset.card_singleton _).le

/-! ## The edges of a graph -/

/-- The statements bound the edges that a look-up chooses from. -/
theorem length_candidates_le {n : Node} (hn : n ∈ (graphOf c first).nodes) (kind : EdgeKind)
    (label : Text) :
    (n.succs.candidates kind label).length ≤
      (waysFrom (waysAt (controlForks c) 0) n.vertex.position).countP
        fun w => isWanted kind label w.kind w.label = true := by
  obtain ⟨⟨v, preds⟩, -, rfl⟩ := List.mem_map.mp hn
  have hways : waysFrom ((nodesOf c first).map fun n => EdgeSet.ways n.2).sum v.position ≤
      waysFrom (waysAt (controlForks c) 0) v.position :=
    Multiset.filter_le_filter _ (ways_nodesOf_le c first)
  refine le_trans ?_ (Multiset.countP_le_of_le _ hways)
  rw [← ways_outgoing, Multiset.coe_countP, List.countP_map, EdgeSet.candidates,
    ← List.countP_eq_length_filter]
  refine ((EdgeSet.distinct_sublist _).countP_le).trans (le_of_eq ?_)
  exact List.countP_congr fun e _ => by simp

/-- An edge on a label belongs to a case of the switch that has it. -/
theorem length_candidates_le_count {n : Node} (hn : n ∈ (graphOf c first).nodes) (label : Text) :
    (n.succs.candidates .onLabel label).length ≤ (labelsAt c n.vertex.position).count label := by
  refine (length_candidates_le hn .onLabel label).trans (le_of_eq ?_)
  rw [count_labelsAt, ← count_waysFrom]
  refine Multiset.countP_congr rfl fun w hw => ?_
  have hsource : w.source = n.vertex.position := (Multiset.mem_filter.mp hw).2
  refine propext (isWanted_onLabel_iff.trans ⟨?_, ?_⟩)
  · rintro ⟨hkind, hlabel⟩
    rw [← hsource, ← hkind, ← hlabel]
  · rintro rfl
    exact ⟨rfl, rfl⟩

/-- Of the other kinds there is one edge at most. -/
theorem length_candidates_le_one {n : Node} (hn : n ∈ (graphOf c first).nodes) {kind : EdgeKind}
    (hkind : kind ≠ .onLabel) (label : Text) : (n.succs.candidates kind label).length ≤ 1 := by
  refine (length_candidates_le hn kind label).trans ?_
  rw [waysFrom_control]
  cases (controlForks c)[n.vertex.position]? with
  | none => exact Nat.zero_le 1
  | some f => exact f.countP_ways_le _ hkind label

/-- **Look-ups have to choose only where a switch repeats a label.**  In every graph that is built, a
look-up takes the first of the edges it wants.  They lead to different destinations; there is at
most one unless they are on a label, and then there are no more than cases of the switch with that
label.  So there is at most one in all cases if no switch repeats a label. -/
theorem build_deterministic {g : Graph} (hg : (build c first).1 = .ok g) {n : Node}
    (hn : n ∈ g.nodes) (kind : EdgeKind) (label : Text) :
    (n.succs.target? kind label =
      (n.succs.candidates kind label).head?.map fun e => e.node) ∧
    ((n.succs.candidates kind label).Pairwise fun a b => a.node.sameDestination b.node = false) ∧
    ((n.succs.candidates kind label).length ≤
      if kind = .onLabel then (labelsAt c n.vertex.position).count label else 1) ∧
    (DistinctLabelsAll c.body → (n.succs.candidates kind label).length ≤ 1) := by
  rw [build_eq_ok hg] at hn
  refine ⟨n.succs.target?_eq_head? kind label, ?_⟩
  by_cases hkind : kind = .onLabel
  · subst hkind
    have hle := length_candidates_le_count hn label
    have hdistinct : n.succs.Pairwise fun a b => a.equivalent b = false := by
      obtain ⟨m, -, rfl⟩ := List.mem_map.mp hn
      exact EdgeSet.pairwise_distinct _
    refine ⟨sameDestination_of_candidates hdistinct, by rwa [if_pos rfl], fun hl => ?_⟩
    rw [count_labelsAt] at hle
    exact hle.trans (Multiset.nodup_iff_count_le_one.mp (nodup_ways_control hl) _)
  · have hle := length_candidates_le_one hn hkind label
    refine ⟨?_, by rwa [if_neg hkind], fun _ => hle⟩
    match hes : n.succs.candidates kind label with
    | [] => exact .nil
    | [e] => exact List.pairwise_singleton _ e
    | _ :: _ :: _ =>
      rw [hes] at hle
      exact absurd hle (by simp)

/-- The switch of a control without repeated labels has one edge on the label behind its bodies. -/
theorem build_deterministic_sampleControl :
    ∃ g n, (build sampleControl 1).1 = .ok g ∧ n ∈ g.nodes ∧
      labelsAt sampleControl n.vertex.position = ["a", "b", "default"] ∧
      (n.succs.candidates .onLabel "default").length ≤ 1 := by
  have hl : DistinctLabelsAll sampleControl.body := by decide
  have hg : (build sampleControl 1).1 = .ok (graphOf sampleControl 1) := rfl
  refine ⟨graphOf sampleControl 1, _, hg, List.mem_cons_of_mem _ List.mem_cons_self, by decide, ?_⟩
  obtain ⟨-, -, -, hle⟩ := build_deterministic hg
    (List.mem_cons_of_mem _ List.mem_cons_self) .onLabel "default"
  exact hle hl

/-- Whether the graph of a control is accepted, and has a stage with several edges on a label. -/
def hasChoice (label : Text) (c : Control) : Bool :=
  match (build c 1).1 with
  | .error _ => false
  | .ok g => g.verify.isEmpty &&
      g.nodes.any fun n => 1 < (n.succs.candidates .onLabel label).length

/-- A switch that has one label twice: one case goes on to a condition, the other one leaves. -/
def repeatedDescription : Description.Program where
  ingress := some { idleControl with
    actions := [{ name := "a" }]
    tables := [{ name := "t", actions := [{ name := "a" }] }]
    apply := "switch(t.apply().action_run)\x7ba:\x7bif(true);\x7da:\x7bexit;\x7d\x7d" }
  egress := some idleControl

/-- The program is accepted and so is the graph, but the label leads to two destinations. -/
theorem candidates_repeatedDescription :
    ∃ p c g n, ofDescription repeatedDescription = .ok p ∧ c ∈ p.controls ∧ (build c 1).1 = .ok g ∧
      g.verify = [] ∧ n ∈ g.nodes ∧ 1 < (n.succs.candidates .onLabel "a").length := by
  obtain ⟨p, hload, htest⟩ := exists_of_accepts repeatedDescription
    (fun p => p.controls.any (hasChoice "a")) (by decide +kernel)
  obtain ⟨c, hc, hchoice⟩ := List.any_eq_true.mp htest
  unfold hasChoice at hchoice
  split at hchoice
  · cases hchoice
  · next g hg =>
    rw [Bool.and_eq_true, List.isEmpty_iff] at hchoice
    obtain ⟨n, hn, hlt⟩ := List.any_eq_true.mp hchoice.2
    exact ⟨p, c, g, n, hload, hc, hg, hchoice.1, hn, of_decide_eq_true hlt⟩

end Flowline.ControlFlow
