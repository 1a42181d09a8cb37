import Flowline.Proofs.ControlFlow.Execution
import Flowline.Proofs.Source.Statements
import Mathlib.Algebra.BigOperators.Group.Multiset.Basic
import Mathlib.Data.Multiset.Fold
import Mathlib.Tactic.Abel

/-!
# Ways out of stages

An edge is known by where it starts and when it is taken: its `Way`.  The statements of a control
fix how packets leave each of its stages (`forksOf`), and so which ways there are (`waysAt`): an
application has one, a test two, a switch one for each label and one for all other actions.  What is
said of ways is said of lists of forks, so it needs no recursion over statements.

Building a graph moves ways around without losing or doubling any.  At each moment a way is either
live, or leads to a stage already built, or waits for the exit; the balance of a walk over
statements is that what is there behind it is what was there before and the ways of its own stages.

## Why multisets

Edges are added to sets that ignore repetitions, so a way that is added twice would disappear from
the balance.  Over multisets it has two halves: no way occurs more often than before (`Passes.le`),
and none is lost altogether (`Passes.mem`).  Of a way that occurs once they say both that it leads
somewhere and that it leads to one place only (`count_eq_of_le`).
-/

namespace Flowline.ControlFlow

open Source (Case EachCase EachStmt Expr Stmt)

/-- A way out of a stage: the position of the stage, and when the way is taken. -/
structure Way where
  source : Nat
  kind : EdgeKind
  label : Text
  deriving DecidableEq

/-- The way of an edge that is seen from its end. -/
def Edge.way (e : Edge) : Way := ⟨e.node.position, e.kind, e.label⟩

theorem Edge.same_iff (e o : Edge) : e.same o = true ↔ e.way = o.way := by
  simp [Edge.same, Edge.way, Way.mk.injEq, and_assoc]

/-- The way out of a test on a truth value. -/
def Way.onTruth (p : Nat) (b : Bool) : Way := ⟨p, if b then .onTrue else .onFalse, ""⟩

@[simp] theorem Edge.way_onTruth (v : Vertex) (b : Bool) :
    (Edge.onTruth v b).way = Way.onTruth v.position b := rfl

variable {w : Way} {q : Nat} {s : EdgeSet}

namespace EdgeSet

/-- The ways of a set of edges. -/
def ways (s : EdgeSet) : Multiset Way := (s.map Edge.way : List Way)

@[simp] theorem ways_nil : ways [] = 0 := rfl

@[simp] theorem ways_singleton (e : Edge) : ways [e] = {e.way} := rfl

theorem ways_cons (e : Edge) (s : EdgeSet) : ways (e :: s) = {e.way} + ways s := by
  rw [ways, List.map_cons, ← Multiset.cons_coe, Multiset.singleton_add, ways]

theorem mem_ways : w ∈ ways s ↔ ∃ e ∈ s, e.way = w := by
  simp [ways]

theorem any_same_iff (s : EdgeSet) (e : Edge) : (s.any (·.same e)) = true ↔ e.way ∈ ways s := by
  rw [List.any_eq_true, mem_ways]
  simp only [Edge.same_iff]

theorem mem_ways_add {e : Edge} : w ∈ ways (add s e) ↔ w ∈ ways s ∨ w = e.way := by
  rw [add]
  split
  · rename_i h
    rw [any_same_iff] at h
    constructor
    · exact Or.inl
    · rintro (hw | rfl)
      · exact hw
      · exact h
  · simp [ways]

/-- Adding an edge doubles no way. -/
theorem ways_add_le (s : EdgeSet) (e : Edge) : ways (add s e) ≤ ways s + {e.way} := by
  rw [add]
  split
  · exact Multiset.le_add_right _ _
  · refine le_of_eq ?_
    simp [ways, ← Multiset.coe_add]

theorem merge_cons (s : EdgeSet) (e : Edge) (t : List Edge) :
    merge s (e :: t) = merge (add s e) t := rfl

theorem mem_ways_merge {t : EdgeSet} : w ∈ ways (merge s t) ↔ w ∈ ways s ∨ w ∈ ways t := by
  induction t generalizing s with
  | nil => simp [merge]
  | cons e t ih =>
    rw [merge_cons, ih, mem_ways_add, ways_cons, Multiset.mem_add, Multiset.mem_singleton, or_assoc]

theorem ways_merge_le (s t : EdgeSet) : ways (merge s t) ≤ ways s + ways t := by
  induction t generalizing s with
  | nil => exact Multiset.le_add_right _ _
  | cons e t ih =>
    rw [merge_cons, ways_cons, ← add_assoc]
    exact (ih _).trans (add_le_add_left (ways_add_le s e) _)

end EdgeSet

/-- Where no way is doubled and none is lost, one that occurs at most once occurs as often. -/
theorem count_eq_of_le {A B : Multiset Way} (hle : A ≤ B) (hmem : ∀ w ∈ B, w ∈ A)
    (h : B.count w ≤ 1) : A.count w = B.count w := by
  have hcount := Multiset.count_le_of_le w hle
  rcases Nat.eq_zero_or_pos (B.count w) with hzero | hpos
  · omega
  · have hA := Multiset.count_pos.mpr (hmem w (Multiset.count_pos.mp hpos))
    omega

/-! ## The forks of statements -/

/-- How packets leave a stage: on the truth value of a condition, or on one of some labels for the
actions of a table and otherwise always. -/
inductive Fork where
  | test (cond : Expr)
  | onward (table : Option Text) (labels : List Text)

/-- The labels of a fork. -/
def Fork.labels : Fork → List Text
  | test _ => []
  | onward _ labels => labels

mutual

/-- How packets leave the stages of a statement. -/
def forksOf : Stmt → List Fork
  | .block ss => forksAll ss
  | .apply t => [.onward (some t.name) []]
  | .ifThen cond thn => .test cond :: forksOf thn
  | .ifElse cond thn els => .test cond :: (forksOf thn ++ forksOf els)
  | .switch (.actionRun t) cases =>
    .onward (some t.name) (cases.map Case.label) :: forksCases cases
  | _ => []

/-- How packets leave the stages of statements. -/
def forksAll : List Stmt → List Fork
  | [] => []
  | s :: ss => forksOf s ++ forksAll ss

/-- How packets leave the stages of the bodies of cases. -/
def forksCases : List Case → List Fork
  | [] => []
  | .bare _ :: cs => forksCases cs
  | .arm _ body :: cs => forksAll body ++ forksCases cs

end

/-- How packets leave the stage of a statement itself. -/
def ownForks : Stmt → List Fork
  | .apply t => [.onward (some t.name) []]
  | .ifThen cond _ | .ifElse cond _ _ => [.test cond]
  | .switch (.actionRun t) cases => [.onward (some t.name) (cases.map Case.label)]
  | _ => []

mutual

theorem each_forksOf {P : Stmt → Prop} {F : Fork → Prop} (hF : ∀ {s}, P s → ∀ f ∈ ownForks s, F f) :
    ∀ s : Stmt, s.Each P → ∀ f ∈ forksOf s, F f
  | .block ss, h => by
    rw [forksOf]
    exact each_forksAll hF ss h.2
  | .apply t, h => by
    rw [forksOf]
    exact hF (s := .apply t) h
  | .ifThen cond thn, h => by
    rw [forksOf]
    exact List.forall_mem_cons.mpr ⟨hF h.1 _ List.mem_cons_self, each_forksOf hF thn h.2⟩
  | .ifElse cond thn els, h => by
    rw [forksOf]
    exact List.forall_mem_cons.mpr ⟨hF h.1 _ List.mem_cons_self, List.forall_mem_append.mpr
      ⟨each_forksOf hF thn h.2.1, each_forksOf hF els h.2.2⟩⟩
  | .switch subject cases, h => by
    cases subject with
    | actionRun t =>
      rw [forksOf]
      exact List.forall_mem_cons.mpr ⟨hF h.1 _ List.mem_cons_self, each_forksCases hF cases h.2⟩
    | _ =>
      simp only [forksOf]
      exact List.forall_mem_nil _
  | .empty, _ | .exit, _ | .ret, _ | .assign _ _, _ | .call _ _ _, _ => by
    simp only [forksOf]
    exact List.forall_mem_nil _

/-- What holds of the forks of single statements holds of all forks in statements of a kind. -/
theorem each_forksAll {P : Stmt → Prop} {F : Fork → Prop}
    (hF : ∀ {s}, P s → ∀ f ∈ ownForks s, F f) :
    ∀ ss : List Stmt, EachStmt P ss → ∀ f ∈ forksAll ss, F f
  | [], _ => by
    rw [forksAll]
    exact List.forall_mem_nil _
  | s :: ss, h => by
    rw [forksAll]
    exact List.forall_mem_append.mpr ⟨each_forksOf hF s h.1, each_forksAll hF ss h.2⟩

theorem each_forksCases {P : Stmt → Prop} {F : Fork → Prop}
    (hF : ∀ {s}, P s → ∀ f ∈ ownForks s, F f) :
    ∀ cs : List Case, EachCase P cs → ∀ f ∈ forksCases cs, F f
  | [], _ => by
    rw [forksCases]
    exact List.forall_mem_nil _
  | .bare _ :: cs, h => by
    rw [forksCases]
    exact each_forksCases hF cs h
  | .arm _ body :: cs, h => by
    rw [forksCases]
    exact List.forall_mem_append.mpr ⟨each_forksAll hF body h.1, each_forksCases hF cs h.2⟩

end

/-- The labels of a switch are pairwise distinct. -/
def DistinctLabels : Stmt → Prop
  | .switch _ cases => (cases.map Case.label).Nodup
  | _ => True

instance : DecidablePred DistinctLabels
  | .switch .. => inferInstanceAs (Decidable (List.Nodup _))
  | .block _ | .ifThen .. | .ifElse .. | .apply _ | .exit | .ret | .empty | .assign .. | .call .. =>
    inferInstanceAs (Decidable True)

/-- The labels of each single switch of some statements are pairwise distinct. -/
abbrev DistinctLabelsAll : List Stmt → Prop := EachStmt DistinctLabels

/-- Where the labels of each switch are distinct, those of each fork are. -/
theorem nodup_labels_forksAll {ss : List Stmt} (h : DistinctLabelsAll ss) :
    ∀ f ∈ forksAll ss, f.labels.Nodup := by
  refine each_forksAll (fun {s} h f hf => ?_) ss h
  unfold ownForks at hf
  split at hf
  · cases List.mem_singleton.mp hf
    exact List.nodup_nil
  · cases List.mem_singleton.mp hf
    exact List.nodup_nil
  · cases List.mem_singleton.mp hf
    exact List.nodup_nil
  · cases List.mem_singleton.mp hf
    exact h
  · cases hf

/-! ## The ways out of stages -/

/-- The ways out of a condition: one for each truth value. -/
def bothWays (q : Nat) : Multiset Way := {Way.onTruth q true} + {Way.onTruth q false}

/-- The ways on labels out of a stage. -/
def labelWays (q : Nat) (labels : List Text) : Multiset Way :=
  (labels.map fun l => (⟨q, .onLabel, l⟩ : Way) : List Way)

theorem labelWays_cons (q : Nat) (l : Text) (labels : List Text) :
    labelWays q (l :: labels) = {⟨q, .onLabel, l⟩} + labelWays q labels := by
  rw [labelWays, List.map_cons, ← Multiset.cons_coe, Multiset.singleton_add, labelWays]

/-- The ways out of a stage at a position. -/
def Fork.ways (q : Nat) : Fork → Multiset Way
  | test _ => bothWays q
  | onward _ labels => {⟨q, .always, ""⟩} + labelWays q labels

/-- The ways out of stages one after the other, the first of which is at position `p`. -/
def waysAt : List Fork → Nat → Multiset Way
  | [], _ => 0
  | f :: fs, p => f.ways p + waysAt fs (p + 1)

theorem waysAt_singleton (f : Fork) (p : Nat) : waysAt [f] p = f.ways p := add_zero _

theorem waysAt_append (fs gs : List Fork) (p : Nat) :
    waysAt (fs ++ gs) p = waysAt fs p + waysAt gs (p + fs.length) := by
  induction fs generalizing p with
  | nil => exact (zero_add _).symm
  | cons f fs ih =>
    rw [List.cons_append, waysAt, waysAt, ih, List.length_cons, Nat.add_assoc p, Nat.add_comm 1,
      add_assoc]

theorem mem_bothWays : w ∈ bothWays q ↔ w = Way.onTruth q true ∨ w = Way.onTruth q false := by
  rw [bothWays, Multiset.mem_add, Multiset.mem_singleton, Multiset.mem_singleton]

theorem Fork.mem_ways_onward {table : Option Text} {labels : List Text} :
    w ∈ (Fork.onward table labels).ways q ↔
      w = ⟨q, .always, ""⟩ ∨ ∃ l ∈ labels, w = ⟨q, .onLabel, l⟩ := by
  simp only [Fork.ways, labelWays, Multiset.mem_add, Multiset.mem_singleton, Multiset.mem_coe,
    List.mem_map, eq_comm]

theorem Fork.source_of_mem_ways {f : Fork} (hw : w ∈ f.ways q) : w.source = q := by
  cases f with
  | test => rcases mem_bothWays.mp hw with rfl | rfl <;> rfl
  | onward => rcases Fork.mem_ways_onward.mp hw with rfl | ⟨l, -, rfl⟩ <;> rfl

theorem source_of_mem_waysAt {fs : List Fork} {p : Nat} (hw : w ∈ waysAt fs p) :
    p ≤ w.source ∧ w.source < p + fs.length := by
  induction fs generalizing p with
  | nil => exact absurd hw (Multiset.notMem_zero w)
  | cons f fs ih =>
    rw [List.length_cons]
    rcases Multiset.mem_add.mp hw with hw | hw
    · rw [Fork.source_of_mem_ways hw]
      omega
    · have hrest := ih hw
      omega

theorem exists_mem_waysAt {fs : List Fork} {p : Nat} (hp : p ≤ q) (hq : q < p + fs.length) :
    ∃ w ∈ waysAt fs p, w.source = q := by
  induction fs generalizing p with
  | nil => exact absurd hq (Nat.not_lt.mpr hp)
  | cons f fs ih =>
    rw [List.length_cons] at hq
    rcases Nat.eq_or_lt_of_le hp with rfl | hlt
    · cases f with
      | test => exact ⟨_, Multiset.mem_add.mpr (Or.inl (mem_bothWays.mpr (Or.inl rfl))), rfl⟩
      | onward =>
        exact ⟨_, Multiset.mem_add.mpr (Or.inl (Fork.mem_ways_onward.mpr (Or.inl rfl))), rfl⟩
    · obtain ⟨w, hw, hs⟩ := ih hlt (by omega)
      exact ⟨w, Multiset.mem_add.mpr (Or.inr hw), hs⟩

/-! ## No way occurs twice -/

theorem nodup_bothWays (p : Nat) : (bothWays p).Nodup := by
  rw [bothWays, Multiset.nodup_add]
  refine ⟨Multiset.nodup_singleton _, Multiset.nodup_singleton _, ?_⟩
  rw [Multiset.disjoint_singleton, Multiset.mem_singleton]
  simp [Way.onTruth]

theorem Fork.nodup_ways {f : Fork} (h : f.labels.Nodup) (q : Nat) : (f.ways q).Nodup := by
  cases f with
  | test => exact nodup_bothWays q
  | onward _ labels =>
    rw [Fork.ways, Multiset.nodup_add]
    refine ⟨Multiset.nodup_singleton _, ?_, ?_⟩
    · exact Multiset.coe_nodup.mpr (h.map fun a b hab => (Way.mk.inj hab).2.2)
    · rw [Multiset.singleton_disjoint]
      simp [labelWays]

/-- Stages without repeated labels have each of their ways once. -/
theorem nodup_waysAt {fs : List Fork} (h : ∀ f ∈ fs, f.labels.Nodup) (p : Nat) :
    (waysAt fs p).Nodup := by
  induction fs generalizing p with
  | nil => exact Multiset.nodup_zero
  | cons f fs ih =>
    rw [List.forall_mem_cons] at h
    rw [waysAt, Multiset.nodup_add]
    refine ⟨Fork.nodup_ways h.1 p, ih h.2 (p + 1), Multiset.disjoint_left.mpr fun hw hw' => ?_⟩
    have hsource := Fork.source_of_mem_ways hw
    have hlater := (source_of_mem_waysAt hw').1
    omega

end Flowline.ControlFlow
