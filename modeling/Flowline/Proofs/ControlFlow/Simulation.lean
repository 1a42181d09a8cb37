import Flowline.Proofs.ControlFlow.Following

/-!
# Statements against their stages

The stages that are built for a statement do what the statement does.  This is proved backwards.
Fix the visits that a packet has made when it comes to the exit.  If, behind a statement, a packet
on any live way ends with these visits, then so does a packet on any way that was live in front of
it (`walk_arrives`).  Nothing is assumed about what follows the statement, so the branches of a test
and the cases of a switch are all handed the same continuation.

A statement knows only its own stages; `Within` says that they stand in the finished graph, and that
no way out of them is missing from `waysOf`.  The latter is what decides the cases in which the next
stage is searched: a case that no way fits is passed over.
-/

namespace Flowline.ControlFlow

open Pipeline (Control)
open Source (Expr Stmt Case)

variable {g : Graph} {N : List Incoming} {o : Oracle}

/-- A packet that takes a way, with some visits made, comes to the exit with the visits given
last. -/
def Arrives (g : Graph) (N : List Incoming) (o : Oracle) (w : Way) (h h' : List Visit) : Prop :=
  ∃ n, Enters N w n ∧ Ends g o n h h'

/-- What remains of the control behind some progress leads to the exit with the given visits. -/
def Continues (g : Graph) (N : List Incoming) (o : Oracle) (p : Progress) (live : EdgeSet)
    (h' : List Visit) : Prop :=
  if p.goesOn then ∀ w ∈ EdgeSet.ways live, Arrives g N o w p.visits h' else p.visits = h'

variable {live : EdgeSet} {h h' : List Visit} {v : Vertex} {name : Text} {e : Expr}

theorem Continues.mono {p : Progress} {live' : EdgeSet} (hc : Continues g N o p live h')
    (hsub : ∀ w ∈ EdgeSet.ways live', w ∈ EdgeSet.ways live) : Continues g N o p live' h' := by
  rw [Continues] at hc ⊢
  split
  · rename_i hp
    rw [if_pos hp] at hc
    exact fun w hw => hc w (hsub w hw)
  · rename_i hp
    rwa [if_neg hp] at hc

/-! ## One step -/

/-- All live ways arrive if the stage that they enter leads to a way that arrives. -/
theorem arrives_of_step (hg : Finished g N) (hv : (v, live) ∈ N)
    (hexit : v.position ≠ g.exit.position) {taken : Way} (htaken : taken.source = v.position)
    {h₁ : List Visit} (hstep : ∀ n, Enters N taken n → g.step o v h = (n, h₁))
    (ha : Arrives g N o taken h₁ h') : ∀ w ∈ EdgeSet.ways live, Arrives g N o w h h' := by
  obtain ⟨n, hn, hend⟩ := ha
  have heq := hstep n hn
  intro w hw
  refine ⟨v, ⟨live, hv, hw⟩, Ends.step hexit ?_ ?_⟩
  · rw [heq, ← htaken]
    exact hg.forward taken n hn
  · rw [heq]
    exact hend

/-- The step at a table tries the action, the default label, the outcome, and what is always
taken. -/
theorem step_table (hrole : v.role = .table (some name)) (h : List Visit) :
    g.step o v h =
      (g.next v [(.onLabel, (o.outcome h name).action), (.onLabel, "default"),
        (if (o.outcome h name).isHit then .onTrue else .onFalse, ""), (.always, "")],
        h ++ [.table name]) := by
  simp only [Graph.step, hrole, Option.getD_some, Graph.afterHit, Graph.afterMiss]
  split <;> rfl

theorem step_cond (hrole : v.role = .cond e) (h : List Visit) :
    g.step o v h =
      (g.next v [(if o.truth h e then .onTrue else .onFalse, "")], h ++ [.cond e]) := by
  simp only [Graph.step, hrole, Graph.afterTest]

/-! ## Tests -/

theorem hitTest_eq_none (h : hitTest e = none) : tested? e = none := by
  fun_induction hitTest e with
  | case1 t expected => simp at h
  | case2 e ih =>
    rw [tested?]
    exact ih (Option.map_eq_none_iff.mp h)
  | case3 e hhit hneg =>
    unfold tested?
    split
    · exact absurd rfl (hhit _ _)
    · exact absurd rfl (hneg _)
    · rfl

/-- A test found in a condition holds when the outcome is the one it was found to hold on. -/
theorem hitTest_eq_some {t : TableRef} {b : Bool} (h : hitTest e = some (t, b)) :
    tested? e = some t ∧ ∀ isHit, testValue isHit e = (isHit == b) := by
  fun_induction hitTest e generalizing b with
  | case1 t' expected =>
    rw [Option.some.injEq, Prod.mk.injEq] at h
    obtain ⟨rfl, rfl⟩ := h
    exact ⟨rfl, fun _ => rfl⟩
  | case2 e ih =>
    obtain ⟨⟨t', b'⟩, hi, heq⟩ := Option.map_eq_some_iff.mp h
    rw [Prod.mk.injEq] at heq
    obtain ⟨rfl, rfl⟩ := heq
    refine ⟨(ih hi).1, fun isHit => ?_⟩
    rw [testValue, (ih hi).2]
    cases isHit <;> cases b' <;> rfl
  | case3 => cases h

theorem Way.onTruth_fits (p : Nat) (b : Bool) :
    (Way.onTruth p b).Fits p (if b then .onTrue else .onFalse) "" :=
  ⟨rfl, rfl, fun _ => rfl⟩

/-- The step at a test takes the way of the branch that the test chooses. -/
theorem step_test (hg : Finished g N) {d d₁ : Draft} {cond : Expr} {onThen : Bool}
    (hpush : d.pushTest cond live = ((v, onThen), d₁)) (hv : v.position < N.length)
    (hown : ∀ w n, Enters N w n → w.source = v.position →
      w = Way.onTruth v.position true ∨ w = Way.onTruth v.position false) (h : List Visit)
    {n : Vertex} (hn : Enters N (Way.onTruth v.position ((o.test cond h).1 == onThen)) n) :
    g.step o v h = (n, (o.test cond h).2) := by
  have honly : ∀ b w m, Enters N w m → w.Fits v.position (if b then .onTrue else .onFalse) "" →
      w = Way.onTruth v.position b := by
    intro b w m hm hfit
    rcases hown w m hm hfit.1 with rfl | rfl <;> cases b <;> simp [Way.Fits, Way.onTruth] at hfit ⊢
  have hlabel : ∀ l w m, Enters N w m → ¬ w.Fits v.position .onLabel l := by
    intro l w m hm hfit
    rcases hown w m hm hfit.1 with rfl | rfl <;> simp [Way.Fits, Way.onTruth] at hfit
  rw [Draft.pushTest] at hpush
  cases htest : hitTest cond with
  | some tb =>
    obtain ⟨t, b⟩ := tb
    simp only [htest, Prod.mk.injEq] at hpush
    obtain ⟨⟨hvertex, rfl⟩, -⟩ := hpush
    have hrole : v.role = .table (some t.name) := by rw [← hvertex]; rfl
    obtain ⟨ht, hvalue⟩ := hitTest_eq_some htest
    have hchosen : ((o.test cond h).1 == b) = (o.outcome h t.name).isHit := by
      simp only [Oracle.test, ht, hvalue]
      cases (o.outcome h t.name).isHit <;> cases b <;> rfl
    rw [hchosen] at hn
    have hnext : g.next v ([(.onLabel, (o.outcome h t.name).action), (.onLabel, "default")] ++
        (if (o.outcome h t.name).isHit then .onTrue else .onFalse, "") :: [(.always, "")]) = n := by
      refine hg.next_eq hv (fun q hq w m hm => ?_) hn (Way.onTruth_fits _ _) (honly _)
      rw [List.mem_cons, List.mem_singleton] at hq
      rcases hq with rfl | rfl
      · exact hlabel _ w m hm
      · exact hlabel _ w m hm
    rw [step_table hrole, Oracle.test, ht]
    exact congrArg (·, h ++ [Visit.table t.name]) hnext
  | none =>
    simp only [htest, Prod.mk.injEq] at hpush
    obtain ⟨⟨hvertex, rfl⟩, -⟩ := hpush
    have hrole : v.role = .cond cond := by rw [← hvertex]; rfl
    have ht := hitTest_eq_none htest
    have hchosen : ((o.test cond h).1 == true) = o.truth h cond := by
      simp [Oracle.test, ht]
    rw [hchosen] at hn
    have hnext : g.next v ([] ++ (if o.truth h cond then .onTrue else .onFalse, "") :: []) = n :=
      hg.next_eq hv (by simp) hn (Way.onTruth_fits _ _) (honly _)
    rw [step_cond hrole, Oracle.test, ht]
    exact congrArg (·, h ++ [Visit.cond cond]) hnext

/-! ## Statements inside a finished graph -/

/-- The stages of a draft stand in the finished graph, in front of its exit, and packets leave those
from position `p` on by the given forks. -/
structure Within (g : Graph) (N : List Incoming) (p : Nat) (fs : List Fork) (d : Draft) : Prop where
  nodes : d.nodes <+: N
  exits : ∀ w ∈ EdgeSet.ways d.exits, Enters N w g.exit
  before : d.nodes.length ≤ g.exit.position
  own : ∀ w n, Enters N w n → p ≤ w.source → w.source < p + fs.length → w ∈ waysAt fs p

namespace Within

variable {p k : Nat} {f : Fork} {fs gs : List Fork} {ws L L' : Multiset Way} {d d₁ : Draft}

/-- The first stages, as they stood in an earlier draft. -/
theorem left (h : Within g N p (fs ++ gs) d) (hpass : Passes k ws L d₁ L' d) :
    Within g N p fs d₁ where
  nodes := hpass.nodes.trans h.nodes
  exits := fun w hw => h.exits w (hpass.exits w hw)
  before := le_trans hpass.nodes.length_le h.before
  own := by
    intro w n hn hfirst hlast
    have hw := h.own w n hn hfirst (by rw [List.length_append]; omega)
    rw [waysAt_append, Multiset.mem_add] at hw
    rcases hw with hw | hw
    · exact hw
    · exact absurd (source_of_mem_waysAt hw).1 (Nat.not_le.mpr hlast)

theorem right (h : Within g N p (fs ++ gs) d) : Within g N (p + fs.length) gs d where
  nodes := h.nodes
  exits := h.exits
  before := h.before
  own := by
    intro w n hn hfirst hlast
    have hw := h.own w n hn (by omega) (by rw [List.length_append]; omega)
    rw [waysAt_append, Multiset.mem_add] at hw
    rcases hw with hw | hw
    · exact absurd (source_of_mem_waysAt hw).2 (Nat.not_lt.mpr hfirst)
    · exact hw

theorem rest (h : Within g N p (f :: fs) d) : Within g N (p + 1) fs d := by
  have hcons : Within g N p ([f] ++ fs) d := h
  exact hcons.right

theorem first (h : Within g N p (f :: fs) d) {w : Way} {n : Vertex} (hn : Enters N w n)
    (hsource : w.source = p) : w ∈ f.ways p := by
  have hmem := h.own w n hn hsource.ge (by rw [List.length_cons]; omega)
  rcases Multiset.mem_add.mp hmem with hw | hw
  · exact hw
  · exact absurd (source_of_mem_waysAt hw).1 (by omega)

/-- A stage that was pushed stands in the graph. -/
theorem mem_of_push (h : Within g N p fs d) {role : Role}
    (hpush : (d₁.push name role live).2.nodes <+: d.nodes) :
    (d₁.vertex name role, live) ∈ N ∧ d₁.nodes.length < N.length ∧
      d₁.nodes.length < g.exit.position := by
  have hlen := hpush.length_le
  rw [Draft.push_nodes, List.length_append, List.length_singleton] at hlen
  have hlenN := h.nodes.length_le
  have hexit := h.before
  refine ⟨(hpush.trans h.nodes).subset ?_, by omega, by omega⟩
  rw [Draft.push_nodes, List.mem_append, List.mem_singleton]
  exact Or.inr rfl

end Within

/-- All ways that enter a test arrive if the way of the chosen branch does. -/
theorem arrives_of_test (hg : Finished g N) {fs : List Fork} {d d' : Draft} {role : Role}
    {onThen : Bool} {cond : Expr}
    (hpush : d.pushTest cond live = ((d.vertex name role, onThen), (d.push name role live).2))
    (hin : Within g N d.nodes.length (.test cond :: fs) d')
    (hnodes : (d.push name role live).2.nodes <+: d'.nodes)
    (ha : Arrives g N o (Way.onTruth d.nodes.length ((o.test cond h).1 == onThen))
      (o.test cond h).2 h') : ∀ w ∈ EdgeSet.ways live, Arrives g N o w h h' := by
  obtain ⟨hmem, hpos, hexit⟩ := hin.mem_of_push hnodes
  refine arrives_of_step hg hmem (Nat.ne_of_lt hexit) rfl (fun n hn => ?_) ha
  exact step_test hg hpush hpos (fun w m hm hsource => mem_bothWays.mp (hin.first hm hsource)) h hn

/-- What has left a switch stays live behind it. -/
theorem mem_walkCases_of_mem (v : Vertex) (cs : List Case) (labels after : EdgeSet) (d : Draft)
    {w : Way} (hw : w ∈ EdgeSet.ways after) :
    w ∈ EdgeSet.ways (walkCases v cs labels after d).1 := by
  induction cs generalizing labels after d with
  | nil =>
    rw [walkCases]
    exact EdgeSet.mem_ways_merge.mpr (Or.inl hw)
  | cons c cs ih =>
    cases c with
    | bare l =>
      rw [walkCases]
      exact ih _ _ d hw
    | arm l body =>
      simp only [walkCases]
      exact ih _ _ _ (EdgeSet.mem_ways_merge.mpr (Or.inl hw))

/-- What is executed on a label is executed on a case that has it. -/
theorem executeCase_eq_none {l : Text} {cs : List Case} (hnone : executeCase o l cs h = none) :
    l ∉ cs.map Case.label := by
  induction cs with
  | nil => simp
  | cons c cs ih =>
    rw [List.map_cons, List.mem_cons, not_or]
    cases c <;> rw [executeCase] at hnone <;> split at hnone <;>
      first
        | cases hnone
        | exact ⟨fun heq => by rename_i hne; exact hne heq.symm, ih hnone⟩

/-- All ways that enter a table arrive if the first wanted way that is there does. -/
theorem arrives_of_table (hg : Finished g N) (hv : (v, live) ∈ N) (hpos : v.position < N.length)
    (hexit : v.position ≠ g.exit.position) (hrole : v.role = .table (some name))
    (tried : List (EdgeKind × Text)) {rest : List (EdgeKind × Text)} {k : EdgeKind} {l : Text}
    (hwanted : [(.onLabel, (o.outcome h name).action), (.onLabel, "default"),
      (if (o.outcome h name).isHit then .onTrue else .onFalse, ""), (.always, "")] =
        tried ++ (k, l) :: rest)
    (hnone : ∀ q ∈ tried, ∀ w m, Enters N w m → ¬ w.Fits v.position q.1 q.2)
    (honly : ∀ w m, Enters N w m → w.Fits v.position k l → w = ⟨v.position, k, l⟩)
    (ha : Arrives g N o ⟨v.position, k, l⟩ (h ++ [.table name]) h') :
    ∀ w ∈ EdgeSet.ways live, Arrives g N o w h h' := by
  refine arrives_of_step hg hv hexit rfl (fun n hn => ?_) ha
  rw [step_table hrole, hwanted]
  exact congrArg (·, _) (hg.next_eq hpos hnone hn ⟨rfl, rfl, fun _ => rfl⟩ honly)

/-- All ways that enter a switch arrive if the way of its action does: the way on its label, or
else on the default label, or else the way that is always open. -/
theorem arrives_of_switch (hg : Finished g N) {fs : List Fork} {d d' : Draft} {t : TableRef}
    {labels : List Text} (hin : Within g N d.nodes.length (.onward (some t.name) labels :: fs) d')
    (hnodes : (d.push t.name (.table (some t.name)) live).2.nodes <+: d'.nodes)
    (ha : Arrives g N o ⟨d.nodes.length, .onLabel, (o.outcome h t.name).action⟩
        (h ++ [.table t.name]) h' ∨
      (o.outcome h t.name).action ∉ labels ∧
        (Arrives g N o ⟨d.nodes.length, .onLabel, "default"⟩ (h ++ [.table t.name]) h' ∨
          "default" ∉ labels ∧
            Arrives g N o ⟨d.nodes.length, .always, ""⟩ (h ++ [.table t.name]) h')) :
    ∀ w ∈ EdgeSet.ways live, Arrives g N o w h h' := by
  obtain ⟨hmem, hpos, hexit⟩ := hin.mem_of_push hnodes
  have hown : ∀ w n, Enters N w n → w.source = d.nodes.length →
      w = ⟨d.nodes.length, .always, ""⟩ ∨ ∃ l ∈ labels, w = ⟨d.nodes.length, .onLabel, l⟩ :=
    fun w n hn hsource => Fork.mem_ways_onward.mp (hin.first hn hsource)
  have hlabel : ∀ l, l ∉ labels → ∀ w m, Enters N w m →
      ¬ w.Fits d.nodes.length .onLabel l := by
    intro l hl w m hm hfit
    rcases hown w m hm hfit.1 with rfl | ⟨l', hl', rfl⟩
    · exact absurd hfit.2.1 (by simp)
    · have heq : l' = l := hfit.2.2 rfl
      exact hl (heq ▸ hl')
  have honly : ∀ l w m, Enters N w m → w.Fits d.nodes.length .onLabel l →
      w = ⟨d.nodes.length, .onLabel, l⟩ := by
    intro l w m _ hfit
    obtain ⟨source, kind, label⟩ := w
    obtain ⟨rfl, rfl, hl⟩ := hfit
    rw [← hl rfl]
  have hlast := Nat.ne_of_lt hexit
  rcases ha with ha | ⟨hnot, ha | ⟨hdefault, ha⟩⟩
  · exact arrives_of_table hg hmem hpos hlast rfl [] rfl nofun (honly _) ha
  · refine arrives_of_table hg hmem hpos hlast rfl [_] rfl ?_ (honly _) ha
    exact List.forall_mem_singleton.mpr (hlabel _ hnot)
  · refine arrives_of_table hg hmem hpos hlast rfl [_, _, _] rfl ?_ ?_ ha
    · simp only [List.forall_mem_cons]
      refine ⟨hlabel _ hnot, hlabel _ hdefault, fun w m hm hfit => ?_, List.forall_mem_nil _⟩
      rcases hown w m hm hfit.1 with rfl | ⟨l, -, rfl⟩ <;>
        exact absurd hfit.2.1 (by split <;> simp)
    · intro w m hm hfit
      rcases hown w m hm hfit.1 with hw | ⟨l, -, rfl⟩
      · exact hw
      · exact absurd hfit.2.1 (by simp)

/-! ## The simulation -/

mutual

/-- Live ways in front of a statement arrive if the live ways behind it do. -/
theorem walk_arrives (hg : Finished g N) : ∀ (s : Stmt) (live : EdgeSet) (d : Draft),
    Within g N d.nodes.length (forksOf s) (walk s live d).2 →
    ∀ h h', Continues g N o (execute o s h) (walk s live d).1 h' →
      ∀ w ∈ EdgeSet.ways live, Arrives g N o w h h'
  | .block ss, live, d, hin, h, h', hc => by
    rw [walk] at hin hc
    rw [forksOf] at hin
    rw [execute] at hc
    exact walkAll_arrives hg ss live d hin h h' hc
  | .exit, live, d, hin, h, h', hc | .ret, live, d, hin, h, h', hc => by
    intro w hw
    rw [walk] at hin
    rw [execute] at hc
    have hvisits : h = h' := hc
    exact ⟨g.exit, hin.exits w (EdgeSet.mem_ways_merge.mpr (Or.inr hw)), hvisits ▸ Ends.exit rfl⟩
  | .apply t, live, d, hin, h, h', hc => by
    simp only [walk] at hin hc
    rw [forksOf] at hin
    rw [execute] at hc
    have harr := hc ⟨d.nodes.length, .always, ""⟩ (Multiset.mem_singleton_self _)
    refine arrives_of_switch hg hin List.prefix_rfl ?_
    exact Or.inr ⟨List.not_mem_nil, Or.inr ⟨List.not_mem_nil, harr⟩⟩
  | .ifThen cond thn, live, d, hin, h, h', hc => by
    obtain ⟨name, role, onThen, heq⟩ := d.pushTest_eq cond live
    simp only [walk, heq] at hin hc
    rw [forksOf] at hin
    rw [execute] at hc
    refine arrives_of_test hg heq hin (walk_passes thn _ _).nodes ?_
    cases hb : (o.test cond h).1 with
    | true =>
      simp only [hb, if_true] at hc
      have hlen : (d.push name role live).2.nodes.length = d.nodes.length + 1 := by simp
      refine walk_arrives hg thn _ _ ?_ _ h' (hc.mono fun w hw => EdgeSet.mem_ways_add.mpr
        (Or.inl hw)) _ (by simp)
      rw [hlen]
      exact hin.rest
    | false =>
      simp only [hb, Bool.false_eq_true, if_false] at hc
      exact hc _ (EdgeSet.mem_ways_add.mpr (Or.inr (by simp)))
  | .ifElse cond thn els, live, d, hin, h, h', hc => by
    obtain ⟨name, role, onThen, heq⟩ := d.pushTest_eq cond live
    simp only [walk, heq] at hin hc
    rw [forksOf] at hin
    rw [execute] at hc
    have hels := walk_passes els [Edge.onTruth (d.vertex name role) !onThen]
      (walk thn [Edge.onTruth (d.vertex name role) onThen] (d.push name role live).2).2
    have hlen : (d.push name role live).2.nodes.length = d.nodes.length + 1 := by simp
    refine arrives_of_test hg heq hin ((walk_passes thn _ _).nodes.trans hels.nodes) ?_
    cases hb : (o.test cond h).1 with
    | true =>
      simp only [hb, if_true] at hc
      refine walk_arrives hg thn _ _ ?_ _ h' (hc.mono fun w hw => EdgeSet.mem_ways_merge.mpr
        (Or.inl hw)) _ (by simp)
      rw [hlen]
      exact hin.rest.left hels
    | false =>
      simp only [hb, Bool.false_eq_true, if_false] at hc
      refine walk_arrives hg els _ _ ?_ _ h' (hc.mono fun w hw => EdgeSet.mem_ways_merge.mpr
        (Or.inr hw)) _ (by simp)
      rw [(walk_passes thn _ _).length, hlen]
      exact hin.rest.right
  | .switch subject cases, live, d, hin, h, h', hc => by
    cases subject with
    | actionRun t =>
      simp only [walk] at hin hc
      rw [forksOf] at hin
      have hlen : (d.push t.name (.table (some t.name)) live).2.nodes.length =
          d.nodes.length + 1 := by simp
      have hv : (d.vertex t.name (.table (some t.name))).position <
          (d.push t.name (.table (some t.name)) live).2.nodes.length := by simp
      have hpass := walkCases_passes (d.vertex t.name (.table (some t.name))) cases []
        [⟨d.vertex t.name (.table (some t.name)), .always, ""⟩] _ hv
      have hcases := walkCases_arrives hg (d.vertex t.name (.table (some t.name))) cases []
        [⟨d.vertex t.name (.table (some t.name)), .always, ""⟩]
        (d.push t.name (.table (some t.name)) live).2 hv (by rw [hlen]; exact hin.rest)
        (h ++ [.table t.name]) h'
      refine arrives_of_switch hg hin hpass.nodes ?_
      rw [execute] at hc
      -- the three places where the action can be found
      cases haction : executeCase o (o.outcome h t.name).action cases (h ++ [.table t.name]) with
      | some p =>
        rw [haction] at hc
        exact Or.inl (hcases.2 _ p haction hc)
      | none =>
        rw [haction] at hc
        refine Or.inr ⟨executeCase_eq_none haction, ?_⟩
        cases hdefault : executeCase o "default" cases (h ++ [.table t.name]) with
        | some p =>
          rw [hdefault] at hc
          exact Or.inl (hcases.2 _ p hdefault hc)
        | none =>
          rw [hdefault] at hc
          refine Or.inr ⟨executeCase_eq_none hdefault, hc _ ?_⟩
          exact mem_walkCases_of_mem _ _ _ _ _ (Multiset.mem_singleton_self _)
    | _ =>
      simp only [walk, execute] at hc
      exact hc
  | .empty, live, d, _, h, h', hc | .assign _ _, live, d, _, h, h', hc
  | .call _ _ _, live, d, _, h, h', hc => by
    simp only [walk, execute] at hc
    exact hc

/-- Live ways in front of statements arrive if the live ways behind them do. -/
theorem walkAll_arrives (hg : Finished g N) : ∀ (ss : List Stmt) (live : EdgeSet) (d : Draft),
    Within g N d.nodes.length (forksAll ss) (walkAll ss live d).2 →
    ∀ h h', Continues g N o (executeAll o ss h) (walkAll ss live d).1 h' →
      ∀ w ∈ EdgeSet.ways live, Arrives g N o w h h'
  | [], live, d, _, h, h', hc => by
    rw [walkAll, executeAll] at hc
    exact hc
  | s :: ss, live, d, hin, h, h', hc => by
    simp only [walkAll] at hin hc
    rw [forksAll] at hin
    rw [executeAll] at hc
    have hs := walk_passes s live d
    have hss := walkAll_passes ss (walk s live d).1 (walk s live d).2
    refine walk_arrives hg s live d (hin.left hss) h h' ?_
    rw [Continues]
    split
    · rename_i hgo
      rw [if_pos hgo] at hc
      refine walkAll_arrives hg ss _ _ ?_ _ h' hc
      rw [hs.length]
      exact hin.right
    · rename_i hgo
      rw [if_neg hgo, Continues, if_neg hgo] at hc
      exact hc

/-- Labels that wait for a body, and labels of the cases, arrive if the live ways behind the switch
do. -/
theorem walkCases_arrives (hg : Finished g N) : ∀ (v : Vertex) (cs : List Case)
    (labels after : EdgeSet) (d : Draft), v.position < d.nodes.length →
    Within g N d.nodes.length (forksCases cs) (walkCases v cs labels after d).2 →
    ∀ h h',
      (Continues g N o (executeBody o cs h) (walkCases v cs labels after d).1 h' →
        ∀ w ∈ EdgeSet.ways labels, Arrives g N o w h h') ∧
      ∀ l p, executeCase o l cs h = some p →
        Continues g N o p (walkCases v cs labels after d).1 h' →
          Arrives g N o ⟨v.position, .onLabel, l⟩ h h'
  | v, [], labels, after, d, _, _, h, h' => by
    refine ⟨fun hc w hw => ?_, fun l p hp => by simp [executeCase] at hp⟩
    rw [walkCases, executeBody] at hc
    exact hc w (EdgeSet.mem_ways_merge.mpr (Or.inr hw))
  | v, .bare l :: cs, labels, after, d, hv, hin, h, h' => by
    rw [walkCases, forksCases] at hin
    have hrest := walkCases_arrives hg v cs (EdgeSet.add labels ⟨v, .onLabel, l⟩) after d hv hin h h'
    rw [walkCases, executeBody]
    refine ⟨fun hc w hw => hrest.1 hc w (EdgeSet.mem_ways_add.mpr (Or.inl hw)),
      fun l' p hp hc => ?_⟩
    rw [executeCase] at hp
    split at hp
    · rename_i hl
      subst hl
      rw [← Option.some.inj hp] at hc
      exact hrest.1 hc _ (EdgeSet.mem_ways_add.mpr (Or.inr rfl))
    · exact hrest.2 l' p hp hc
  | v, .arm l body :: cs, labels, after, d, hv, hin, h, h' => by
    simp only [walkCases] at hin
    rw [forksCases] at hin
    have hbody := walkAll_passes body (EdgeSet.add labels ⟨v, .onLabel, l⟩) d
    have hv' : v.position <
        (walkAll body (EdgeSet.add labels ⟨v, .onLabel, l⟩) d).2.nodes.length := by
      rw [hbody.length]
      exact Nat.lt_add_right _ hv
    have hcs := walkCases_passes v cs []
      (EdgeSet.merge after (walkAll body (EdgeSet.add labels ⟨v, .onLabel, l⟩) d).1) _ hv'
    have hrest := walkCases_arrives hg v cs []
      (EdgeSet.merge after (walkAll body (EdgeSet.add labels ⟨v, .onLabel, l⟩) d).1) _ hv'
      (by rw [hbody.length]; exact hin.right) h h'
    -- the body runs on its own label and on all labels that wait for it
    have harm : Continues g N o (executeAll o body h) (walkCases v cs []
        (EdgeSet.merge after (walkAll body (EdgeSet.add labels ⟨v, .onLabel, l⟩) d).1)
        (walkAll body (EdgeSet.add labels ⟨v, .onLabel, l⟩) d).2).1 h' →
        ∀ w ∈ EdgeSet.ways (EdgeSet.add labels ⟨v, .onLabel, l⟩), Arrives g N o w h h' := by
      intro hc
      exact walkAll_arrives hg body _ d (hin.left hcs) h h' (hc.mono fun w hw =>
        mem_walkCases_of_mem _ _ _ _ _ (EdgeSet.mem_ways_merge.mpr (Or.inr hw)))
    simp only [walkCases]
    rw [executeBody]
    refine ⟨fun hc w hw => harm hc w (EdgeSet.mem_ways_add.mpr (Or.inl hw)), fun l' p hp hc => ?_⟩
    rw [executeCase] at hp
    split at hp
    · rename_i hl
      subst hl
      rw [← Option.some.inj hp] at hc
      exact harm hc _ (EdgeSet.mem_ways_add.mpr (Or.inr rfl))
    · exact hrest.2 l' p hp hc

end

end Flowline.ControlFlow
