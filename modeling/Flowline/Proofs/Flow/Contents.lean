import Flowline.Flow.Simplify
import Mathlib.Data.List.Basic

/-!
# What a flow mentions

The stages that a match asks for, the stages that an action sends packets to, and the variables that
their texts interpolate.  What is sent on by a copy of a packet is kept apart (`Action.clones`).

Simplifying adds nothing to any of them: what a pass keeps, all passes keep
(`Action.simplify_of_pass`, `Match.apply_simplify`).
-/

namespace Flowline.Flow

variable {a : Action} {m : Match}

/-! ## Values -/

/-- The variables of a value. -/
def Expr.vars : Expr → List Text
  | var name _ => [name]
  | slice e _ _ => e.vars
  | _ => []

theorem Expr.vars_fold (e : Expr) : e.fold.1.vars = e.vars := by
  induction e with
  | slice e low high ih =>
    rw [Expr.fold]
    split
    · next r changed hfold =>
      rw [hfold] at ih
      split
      · exact ih
      · exact ih
    · next base changed _ hfold =>
      rw [hfold] at ih
      exact ih
  | _ => rfl

/-! ## Matches -/

/-- The stages that a match asks for. -/
def Match.stages : Match → List Int64
  | table stage => [stage]
  | seq left right => left.stages ++ right.stages
  | _ => []

/-- The variables of a match. -/
def Match.vars : Match → List Text
  | equals left right mask => left.vars ++ right.vars ++ mask.elim [] Expr.vars
  | priority e => e.vars
  | interpolated name => [name]
  | seq left right => left.vars ++ right.vars
  | _ => []

/-- The priorities that a match names. -/
def Match.priorities : Match → List Expr
  | priority e => [e]
  | seq left right => left.priorities ++ right.priorities
  | _ => []

/-- What a sequence of two has from both of them, a longer one has from all its members. -/
theorem foldl_eq_flatMap {α β : Type} {op : α → α → α} {f g : α → List β}
    (hop : ∀ x y, f (op x y) = f x ++ g y) (x : α) (xs : List α) :
    f (xs.foldl op x) = f x ++ xs.flatMap g := by
  induction xs generalizing x with
  | nil => exact (List.append_nil _).symm
  | cons y ys ih => rw [List.foldl_cons, ih, hop, List.flatMap_cons, List.append_assoc]

theorem foldl_iff_forall {α : Type} {op : α → α → α} {p : α → Prop}
    (hop : ∀ x y, p (op x y) ↔ p x ∧ p y) (x : α) (xs : List α) :
    p (xs.foldl op x) ↔ p x ∧ ∀ y ∈ xs, p y := by
  induction xs generalizing x with
  | nil => simp
  | cons y ys ih => rw [List.foldl_cons, ih, hop, List.forall_mem_cons, and_assoc]

theorem Match.stages_foldl (m : Match) (ms : List Match) :
    (ms.foldl .seq m).stages = m.stages ++ ms.flatMap Match.stages :=
  foldl_eq_flatMap (fun _ _ => rfl) m ms

theorem Match.vars_foldl (m : Match) (ms : List Match) :
    (ms.foldl .seq m).vars = m.vars ++ ms.flatMap Match.vars :=
  foldl_eq_flatMap (fun _ _ => rfl) m ms

theorem Match.priorities_foldl (m : Match) (ms : List Match) :
    (ms.foldl .seq m).priorities = m.priorities ++ ms.flatMap Match.priorities :=
  foldl_eq_flatMap (fun _ _ => rfl) m ms

theorem Match.all?_eq_flatMap {β : Type} {f : Match → List β} {ms : List Match}
    (hf : ∀ l r, f (.seq l r) = f l ++ f r) (h : Match.all? ms = some m) : f m = ms.flatMap f := by
  cases ms with
  | nil => cases h
  | cons x ms =>
    cases h
    exact foldl_eq_flatMap hf x ms

theorem Match.stages_all? {ms : List Match} (h : Match.all? ms = some m) :
    m.stages = ms.flatMap Match.stages :=
  all?_eq_flatMap (fun _ _ => rfl) h

theorem Match.vars_all? {ms : List Match} (h : Match.all? ms = some m) :
    m.vars = ms.flatMap Match.vars :=
  all?_eq_flatMap (fun _ _ => rfl) h

/-- What a pass over a match keeps, simplifying keeps. -/
theorem Match.simplify_of_pass {P : Match → Prop} (hpass : ∀ m, P m → P m.pass.1) (h : P m) :
    P m.simplify := by
  suffices hall : ∀ n m, P m → P (Match.passes n m) from hall _ m h
  intro n
  induction n with
  | zero => exact fun m hm => hm
  | succ n ih =>
    intro m hm
    have hstep := hpass m hm
    rw [Match.passes]
    split
    · next b heq =>
      rw [heq] at hstep
      exact ih b hstep
    · next b heq =>
      rw [heq] at hstep
      exact hstep

/-- What is put together from the conditions of a match and is the same of a folded comparison,
simplifying keeps. -/
theorem Match.apply_simplify {β : Type} {f : Match → β} (op : β → β → β)
    (hseq : ∀ l r, f (.seq l r) = op (f l) (f r))
    (hequals : ∀ l r mask, f (.equals l.fold.1 r mask) = f (.equals l r mask)) (m : Match) :
    f m.simplify = f m := by
  refine simplify_of_pass (P := fun x => f x = f m) (fun x hx => ?_) rfl
  rw [← hx]
  clear hx
  induction x with
  | seq left right ihl ihr =>
    show f (.seq left.pass.1 right.pass.1) = _
    rw [hseq, ihl, ihr, hseq]
  | equals left right mask => exact hequals left right mask
  | _ => rfl

@[simp] theorem Match.stages_simplify (m : Match) : m.simplify.stages = m.stages :=
  apply_simplify (· ++ ·) (fun _ _ => rfl) (fun _ _ _ => rfl) m

@[simp] theorem Match.vars_simplify (m : Match) : m.simplify.vars = m.vars :=
  apply_simplify (· ++ ·) (fun _ _ => rfl) (fun l _ _ => by rw [vars, l.vars_fold, vars]) m

@[simp] theorem Match.priorities_simplify (m : Match) : m.simplify.priorities = m.priorities :=
  apply_simplify (· ++ ·) (fun _ _ => rfl) (fun _ _ _ => rfl) m

/-! ## Actions -/

/-- The stages that an action sends the packet itself to. -/
def Action.jumps : Action → List Int64
  | resubmit stage => [stage]
  | seq left right => left.jumps ++ right.jumps
  | _ => []

/-- What is done with copies of the packet. -/
def Action.clones : Action → List Action
  | clone a => [a]
  | seq left right => left.clones ++ right.clones
  | _ => []

/-- The variables of an action. -/
def Action.vars : Action → List Text
  | move src dst => src.vars ++ dst.vars
  | load src dst => src.vars ++ dst.vars
  | seq left right => left.vars ++ right.vars
  | clone a => a.vars
  | output port => port.vars
  | var name => [name]
  | _ => []

/-- What a pass over an action keeps, simplifying keeps. -/
theorem Action.simplify_of_pass {P : Action → Prop} (hpass : ∀ a, P a → P a.pass.1) (h : P a) :
    P a.simplify := by
  suffices hall : ∀ n a, P a → P (Action.passes n a) from hall _ a h
  intro n
  induction n with
  | zero => exact fun a ha => ha
  | succ n ih =>
    intro a ha
    have hstep := hpass a ha
    rw [Action.passes]
    split
    · next b heq =>
      rw [heq] at hstep
      exact ih b hstep
    · next b heq =>
      rw [heq] at hstep
      exact hstep

/-- An action sends packets to some stages only, makes no copies, and has some variables only. -/
structure Action.Within (targets : List Int64) (names : List Text) (a : Action) : Prop where
  jumps : a.jumps ⊆ targets
  clones : a.clones = []
  vars : a.vars ⊆ names

namespace Action.Within

variable {targets : List Int64} {names : List Text}

theorem seq_iff {b : Action} :
    (Action.seq a b).Within targets names ↔ a.Within targets names ∧ b.Within targets names := by
  constructor
  · rintro ⟨hj, hc, hv⟩
    have hc' := List.append_eq_nil_iff.mp hc
    exact ⟨⟨(List.append_subset.mp hj).1, hc'.1, (List.append_subset.mp hv).1⟩,
      ⟨(List.append_subset.mp hj).2, hc'.2, (List.append_subset.mp hv).2⟩⟩
  · rintro ⟨ha, hb⟩
    exact ⟨List.append_subset.mpr ⟨ha.jumps, hb.jumps⟩,
      List.append_eq_nil_iff.mpr ⟨ha.clones, hb.clones⟩,
      List.append_subset.mpr ⟨ha.vars, hb.vars⟩⟩

theorem mono {targets' : List Int64} {names' : List Text} (h : a.Within targets names)
    (ht : targets ⊆ targets') (hn : names ⊆ names') : a.Within targets' names' :=
  ⟨List.Subset.trans h.jumps ht, h.clones, List.Subset.trans h.vars hn⟩

theorem empty : Action.empty.Within targets names :=
  ⟨List.nil_subset _, rfl, List.nil_subset _⟩

theorem resubmit {stage : Int64} (h : stage ∈ targets) :
    (Action.resubmit stage).Within targets names :=
  ⟨List.cons_subset.mpr ⟨h, List.nil_subset _⟩, rfl, List.nil_subset _⟩

theorem load {src dst : Expr} (hsrc : src.vars ⊆ names) (hdst : dst.vars ⊆ names) :
    (Action.load src dst).Within targets names :=
  ⟨List.nil_subset _, rfl, List.append_subset.mpr ⟨hsrc, hdst⟩⟩

theorem move {src dst : Expr} (hsrc : src.vars ⊆ names) (hdst : dst.vars ⊆ names) :
    (Action.move src dst).Within targets names :=
  ⟨List.nil_subset _, rfl, List.append_subset.mpr ⟨hsrc, hdst⟩⟩

theorem foldl {as : List Action} (ha : a.Within targets names)
    (has : ∀ b ∈ as, b.Within targets names) : (as.foldl .seq a).Within targets names :=
  (foldl_iff_forall (fun _ _ => seq_iff) a as).mpr ⟨ha, has⟩

theorem all {as : List Action} (has : ∀ a ∈ as, a.Within targets names) :
    (Action.all as).Within targets names := by
  cases as with
  | nil => exact empty
  | cons a as =>
    rw [List.forall_mem_cons] at has
    exact foldl has.1 has.2

theorem pass (h : a.Within targets names) : a.pass.1.Within targets names := by
  induction a with
  | seq left right ihl ihr =>
    obtain ⟨hl, hr⟩ := seq_iff.mp h
    have hl' := ihl hl
    have hr' := ihr hr
    rw [Action.pass]
    dsimp only
    split
    · exact hl'
    · split
      · exact hr'
      · split
        · exact hl'
        · exact seq_iff.mpr ⟨hl', hr'⟩
  | clone a => cases h.clones
  | move src dst =>
    obtain ⟨hs, hd⟩ := List.append_subset.mp h.vars
    exact move (src.vars_fold ▸ hs) (dst.vars_fold ▸ hd)
  | load src dst =>
    obtain ⟨hs, hd⟩ := List.append_subset.mp h.vars
    exact load hs (dst.vars_fold ▸ hd)
  | output port =>
    have hport : port.fold.1.vars ⊆ names := port.vars_fold ▸ h.vars
    exact ⟨List.nil_subset _, rfl, hport⟩
  | _ => exact h

theorem simplify (h : a.Within targets names) : a.simplify.Within targets names :=
  simplify_of_pass (fun _ hx => pass hx) h

end Action.Within

end Flowline.Flow
