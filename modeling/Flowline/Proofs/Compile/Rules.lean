import Flowline.Proofs.Compile.Keys

/-!
# What a rule writes

The rows of the relations are run through the body of a rule, one term after the other: each term
adds variables to every row that came so far, or keeps some rows only.  At the end the text of the
flow is filled in for every row that is left (`StageFlow.texts?`); a fact has an empty body and is
written once.

Two assumptions on the language stand in `Binding.extend?`.  Grouping rows by a variable keeps one
row for each of its values, and joining concatenates what all rows of the group have for another
variable, with a comma and a blank between them.  The choice among the actions of a table is left
out.
-/

namespace Flowline.Compile

open Ddlog (Env Value)

deriving instance DecidableEq for Value

/-- The rows of all relations. -/
abbrev Contents := Text → List (List Value)

/-- The variables of the patterns of a row. -/
def bindAll? : List Pattern → List Value → Option Env
  | [], [] => some []
  | pattern :: patterns, v :: vs => do
    let env ← pattern.bind? v
    let rest ← bindAll? patterns vs
    pure (env ++ rest)
  | _, _ => none

/-- Whether a variable has a number other than zero. -/
def isNonzero (v : Text) (env : Env) : Bool :=
  match env.lookup v with
  | some (.bits _ n) => n != 0
  | _ => false

/-- The row of a group: its own variable, and the texts of another one joined. -/
def joinGroup? (name source group : Text) (envs : List Env) (key : Value) : Option Env := do
  let members := envs.filter fun env => env.lookup group = some key
  let texts ← members.mapM fun env => (env.lookup source).bind Value.text?
  pure [(name, .text (", ".intercalate texts)), (group, key)]

/-- The rows behind a term. -/
def Binding.extend? (p : Ddlog.Program) (contents : Contents) (envs : List Env) :
    Binding → Option (List Env)
  | .row relation patterns => do
    let blocks ← envs.mapM fun env => (contents relation).mapM fun vs =>
      (bindAll? patterns vs).map (· ++ env)
    pure blocks.flatten
  | .nonzero v => some (envs.filter (isNonzero v))
  | .actionText name a =>
    envs.mapM fun env => (fill p env a.pieces).map fun t => (name, .text t) :: env
  | .joined name source group => do
    let keys ← envs.mapM fun env => env.lookup group
    keys.dedup.mapM (joinGroup? name source group envs)
  | .choice _ => none
  | b => envs.mapM fun env => bindIn? p env b

/-- The texts that a flow is written as, one for each row behind the body of its rule. -/
def StageFlow.texts? (p : Ddlog.Program) (contents : Contents) (f : StageFlow) :
    Option (List Text) := do
  let envs ← f.bindings.foldlM (Binding.extend? p contents) [[]]
  envs.mapM fun env => fill p env f.flow.pieces

/-! ## Rows one by one -/

theorem mapM_eq_some {α β : Type} {f : α → Option β} {xs : List α} {ys : List β}
    (h : List.Forall₂ (fun x y => f x = some y) xs ys) : xs.mapM f = some ys := by
  induction h with
  | nil => rfl
  | cons hx _ ih =>
    rw [List.mapM_cons, hx, ih]
    rfl

theorem mapM_map_eq_some {α β γ : Type} {f : β → Option γ} {g : α → β} {k : α → γ} {xs : List α}
    (h : ∀ x ∈ xs, f (g x) = some (k x)) : (xs.map g).mapM f = some (xs.map k) := by
  refine mapM_eq_some ?_
  rw [List.forall₂_map_left_iff, List.forall₂_map_right_iff, List.forall₂_same]
  exact h

/-- Where every row gives a result of a kind, so do all rows. -/
theorem exists_mapM {α β : Type} {f : α → Option β} {R : α → β → Prop} {xs : List α}
    (h : ∀ x ∈ xs, ∃ y, f x = some y ∧ R x y) : ∃ ys, xs.mapM f = some ys ∧ List.Forall₂ R xs ys := by
  induction xs with
  | nil => exact ⟨[], rfl, .nil⟩
  | cons x xs ih =>
    rw [List.forall_mem_cons] at h
    obtain ⟨⟨y, hy, hR⟩, hrest⟩ := h
    obtain ⟨ys, hys, hRs⟩ := ih hrest
    refine ⟨y :: ys, ?_, .cons hR hRs⟩
    rw [List.mapM_cons, hy, hys]
    rfl

end Flowline.Compile
