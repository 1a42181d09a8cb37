import Flowline.Proofs.Flow.Contents
import Flowline.Proofs.Flow.Running

/-!
# The leaves of an action

An action is a tree of sequences; its leaves stand in the order in which they are done
(`Action.leaves`), and its text is their texts with commas between them (`Action.text_eq`).

Simplifying is known by what it does to the leaves.  Those that do nothing go, and so do those
behind the first transfer; the ones that stay have their registers folded, and the actions of copies
simplified (`Action.tidied`).  Each pass that changes something makes the tree smaller, so the passes
reach a tree that a further pass leaves as it is, and such a tree is in normal form.
-/

namespace Flowline.Flow

/-! ## Values -/

/-- A value in which each part that a register has is a register itself. -/
def Expr.folded : Expr → Expr
  | slice e low high =>
    match (slice e low high).asRegister with
    | some r => .reg r
    | none => .slice e.folded low high
  | e => e

theorem Expr.fold_fst (e : Expr) : e.fold.1 = e.folded := by
  induction e with
  | slice e low high ih =>
    rw [Expr.folded]
    split
    · next r hr => exact fold_of_asRegister hr
    · next hnone =>
      have hreg := e.asRegister_fold
      rw [Expr.asRegister, ← hreg] at hnone
      rw [Expr.fold, ← ih]
      split
      · next r changed hfold =>
        rw [hfold] at hnone ⊢
        rw [Expr.asRegister, Option.bind_some] at hnone
        rw [hnone]
      · next base changed _ hfold => rw [hfold]
  | _ => rfl

/-! ## Progress -/

/-- A rewriting tells whether it changed a tree, and makes what it changes smaller. -/
def Shrinks {α : Type} (size : α → Nat) (x : α) (r : α × Bool) : Prop :=
  r.2 = false ∧ r.1 = x ∨ r.2 = true ∧ size r.1 < size x

namespace Shrinks

variable {α β γ : Type} {size : α → Nat} {size' : β → Nat} {size'' : γ → Nat} {x : α} {y : β}
  {r : α × Bool} {q : β × Bool}

theorem size_le (h : Shrinks size x r) : size r.1 ≤ size x := by
  rcases h with ⟨-, he⟩ | ⟨-, hlt⟩
  · rw [he]
  · exact hlt.le

theorem eq_of_unchanged (h : Shrinks size x r) (hr : r.2 = false) : r.1 = x := by
  rcases h with ⟨-, he⟩ | ⟨htrue, -⟩
  · exact he
  · rw [hr] at htrue
    cases htrue

theorem map {f : α → β} (h : Shrinks size x r) (hf : ∀ x, size' (f x) = size x + 1) :
    Shrinks size' (f x) (f r.1, r.2) := by
  rcases h with ⟨hr, he⟩ | ⟨hr, hlt⟩
  · exact .inl ⟨hr, congrArg f he⟩
  · refine .inr ⟨hr, ?_⟩
    rw [hf, hf]
    exact Nat.add_lt_add_right hlt 1

theorem map₂ {f : α → β → γ} (hx : Shrinks size x r) (hy : Shrinks size' y q)
    (hf : ∀ x y, size'' (f x y) = size x + size' y + 1) :
    Shrinks size'' (f x y) (f r.1 q.1, r.2 || q.2) := by
  have hsizes : size'' (f r.1 q.1) = size r.1 + size' q.1 + 1 := hf _ _
  have hsize := hf x y
  have hle := hx.size_le
  have hle' := hy.size_le
  rcases hx with ⟨hr, he⟩ | ⟨hr, hlt⟩
  · rcases hy with ⟨hq, he'⟩ | ⟨hq, hlt'⟩
    · exact .inl ⟨Bool.or_eq_false_iff.mpr ⟨hr, hq⟩, congrArg₂ f he he'⟩
    · exact .inr ⟨Bool.or_eq_true_iff.mpr (.inr hq), by dsimp only; omega⟩
  · exact .inr ⟨Bool.or_eq_true_iff.mpr (.inl hr), by dsimp only; omega⟩

end Shrinks

theorem Expr.size_pos (e : Expr) : 0 < e.size := by
  cases e <;> exact Nat.succ_pos _

theorem Expr.shrinks_fold (e : Expr) : Shrinks Expr.size e e.fold := by
  induction e with
  | slice e low high ih =>
    have hslice : Shrinks Expr.size (slice e low high) (slice e.fold.1 low high, e.fold.2) :=
      ih.map (f := fun x => slice x low high) fun _ => rfl
    rw [Expr.fold]
    split
    · next r changed hfold =>
      rw [hfold] at hslice
      split
      · exact .inr ⟨rfl, Nat.lt_add_of_pos_left e.size_pos⟩
      · exact hslice
    · next base changed _ hfold => rwa [hfold] at hslice
  | _ => exact .inl ⟨rfl, rfl⟩

theorem Expr.folded_of_unchanged {e : Expr} (h : e.fold.2 = false) : e.folded = e := by
  rw [← fold_fst, e.shrinks_fold.eq_of_unchanged h]

variable {a : Action}

namespace Action

/-! ## Leaves -/

/-- The actions that are no sequences, in order. -/
def leaves : Action → List Action
  | seq left right => left.leaves ++ right.leaves
  | a => [a]

theorem leaves_foldl (a : Action) (as : List Action) :
    (as.foldl .seq a).leaves = a.leaves ++ as.flatMap leaves :=
  foldl_eq_flatMap (fun _ _ => rfl) a as

theorem leaves_ne_nil (a : Action) : a.leaves ≠ [] := by
  induction a with
  | seq left right ihl _ => exact List.append_ne_nil_of_left_ne_nil ihl _
  | _ => exact List.cons_ne_nil _ _

/-- An action ends with the packet at another stage when one of its leaves does. -/
theorem any_terminates_leaves (a : Action) : a.leaves.any terminates = a.terminates := by
  induction a with
  | seq left right ihl ihr => rw [leaves, List.any_append, ihl, ihr, terminates]
  | _ => rfl

/-- The leaves of an action that do something. -/
def doing (a : Action) : List Action := a.leaves.filter fun b => !b.isEmpty

theorem doing_seq (left right : Action) : (seq left right).doing = left.doing ++ right.doing :=
  List.filter_append _ _

theorem doing_all (as : List Action) : (Action.all as).doing = as.flatMap doing := by
  cases as with
  | nil => rfl
  | cons a as =>
    rw [doing, Action.all, leaves_foldl, ← List.flatMap_cons, List.filter_flatMap]
    rfl

/-- What does nothing is no transfer. -/
theorem any_terminates_doing (a : Action) : a.doing.any terminates = a.terminates := by
  rw [doing, List.any_filter, ← any_terminates_leaves]
  congr 1
  funext b
  cases b <;> rfl

/-- Whether an action writes a register. -/
def isStore : Action → Bool
  | load _ _ => true
  | move _ _ => true
  | _ => false

theorem doing_of_isStore (h : a.isStore = true) : a.doing = [a] := by
  cases a <;> first | rfl | cases h

theorem filter_isStore_leaves (a : Action) : a.leaves.filter isStore = a.doing.filter isStore := by
  rw [doing, List.filter_filter]
  congr 1
  funext b
  cases b <;> rfl

theorem terminates_of_isStore (h : a.isStore = true) : a.terminates = false := by
  cases a <;> first | rfl | cases h

/-! ## Text -/

/-- Texts with commas between those that are there. -/
def joined (texts : List Text) : Text := ", ".intercalate (texts.filter (· ≠ ""))

theorem joined_singleton (t : Text) : joined [t] = t := by
  by_cases ht : t = ""
  · rw [ht]
    rfl
  · have hfilter : [t].filter (· ≠ "") = [t] := List.filter_eq_self.mpr (by simpa using ht)
    rw [joined, hfilter, String.intercalate_singleton]

theorem joined_eq_empty (texts : List Text) :
    joined texts = "" ↔ texts.filter (· ≠ "") = [] := by
  constructor
  · intro h
    rw [joined] at h
    cases hfilter : texts.filter (· ≠ "") with
    | nil => rfl
    | cons t ts =>
      have ht : t ∈ texts.filter (· ≠ "") := hfilter ▸ List.mem_cons_self
      have hne : t ≠ "" := of_decide_eq_true (List.mem_filter.mp ht).2
      rw [hfilter] at h
      cases ts with
      | nil => exact absurd (String.intercalate_singleton.symm.trans h) hne
      | cons u us =>
        rw [String.intercalate_cons_cons, String.append_eq_empty_iff,
          String.append_eq_empty_iff] at h
        exact absurd h.1.1 hne
  · intro h
    rw [joined, h, String.intercalate_nil]

theorem joined_append (xs ys : List Text) :
    joined (xs ++ ys) =
      if joined xs = "" then joined ys
      else if joined ys = "" then joined xs else joined xs ++ ", " ++ joined ys := by
  have happend : joined (xs ++ ys) =
      ", ".intercalate (xs.filter (· ≠ "") ++ ys.filter (· ≠ "")) := by
    rw [joined, List.filter_append]
  rw [happend]
  simp only [joined_eq_empty]
  split
  · next hxs => rw [hxs, List.nil_append, joined]
  · next hxs =>
    split
    · next hys => rw [hys, List.append_nil, joined]
    · next hys => exact String.intercalate_append_of_ne_nil hxs hys

/-- **The text of an action is the texts of its leaves**, those that have one, with commas between
them. -/
theorem text_eq (a : Action) : a.text = joined (a.leaves.map text) := by
  induction a with
  | seq left right ihl ihr =>
    rw [leaves, List.map_append, joined_append, ← ihl, ← ihr]
    rfl
  | _ => exact (joined_singleton _).symm

/-! ## What stays -/

/-- Actions up to the first that ends with the packet at another stage. -/
def cutOff : List Action → List Action
  | [] => []
  | a :: as => if a.terminates then [a] else a :: cutOff as

/-- An action that is no sequence, with its registers folded, and what it does with copies
simplified. -/
def refined : Action → Action
  | move src dst => .move src.folded dst.folded
  | load src dst => .load src dst.folded
  | output port => .output port.folded
  | clone a => .clone a.simplify
  | a => a

/-- The leaves that stay: those that do something, up to the first transfer. -/
def kept (a : Action) : List Action := (cutOff a.doing).map refined

/-- The leaves that stay, or the one that does nothing if none does. -/
def tidied (a : Action) : List Action :=
  match a.kept with
  | [] => [.empty]
  | a :: as => a :: as

theorem cutOff_append (as bs : List Action) :
    cutOff (as ++ bs) = if as.any terminates then cutOff as else as ++ cutOff bs := by
  induction as with
  | nil => rfl
  | cons a as ih =>
    rw [List.cons_append, cutOff, cutOff, List.any_cons, ih]
    cases a.terminates <;> cases as.any terminates <;> rfl

theorem cutOff_of_not_any {as : List Action} (h : as.any terminates = false) :
    cutOff as = as := by
  have happend := cutOff_append as []
  rwa [h, if_neg (by decide), cutOff, List.append_nil] at happend

/-- Nothing of the second half of a sequence stays behind a transfer in the first. -/
theorem kept_seq (left right : Action) :
    (seq left right).kept = if left.terminates then left.kept else left.kept ++ right.kept := by
  rw [kept, doing_seq, cutOff_append, any_terminates_doing]
  split
  · rfl
  · next hleft =>
    rw [Bool.not_eq_true, ← any_terminates_doing] at hleft
    rw [List.map_append, kept, cutOff_of_not_any hleft, kept]

/-- An action in normal form: no sequence in it has a half that does nothing, or something behind a
transfer. -/
def Normal : Action → Prop
  | seq left right =>
    left ≠ .empty ∧ right ≠ .empty ∧ left.terminates = false ∧ left.Normal ∧ right.Normal
  | clone a => a.Normal
  | _ => True

/-! ## Passes -/

theorem size_pos (a : Action) : 0 < a.size := by
  cases a <;> exact Nat.succ_pos _

theorem shrinks_pass (a : Action) : Shrinks size a a.pass := by
  induction a with
  | seq left right ihl ihr =>
    have hsize : (seq left right).size = left.size + right.size + 1 := rfl
    have hl := ihl.size_le
    have hr := ihr.size_le
    rw [Action.pass]
    dsimp only
    split
    · exact .inr ⟨rfl, by dsimp only; omega⟩
    · split
      · exact .inr ⟨rfl, by dsimp only; omega⟩
      · split
        · exact .inr ⟨rfl, by dsimp only; omega⟩
        · exact ihl.map₂ ihr fun _ _ => rfl
  | clone a ih => exact ih.map fun _ => rfl
  | move src dst => exact src.shrinks_fold.map₂ dst.shrinks_fold fun _ _ => rfl
  | load src dst => exact dst.shrinks_fold.map fun _ => rfl
  | output port => exact port.shrinks_fold.map fun _ => rfl
  | _ => exact .inl ⟨rfl, rfl⟩

/-- What a pass leaves as it is. -/
def Settled (a : Action) : Prop := a.pass = (a, false)

theorem settled_of_unchanged (h : a.pass.2 = false) : a.Settled :=
  Prod.ext (a.shrinks_pass.eq_of_unchanged h) h

/-- As many passes as the tree has nodes are enough. -/
theorem settled_passes {n : Nat} (h : a.size ≤ n) : (a.passes n).Settled := by
  induction n generalizing a with
  | zero => exact absurd h (Nat.not_le.mpr a.size_pos)
  | succ n ih =>
    have hshrinks := a.shrinks_pass
    rw [Action.passes]
    split
    · next b hpass =>
      rw [hpass] at hshrinks
      rcases hshrinks with ⟨hfalse, -⟩ | ⟨-, hlt⟩
      · cases hfalse
      · exact ih (Nat.le_of_lt_succ (Nat.lt_of_lt_of_le hlt h))
    · next b hpass =>
      rw [hpass] at hshrinks
      have hb : b = a := hshrinks.eq_of_unchanged rfl
      rw [hb] at hpass ⊢
      exact hpass

theorem settled_simplify (a : Action) : a.simplify.Settled := settled_passes le_rfl

theorem passes_of_settled (h : a.Settled) (n : Nat) : a.passes n = a := by
  cases n with
  | zero => rfl
  | succ n => rw [Action.passes, h]

theorem simplify_of_settled (h : a.Settled) : a.simplify = a :=
  passes_of_settled h a.size

/-- Passes are repeated until one changes nothing. -/
inductive Settles : Action → Action → Prop
  | stop {a b : Action} : a.pass = (b, false) → Settles a b
  | again {a b c : Action} : a.pass = (b, true) → Settles b c → Settles a c

namespace Settles

theorem unique {b c : Action} (hb : a.Settles b) (hc : a.Settles c) : b = c := by
  induction hb with
  | stop hpass =>
    cases hc with
    | stop hpass' => exact (Prod.ext_iff.mp (hpass.symm.trans hpass')).1
    | again hpass' _ => cases hpass.symm.trans hpass'
  | again hpass _ ih =>
    cases hc with
    | stop hpass' => cases hpass.symm.trans hpass'
    | again hpass' hc =>
      cases hpass.symm.trans hpass'
      exact ih hc

theorem of_passes (n : Nat) (h : (a.passes n).Settled) : a.Settles (a.passes n) := by
  induction n generalizing a with
  | zero => exact .stop h
  | succ n ih =>
    rw [Action.passes] at h ⊢
    split at h
    · next b hpass => exact .again hpass (ih h)
    · next b hpass => exact .stop hpass

end Settles

/-- Simplifying is repeating passes until one changes nothing. -/
theorem settles_iff (a b : Action) : a.Settles b ↔ b = a.simplify := by
  have hsimplify : a.Settles a.simplify := .of_passes a.size a.settled_simplify
  constructor
  · exact fun h => h.unique hsimplify
  · rintro rfl
    exact hsimplify

theorem simplify_pass (a : Action) : a.pass.1.simplify = a.simplify := by
  rw [← settles_iff]
  rcases a.shrinks_pass with ⟨-, he⟩ | ⟨hchanged, -⟩
  · rw [he, settles_iff]
  · exact .again (Prod.ext rfl hchanged) ((settles_iff _ _).mpr rfl)

/-! ## Passes and leaves -/

theorem kept_pass (a : Action) : a.pass.1.kept = a.kept := by
  have hnil : empty.kept = [] := rfl
  induction a with
  | seq left right ihl ihr =>
    rw [kept_seq, ← terminates_pass left, ← ihl, ← ihr, Action.pass]
    dsimp only
    split
    · rfl
    · next hleft =>
      split
      · next hempty => rw [eq_empty_of_isEmpty hempty, hnil, List.nil_append]
      · split
        · next hempty => rw [eq_empty_of_isEmpty hempty, hnil, List.append_nil]
        · rw [kept_seq, if_neg hleft]
  | clone a ih =>
    show [clone a.pass.1.simplify] = [clone a.simplify]
    rw [simplify_pass]
  | move src dst =>
    show [move src.fold.1.folded dst.fold.1.folded] = [move src.folded dst.folded]
    rw [← Expr.fold_fst, ← Expr.fold_fst, Expr.fold_fold, Expr.fold_fold, Expr.fold_fst,
      Expr.fold_fst]
  | load src dst =>
    show [load src dst.fold.1.folded] = [load src dst.folded]
    rw [← Expr.fold_fst, Expr.fold_fold, Expr.fold_fst]
  | output port =>
    show [output port.fold.1.folded] = [output port.folded]
    rw [← Expr.fold_fst, Expr.fold_fold, Expr.fold_fst]
  | _ => rfl

/-- Where a pass changes no sequence, it changes neither half, and has nothing to drop. -/
theorem settled_seq {left right : Action} (h : (seq left right).Settled) :
    left.Settled ∧ right.Settled ∧ left.terminates = false ∧ left ≠ .empty ∧ right ≠ .empty := by
  rw [Settled, Action.pass] at h
  dsimp only at h
  split at h
  · cases (Prod.ext_iff.mp h).2
  · next hterminates =>
    split at h
    · cases (Prod.ext_iff.mp h).2
    · next hleft =>
      split at h
      · cases (Prod.ext_iff.mp h).2
      · next hright =>
        obtain ⟨hlc, hrc⟩ := Bool.or_eq_false_iff.mp (Prod.ext_iff.mp h).2
        obtain ⟨hle, hre⟩ := seq.inj (Prod.ext_iff.mp h).1
        rw [hle] at hterminates hleft
        rw [hre] at hright
        refine ⟨Prod.ext hle hlc, Prod.ext hre hrc, Bool.not_eq_true _ ▸ hterminates, ?_, ?_⟩
        · rintro rfl
          exact hleft rfl
        · rintro rfl
          exact hright rfl

theorem normal_of_settled (h : a.Settled) : a.Normal := by
  induction a with
  | seq left right ihl ihr =>
    obtain ⟨hl, hr, hterminates, hleft, hright⟩ := settled_seq h
    exact ⟨hleft, hright, hterminates, ihl hl, ihr hr⟩
  | clone a ih => exact ih (settled_of_unchanged (Prod.ext_iff.mp h).2)
  | _ => trivial

theorem kept_of_settled (h : a.Settled) (hempty : a ≠ .empty) : a.kept = a.leaves := by
  induction a with
  | seq left right ihl ihr =>
    obtain ⟨hl, hr, hterminates, hleft, hright⟩ := settled_seq h
    rw [kept_seq, hterminates, if_neg (by decide), ihl hl hleft, ihr hr hright]
    rfl
  | empty => exact absurd rfl hempty
  | clone a =>
    have ha : a.Settled := settled_of_unchanged (Prod.ext_iff.mp h).2
    show [clone a.simplify] = [clone a]
    rw [simplify_of_settled ha]
  | move src dst =>
    obtain ⟨hs, hd⟩ := Bool.or_eq_false_iff.mp (Prod.ext_iff.mp h).2
    show [move src.folded dst.folded] = [move src dst]
    rw [Expr.folded_of_unchanged hs, Expr.folded_of_unchanged hd]
  | load src dst =>
    show [load src dst.folded] = [load src dst]
    rw [Expr.folded_of_unchanged (Prod.ext_iff.mp h).2]
  | output port =>
    show [output port.folded] = [output port]
    rw [Expr.folded_of_unchanged (Prod.ext_iff.mp h).2]
  | _ => rfl

theorem tidied_of_settled (h : a.Settled) : a.tidied = a.leaves := by
  by_cases hempty : a = .empty
  · rw [hempty]
    rfl
  · rw [tidied, kept_of_settled h hempty]
    cases hleaves : a.leaves with
    | nil => exact absurd hleaves a.leaves_ne_nil
    | cons b bs => rfl

@[simp] theorem kept_simplify (a : Action) : a.simplify.kept = a.kept :=
  simplify_of_pass (P := fun b => b.kept = a.kept) (fun b hb => (kept_pass b).trans hb) rfl

/-- The leaves of a simplified action are those of the action that stay. -/
theorem leaves_simplify (a : Action) : a.simplify.leaves = a.tidied := by
  rw [← tidied_of_settled a.settled_simplify, tidied, kept_simplify, tidied]

/-- **Simplifying is exact.**  Passes that are repeated until one changes nothing come to an end,
and only at the simplified action.  Its leaves are those of the action that do something, up to the
first transfer, with their registers folded and the actions of copies simplified, or the one that
does nothing if there are none.  No sequence in it has a half that does nothing, or something behind
a transfer, and it is simplified itself. -/
theorem simplify_exact (a : Action) :
    (∀ b, a.Settles b ↔ b = a.simplify) ∧ a.simplify.leaves = a.tidied ∧
      a.simplify.Normal ∧ a.simplify.simplify = a.simplify :=
  ⟨a.settles_iff, a.leaves_simplify, normal_of_settled a.settled_simplify,
    simplify_of_settled a.settled_simplify⟩

end Action

end Flowline.Flow
