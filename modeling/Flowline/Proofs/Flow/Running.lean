import Flowline.Flow.Simplify
import Flowline.Proofs.Switch.Memory

/-!
# Running actions

What a flow does to the memory of the switch, and where it sends the packet (`Action.run`).  A run
is stuck where the switch would refuse the action: a destination that is no register, a constant
that does not fit, a move between different widths.

Simplifying an action changes none of its runs (`Action.run_simplify`), stuck ones included.  What
is dropped behind a transfer never runs, because an action that can transfer always does
(`Action.run_of_terminates`).
-/

namespace Flowline.Flow

open Switch (Memory Target)

/-- The memory after an action, and the stage the packet goes to if it leaves.  Actions that reach
beyond the memory have no run here. -/
def Action.run (t : Target) : Action → Memory → Option (Memory × Option Int64)
  | empty, m => some (m, none)
  | load (.const n _) dst, m =>
    dst.asRegister.bind fun d =>
      if 0 ≤ n ∧ n < 2 ^ (d.places t).length then some (m.write (d.places t) n.toNat, none)
      else none
  | move src dst, m =>
    src.asRegister.bind fun s => dst.asRegister.bind fun d =>
      if (s.places t).length = (d.places t).length then
        some (m.write (d.places t) (m.read (s.places t)), none)
      else none
  | resubmit stage, m => some (m, some stage)
  | seq left right, m =>
    match left.run t m with
    | some (m', none) => right.run t m'
    | stopped => stopped
  | _, _ => none

/-- Runs actions one after the other, until one of them sends the packet away. -/
def Action.runAll (t : Target) : List Action → Memory → Option (Memory × Option Int64)
  | [], m => some (m, none)
  | a :: as, m =>
    match a.run t m with
    | some (m', none) => runAll t as m'
    | stopped => stopped

variable {t : Target}

/-! ## Sequences -/

theorem Action.run_foldl (a : Action) (as : List Action) (m : Memory) :
    (as.foldl .seq a).run t m = Action.runAll t (a :: as) m := by
  induction as generalizing a with
  | nil =>
    rw [List.foldl_nil, runAll]
    rcases a.run t m with _ | ⟨m', _ | stage⟩ <;> rfl
  | cons b bs ih =>
    rw [List.foldl_cons, ih, runAll, runAll, Action.run]
    rcases a.run t m with _ | ⟨m', _ | stage⟩ <;> rfl

theorem Action.run_all (as : List Action) (m : Memory) :
    (Action.all as).run t m = Action.runAll t as m := by
  cases as with
  | nil => rfl
  | cons a as => exact run_foldl a as m

/-! ## Simplifying -/

/-- Folding a value keeps its register. -/
theorem Expr.asRegister_fold (e : Expr) : e.fold.1.asRegister = e.asRegister := by
  induction e with
  | reg | const | var => rfl
  | slice e low high ih =>
    rw [Expr.asRegister, ← ih, Expr.fold]
    split
    · next r changed hfold =>
      rw [hfold]
      split
      · next s hs => rw [Expr.asRegister, Expr.asRegister, Option.bind_some, hs]
      · rfl
    · next base changed _ hfold =>
      rw [hfold]
      rfl

theorem Expr.fold_fold (e : Expr) : e.fold.1.fold.1 = e.fold.1 := by
  induction e with
  | reg | const | var => rfl
  | slice e low high ih =>
    rw [Expr.fold]
    split
    · next r changed hfold =>
      split
      · rfl
      · next hs =>
        have hreg : (Expr.reg r).fold = (.reg r, false) := rfl
        rw [Expr.fold, hreg]
        dsimp only
        rw [hs]
    · next base changed hbase hfold =>
      rw [hfold] at ih
      rw [Expr.fold]
      split
      · next r again hagain =>
        rw [hagain] at ih
        exact absurd ih.symm (hbase r)
      · next base' again _ hagain =>
        rw [hagain] at ih
        exact congrArg (fun x => Expr.slice x low high) ih

/-- A value that denotes a register folds to it. -/
theorem Expr.fold_of_asRegister {e : Expr} {r : Switch.Register} (h : e.asRegister = some r) :
    e.fold.1 = .reg r := by
  induction e generalizing r with
  | reg s =>
    cases h
    rfl
  | const | var => cases h
  | slice e low high ih =>
    obtain ⟨s, hs, hslice⟩ := Option.bind_eq_some_iff.mp h
    have hfold := ih hs
    rw [Expr.fold]
    split
    · next s' changed heq =>
      rw [heq] at hfold
      cases hfold
      rw [hslice]
    · next base changed hbase heq =>
      rw [heq] at hfold
      exact absurd hfold (hbase s)

/-- An action that can transfer never runs through to its end. -/
theorem Action.run_of_terminates {a : Action} (h : a.terminates = true) (m m' : Memory) :
    a.run t m ≠ some (m', none) := by
  induction a generalizing m m' with
  | resubmit stage =>
    intro hrun
    cases hrun
  | seq left right ihl ihr =>
    rw [Action.terminates, Bool.or_eq_true] at h
    rw [Action.run]
    rcases hl : left.run t m with _ | ⟨m₁, _ | stage⟩
    · exact nofun
    · rcases h with h | h
      · exact absurd hl (ihl h m m₁)
      · exact ihr h m₁ m'
    · exact nofun
  | _ => cases h

theorem Action.eq_empty_of_isEmpty {a : Action} (h : a.isEmpty = true) : a = .empty := by
  cases a <;> first | rfl | cases h

theorem Action.terminates_pass (a : Action) : a.pass.1.terminates = a.terminates := by
  induction a with
  | seq left right ihl ihr =>
    rw [Action.pass, terminates, ← ihl, ← ihr]
    dsimp only
    split
    · next hleft => rw [hleft, Bool.true_or]
    · next hleft =>
      rw [Bool.not_eq_true] at hleft
      rw [hleft, Bool.false_or]
      split
      · rfl
      · split
        · next hempty =>
          rw [eq_empty_of_isEmpty hempty, hleft]
          rfl
        · rw [terminates, hleft, Bool.false_or]
  | _ => rfl

theorem Action.run_pass (a : Action) (m : Memory) : a.pass.1.run t m = a.run t m := by
  induction a generalizing m with
  | seq left right ihl ihr =>
    rw [Action.pass, Action.run, ← ihl]
    dsimp only
    split
    · next hterminates =>
      -- nothing behind a transfer runs
      rcases hl : left.pass.1.run t m with _ | ⟨m', _ | stage⟩
      · rfl
      · exact absurd hl (run_of_terminates hterminates m m')
      · rfl
    · split
      · next hempty =>
        rw [eq_empty_of_isEmpty hempty]
        exact ihr m
      · split
        · next hempty =>
          have hright : ∀ m', right.run t m' = some (m', none) := by
            intro m'
            rw [← ihr, eq_empty_of_isEmpty hempty]
            rfl
          rcases left.pass.1.run t m with _ | ⟨m', _ | stage⟩
          · rfl
          · exact (hright m').symm
          · rfl
        · rw [Action.run]
          rcases left.pass.1.run t m with _ | ⟨m', _ | stage⟩
          · rfl
          · exact ihr m'
          · rfl
  | move src dst =>
    show (Action.move src.fold.1 dst.fold.1).run t m = _
    rw [Action.run, Action.run, Expr.asRegister_fold, Expr.asRegister_fold]
  | load src dst =>
    show (Action.load src dst.fold.1).run t m = _
    cases src with
    | const value base => rw [Action.run, Action.run, Expr.asRegister_fold]
    | _ => rfl
  | _ => rfl

theorem Action.run_passes (n : Nat) (a : Action) (m : Memory) :
    (a.passes n).run t m = a.run t m := by
  induction n generalizing a with
  | zero => rfl
  | succ n ih =>
    rw [← run_pass a m, Action.passes]
    split
    · next b hpass => rw [ih, hpass]
    · next b hpass => rw [hpass]

/-- **Simplifying keeps all runs.** -/
theorem Action.run_simplify (a : Action) (m : Memory) : a.simplify.run t m = a.run t m :=
  run_passes a.size a m

end Flowline.Flow
