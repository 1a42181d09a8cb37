import Flowline.Proofs.Flow.Leaves
import Flowline.Proofs.Lower.Bodies
import Flowline.Proofs.Lower.Contents
import Mathlib.Data.List.Forall2

/-!
# Bodies step by step

What a flow does to registers are its loads and moves, up to the first transfer to another stage
(`Action.steps`), and what the body of an action does are its assignments and calls, up to the first
`exit` or `return` (`stepsIn`), at whatever depth of blocks that stands.

Lowering makes one load or move of each step of a body, in their order, and a transfer to the exit
stage if the body ends by an `exit`; nothing else that it makes does anything (`ensures_body_laid`).
What a load or a move has to do with its statement is left open: it is a relation that one assignment
and one call have to ensure (`Lays`).  For a call that drops the packet it is `Drops`: a load of the
port that means nowhere into the register of the output port.
-/

namespace Flowline.Flow.Action

/-! ## Steps of an action -/

/-- The loads and moves of an action, in order, up to the first transfer to another stage. -/
def steps : Action → List Action
  | load src dst => [.load src dst.fold.1]
  | move src dst => [.move src.fold.1 dst.fold.1]
  | seq left right => if left.terminates then left.steps else left.steps ++ right.steps
  | _ => []

/-- The steps are the loads and moves among the leaves that stay. -/
theorem steps_eq (a : Action) : a.steps = a.kept.filter isStore := by
  induction a with
  | seq left right ihl ihr =>
    rw [steps, kept_seq, ihl, ihr]
    split
    · rfl
    · rw [List.filter_append]
  | load src dst => exact congrArg (fun e => [Action.load src e]) dst.fold_fst
  | move src dst =>
    show [Action.move src.fold.1 dst.fold.1] = [Action.move src.folded dst.folded]
    rw [src.fold_fst, dst.fold_fst]
  | _ => rfl

@[simp] theorem steps_simplify (a : Action) : a.simplify.steps = a.steps := by
  rw [steps_eq, kept_simplify, steps_eq]

end Flowline.Flow.Action

namespace Flowline.Lower

open Flowline.Flow (Action)
open Source (Expr Stmt)

/-! ## Steps of a body -/

mutual

/-- Whether nothing behind a statement is reached. -/
def ends : Stmt → Bool
  | .exit => true
  | .ret => true
  | .block ss => endsIn ss
  | _ => false

/-- Whether nothing behind statements is reached. -/
def endsIn : List Stmt → Bool
  | [] => false
  | s :: ss => ends s || endsIn ss

end

mutual

/-- The assignments and calls of a statement, up to the first that ends it. -/
def stepsOf : Stmt → List Stmt
  | .assign left right => [.assign left right]
  | .call target method args => [.call target method args]
  | .block ss => stepsIn ss
  | _ => []

/-- The assignments and calls of statements, up to the first that ends them. -/
def stepsIn : List Stmt → List Stmt
  | [] => []
  | s :: ss => if ends s then stepsOf s else stepsOf s ++ stepsIn ss

end

/-! ## Endings -/

/-- How something ends that is followed by something else if it does not end itself. -/
def Ending.andThen : Ending → Ending → Ending
  | .onward, e => e
  | e, _ => e

theorem Ending.andThen_of_ends {e : Ending} (h : e.ends = true) (e' : Ending) :
    e.andThen e' = e := by
  cases e <;> first | rfl | cases h

theorem Ending.eq_onward {e : Ending} (h : e.ends = false) : e = .onward := by
  cases e <;> first | rfl | cases h

mutual

/-- How a statement ends. -/
def ending : Stmt → Ending
  | .exit => .exited
  | .ret => .returned
  | .block ss => endingIn ss
  | _ => .onward

/-- How statements end: by the first `exit` or `return` among them, in blocks or not. -/
def endingIn : List Stmt → Ending
  | [] => .onward
  | s :: ss => (ending s).andThen (endingIn ss)

end

mutual

theorem ends_ending (s : Stmt) : (ending s).ends = ends s := by
  match s with
  | .block ss => exact ends_endingIn ss
  | .exit | .ret | .empty | .assign .. | .call .. | .ifThen .. | .ifElse .. | .switch ..
  | .apply _ => rfl

theorem ends_endingIn (ss : List Stmt) : (endingIn ss).ends = endsIn ss := by
  match ss with
  | [] => rfl
  | s :: ss =>
    rw [endingIn, endsIn, ← ends_ending s, ← ends_endingIn ss]
    cases ending s <;> rfl

end

/-! ## Lowered statements -/

/-- What statements became: a load or a move for each of their steps, in order, and then the
transfer of their ending. -/
structure Laid (R : Stmt → Action → Prop) (exitStage : Int64) (steps : List Stmt) (e : Ending)
    (done : Bool) (doing : List Action) : Prop where
  done_eq : done = e.ends
  exists_stores : ∃ stores, List.Forall₂ R steps stores ∧ (∀ act ∈ stores, act.isStore = true) ∧
    doing = stores ++ (e.stage? exitStage).toList.map .resubmit

namespace Laid

variable {R : Stmt → Action → Prop} {exitStage : Int64} {s : Stmt} {ss : List Stmt} {act : Action}
  {as : List Action} {done : Bool}

theorem single (hact : act.isStore = true) (hR : R s act) :
    Laid R exitStage [s] .onward false act.doing :=
  ⟨rfl, [act], .cons hR .nil, List.forall_mem_singleton.mpr hact,
    by rw [Action.doing_of_isStore hact]; rfl⟩

theorem none (e : Ending) :
    Laid R exitStage [] e e.ends ((e.stage? exitStage).toList.map .resubmit) :=
  ⟨rfl, [], .nil, List.forall_mem_nil _, rfl⟩

/-- Nothing behind a statement that ends is lowered. -/
theorem last (hs : Laid R exitStage (stepsOf s) (ending s) true act.doing) :
    Laid R exitStage (stepsIn (s :: ss)) (endingIn (s :: ss)) true ([act].flatMap Action.doing) := by
  have hends : ends s = true := (ends_ending s).symm.trans hs.done_eq.symm
  rw [stepsIn, if_pos hends, endingIn, Ending.andThen_of_ends hs.done_eq.symm,
    List.flatMap_singleton]
  exact hs

/-- A statement that does not end is followed by the rest. -/
theorem cons (hs : Laid R exitStage (stepsOf s) (ending s) false act.doing)
    (hss : Laid R exitStage (stepsIn ss) (endingIn ss) done (as.flatMap Action.doing)) :
    Laid R exitStage (stepsIn (s :: ss)) (endingIn (s :: ss)) done
      ((act :: as).flatMap Action.doing) := by
  have hends : ends s = false := (ends_ending s).symm.trans hs.done_eq.symm
  have honward : ending s = .onward := Ending.eq_onward hs.done_eq.symm
  obtain ⟨stores, hstores, hisStore, hdoing⟩ := hs.exists_stores
  obtain ⟨stores', hstores', hisStore', hdoing'⟩ := hss.exists_stores
  have hplain : act.doing = stores := by
    rw [hdoing, honward]
    exact List.append_nil stores
  rw [stepsIn, if_neg (by simp [hends]), endingIn, honward, Ending.andThen, List.flatMap_cons]
  refine ⟨hss.done_eq, stores ++ stores', List.rel_append hstores hstores',
    List.forall_mem_append.mpr ⟨hisStore, hisStore'⟩, ?_⟩
  rw [hplain, hdoing', List.append_assoc]

end Laid

variable {sub : Substitution} {R : Layout → Stmt → Action → Prop}

/-- What one assignment and one call become is a load or a move, related to the statement. -/
structure Lays (sub : Substitution) (R : Layout → Stmt → Action → Prop) : Prop where
  assign : ∀ left right, Ensures (assignment sub left right) fun L act =>
    act.isStore = true ∧ R L (.assign left right) act
  call : ∀ target method args, Ensures (call target method args) fun L act =>
    act.isStore = true ∧ R L (.call target method args) act

mutual

theorem ensures_statement_laid (hR : Lays sub R) (exitStage : Int64) (s : Stmt) :
    Ensures (statement sub exitStage s) fun L r =>
      Laid (R L) exitStage (stepsOf s) (ending s) r.2 r.1.doing := by
  match s with
  | .empty => exact ensures_pure fun _ => .none .onward
  | .exit => exact ensures_pure fun _ => .none .exited
  | .ret => exact ensures_pure fun _ => .none .returned
  | .block ss =>
    refine (ensures_statements_laid hR exitStage ss).bind fun r => ensures_pure fun L hr => ?_
    rw [Action.doing_all]
    exact hr
  | .assign left right =>
    refine (hR.assign left right).bind fun act => ensures_pure fun L hact => ?_
    exact .single hact.1 hact.2
  | .call target method args =>
    refine (hR.call target method args).bind fun act => ensures_pure fun L hact => ?_
    exact .single hact.1 hact.2
  | .ifThen .. | .ifElse .. | .switch .. | .apply _ => exact ensures_refuse _ _

theorem ensures_statements_laid (hR : Lays sub R) (exitStage : Int64) (ss : List Stmt) :
    Ensures (statements sub exitStage ss) fun L r =>
      Laid (R L) exitStage (stepsIn ss) (endingIn ss) r.2 (r.1.flatMap Action.doing) := by
  match ss with
  | [] => exact ensures_pure fun _ => .none .onward
  | s :: ss =>
    refine (ensures_statement_laid hR exitStage s).bind fun (act, done) => ?_
    dsimp only
    split
    · next hdone =>
      subst hdone
      exact ensures_pure fun L hs => hs.last
    · next hdone =>
      rw [Bool.not_eq_true] at hdone
      subst hdone
      refine (ensures_statements_laid hR exitStage ss).bind fun r => ?_
      exact ensures_pure fun L hss hs => hs.cons hss

end

/-- **A lowered body is its loads and moves and the transfer of its ending.** -/
theorem ensures_body_laid (hR : Lays sub R) (exitStage : Int64) (ss : List Stmt) :
    Ensures (body sub exitStage ss) fun L act =>
      ∃ stores, List.Forall₂ (R L) (stepsIn ss) stores ∧ (∀ x ∈ stores, x.isStore = true) ∧
        act.doing = stores ++ ((endingIn ss).stage? exitStage).toList.map .resubmit := by
  refine (ensures_statements_laid hR exitStage ss).bind fun r => ensures_pure fun L hr => ?_
  rw [Action.doing_all]
  exact hr.exists_stores

theorem filter_isStore_laid {flow : Action} {stores : List Action} {stage : Option Int64}
    (hstores : ∀ x ∈ stores, x.isStore = true)
    (hdoing : flow.doing = stores ++ stage.toList.map .resubmit) :
    flow.leaves.filter Action.isStore = stores := by
  rw [Action.filter_isStore_leaves, hdoing, List.filter_append, List.filter_eq_self.mpr hstores]
  cases stage <;> exact List.append_nil stores

/-! ## Calls that drop the packet -/

/-- A call that drops the packet is the load of the port that means nowhere. -/
def Drops (L : Layout) (s : Stmt) (step : Action) : Prop :=
  ∀ target args, s = .call target "mark_to_drop" args →
    ∃ r, L.port = some r ∧ step = loadDropPort L.target.dropPort r

/-- Calls drop the packet, whatever the parameters stand for. -/
theorem lays_drops (sub : Substitution) : Lays sub Drops where
  assign left right := (ensures_assignmentOf sub left right).mono fun L act hact => by
    obtain ⟨dst, src, -, -, hstore⟩ := hact.exists_store
    refine ⟨?_, fun _ _ hcall => by cases hcall⟩
    cases hstore <;> rfl
  call target method args := (ensures_call_drop target method args).mono fun L act hact => by
    obtain ⟨-, r, hr, rfl⟩ := hact
    exact ⟨rfl, fun _ _ _ => ⟨r, hr, rfl⟩⟩

end Flowline.Lower
