import Flowline.Lower.Body
import Flowline.Lower.Condition
import Flowline.Proofs.Lower.Running
import Flowline.Proofs.Source.Statements

/-!
# What a lowering asks of the register file

A lowering changes the register file by calls for registers only, whether or not it succeeds
(`Asks`).  Which calls these can be is read off the expressions: storage that has a register of its
own asks for it, under its own name and with the width of its type (`Uses`).

So whatever holds of a register file after any calls holds after any lowering.
-/

namespace Flowline.Lower

open Source (EachStmt Expr Stmt)
open Switch (Allocator)
open Switch.Allocator (Request)

variable {α β : Type}

/-- The call for the register of a field. -/
def fieldRequest (f : Field) : Request := ⟨f.name, f.type.width, f.type.minWidth, f.type.isBool⟩

/-- The call for the register of a local. -/
def localRequest (l : Local) : Request :=
  ⟨l.fullName, l.type.width, l.type.minWidth, l.type.isBool⟩

/-- A lowering changes the register file by calls of a kind. -/
def Asks (S : Request → Prop) (x : Lowering α) : Prop :=
  ∀ a, ∃ qs, (∀ q ∈ qs, S q) ∧ (outcome x a).2 = a.serve qs

section

variable {S : Request → Prop}

theorem asks_of_eq {x : Lowering α} (h : ∀ a, (outcome x a).2 = a) : Asks S x :=
  fun a => ⟨[], nofun, h a⟩

theorem asks_pure (v : α) : Asks S (pure v) := asks_of_eq fun _ => rfl

theorem asks_throw (p : Problem) : Asks S (throw p : Lowering α) := asks_of_eq fun _ => rfl

theorem asks_refuse (construct reason : Text) : Asks S (refuse construct reason : Lowering α) :=
  asks_throw _

theorem asks_get : Asks S (get : Lowering Allocator) := asks_of_eq fun _ => rfl

theorem asks_ofExcept (x : Except Problem α) : Asks S (ofExcept x) := by
  cases x with
  | ok v => exact asks_pure v
  | error p => exact asks_throw p

theorem Asks.bind {x : Lowering α} {f : α → Lowering β} (hx : Asks S x) (hf : ∀ v, Asks S (f v)) :
    Asks S (x >>= f) := by
  intro a
  obtain ⟨qs, hqs, hx⟩ := hx a
  rw [outcome_bind]
  rcases hrun : outcome x a with ⟨p | v, a'⟩
  · rw [hrun] at hx
    exact ⟨qs, hqs, hx⟩
  · rw [hrun] at hx
    obtain ⟨rs, hrs, hf⟩ := hf v a'
    refine ⟨qs ++ rs, List.forall_mem_append.mpr ⟨hqs, hrs⟩, ?_⟩
    have hx' : a' = a.serve qs := hx
    show (outcome (f v) a').2 = _
    rw [hf, hx', Allocator.serve, Allocator.serve, Allocator.serve, List.foldl_append]

theorem Asks.map {x : Lowering α} {f : α → β} (hx : Asks S x) : Asks S (f <$> x) := by
  rw [← bind_pure_comp]
  exact hx.bind fun v => asks_pure (f v)

theorem asks_allocate {q : Request} (hq : S q) :
    Asks S (allocate q.name q.declared q.minimum q.isBool) := by
  intro a
  refine ⟨[q], List.forall_mem_singleton.mpr hq, ?_⟩
  show _ = a.take q
  unfold allocate Allocator.take
  have hget : outcome (get : Lowering Allocator) a = (.ok a, a) := rfl
  rw [outcome_bind, hget]
  dsimp only
  cases a.allocate q.name q.declared q.minimum q.isBool <;> rfl

/-! ## Storage -/

theorem asks_fieldRegister {f : Field}
    (h : f.builtin = .none → f.packet = none → S (fieldRequest f)) :
    Asks S (fieldRegister f) := by
  unfold fieldRegister
  split
  · exact asks_get.bind fun a => asks_ofExcept _
  · exact asks_get.bind fun a => asks_ofExcept _
  · next hbuiltin =>
    split
    · exact asks_ofExcept _
    · next hpacket => exact asks_allocate (h hbuiltin hpacket)

theorem asks_localRegister {l : Local} (h : S (localRequest l)) : Asks S (localRegister l) :=
  asks_allocate (q := localRequest l) h

/-- Storage in an expression asks for its register by a call of a kind. -/
def Uses (S : Request → Prop) : Expr → Prop
  | .field f => f.builtin = .none → f.packet = none → S (fieldRequest f)
  | .localVar l => S (localRequest l)
  | .binary _ left right => Uses S left ∧ Uses S right
  | .negation e => Uses S e
  | .slice e _ _ => Uses S e
  | .cast _ e => Uses S e
  | _ => True

/-- Where nothing is ruled out, all storage may be used. -/
theorem uses_of_forall (h : ∀ q, S q) (e : Expr) : Uses S e := by
  cases e with
  | field f => exact fun _ _ => h _
  | localVar l => exact h _
  | binary _ left right => exact ⟨uses_of_forall h left, uses_of_forall h right⟩
  | negation e | slice e _ _ | cast _ e => exact uses_of_forall h e
  | _ => trivial

/-! ## Values -/

theorem asks_cutConstant (n : Int) (base width : Int64) : Asks S (cutConstant n base width) := by
  refine asks_get.bind fun a => ?_
  split
  · exact asks_pure _
  · exact asks_throw _

theorem asks_checkFits (v : Flow.Expr) (width : Int64) (construct : Text) :
    Asks S (checkFits v width construct) := by
  unfold checkFits
  split
  · split
    · exact asks_refuse _ _
    · exact asks_pure _
  · exact asks_pure _

theorem asks_constant (l : Source.Literal) : Asks S (constant l) := by
  unfold constant
  split
  · exact asks_refuse _ _
  · split
    · exact asks_refuse _ _
    · exact asks_pure _

theorem asks_cut (v : Flow.Expr) (low high : Int64) : Asks S (cut v low high) := by
  unfold cut
  split
  · exact asks_cutConstant _ _ _
  · exact asks_pure _

theorem asks_castValue (e : Expr) (v : Flow.Expr) (width wanted : Int64) :
    Asks S (castValue e v width wanted) := by
  unfold castValue
  split
  · exact asks_cutConstant _ _ _
  · split
    · exact asks_pure _
    · split
      · exact asks_pure _
      · exact asks_refuse _ _

/-- The value of an expression asks for the registers of its storage. -/
theorem asks_value (sub : Substitution) {e : Expr} (h : Uses S e) : Asks S (value sub e) := by
  cases e with
  | field f => exact (asks_fieldRegister h).bind fun r => asks_pure _
  | localVar l => exact (asks_localRegister h).bind fun r => asks_pure _
  | param q action =>
    rw [value]
    split
    · exact asks_pure _
    · exact asks_refuse _ _
  | literal l => exact asks_constant l
  | truth b => exact asks_pure _
  | slice e high low =>
    rw [value]
    split
    · exact asks_refuse _ _
    · exact (asks_value sub (e := e) h).bind fun v => asks_cut v low high
  | cast type e => exact (asks_value sub (e := e) h).bind fun v => asks_castValue _ v _ _
  | _ => exact asks_refuse _ _

/-! ## Conditions -/

theorem asks_comparison (e : Expr) {storage other : Expr} (hstorage : Uses S storage)
    (hother : Uses S other) : Asks S (comparison e storage other) :=
  (asks_value [] hstorage).bind fun _ => (asks_value [] hother).bind fun _ =>
    (asks_checkFits _ _ _).bind fun _ => asks_pure _

theorem asks_equation (e : Expr) {left right : Expr} (hleft : Uses S left) (hright : Uses S right) :
    Asks S (equation e left right) := by
  unfold equation
  split
  · exact asks_comparison e hleft hright
  · split
    · exact asks_comparison e hright hleft
    · exact asks_refuse _ _

theorem asks_truthOf {e : Expr} (h : Uses S e) : Asks S (truthOf e) := by
  unfold truthOf
  split
  · exact (asks_value [] h).bind fun _ => asks_pure _
  · exact asks_refuse _ _

theorem asks_bareCondition {e : Expr} (h : Uses S e) : Asks S (bareCondition e) := by
  fun_induction bareCondition e with
  | case1 => exact asks_pure _
  | case2 => exact asks_refuse _ _
  | case3 => exact asks_pure _
  | case4 => exact asks_refuse _ _
  | case5 left right ihl ihr =>
    exact (ihl h.1).bind fun l => (ihr h.2).bind fun r => asks_pure _
  | case6 left right => exact (asks_equation _ h.1 h.2).bind fun m => asks_pure _
  | case7 => exact asks_refuse _ _
  | case8 f | case9 l | case10 e high low | case11 type e => exact (asks_truthOf h).map
  | case12 => exact asks_refuse _ _

theorem asks_condition {e : Expr} (h : Uses S e) : Asks S (condition e) :=
  (asks_bareCondition h).bind fun _ => asks_pure _

/-! ## Bodies -/

/-- Storage in a statement asks for its register by a call of a kind.  Arguments of a built-in call
ask for nothing. -/
abbrev StmtUses (S : Request → Prop) : Stmt → Prop := Stmt.Own (Uses S) fun _ => True

abbrev StmtsUse (S : Request → Prop) : List Stmt → Prop := EachStmt (StmtUses S)

theorem asks_store (construct : Text) (width sourceWidth : Int64) (src dst : Flow.Expr) :
    Asks S (store construct width sourceWidth src dst) := by
  unfold store
  split
  · exact (asks_checkFits _ _ _).bind fun _ => asks_pure _
  · exact (asks_checkFits _ _ _).bind fun _ => asks_pure _
  · split
    · exact asks_refuse _ _
    · exact asks_pure _

theorem asks_assignment (sub : Substitution) {left right : Expr} (hleft : Uses S left)
    (hright : Uses S right) : Asks S (assignment sub left right) := by
  unfold assignment
  dsimp only
  split
  · exact (asks_value sub hleft).bind fun _ => (asks_value sub hright).bind fun _ =>
      asks_store _ _ _ _ _
  · exact asks_refuse _ _

theorem asks_call (target : Option Text) (method : Text) (args : List Expr) :
    Asks S (call target method args) := by
  unfold call
  dsimp only
  split
  · refine asks_get.bind fun a => ?_
    split
    · exact asks_get.bind fun _ => asks_pure _
    · exact asks_throw _
  · exact asks_refuse _ _

mutual

theorem asks_statement (sub : Substitution) (exitStage : Int64) {s : Stmt} (h : s.Each (StmtUses S)) :
    Asks S (statement sub exitStage s) := by
  match s with
  | .empty => exact asks_pure _
  | .block ss =>
    rw [Stmt.Each] at h
    rw [statement]
    exact (asks_statements sub exitStage h.2).bind fun _ => asks_pure _
  | .exit | .ret => exact asks_pure _
  | .assign left right =>
    rw [Stmt.Each] at h
    rw [statement]
    exact (asks_assignment sub h.1 h.2).bind fun _ => asks_pure _
  | .call target method args =>
    rw [statement]
    exact (asks_call target method args).bind fun _ => asks_pure _
  | .ifThen .. | .ifElse .. | .switch .. | .apply _ =>
    rw [statement]
    exact asks_refuse _ _

theorem asks_statements (sub : Substitution) (exitStage : Int64) {ss : List Stmt}
    (h : StmtsUse S ss) : Asks S (statements sub exitStage ss) := by
  match ss with
  | [] => exact asks_pure _
  | s :: ss =>
    rw [StmtsUse, EachStmt] at h
    rw [statements]
    refine (asks_statement sub exitStage h.1).bind fun r => ?_
    obtain ⟨a, done⟩ := r
    dsimp only
    split
    · exact asks_pure _
    · exact (asks_statements sub exitStage h.2).bind fun _ => asks_pure _

end

/-- The action of a body asks for the registers of what is assigned in it. -/
theorem asks_body (sub : Substitution) (exitStage : Int64) {ss : List Stmt} (h : StmtsUse S ss) :
    Asks S (body sub exitStage ss) :=
  (asks_statements sub exitStage h).bind fun _ => asks_pure _

end

end Flowline.Lower
