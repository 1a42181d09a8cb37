import Flowline.Lower.Body
import Flowline.Proofs.Lower.Running

/-!
# Lowering once more

What was lowered once can be lowered again later, whatever else was asked of the register file in
between: storage has its registers already, so nothing is asked for.  `Recurs x y R` says so of a
lowering `x` and one `y` that is to be run later, which need not be the same.  A body that was
lowered with one exit stage is lowered with every other one (`recurs_body`).
-/

namespace Flowline.Lower

open Source (Expr Literal Stmt)
open Switch (Allocator)

variable {α β γ δ : Type}

/-- Where one lowering succeeds, another one succeeds in every later register file and leaves it as
it is, and the results are related. -/
structure Recurs (x : Lowering α) (y : Lowering β) (R : α → β → Prop) : Prop where
  grows : ∀ {a v a'}, Yields x a v a' → Grows a a'
  again : ∀ {a v a'}, Yields x a v a' → ∀ {b}, Grows a' b → ∃ w, Yields y b w b ∧ R v w

theorem recurs_pure {R : α → β → Prop} {v : α} {w : β} (h : R v w) :
    Recurs (pure v) (pure w) R where
  grows hv := by
    obtain ⟨-, rfl⟩ := yields_pure.1 hv
    exact Grows.refl _
  again hv b _ := by
    obtain ⟨rfl, -⟩ := yields_pure.1 hv
    exact ⟨w, yields_pure.2 ⟨rfl, rfl⟩, h⟩

theorem recurs_throw {R : α → β → Prop} (p : Problem) (y : Lowering β) : Recurs (throw p) y R :=
  ⟨fun h => absurd h not_yields_throw, fun h => absurd h not_yields_throw⟩

theorem recurs_refuse {R : α → β → Prop} (construct reason : Text) (y : Lowering β) :
    Recurs (refuse construct reason) y R :=
  recurs_throw _ y

/-- A register file is looked at again when it has grown. -/
theorem recurs_get : Recurs get get Grows where
  grows h := by
    obtain ⟨-, rfl⟩ := yields_get.1 h
    exact Grows.refl _
  again h b hb := by
    obtain ⟨rfl, rfl⟩ := yields_get.1 h
    exact ⟨b, yields_get.2 ⟨rfl, rfl⟩, hb⟩

namespace Recurs

variable {x : Lowering α} {y : Lowering β} {R : α → β → Prop}

theorem bind {f : α → Lowering γ} {g : β → Lowering δ} {Q : γ → δ → Prop} (hx : Recurs x y R)
    (hf : ∀ v w, R v w → Recurs (f v) (g w) Q) : Recurs (x >>= f) (y >>= g) Q where
  grows h := by
    obtain ⟨v, a, hv, hw⟩ := yields_bind.1 h
    obtain ⟨w, -, hR⟩ := hx.again hv (Grows.refl a)
    exact (hx.grows hv).trans ((hf v w hR).grows hw)
  again h b hb := by
    obtain ⟨v, a, hv, hz⟩ := yields_bind.1 h
    obtain ⟨w, -, hR⟩ := hx.again hv (Grows.refl a)
    -- the first step is run where both have been, not where the first alone was
    obtain ⟨w', hw', hR'⟩ := hx.again hv (((hf v w hR).grows hz).trans hb)
    obtain ⟨z, hz', hQ⟩ := (hf v w' hR').again hz hb
    exact ⟨z, yields_bind.2 ⟨w', b, hw', hz'⟩, hQ⟩

/-- A step that gives the same result again. -/
theorem bind_eq {x y : Lowering α} {f : α → Lowering γ} {g : α → Lowering δ} {Q : γ → δ → Prop}
    (hx : Recurs x y Eq) (hf : ∀ v, Recurs (f v) (g v) Q) : Recurs (x >>= f) (y >>= g) Q :=
  hx.bind fun v _ hvw => hvw ▸ hf v

/-- What was lowered on the way to a register file is lowered again in it. -/
theorem of_gives (h : Recurs x y R) {b : Allocator} {v : α} (hv : Gives b x v) :
    ∃ w, Yields y b w b ∧ R v w := by
  obtain ⟨a, a', hyields, hb⟩ := hv
  exact h.again hyields hb

end Recurs

/-! ## Values -/

theorem recurs_fieldRegister (f : Field) : Recurs (fieldRegister f) (fieldRegister f) Eq :=
  ⟨fun h => (yields_fieldRegister h).1, fun h _ hb => ⟨_, (yields_fieldRegister h).2 hb, rfl⟩⟩

theorem recurs_localRegister (l : Local) : Recurs (localRegister l) (localRegister l) Eq :=
  ⟨fun h => (yields_localRegister h).1, fun h _ hb => ⟨_, (yields_localRegister h).2 hb, rfl⟩⟩

theorem recurs_constant (l : Literal) : Recurs (constant l) (constant l) Eq := by
  unfold constant
  split
  · exact recurs_refuse _ _ _
  · split
    · exact recurs_refuse _ _ _
    · exact recurs_pure rfl

theorem recurs_cutConstant (v : Int) (base n : Int64) :
    Recurs (cutConstant v base n) (cutConstant v base n) Eq where
  grows h := by
    obtain ⟨-, -, rfl⟩ := yields_cutConstant.1 h
    exact Grows.refl _
  again h b hb := by
    obtain ⟨hshift, rfl, rfl⟩ := yields_cutConstant.1 h
    rw [← hb.target_eq] at hshift
    exact ⟨_, yields_cutConstant.2 ⟨hshift, rfl, rfl⟩, rfl⟩

theorem recurs_cut (v : Flow.Expr) (low high : Int64) :
    Recurs (cut v low high) (cut v low high) Eq := by
  cases v with
  | const n base => exact recurs_cutConstant _ _ _
  | _ => exact recurs_pure rfl

theorem recurs_castValue (e : Expr) (v : Flow.Expr) (width wanted : Int64) :
    Recurs (castValue e v width wanted) (castValue e v width wanted) Eq := by
  unfold castValue
  split
  · exact recurs_cutConstant _ _ _
  · split
    · exact recurs_pure rfl
    · split
      · exact recurs_pure rfl
      · exact recurs_refuse _ _ _

theorem recurs_checkFits (v : Flow.Expr) (width : Int64) (construct : Text) :
    Recurs (checkFits v width construct) (checkFits v width construct) Eq := by
  unfold checkFits
  split
  · split
    · exact recurs_refuse _ _ _
    · exact recurs_pure rfl
  · exact recurs_pure rfl

theorem recurs_value (sub : Substitution) (e : Expr) : Recurs (value sub e) (value sub e) Eq := by
  cases e with
  | field f => exact (recurs_fieldRegister f).bind_eq fun r => recurs_pure rfl
  | localVar l => exact (recurs_localRegister l).bind_eq fun r => recurs_pure rfl
  | param p action =>
    rw [value]
    split
    · exact recurs_pure rfl
    · exact recurs_refuse _ _ _
  | literal l => exact recurs_constant l
  | truth b => exact recurs_pure rfl
  | slice e high low =>
    rw [value]
    split
    · exact recurs_refuse _ _ _
    · exact (recurs_value sub e).bind_eq fun v => recurs_cut v low high
  | cast type e => exact (recurs_value sub e).bind_eq fun v => recurs_castValue _ v _ _
  | _ => exact recurs_refuse _ _ _

/-! ## Bodies -/

theorem recurs_store (construct : Text) (width sourceWidth : Int64) (src dst : Flow.Expr) :
    Recurs (store construct width sourceWidth src dst) (store construct width sourceWidth src dst)
      Eq := by
  unfold store
  split
  · exact (recurs_checkFits _ width construct).bind_eq fun _ => recurs_pure rfl
  · exact (recurs_checkFits _ width construct).bind_eq fun _ => recurs_pure rfl
  · split
    · exact recurs_refuse _ _ _
    · exact recurs_pure rfl

theorem recurs_assignment (sub : Substitution) (left right : Expr) :
    Recurs (assignment sub left right) (assignment sub left right) Eq := by
  unfold assignment
  dsimp only
  split
  · refine (recurs_value sub left).bind_eq fun dst => (recurs_value sub right).bind_eq fun src => ?_
    exact recurs_store _ _ _ src dst
  · exact recurs_refuse _ _ _

theorem recurs_call (target : Option Text) (method : Text) (args : List Expr) :
    Recurs (call target method args) (call target method args) Eq := by
  unfold call
  dsimp only
  split
  · refine recurs_get.bind fun s t hst => ?_
    cases hport : s.lookup outputPort with
    | none => exact recurs_throw _ _
    | some r =>
      rw [hst.lookup hport]
      exact recurs_get.bind fun u w huw => recurs_pure (by rw [huw.target_eq])
  · exact recurs_refuse _ _ _

mutual

/-- A statement is lowered with every exit stage, and ends the body with all or none. -/
theorem recurs_statement (sub : Substitution) (x y : Int64) (s : Stmt) :
    Recurs (statement sub x s) (statement sub y s) fun v w => v.2 = w.2 := by
  match s with
  | .empty | .exit | .ret => exact recurs_pure rfl
  | .block ss => exact (recurs_statements sub x y ss).bind fun v w h => recurs_pure h
  | .assign left right =>
    exact (recurs_assignment sub left right).bind_eq fun a => recurs_pure rfl
  | .call target method args =>
    exact (recurs_call target method args).bind_eq fun a => recurs_pure rfl
  | .ifThen .. | .ifElse .. | .switch .. | .apply _ => exact recurs_refuse _ _ _

theorem recurs_statements (sub : Substitution) (x y : Int64) (ss : List Stmt) :
    Recurs (statements sub x ss) (statements sub y ss) fun v w => v.2 = w.2 := by
  match ss with
  | [] => exact recurs_pure rfl
  | s :: ss =>
    refine (recurs_statement sub x y s).bind fun (act, done) (act', done') h => ?_
    obtain rfl : done = done' := h
    dsimp only
    split
    · exact recurs_pure rfl
    · exact (recurs_statements sub x y ss).bind fun v w h => recurs_pure h

end

theorem recurs_body (sub : Substitution) (x y : Int64) (ss : List Stmt) :
    Recurs (body sub x ss) (body sub y ss) fun _ _ => True :=
  (recurs_statements sub x y ss).bind fun _ _ _ => recurs_pure trivial

end Flowline.Lower
