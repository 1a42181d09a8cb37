import Flowline.Proofs.Flow.Running
import Flowline.Proofs.Lower.Values

/-!
# Bodies of actions keep their meaning

Statements act on the memory directly (`perform`): an assignment writes the value of its right side
to the places of its left side, and to no other.  Run as actions of a flow, lowered statements do
the same to every memory, and never get stuck (`ensures_statements`).

The lowering tells by a flag that nothing behind a statement is reached.  Statements do not branch,
so the flag is the way in which the statement ends, whatever the memory.
-/

namespace Flowline.Lower

open Flowline.Flow (Action)
open Source (Expr Stmt)
open Switch (Memory Register)

/-! ## What statements do -/

/-- How statements end. -/
inductive Ending where
  | onward
  | exited
  | returned
  deriving DecidableEq

/-- Whether nothing behind is reached. -/
def Ending.ends : Ending → Bool
  | .onward => false
  | .exited => true
  | .returned => true

/-- The stage that an ending goes to by itself. -/
def Ending.stage? (exitStage : Int64) : Ending → Option Int64
  | .exited => some exitStage
  | _ => none

/-- The memory after an assignment.  An unsized value takes the width of the left side. -/
def assign (p : Padding) (L : Layout) (args : Text → Int) (texts : Text → Bool) (left right : Expr)
    (m : Memory) : Memory :=
  m.write (L.places left)
    (evaluate p L args ⟨m, texts⟩ right % modulus left.type.width).toNat

mutual

/-- The memory after a statement of an action, and how it ends.  The statements that only controls
have do nothing here. -/
def perform (p : Padding) (L : Layout) (args : Text → Int) (texts : Text → Bool) :
    Stmt → Memory → Memory × Ending
  | .assign left right, m => (assign p L args texts left right m, .onward)
  | .call _ method _, m =>
    if method = "mark_to_drop" then
      (m.write (L.port.elim [] (Register.places L.target)) L.target.dropPort.toNat, .onward)
    else (m, .onward)
  | .block ss, m => performAll p L args texts ss m
  | .exit, m => (m, .exited)
  | .ret, m => (m, .returned)
  | _, m => (m, .onward)

/-- The memory after statements one after the other, and how they end. -/
def performAll (p : Padding) (L : Layout) (args : Text → Int) (texts : Text → Bool) :
    List Stmt → Memory → Memory × Ending
  | [], m => (m, .onward)
  | s :: ss, m =>
    match perform p L args texts s m with
    | (m', .onward) => performAll p L args texts ss m'
    | ended => ended

end

mutual

/-- The storage of a statement has its size, casts have a width, and arguments fit. -/
def Layout.SizedIn (L : Layout) (args : Text → Int) : Stmt → Prop
  | .assign left right => L.Sized args left ∧ L.Sized args right
  | .block ss => L.SizedAll args ss
  | _ => True

/-- The storage of all statements has its size. -/
def Layout.SizedAll (L : Layout) (args : Text → Int) : List Stmt → Prop
  | [] => True
  | s :: ss => L.SizedIn args s ∧ L.SizedAll args ss

end

/-- The output port has sixteen bits, and so has the port of a packet that goes nowhere. -/
structure Layout.PortFits (L : Layout) : Prop where
  covers : ∀ r ∈ L.port, r.Covers 16
  dropPort_lt : L.target.dropPort.toNat < 2 ^ 16

/-! ## Loads and moves -/

variable {sub : Substitution} {args : Text → Int} {L : Layout}

variable {t : Switch.Target} {texts : Text → Bool} {dst : Flow.Expr} {left right : Expr}
  {act : Action}

theorem run_load {d : Register} {width base : Int64} {n : Int} (hdst : dst.asRegister = some d)
    (hcovers : d.Covers width) (hn : 0 ≤ n) (hlt : n < modulus width) (m : Memory) :
    (Action.load (.const n base) dst).run t m =
      some (m.write (d.places t) n.toNat, none) := by
  have hfits : 0 ≤ n ∧ n < 2 ^ (d.places t).length := by
    rw [Register.length_places, hcovers.width_eq]
    exact ⟨hn, hlt⟩
  rw [Action.run, hdst, Option.bind_some, if_pos hfits]

theorem run_move {src : Flow.Expr} {s d : Register} {width : Int64} (hsrc : src.asRegister = some s)
    (hdst : dst.asRegister = some d) (hs : s.Covers width) (hd : d.Covers width) (m : Memory) :
    (Action.move src dst).run t m =
      some (m.write (d.places t) (m.read (s.places t)), none) := by
  have hwidth : (s.places t).length = (d.places t).length := by
    rw [Register.length_places, Register.length_places, hs.width_eq, hd.width_eq]
  rw [Action.run, hsrc, hdst, Option.bind_some, Option.bind_some, if_pos hwidth]

theorem assign_constant {n : Int} (hn : 0 ≤ n) (hlt : n < modulus left.type.width) (m : Memory)
    (hvalue : evaluate .zero L args ⟨m, texts⟩ right = n) :
    assign .zero L args texts left right m = m.write (L.places left) n.toNat := by
  rw [assign, hvalue, Int.emod_eq_of_lt hn hlt]

theorem assign_storage (m : Memory) (hstorage : right.isStorage = true)
    (hlength : (L.places right).length = left.type.width.toInt.toNat) :
    assign .zero L args texts left right m =
      m.write (L.places left) (m.read (L.places right)) := by
  have hlt : (m.read (L.places right) : Int) < modulus left.type.width := by
    have := m.read_lt (L.places right)
    rw [hlength] at this
    unfold modulus
    exact_mod_cast this
  rw [assign, evaluate_storage ⟨m, texts⟩ hstorage, Int.emod_eq_of_lt (Int.natCast_nonneg _) hlt,
    Int.toNat_natCast]

/-! ## Statements -/

/-- A value is stored at the places that its destination denotes. -/
theorem StoreOf.run_eq {src : Flow.Expr} (h : StoreOf left.type.width right.type.width src dst act)
    (hstorage : left.isStorage = true) (hdst : Denotes L args left dst)
    (hsrc : Denotes L args right src) (texts : Text → Bool) (m : Memory) :
    act.run L.target m = some (assign .zero L args texts left right m, none) := by
  cases hdst with
  | constant hconst => exact absurd hstorage (by simp [hconst])
  | storage _ hregister hcovers hplaces =>
    cases h with
    | load hmoved hfits =>
      cases hsrc with
      | @storage _ r _ hregister' =>
        -- no expression denotes a variable
        cases src with
        | const | var => cases hregister'
        | reg | slice => cases hmoved
      | @constant n base _ hnonneg _ hvalue =>
        have hlt := lt_modulus_of_fits hnonneg (Int64.lt_iff_toInt_lt.2 hcovers.pos)
          (hfits n base rfl)
        rw [assign_constant hnonneg hlt m (hvalue _), ← hplaces]
        exact run_load hregister hcovers hnonneg hlt m
    | move hmoved hwidth =>
      cases hsrc with
      | constant => cases hmoved
      | storage hstorage' hregister' hcovers' hplaces' =>
        rw [hwidth] at hcovers'
        have hlength : (L.places right).length = left.type.width.toInt.toNat := by
          rw [← hplaces', Register.length_places, hcovers'.width_eq]
        rw [assign_storage m hstorage' hlength, ← hplaces, ← hplaces']
        exact run_move hregister' hregister hcovers' hcovers m

/-- An assignment writes the places of its left side. -/
theorem ensures_assignment (hsub : Binds sub args) (left right : Expr) (texts : Text → Bool) :
    Ensures (assignment sub left right) fun L act =>
      L.Sized args left → L.Sized args right → ∀ m,
        act.run L.target m = some (assign .zero L args texts left right m, none) :=
  (ensures_assignmentOf sub left right).mono fun L act hact hsizedL hsizedR m => by
    obtain ⟨dst, src, hdst, hsrc, hstore⟩ := hact.exists_store
    exact hstore.run_eq hact.isStorage (hdst.denotes hsub hsizedL) (hsrc.denotes hsub hsizedR) texts m

/-- Actions follow statements: they leave the same memory, send the packet to the exit stage exactly
when the statements exit, and are known to end exactly when the statements do. -/
def Follows (exitStage : Int64) (run : Memory → Option (Memory × Option Int64)) (done : Bool)
    (effect : Memory → Memory × Ending) : Prop :=
  ∀ m, run m = some ((effect m).1, (effect m).2.stage? exitStage) ∧ done = (effect m).2.ends

/-- The only call is the one that drops the packet, and it writes the output port. -/
theorem ensures_call (args : Text → Int) (target : Option Text) (method : Text)
    (exprs : List Expr) (exitStage : Int64) (texts : Text → Bool) :
    Ensures (call target method exprs) fun L act => L.PortFits →
      Follows exitStage (act.run L.target) false
        (perform .zero L args texts (.call target method exprs)) :=
  (ensures_call_drop target method exprs).mono fun L act hact hport m => by
    obtain ⟨hmethod, r, hlookup, rfl⟩ := hact
    have hlt : ((L.target.dropPort.toNat : Nat) : Int) < modulus 16 := by
      have hdrop := hport.dropPort_lt
      show (L.target.dropPort.toNat : Int) < 2 ^ 16
      exact_mod_cast hdrop
    rw [perform, if_pos hmethod, hlookup, loadDropPort]
    exact ⟨run_load rfl (hport.covers r hlookup) (Int.natCast_nonneg _) hlt m, rfl⟩

/-- A statement that does not end is followed by the rest. -/
theorem Follows.cons {exitStage : Int64} {as : List Action} {done : Bool} {s : Stmt}
    {ss : List Stmt} (hs : Follows exitStage (act.run t) false (perform .zero L args texts s))
    (hss : Follows exitStage (Action.runAll t as) done (performAll .zero L args texts ss)) :
    Follows exitStage (Action.runAll t (act :: as)) done
      (performAll .zero L args texts (s :: ss)) := by
  intro m
  obtain ⟨hrun, hends⟩ := hs m
  rw [Action.runAll, performAll, hrun]
  rcases hp : perform .zero L args texts s m with ⟨m', _ | _ | _⟩ <;> rw [hp] at hends
  · exact hss m'
  · cases hends
  · cases hends

/-- Nothing behind a statement that ends is reached. -/
theorem Follows.last {exitStage : Int64} {s : Stmt} {ss : List Stmt}
    (hs : Follows exitStage (act.run t) true (perform .zero L args texts s)) :
    Follows exitStage (Action.runAll t [act]) true (performAll .zero L args texts (s :: ss)) := by
  intro m
  obtain ⟨hrun, hends⟩ := hs m
  rw [Action.runAll, performAll, hrun]
  rcases hp : perform .zero L args texts s m with ⟨m', _ | _ | _⟩ <;> rw [hp] at hends
  · cases hends
  · exact ⟨rfl, rfl⟩
  · exact ⟨rfl, rfl⟩

mutual

theorem ensures_statement (hsub : Binds sub args) (exitStage : Int64) (s : Stmt)
    (texts : Text → Bool) :
    Ensures (statement sub exitStage s) fun L r => L.SizedIn args s → L.PortFits →
      Follows exitStage (r.1.run L.target) r.2 (perform .zero L args texts s) := by
  match s with
  | .empty | .exit | .ret => exact ensures_pure fun L _ _ m => ⟨rfl, rfl⟩
  | .block ss =>
    refine (ensures_statements hsub exitStage ss texts).bind fun r => ?_
    refine ensures_pure fun L hr hsized hport m => ?_
    rw [Action.run_all]
    exact hr hsized hport m
  | .assign left right =>
    refine (ensures_assignment hsub left right texts).bind fun act => ?_
    exact ensures_pure fun L hact hsized _ m => ⟨hact hsized.1 hsized.2 m, rfl⟩
  | .call target method exprs =>
    refine (ensures_call args target method exprs exitStage texts).bind fun act => ?_
    exact ensures_pure fun L hact _ hport => hact hport
  | .ifThen .. | .ifElse .. | .switch .. | .apply _ => exact ensures_refuse _ _

theorem ensures_statements (hsub : Binds sub args) (exitStage : Int64) (ss : List Stmt)
    (texts : Text → Bool) :
    Ensures (statements sub exitStage ss) fun L r => L.SizedAll args ss → L.PortFits →
      Follows exitStage (Action.runAll L.target r.1) r.2 (performAll .zero L args texts ss) := by
  match ss with
  | [] => exact ensures_pure fun L _ _ m => ⟨rfl, rfl⟩
  | s :: ss =>
    refine (ensures_statement hsub exitStage s texts).bind fun (act, done) => ?_
    dsimp only
    split
    · next hdone =>
      subst hdone
      exact ensures_pure fun L hs hsized hport => (hs hsized.1 hport).last
    · next hdone =>
      rw [Bool.not_eq_true] at hdone
      subst hdone
      refine (ensures_statements hsub exitStage ss texts).bind fun r => ?_
      exact ensures_pure fun L hss hs hsized hport =>
        (hs hsized.1 hport).cons (hss hsized.2 hport)

end

end Flowline.Lower
