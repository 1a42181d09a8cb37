import Flowline.Proofs.Lower.Parameters
import Flowline.Proofs.Lower.Repeating

/-!
# Arguments in the place of variables

The body of an action is lowered once with variables for its parameters, and once more for each list
of constant arguments.  The two runs ask for the same registers in the same order, and only differ
where a value is taken from a parameter.  `Tracks` compares them: where the first run succeeds, the
second succeeds under a condition, and leaves the same register file.

For an assignment the condition is `Admits`.  A constant that is cut has to be cut to a width that
the machine can shift by, and a whole argument has to fit the left side; the width of a variable is
not looked at.  How far the machine can shift is known from the target, which no lowering changes, so
`Tracks` speaks of the runs on machines of some limits.
-/

namespace Flowline.Lower

open Flowline.Flow (Action)
open Source (Expr Stmt)
open Switch (Allocator Limits)

variable {base : Int64}

/-! ## Bits of numbers -/

theorem bitLength_le {v : Int} {k : Nat} (hv : 0 ≤ v) (h : v < 2 ^ k) : bitLength v ≤ k := by
  unfold bitLength
  split
  · exact Nat.zero_le k
  · next hne =>
    have hlt : v.natAbs < 2 ^ k := by
      have hcast : (v.natAbs : Int) < 2 ^ k := by omega
      exact_mod_cast hcast
    exact (Nat.log2_lt (by omega)).mpr hlt

theorem bitLength_lowPart {n : Int64} (v : Int) (hn : 0 ≤ n.toInt) :
    (bitLength (lowPart v n) : Int) ≤ n.toInt := by
  unfold lowPart
  split
  · next h => exact h.2
  · have hpos : (0 : Int) < (1 <<< n.toInt.toNat : Nat) := by
      rw [Nat.one_shiftLeft]
      positivity
    have hle : bitLength (v % (1 <<< n.toInt.toNat : Nat)) ≤ n.toInt.toNat := by
      refine bitLength_le (Int.emod_nonneg _ hpos.ne') ?_
      have hlt := Int.emod_lt_of_pos v hpos
      rw [Nat.one_shiftLeft] at hlt ⊢
      exact_mod_cast hlt
    omega

theorem bitLength_ones (k : Nat) : bitLength (2 ^ k - 1) = k := by
  have hpos : (0 : Int) < 2 ^ k := by positivity
  refine le_antisymm (bitLength_le (by omega) (by omega)) ?_
  cases k with
  | zero => exact Nat.zero_le _
  | succ k =>
    have htwo : (2 : Int) ^ (k + 1) = 2 * 2 ^ k := by rw [pow_succ, mul_comm]
    have hone : (0 : Int) < 2 ^ k := by positivity
    have hle : 2 ^ k ≤ ((2 : Int) ^ (k + 1) - 1).natAbs := by
      have hcast : ((2 ^ k : Nat) : Int) = 2 ^ k := by push_cast; rfl
      omega
    unfold bitLength
    rw [if_neg (by omega)]
    exact Nat.succ_le_succ ((Nat.le_log2 (by omega)).mpr hle)

/-! ## Two runs -/

/-- Where one lowering succeeds on a machine, another succeeds exactly under a condition; it then
leaves the same register file, and the results are related. -/
structure Tracks {α : Type} (l : Limits) (x y : Lowering α) (C : Prop) (Q : α → α → Prop) :
    Prop where
  succeeds : ∀ {a v a'}, a.target.limits = l → Yields x a v a' → C → ∃ w, Yields y a w a' ∧ Q v w
  only : ∀ {a v a' w b}, a.target.limits = l → Yields x a v a' → Yields y a w b →
    C ∧ b = a' ∧ Q v w

variable {l : Limits}

namespace Tracks

variable {α β : Type} {x y : Lowering α} {C D : Prop} {Q : α → α → Prop} {R : β → β → Prop}

theorem refl (x : Lowering α) : Tracks l x x True Eq where
  succeeds _ h _ := ⟨_, h, rfl⟩
  only _ h h' := by
    obtain ⟨hv, ha⟩ := Prod.ext_iff.mp (h.symm.trans h')
    exact ⟨trivial, ha.symm, Except.ok.inj hv⟩

theorem pure {v w : α} (h : Q v w) : Tracks l (pure v) (pure w) True Q where
  succeeds _ hv _ := by
    obtain ⟨rfl, rfl⟩ := yields_pure.mp hv
    exact ⟨w, yields_pure.mpr ⟨rfl, rfl⟩, h⟩
  only _ hv hw := by
    obtain ⟨rfl, rfl⟩ := yields_pure.mp hv
    obtain ⟨rfl, rfl⟩ := yields_pure.mp hw
    exact ⟨trivial, rfl, h⟩

theorem refuse {construct reason : Text} : Tracks l (refuse construct reason) y C Q where
  succeeds _ h := absurd h not_yields_refuse
  only _ h := absurd h not_yields_refuse

theorem congr (h : Tracks l x y C Q) (hC : C ↔ D) : Tracks l x y D Q where
  succeeds ha hx hD := h.succeeds ha hx (hC.mpr hD)
  only ha hx hy := by
    obtain ⟨hc, hrest⟩ := h.only ha hx hy
    exact ⟨hC.mp hc, hrest⟩

/-- A condition that holds wherever the first run succeeds is none. -/
theorem sure (h : Tracks l x y C Q) (hC : ∀ {a v a'}, Yields x a v a' → C) :
    Tracks l x y True Q where
  succeeds ha hx _ := h.succeeds ha hx (hC hx)
  only ha hx hy := ⟨trivial, (h.only ha hx hy).2⟩

theorem mono {Q' : α → α → Prop} (h : Tracks l x y C Q) (hQ : ∀ v w, Q v w → Q' v w) :
    Tracks l x y C Q' where
  succeeds ha hx hC := by
    obtain ⟨w, hw, hQw⟩ := h.succeeds ha hx hC
    exact ⟨w, hw, hQ _ _ hQw⟩
  only ha hx hy := by
    obtain ⟨hC, hb, hQw⟩ := h.only ha hx hy
    exact ⟨hC, hb, hQ _ _ hQw⟩

/-- The second step runs on the same machine as the first, which changes no target. -/
theorem bind {f g : α → Lowering β} (h : Tracks l x y C Q)
    (hx : ∀ {a v a'}, Yields x a v a' → Grows a a')
    (hf : ∀ v w, Q v w → Tracks l (f v) (g w) D R) : Tracks l (x >>= f) (y >>= g) (C ∧ D) R where
  succeeds ha hxf hC := by
    obtain ⟨v, b, hv, hfv⟩ := yields_bind.mp hxf
    obtain ⟨w, hw, hQ⟩ := h.succeeds ha hv hC.1
    obtain ⟨z, hz, hR⟩ := (hf v w hQ).succeeds ((hx hv).target_eq ▸ ha) hfv hC.2
    exact ⟨z, yields_bind.mpr ⟨w, b, hw, hz⟩, hR⟩
  only ha hxf hyg := by
    obtain ⟨v, b, hv, hfv⟩ := yields_bind.mp hxf
    obtain ⟨w, b', hw, hgw⟩ := yields_bind.mp hyg
    obtain ⟨hC, rfl, hQ⟩ := h.only ha hv hw
    obtain ⟨hD, hrest⟩ := (hf v w hQ).only ((hx hv).target_eq ▸ ha) hfv hgw
    exact ⟨⟨hC, hD⟩, hrest⟩

/-- The condition is known of related results, and so is what the first run ensures. -/
theorem and_left {P : α → Prop} (h : Tracks l x y C Q) (hP : ∀ {a v a'}, Yields x a v a' → P v) :
    Tracks l x y C fun v w => (P v ∧ C) ∧ Q v w where
  succeeds ha hx hC := by
    obtain ⟨w, hw, hQ⟩ := h.succeeds ha hx hC
    exact ⟨w, hw, ⟨hP hx, hC⟩, hQ⟩
  only ha hx hy := by
    obtain ⟨hC, hb, hQ⟩ := h.only ha hx hy
    exact ⟨hC, hb, ⟨hP hx, hC⟩, hQ⟩

/-- The first step has no condition of its own. -/
theorem bind_left {f g : α → Lowering β} (h : Tracks l x y True Q)
    (hx : ∀ {a v a'}, Yields x a v a' → Grows a a')
    (hf : ∀ v w, Q v w → Tracks l (f v) (g w) D R) : Tracks l (x >>= f) (y >>= g) D R :=
  (h.bind hx hf).congr (Iff.of_eq (true_and D))

/-- The second step has no condition of its own. -/
theorem bind_right {f g : α → Lowering β} (h : Tracks l x y C Q)
    (hx : ∀ {a v a'}, Yields x a v a' → Grows a a')
    (hf : ∀ v w, Q v w → Tracks l (f v) (g w) True R) : Tracks l (x >>= f) (y >>= g) C R :=
  (h.bind hx hf).congr (Iff.of_eq (and_true C))

end Tracks

/-! ## Values -/

/-- What is left of a number where an expression takes a part of a parameter. -/
def numberOf (n : Int) : Expr → Int
  | .slice e high low => lowPart (highPart (numberOf n e) low) (high - low + 1)
  | .cast type e => lowPart (numberOf n e) type.width
  | _ => n

/-- The widths to which an expression cuts are such that a constant can be cut to them. -/
def CanCut (l : Limits) : Expr → Prop
  | .slice e high low => CanCut l e ∧ l.canShift (high - low + 1) = true
  | .cast type e => CanCut l e ∧ l.canShift type.width = true
  | _ => True

/-- A parameter stands for a variable of its width in one substitution, and for a constant that it
has room for in another. -/
structure Instantiates (vars consts : Substitution) (q : Param) : Prop where
  exists_var : ∃ name, vars.lookup q.name = some (.var name q.type.width)
  exists_const : ∃ n base, consts.lookup q.name = some (.const n base) ∧ 0 ≤ n ∧
    (bitLength n : Int) ≤ q.type.width.toInt

variable {a a' : Allocator} {width : Int64} {dst v w : Flow.Expr}

section

variable {vars consts : Substitution} {q : Param} {e : Expr} {n : Int}

/-- What takes no part of a parameter does not depend on what parameters stand for. -/
theorem value_congr (sub sub' : Substitution) {e : Expr} (h : paramOf? e = none) :
    value sub e = value sub' e := by
  cases e with
  | param _ _ => cases h
  | slice e _ _ | cast _ e =>
    rw [value, value, value_congr sub sub' (e := e) h]
  | _ => rfl

/-- Cutting a constant, beside something that asks for no register. -/
theorem tracks_cutConstant {x : Lowering Flow.Expr} (v : Int) (base width : Int64)
    (hx : ∀ {a v a'}, Yields x a v a' → a' = a) :
    Tracks l x (cutConstant v base width) (l.canShift width = true)
      fun _ w => w = .const (lowPart v width) base where
  succeeds ha h hC := by
    obtain rfl := hx h
    exact ⟨_, yields_cutConstant.mpr ⟨ha ▸ hC, rfl, rfl⟩, rfl⟩
  only ha h h' := by
    obtain rfl := hx h
    obtain ⟨hC, rfl, rfl⟩ := yields_cutConstant.mp h'
    exact ⟨ha ▸ hC, rfl, rfl⟩

theorem eq_of_yields_cut {low high : Int64} (h : Yields (cut v low high) a w a') : a' = a := by
  unfold cut at h
  split at h
  · exact (yields_cutConstant.mp h).2.2.symm
  · exact (yields_pure.mp h).2.symm

theorem eq_of_yields_castValue {wanted : Int64} (h : Yields (castValue e v width wanted) a w a') :
    a' = a := by
  unfold castValue at h
  split at h
  · exact (yields_cutConstant.mp h).2.2.symm
  · split at h
    · exact (yields_pure.mp h).2.symm
    · split at h
      · exact (yields_pure.mp h).2.symm
      · exact absurd h not_yields_refuse

/-- A parameter that stands for a constant gives a constant, if it can be cut. -/
theorem tracks_value_param (vars : Substitution) {e : Expr} (hq : paramOf? e = some q)
    (hconst : consts.lookup q.name = some (.const n base)) :
    Tracks l (value vars e) (value consts e) (CanCut l e)
      fun _ w => w = .const (numberOf n e) base := by
  cases e with
  | param p action =>
    cases hq
    rw [value, value, hconst]
    split
    · exact .pure rfl
    · exact .refuse
  | slice e high low =>
    rw [value, value]
    split
    · exact .refuse
    · refine (tracks_value_param vars (e := e) hq hconst).bind (recurs_value vars e).grows
        fun v w hw => ?_
      rw [hw]
      exact tracks_cutConstant _ base _ eq_of_yields_cut
  | cast type e =>
    refine (tracks_value_param vars (e := e) hq hconst).bind (recurs_value vars e).grows
      fun v w hw => ?_
    rw [hw]
    exact tracks_cutConstant _ base _ eq_of_yields_castValue
  | _ => cases hq

/-- Nothing is cut off a whole parameter. -/
theorem numberOf_whole {e : Expr} (hq : paramOf? e = some q) (hwhole : isWholeParam e = true)
    (hn : 0 ≤ n) (hfits : (bitLength n : Int) ≤ q.type.width.toInt) :
    numberOf n e = n ∧ e.type.width = q.type.width := by
  cases e with
  | param p action =>
    cases hq
    exact ⟨rfl, rfl⟩
  | cast type e =>
    rw [isWholeParam, Bool.and_eq_true, decide_eq_true_iff] at hwhole
    obtain ⟨hnumber, hwidth⟩ := numberOf_whole (e := e) hq hwhole.1 hn hfits
    have htype : type.width = q.type.width := hwhole.2.symm.trans hwidth
    refine ⟨?_, htype⟩
    rw [numberOf, hnumber, lowPart, if_pos ⟨hn, htype ▸ hfits⟩]
  | slice e _ _ => cases hwhole
  | _ => cases hq

/-- A part of a parameter has no more bits than its type says. -/
theorem bitLength_numberOf_part {e : Expr} (hq : paramOf? e = some q)
    (hpart : isWholeParam e = false) (hcut : CanCut l e) (n : Int) :
    (bitLength (numberOf n e) : Int) ≤ e.type.width.toInt := by
  cases e with
  | param p action => cases hpart
  | slice e high low | cast type e =>
    exact bitLength_lowPart _ (Limits.canShift_iff.mp hcut.2).1
  | _ => cases hq

end

/-! ## Assignments -/

/-- A constant fits a width; a width of zero means any. -/
def Fits (n : Int) (width : Int64) : Prop := width = 0 ∨ (bitLength n : Int) ≤ width.toInt

/-- An assignment is possible with constants for parameters: what it cuts of an argument can be cut,
and a whole argument fits the left side. -/
def Admits (l : Limits) (consts : Substitution) (left right : Expr) : Prop :=
  ∀ q n base, paramOf? right = some q → consts.lookup q.name = some (.const n base) →
    CanCut l right ∧ (isWholeParam right = true → Fits n left.type.width)

section

variable {vars consts : Substitution} {left right : Expr}

theorem admits_iff {q : Param} {n : Int} (hq : paramOf? right = some q)
    (hconst : consts.lookup q.name = some (.const n base)) :
    Admits l consts left right ↔
      CanCut l right ∧ (isWholeParam right = true → Fits n left.type.width) := by
  constructor
  · exact fun h => h q n base hq hconst
  · intro h q' n' base' hq' hconst'
    cases hq.symm.trans hq'
    cases hconst.symm.trans hconst'
    exact h

/-- Storing a constant, beside something that asks for no register and always succeeds. -/
theorem tracks_store_const {x : Lowering Action} (construct : Text) (width sourceWidth : Int64)
    (n : Int) (base : Int64) (dst : Flow.Expr) (hx : ∀ {a v a'}, Yields x a v a' → a' = a) :
    Tracks l x (store construct width sourceWidth (.const n base) dst) (Fits n width)
      fun _ _ => True where
  succeeds _ h hC := by
    obtain rfl := hx h
    refine ⟨.load (.const n base) dst, ?_, trivial⟩
    have hfits : ¬(width ≠ 0 ∧ (bitLength n : Int) > width.toInt) := by
      rintro ⟨hzero, hlt⟩
      exact absurd (hC.resolve_left hzero) (not_le.mpr hlt)
    refine yields_bind.mpr ⟨(), _, ?_, yields_pure.mpr ⟨rfl, rfl⟩⟩
    rw [checkFits, if_neg hfits]
    exact yields_pure.mpr ⟨rfl, rfl⟩
  only _ h h' := by
    obtain rfl := hx h
    obtain ⟨_, b, hcheck, hload⟩ := yields_bind.mp h'
    obtain ⟨-, rfl⟩ := yields_pure.mp hload
    rw [checkFits] at hcheck
    split at hcheck
    · exact absurd hcheck not_yields_refuse
    · next hfits =>
      obtain ⟨-, rfl⟩ := yields_pure.mp hcheck
      refine ⟨?_, rfl, trivial⟩
      by_cases hzero : width = 0
      · exact .inl hzero
      · exact .inr (not_lt.mp fun hlt => hfits ⟨hzero, hlt⟩)

theorem eq_of_yields_store {construct : Text} {sourceWidth : Int64} {src : Flow.Expr} {act : Action}
    (h : Yields (store construct width sourceWidth src dst) a act a') : a' = a := by
  have hcheck : ∀ {b b' : Allocator} {u : Unit}, Yields (checkFits src width construct) b u b' →
      b' = b := by
    intro b b' u hfits
    unfold checkFits at hfits
    split at hfits
    · split at hfits
      · exact absurd hfits not_yields_refuse
      · exact (yields_pure.mp hfits).2.symm
    · exact (yields_pure.mp hfits).2.symm
  unfold store at h
  split at h
  · obtain ⟨u, b, hfits, hload⟩ := yields_bind.mp h
    exact (yields_pure.mp hload).2.symm.trans (hcheck hfits)
  · obtain ⟨u, b, hfits, hload⟩ := yields_bind.mp h
    exact (yields_pure.mp hload).2.symm.trans (hcheck hfits)
  · split at h
    · exact absurd h not_yields_refuse
    · exact (yields_pure.mp h).2.symm

/-- A value that is moved is moved between equal widths. -/
theorem width_of_yields_store {construct : Text} {sourceWidth : Int64} {src : Flow.Expr}
    {act : Action} (hmoved : src.isMoved = true)
    (h : Yields (store construct width sourceWidth src dst) a act a') : sourceWidth = width := by
  unfold store at h
  split at h
  · cases hmoved
  · cases hmoved
  · split at h
    · exact absurd h not_yields_refuse
    · next hwidth => exact not_ne_iff.mp hwidth

/-- Storing what is left of an argument, beside what is left of its variable.  A part has the width
that its type says, so only a whole argument may not fit. -/
theorem tracks_store_param {q : Param} {n : Int} (construct : Text) (hq : paramOf? right = some q)
    (hvar : (variableOf? vars right).isSome = true) (hn : 0 ≤ n)
    (hbits : (bitLength n : Int) ≤ q.type.width.toInt) (hcut : CanCut l right)
    (hreads : Reads vars right v) :
    Tracks l (store construct left.type.width right.type.width v dst)
      (store construct left.type.width right.type.width (.const (numberOf n right) base) dst)
      (isWholeParam right = true → Fits n left.type.width) fun _ _ => True := by
  have hstore := tracks_store_const (l := l) construct left.type.width right.type.width
    (numberOf n right) base dst (x := store construct left.type.width right.type.width v dst)
    eq_of_yields_store
  cases hwhole : isWholeParam right with
  | true =>
    rw [(numberOf_whole hq hwhole hn hbits).1] at hstore ⊢
    exact hstore.congr (by simp)
  | false =>
    have hmoved : v.isMoved = true := by
      cases hreads with
      | storage _ hv => exact hv
      | constant _ hnone => simp [hnone] at hvar
      | whole _ _ htrue => exact absurd htrue (by simp [hwhole])
      | part _ _ hv _ => exact hv
    refine (hstore.sure fun hx => .inr ?_).congr (by simp)
    rw [← width_of_yields_store hmoved hx]
    exact bitLength_numberOf_part hq hwhole hcut n

/-- An assignment that is possible with variables is possible with constants that it admits. -/
theorem tracks_assignment (hvars : Plain vars)
    (hinst : ∀ q, paramOf? right = some q → Instantiates vars consts q) :
    Tracks l (assignment vars left right) (assignment consts left right)
      (Admits l consts left right) fun _ _ => True := by
  unfold assignment
  dsimp only
  split
  · next hleft =>
    rw [value_congr vars consts (paramOf?_of_isStorage hleft)]
    refine (Tracks.refl (value consts left)).bind_left (recurs_value consts left).grows
      fun dst _ hdst => ?_
    subst hdst
    cases hq : paramOf? right with
    | none =>
      have hadmits : Admits l consts left right := by
        intro q n base hsome
        rw [hq] at hsome
        cases hsome
      rw [value_congr vars consts hq]
      exact ((Tracks.refl _).congr (iff_of_true trivial hadmits)).mono fun _ _ _ => trivial
    | some q =>
      obtain ⟨⟨name, hvar⟩, n, base, hconst, hn, hbits⟩ := hinst q hq
      have hvalue := (tracks_value_param (l := l) vars hq hconst).and_left (P := Reads vars right)
        fun hx => ((ensures_valueOf vars right).holds hx (Grows.refl _)).reads hvars
      refine (hvalue.bind (recurs_value vars right).grows fun v w hvw => ?_).congr
        (admits_iff hq hconst).symm
      obtain ⟨⟨hreads, hcut⟩, rfl⟩ := hvw
      exact tracks_store_param _ hq (by simp [variableOf?, hq, hvar]) hn hbits hcut hreads
  · exact .refuse

end

/-! ## Bodies -/

/-- All assignments among statements are possible with constants for parameters. -/
def AdmitsAll (l : Limits) (consts : Substitution) (steps : List Stmt) : Prop :=
  ∀ left right, .assign left right ∈ steps → Admits l consts left right

/-- The parameters of all assignments among statements have an argument. -/
def InstantiatesAll (vars consts : Substitution) (steps : List Stmt) : Prop :=
  ∀ left right, .assign left right ∈ steps → ∀ q, paramOf? right = some q →
    Instantiates vars consts q

section

variable {vars consts : Substitution}

theorem admitsAll_nil : AdmitsAll l consts [] := fun _ _ hmem => absurd hmem List.not_mem_nil

theorem admitsAll_append {ss ss' : List Stmt} :
    AdmitsAll l consts ss ∧ AdmitsAll l consts ss' ↔ AdmitsAll l consts (ss ++ ss') := by
  constructor
  · rintro ⟨h, h'⟩ left right hmem
    rcases List.mem_append.mp hmem with hmem | hmem
    · exact h left right hmem
    · exact h' left right hmem
  · intro h
    exact ⟨fun left right hmem => h left right (List.mem_append_left _ hmem),
      fun left right hmem => h left right (List.mem_append_right _ hmem)⟩

mutual

theorem tracks_statement (hvars : Plain vars) (exitStage : Int64) (s : Stmt)
    (hinst : InstantiatesAll vars consts (stepsOf s)) :
    Tracks l (statement vars exitStage s) (statement consts exitStage s)
      (AdmitsAll l consts (stepsOf s)) fun r r' => r.2 = ends s ∧ r'.2 = ends s := by
  match s with
  | .empty | .exit | .ret =>
    exact (Tracks.pure ⟨rfl, rfl⟩).congr (iff_of_true trivial admitsAll_nil)
  | .block ss =>
    refine (tracks_statements hvars exitStage ss hinst).bind_right
      (recurs_statements vars exitStage exitStage ss).grows fun r r' hr => ?_
    exact .pure hr
  | .assign left right =>
    have hone : Admits l consts left right ↔ AdmitsAll l consts [.assign left right] := by
      constructor
      · intro h left' right' hmem
        cases List.mem_singleton.mp hmem
        exact h
      · exact fun h => h left right List.mem_cons_self
    refine ((tracks_assignment hvars (hinst left right List.mem_cons_self)).bind_right
      (recurs_assignment vars left right).grows fun act act' _ => ?_).congr hone
    exact .pure ⟨rfl, rfl⟩
  | .call target method args =>
    have hcall : True ↔ AdmitsAll l consts [.call target method args] := by
      refine iff_of_true trivial fun left right hmem => ?_
      cases List.mem_singleton.mp hmem
    refine ((Tracks.refl _).bind_left (recurs_call target method args).grows
      fun act act' _ => ?_).congr hcall
    exact .pure ⟨rfl, rfl⟩
  | .ifThen .. | .ifElse .. | .switch .. | .apply _ => exact .refuse

theorem tracks_statements (hvars : Plain vars) (exitStage : Int64) (ss : List Stmt)
    (hinst : InstantiatesAll vars consts (stepsIn ss)) :
    Tracks l (statements vars exitStage ss) (statements consts exitStage ss)
      (AdmitsAll l consts (stepsIn ss)) fun r r' => r.2 = endsIn ss ∧ r'.2 = endsIn ss := by
  match ss with
  | [] => exact (Tracks.pure ⟨rfl, rfl⟩).congr (iff_of_true trivial admitsAll_nil)
  | s :: ss =>
    cases hends : ends s with
    | true =>
      have hsteps : stepsIn (s :: ss) = stepsOf s := by rw [stepsIn, if_pos hends]
      rw [hsteps] at hinst ⊢
      refine (tracks_statement hvars exitStage s hinst).bind_right
        (recurs_statement vars exitStage exitStage s).grows fun (act, done) (act', done') h => ?_
      obtain ⟨hdone, hdone'⟩ := h
      dsimp only at hdone hdone' ⊢
      rw [hends] at hdone hdone'
      rw [hdone, hdone', if_pos rfl, if_pos rfl]
      exact .pure (by rw [endsIn, hends]; exact ⟨rfl, rfl⟩)
    | false =>
      have hsteps : stepsIn (s :: ss) = stepsOf s ++ stepsIn ss := by
        rw [stepsIn, if_neg (by simp [hends])]
      rw [hsteps] at hinst ⊢
      have hs : InstantiatesAll vars consts (stepsOf s) := fun left right hmem =>
        hinst left right (List.mem_append_left _ hmem)
      have hss : InstantiatesAll vars consts (stepsIn ss) := fun left right hmem =>
        hinst left right (List.mem_append_right _ hmem)
      refine ((tracks_statement hvars exitStage s hs).bind
        (recurs_statement vars exitStage exitStage s).grows
        fun (act, done) (act', done') h => ?_).congr admitsAll_append
      obtain ⟨hdone, hdone'⟩ := h
      dsimp only at hdone hdone' ⊢
      rw [hends] at hdone hdone'
      rw [hdone, hdone', if_neg Bool.false_ne_true, if_neg Bool.false_ne_true]
      refine (tracks_statements hvars exitStage ss hss).bind_right
        (recurs_statements vars exitStage exitStage ss).grows fun r r' hr => ?_
      exact .pure (by rw [endsIn, hends, Bool.false_or]; exact hr)

end

/-- **A body that is lowered with variables is lowered with arguments exactly if each assignment
admits them.** -/
theorem tracks_body (hvars : Plain vars) (exitStage : Int64) {ss : List Stmt}
    (hinst : InstantiatesAll vars consts (stepsIn ss)) :
    Tracks l (body vars exitStage ss) (body consts exitStage ss) (AdmitsAll l consts (stepsIn ss))
      fun _ _ => True :=
  (tracks_statements hvars exitStage ss hinst).bind_right
    (recurs_statements vars exitStage exitStage ss).grows fun _ _ _ => .pure trivial

end

end Flowline.Lower
