import Flowline.Proofs.Lower.Steps
import Flowline.Proofs.Lower.Widths

/-!
# Parameters and the operands of assignments

A parameter stands for a constant, or for a variable of the rule around the flow.  Slices and casts
cut a constant at once, but of a variable they leave a part (`Reads`).  Only a cast to the width that
is there already leaves the variable whole.

An assignment loads constants and whole variables and moves everything else, so a part of a variable
is moved like a register, although it is none (`Assigned.onRegisters_iff`).
-/

namespace Flowline.Flow

/-- The operands of an action that must be registers denote registers. -/
def Action.OnRegisters : Action → Prop
  | load _ dst => dst.asRegister.isSome = true
  | move src dst => src.asRegister.isSome = true ∧ dst.asRegister.isSome = true
  | _ => True

end Flowline.Flow

namespace Flowline.Lower

open Flowline.Flow (Action)
open Source (Expr Stmt)

/-! ## What an expression takes of a parameter -/

/-- The parameter that an expression takes a part of. -/
def paramOf? : Expr → Option Param
  | .param q _ => some q
  | .slice e _ _ => paramOf? e
  | .cast _ e => paramOf? e
  | _ => none

/-- Whether an expression takes all of a parameter: it is one, or a cast of one to the width that it
has. -/
def isWholeParam : Expr → Bool
  | .param _ _ => true
  | .cast type e => isWholeParam e && decide (e.type.width = type.width)
  | _ => false

/-- The variable that the parameter of an expression stands for, with its width. -/
def variableOf? (sub : Substitution) (e : Expr) : Option (Text × Int64) :=
  (paramOf? e).bind fun q =>
    match sub.lookup q.name with
    | some (.var name width) => some (name, width)
    | _ => none

/-- An expression takes a part of a variable, and not all of it. -/
def TakesPartOfVariable (sub : Substitution) (e : Expr) : Prop :=
  (variableOf? sub e).isSome = true ∧ isWholeParam e = false

/-- What parameters stand for are constants and variables. -/
def Plain (sub : Substitution) : Prop := ∀ q v, sub.lookup q = some v → v.isMoved = false

theorem paramOf?_of_isStorage {e : Expr} (he : e.isStorage = true) : paramOf? e = none := by
  cases e with
  | field _ | localVar _ => rfl
  | slice e _ _ | cast _ e => exact paramOf?_of_isStorage (e := e) he
  | _ => cases he

/-- The value of an expression: a register or a part of one for storage, and otherwise a constant, a
variable, or a part of a variable. -/
inductive Reads (sub : Substitution) (e : Expr) : Flow.Expr → Prop
  | storage {v : Flow.Expr} (he : e.isStorage = true) (hv : v.isMoved = true) : Reads sub e v
  | constant {n : Int} {base : Int64} (he : e.isStorage = false) (hvar : variableOf? sub e = none) :
      Reads sub e (.const n base)
  | whole {name : Text} {width : Int64} (he : e.isStorage = false)
      (hvar : variableOf? sub e = some (name, width)) (hwhole : isWholeParam e = true) :
      Reads sub e (.var name width)
  | part {v : Flow.Expr} (he : e.isStorage = false) (hpart : TakesPartOfVariable sub e)
      (hv : v.isMoved = true) (hregister : v.asRegister = none) : Reads sub e v

namespace Reads

variable {sub : Substitution} {e : Expr} {v : Flow.Expr}

/-- A range of a value that is no constant is a part of it. -/
theorem slice (h : Reads sub e v) (hconst : ∀ n base, v ≠ .const n base) (e' : Expr)
    (hstorage : e'.isStorage = e.isStorage) (hparam : paramOf? e' = paramOf? e)
    (hwhole : isWholeParam e' = false) (low high : Int64) : Reads sub e' (.slice v low high) := by
  have hvariable : variableOf? sub e' = variableOf? sub e := by rw [variableOf?, hparam, variableOf?]
  cases h with
  | storage he _ => exact .storage (hstorage.trans he) rfl
  | constant => exact absurd rfl (hconst _ _)
  | whole he hvar _ =>
    exact .part (hstorage.trans he) ⟨Option.isSome_of_eq_some (hvariable.trans hvar), hwhole⟩ rfl rfl
  | part he hpart _ hregister =>
    refine .part (hstorage.trans he) ⟨hvariable ▸ hpart.1, hwhole⟩ rfl ?_
    rw [Flow.Expr.asRegister, hregister, Option.bind_none]

theorem cast_same (h : Reads sub e v) (hconst : ∀ n base, v ≠ .const n base) {type : ValueType}
    (hwidth : e.type.width = type.width) : Reads sub (.cast type e) v := by
  have hcast : isWholeParam (.cast type e) = isWholeParam e := by
    rw [isWholeParam, decide_eq_true hwidth, Bool.and_true]
  cases h with
  | storage he hv => exact .storage he hv
  | constant => exact absurd rfl (hconst _ _)
  | whole he hvar hwhole => exact .whole he hvar (hcast.trans hwhole)
  | part he hpart hv hregister => exact .part he ⟨hpart.1, hcast.trans hpart.2⟩ hv hregister

theorem cast_narrow (h : Reads sub e v) (hconst : ∀ n base, v ≠ .const n base) {type : ValueType}
    (hwidth : e.type.width ≠ type.width) (low high : Int64) :
    Reads sub (.cast type e) (.slice v low high) := by
  refine h.slice hconst (.cast type e) rfl rfl ?_ low high
  rw [isWholeParam, decide_eq_false hwidth, Bool.and_false]

theorem cut_const {e' : Expr} {n n' : Int} {base base' : Int64} (h : Reads sub e (.const n base))
    (hstorage : e'.isStorage = e.isStorage) (hparam : paramOf? e' = paramOf? e) :
    Reads sub e' (.const n' base') := by
  cases h with
  | storage _ hv => cases hv
  | constant he hvar =>
    refine .constant (hstorage.trans he) ?_
    rw [variableOf?, hparam]
    exact hvar
  | part _ _ hv => cases hv

end Reads

variable {sub : Substitution}

theorem ValueOf.reads (hsub : Plain sub) {L : Layout} {e : Expr} {v : Flow.Expr}
    (h : ValueOf L sub e v) : Reads sub e v := by
  induction h with
  | field | localVar => exact .storage rfl rfl
  | @param q action v hv =>
    have hplain := hsub _ _ hv
    cases v with
    | reg _ | slice _ _ _ => cases hplain
    | const n base => exact .constant rfl (by simp [variableOf?, paramOf?, hv])
    | var name width => exact .whole rfl (by simp [variableOf?, paramOf?, hv]) rfl
  | literal | truth => exact .constant rfl rfl
  | cutConst _ _ _ ih => exact ih.cut_const rfl rfl
  | @cut e v low high _ hconst _ _ _ ih => exact ih.slice hconst (.slice e high low) rfl rfl rfl _ _
  | castConst _ _ ih => exact ih.cut_const rfl rfl
  | castSame _ hconst hwidth ih => exact ih.cast_same hconst hwidth
  | castNarrow _ hconst hne _ ih => exact ih.cast_narrow hconst hne _ _

/-! ## Assignments -/

/-- The operands that an assignment needs: both sides have a register if they are storage, and a part
of a variable has none. -/
structure Layout.HasOperands (L : Layout) (sub : Substitution) (left right : Expr) : Prop where
  left_isSome : (L.register left).isSome = true
  right_isSome : right.isStorage = true → (L.register right).isSome = true
  not_part : ¬TakesPartOfVariable sub right

/-- An assignment that was lowered: constants and whole variables are loaded, and all else is moved
between equal widths. -/
structure Assigned (L : Layout) (sub : Substitution) (left right : Expr) (act : Action) : Prop where
  left_isStorage : left.isStorage = true
  exists_operands : ∃ src dst, OfStorage L left dst ∧ Reads sub right src ∧
    (right.isStorage = true → OfStorage L right src) ∧
    (src.isMoved = false ∧ act = .load src dst ∨
      src.isMoved = true ∧ right.type.width = left.type.width ∧ act = .move src dst)

theorem ensures_assigned (hsub : Plain sub) (left right : Expr) :
    Ensures (assignment sub left right) fun L act => Assigned L sub left right act :=
  (ensures_assignmentOf sub left right).mono fun L act hact => by
    obtain ⟨dst, src, hdst, hsrc, hstore⟩ := hact.exists_store
    refine ⟨hact.isStorage, src, dst, hdst.ofStorage hact.isStorage, hsrc.reads hsub,
      hsrc.ofStorage, ?_⟩
    cases hstore with
    | load hmoved _ => exact .inl ⟨hmoved, rfl⟩
    | move hmoved hwidth => exact .inr ⟨hmoved, hwidth, rfl⟩

namespace Assigned

variable {L : Layout} {left right : Expr} {act : Action}

theorem isStore (h : Assigned L sub left right act) : act.isStore = true := by
  obtain ⟨src, dst, -, -, -, ⟨-, rfl⟩ | ⟨-, -, rfl⟩⟩ := h.exists_operands
  · rfl
  · rfl

/-- What is loaded is a constant or a whole variable. -/
theorem isMoved_of_load {src dst : Flow.Expr} (h : Assigned L sub left right (.load src dst)) :
    src.isMoved = false := by
  obtain ⟨src', dst', -, -, -, ⟨hmoved, hact⟩ | ⟨-, -, hact⟩⟩ := h.exists_operands
  · cases hact
    exact hmoved
  · cases hact

/-- The operands of a lowered assignment are registers exactly if both sides have them. -/
theorem onRegisters_iff (h : Assigned L sub left right act) :
    act.OnRegisters ↔ L.HasOperands sub left right := by
  obtain ⟨src, dst, hdst, hreads, hsrc, hact⟩ := h.exists_operands
  have hnone : right.isStorage = true → ¬TakesPartOfVariable sub right := by
    intro hstorage hpart
    have hvar := hpart.1
    rw [variableOf?, paramOf?_of_isStorage hstorage] at hvar
    cases hvar
  rcases hact with ⟨hmoved, rfl⟩ | ⟨hmoved, -, rfl⟩
  · -- nothing that is loaded is storage or a part of a variable
    have hright : right.isStorage = false ∧ ¬TakesPartOfVariable sub right := by
      cases hreads with
      | storage _ hv => exact absurd hmoved (by simp [hv])
      | constant he hvar =>
        refine ⟨he, fun hpart => ?_⟩
        rw [TakesPartOfVariable, hvar] at hpart
        cases hpart.1
      | whole he _ hwhole => exact ⟨he, fun hpart => absurd hpart.2 (by simp [hwhole])⟩
      | part _ _ hv => exact absurd hmoved (by simp [hv])
    show dst.asRegister.isSome = true ↔ _
    rw [hdst.register_eq]
    constructor
    · exact fun hleft => ⟨hleft, fun hstorage => absurd hstorage (by simp [hright.1]), hright.2⟩
    · exact fun hoperands => hoperands.left_isSome
  · show src.asRegister.isSome = true ∧ dst.asRegister.isSome = true ↔ _
    rw [hdst.register_eq]
    cases hreads with
    | storage he _ =>
      rw [(hsrc he).register_eq]
      constructor
      · exact fun hregisters => ⟨hregisters.2, fun _ => hregisters.1, hnone he⟩
      · exact fun hoperands => ⟨hoperands.right_isSome he, hoperands.left_isSome⟩
    | constant | whole => cases hmoved
    | part _ hpart _ hregister =>
      rw [hregister]
      constructor
      · exact fun hregisters => absurd hregisters.1 (by decide)
      · exact fun hoperands => absurd hpart hoperands.not_part

end Assigned

/-- What a statement of an action becomes: an assignment as above, and a call a load of a
constant. -/
def Becomes (L : Layout) (sub : Substitution) (s : Stmt) (act : Action) : Prop :=
  match s with
  | .assign left right => Assigned L sub left right act
  | _ => ∃ n base r, act = .load (.const n base) (.reg r)

theorem lays_becomes (hsub : Plain sub) : Lays sub fun L => Becomes L sub where
  assign left right := (ensures_assigned hsub left right).mono fun _ _ h => ⟨h.isStore, h⟩
  call target method args := (ensures_call_drop target method args).mono fun _ _ h => by
    obtain ⟨-, r, -, rfl⟩ := h
    exact ⟨rfl, _, _, r, rfl⟩

section

variable {L : Layout} {steps : List Stmt} {stores : List Action}

/-- What is loaded are constants and whole variables. -/
theorem isMoved_of_mem_stores (h : List.Forall₂ (Becomes L sub) steps stores) {src dst : Flow.Expr}
    (hmem : .load src dst ∈ stores) : src.isMoved = false := by
  induction h with
  | nil => cases hmem
  | @cons s act _ _ hs _ ih =>
    rcases List.mem_cons.mp hmem with rfl | hmem
    · cases s with
      | assign left right => exact Assigned.isMoved_of_load hs
      | _ =>
        obtain ⟨n, base, r, hact⟩ := hs
        cases hact
        rfl
    · exact ih hmem

theorem exists_assigned (h : List.Forall₂ (Becomes L sub) steps stores) {left right : Expr}
    (hmem : .assign left right ∈ steps) : ∃ act, Assigned L sub left right act := by
  induction h with
  | nil => cases hmem
  | cons hs _ ih =>
    rcases List.mem_cons.mp hmem with rfl | hmem
    · exact ⟨_, hs⟩
    · exact ih hmem

/-- Lowered statements have registers for operands exactly if all assignments have. -/
theorem forall_onRegisters_iff (h : List.Forall₂ (Becomes L sub) steps stores) :
    (∀ x ∈ stores, x.OnRegisters) ↔
      ∀ left right, .assign left right ∈ steps → L.HasOperands sub left right := by
  induction h with
  | nil => exact ⟨fun _ _ _ => nofun, fun _ => nofun⟩
  | @cons s act ss as hs _ ih =>
    rw [List.forall_mem_cons, ih]
    constructor
    · rintro ⟨hact, hrest⟩ left right hmem
      rcases List.mem_cons.mp hmem with rfl | hmem
      · exact (Assigned.onRegisters_iff hs).mp hact
      · exact hrest left right hmem
    · intro hall
      refine ⟨?_, fun left right hmem => hall left right (List.mem_cons_of_mem _ hmem)⟩
      cases s with
      | assign left right =>
        exact (Assigned.onRegisters_iff hs).mpr (hall left right List.mem_cons_self)
      | _ =>
        obtain ⟨n, base, r, rfl⟩ := hs
        rfl

end

end Flowline.Lower
