import Flowline.Proofs.Compile.Widths
import Flowline.Proofs.Lower.Parameters
import Flowline.Proofs.Pipeline.Naming

/-!
# The operands of actions

What a flow loads is a constant or a whole variable, and what it moves should be registers.  The
storage of an accepted program has registers, as long as its width is not disputed and casts leave a
bit of it.  Then there is one way left for an operand to be no register: an assignment that takes a
part of a parameter which stands for a variable (`operands_registers_iff`).

Parameters stand for variables in the rules over the rows of a relation, and for constants in entries
and defaults, so the same action may move a part of a variable in one place and load a constant in
the other.
-/

namespace Flowline.Compile

open Lower
open Pipeline
open Source (Expr)
open Switch (Allocator Register Target)
open Switch.Allocator (Ledger)

/-! ## Substitutions -/

/-- What the parameters of an action stand for in a compilation: variables in the rules over rows,
and the constants of arguments elsewhere. -/
inductive StandsFor (act : Action) : Substitution → Prop
  | vars : StandsFor act (paramVars act)
  | consts {args : List Expr} {sub : Substitution} {b b' : Allocator}
      (hargs : Yields (constArgs act args) b sub b') : StandsFor act sub

theorem mem_of_lookup {sub : Substitution} {q : Text} {v : Flow.Expr} (h : sub.lookup q = some v) :
    (q, v) ∈ sub := by
  obtain ⟨before, behind, rfl, -⟩ := List.lookup_eq_some_iff.mp h
  exact List.mem_append_right _ List.mem_cons_self

theorem StandsFor.plain {act : Action} {sub : Substitution} (h : StandsFor act sub) : Plain sub := by
  intro q v hv
  have hmem := mem_of_lookup hv
  cases h with
  | vars =>
    obtain ⟨p, -, hp⟩ := List.mem_map.mp hmem
    cases hp
    rfl
  | consts hargs =>
    unfold constArgs at hargs
    split at hargs
    · exact absurd hargs not_yields_throw
    · obtain ⟨n, base, heq⟩ := (ensures_constArgsOf _ _).holds hargs (Grows.refl _) _ hmem
      have hconst : v = .const n base := heq
      rw [hconst]
      rfl

/-! ## Storage -/

variable {p : Program} {a : Allocator}

/-- Storage that is named in a program is declared by it. -/
theorem declared_of_names {params : List Param} {e : Expr} (h : Names p.fields p.locals params e)
    (he : e.isStorage = true) : Declared p e := by
  cases e with
  | field _ | localVar _ => exact h
  | slice e _ _ | cast _ e => exact declared_of_names (e := e) h he
  | _ => cases he

/-- An expression that has a register if it is storage: no declaration of another width has its
name, and each narrowing cast leaves a bit. -/
structure Seatable (p : Program) (e : Expr) : Prop where
  undisputed : Undisputed p e
  cutsSome : e.isStorage = true → CutsSome e

theorem isSome_register (hp : Loaded p) (ha : Ledger (Stored p) a) {params : List Param} {e : Expr}
    (he : Names p.fields p.locals params e) (hstorage : e.isStorage = true) (hseat : Seatable p e)
    {v : Flow.Expr} (hv : OfStorage (Layout.of a) e v) :
    ((Layout.of a).register e).isSome = true := by
  obtain ⟨base, hbase⟩ := hv.exists_base
  have hseated := seated_base hp ha (declared_of_names he hstorage) hseat.undisputed hbase
  obtain ⟨r, hr, -⟩ :=
    exists_part hstorage hv.inBounds (hseat.cutsSome hstorage) hbase hseated.room
  exact Option.isSome_of_eq_some hr

/-! ## Bodies -/

theorem forall_leaves_iff (flow : Flow.Action) :
    (∀ leaf ∈ flow.leaves, leaf.OnRegisters) ↔ ∀ leaf ∈ flow.doing, leaf.OnRegisters := by
  constructor
  · exact fun h leaf hleaf => h leaf (List.mem_of_mem_filter hleaf)
  · intro h leaf hleaf
    cases hempty : leaf.isEmpty with
    | true =>
      rw [Flow.Action.eq_empty_of_isEmpty hempty]
      trivial
    | false => exact h leaf (List.mem_filter.mpr ⟨hleaf, by rw [hempty]; rfl⟩)

theorem forall_laid_iff {stores : List Flow.Action} {stage : Option Int64} :
    (∀ leaf ∈ stores ++ stage.toList.map .resubmit, leaf.OnRegisters) ↔
      ∀ leaf ∈ stores, leaf.OnRegisters := by
  rw [List.forall_mem_append, and_iff_left_iff_imp]
  intro _
  rw [List.forall_mem_map]
  exact fun _ _ => trivial

/-- **Operands are registers unless a part of a variable is read.**  Lower the body of an action of
an accepted program, with variables or the constants of arguments for its parameters.  Then every
load is of a constant or of a whole variable.  All other operands of loads and moves are registers
if and only if, for each assignment that is reached, the storage on both sides has a register, and
the right side is no part of a variable.  Storage of one undisputed width of which casts leave a bit
has a register, so where all storage is such, only the parts of variables matter. -/
theorem operands_registers_iff {d : Description.Program} {t : Target}
    (hload : ofDescription d = .ok p) {c : Control} (hc : c ∈ p.controls) {act : Action} (hact : act ∈ c.actions) {sub : Substitution}
    (hsub : StandsFor act sub) {exitStage : Int64} {flow : Flow.Action} {a a' : Allocator}
    (ha : Reached p t a) (h : Yields (body sub exitStage act.body) a flow a') :
    (∀ src dst, .load src dst ∈ flow.leaves →
      (∃ n base, src = .const n base) ∨ ∃ name width, src = .var name width) ∧
    ((∀ leaf ∈ flow.leaves, leaf.OnRegisters) ↔ ∀ left right,
      .assign left right ∈ stepsIn act.body → (Layout.of a').HasOperands sub left right) ∧
    ((∀ left right, .assign left right ∈ stepsIn act.body → Seatable p left ∧ Seatable p right) →
      ((∀ leaf ∈ flow.leaves, leaf.OnRegisters) ↔ ∀ left right,
        .assign left right ∈ stepsIn act.body → ¬TakesPartOfVariable sub right)) := by
  obtain ⟨stores, hsteps, -, hdoing⟩ :=
    (ensures_body_laid (lays_becomes hsub.plain) exitStage act.body).holds h (Grows.refl _)
  have hregisters : (∀ leaf ∈ flow.leaves, leaf.OnRegisters) ↔ ∀ left right,
      .assign left right ∈ stepsIn act.body → (Layout.of a').HasOperands sub left right := by
    rw [forall_leaves_iff, hdoing, forall_laid_iff, forall_onRegisters_iff hsteps]
  refine ⟨fun src dst hleaf => ?_, hregisters, fun hseats => ?_⟩
  · have hmem : .load src dst ∈ flow.doing := List.mem_filter.mpr ⟨hleaf, rfl⟩
    rw [hdoing] at hmem
    have hstore : .load src dst ∈ stores := by simpa using hmem
    have hplain := isMoved_of_mem_stores hsteps hstore
    cases src with
    | const n base => exact .inl ⟨n, base, rfl⟩
    | var name width => exact .inr ⟨name, width, rfl⟩
    | reg _ => cases hplain
    | slice _ _ _ => cases hplain
  · have hp := loaded_of_ofDescription hload
    have hnames := names_of_ofDescription hload hc hact
    have ha' : Ledger (Stored p) a' :=
      (asks_body sub exitStage ((controlUses_of_loaded hp hc).actions act hact)).ledger ha.ledger h
    rw [hregisters]
    refine forall₃_congr fun left right hassign => ⟨fun hoperands => hoperands.not_part, ?_⟩
    intro hpart
    obtain ⟨x, hx⟩ := exists_assigned hsteps hassign
    obtain ⟨src, dst, hdst, -, hsrc, -⟩ := hx.exists_operands
    obtain ⟨hleft, hright⟩ := hnames left right hassign
    obtain ⟨hseat, hseat'⟩ := hseats left right hassign
    exact ⟨isSome_register hp ha' hleft hx.left_isStorage hseat hdst,
      fun hstorage => isSome_register hp ha' hright hstorage hseat' (hsrc hstorage), hpart⟩

/-! ## A part of a parameter -/

/-- A program with an action that sets a metadata field to the lower half of its parameter. -/
def halfDescription : Description.Program where
  metadata := [{ name := "x", width := 4 }]
  ingress := some { idleControl with
    actions := [{ name := "a", params := [{ name := "q", width := 8 }], body := "m.x=q[3:0];" }] }
  egress := some idleControl

/-- The flow of the action: a move of a part of a variable. -/
def halfFlow : Flow.Action :=
  .move (.slice (.var "p_q" 8) 0 3)
    (.reg { number := 0, bundle := 1, size := 32, low := 0, high := 3, owner := "meta.x" })

theorem exists_halfDescription :
    ∃ p c act a', ofDescription halfDescription = .ok p ∧ c ∈ p.controls ∧ act ∈ c.actions ∧
      Yields (body (paramVars act) 0 act.body) (.fresh {}) halfFlow a' := by
  obtain ⟨p, c, act, hload, hc, hact, htest⟩ := exists_action_of_accepts halfDescription
    (fun act => decide (result? (body (paramVars act) 0 act.body) (.fresh {}) = some halfFlow))
    (by decide +kernel)
  obtain ⟨a', hyields⟩ := exists_yields_of_result? (of_decide_eq_true htest)
  exact ⟨p, c, act, a', hload, hc, hact, hyields⟩

/-- The assignment of the action does not have the operands that it needs. -/
theorem operands_registers_iff_halfDescription :
    ∃ p c act a', ofDescription halfDescription = .ok p ∧ c ∈ p.controls ∧ act ∈ c.actions ∧
      StandsFor act (paramVars act) ∧ Reached p {} (.fresh {}) ∧
      Yields (body (paramVars act) 0 act.body) (.fresh {}) halfFlow a' ∧
      ¬∀ left right, .assign left right ∈ stepsIn act.body →
        (Layout.of a').HasOperands (paramVars act) left right := by
  obtain ⟨p, c, act, a', hload, hc, hact, hyields⟩ := exists_halfDescription
  have hreached : Reached p {} (.fresh {}) := ⟨[], nofun, rfl⟩
  obtain ⟨-, hiff, -⟩ := operands_registers_iff hload hc hact .vars hreached hyields
  refine ⟨p, c, act, a', hload, hc, hact, .vars, hreached, hyields, fun hoperands => ?_⟩
  exact Bool.false_ne_true (hiff.mpr hoperands halfFlow List.mem_cons_self).1

/-- The flow moves what is no register. -/
theorem move_of_no_register_halfDescription :
    ∃ p c act a' src dst, ofDescription halfDescription = .ok p ∧ c ∈ p.controls ∧ act ∈ c.actions ∧
      StandsFor act (paramVars act) ∧
      Yields (body (paramVars act) 0 act.body) (.fresh {}) halfFlow a' ∧
      .move src dst ∈ halfFlow.leaves ∧ src.asRegister = none := by
  obtain ⟨p, c, act, a', hload, hc, hact, hyields⟩ := exists_halfDescription
  exact ⟨p, c, act, a', _, _, hload, hc, hact, .vars, hyields, List.mem_cons_self, rfl⟩

end Flowline.Compile
