import Flowline.Lower.Body
import Flowline.Proofs.Lower.Running

/-!
# The forms of lowered values and stores

A lowering that succeeds gives a value of one of a few forms, and which one is decided by the
expression and by the layout of storage (`ValueOf`); in the same way an assignment becomes a load or
a move (`AssignmentOf`).  Everything that later modules say about values and assignments follows from
this by induction on the form, so that the lowering itself is taken apart only here.
-/

namespace Flowline.Flow

/-- Whether a value is moved and not loaded: a register, or a part of something. -/
def Expr.isMoved : Expr → Bool
  | reg _ => true
  | slice _ _ _ => true
  | _ => false

end Flowline.Flow

namespace Flowline.Lower

open Flowline.Flow (Action)
open Source (Expr Literal)
open Switch (Register)

/-! ## Values -/

/-- The value of an expression, if storage lies as in a layout.  Constants are cut at once, and of
all else slices are taken. -/
inductive ValueOf (L : Layout) (sub : Substitution) : Expr → Flow.Expr → Prop
  | field {f : Field} {r : Register} (hr : L.ofField f = some r) : ValueOf L sub (.field f) (.reg r)
  | localVar {l : Local} {r : Register} (hr : L.ofLocal l = some r) :
      ValueOf L sub (.localVar l) (.reg r)
  | param {q : Param} {action : Text} {v : Flow.Expr} (hv : sub.lookup q.name = some v) :
      ValueOf L sub (.param q action) v
  | literal {l : Literal} (base : Int64) (hnonneg : 0 ≤ l.value)
      (hfits : 0 < l.width → (bitLength l.value : Int) ≤ l.width.toInt) :
      ValueOf L sub (.literal l) (.const l.value base)
  | truth (b : Bool) : ValueOf L sub (.truth b) (.number (if b then 1 else 0))
  | cutConst {e : Expr} {n : Int} {base : Int64} (low high : Int64)
      (hv : ValueOf L sub e (.const n base)) :
      ValueOf L sub (.slice e high low) (.const (lowPart (highPart n low) (high - low + 1)) base)
  | cut {e : Expr} {v : Flow.Expr} {low high : Int64} (hv : ValueOf L sub e v)
      (hconst : ∀ n base, v ≠ .const n base) (hlow : 0 ≤ low.toInt)
      (hle : low.toInt ≤ high.toInt) (hlt : high.toInt < e.type.width.toInt) :
      ValueOf L sub (.slice e high low) (.slice v low high)
  | castConst {e : Expr} {n : Int} {base : Int64} (type : ValueType)
      (hv : ValueOf L sub e (.const n base)) :
      ValueOf L sub (.cast type e) (.const (lowPart n type.width) base)
  | castSame {e : Expr} {v : Flow.Expr} {type : ValueType} (hv : ValueOf L sub e v)
      (hconst : ∀ n base, v ≠ .const n base) (hwidth : e.type.width = type.width) :
      ValueOf L sub (.cast type e) v
  | castNarrow {e : Expr} {v : Flow.Expr} {type : ValueType} (hv : ValueOf L sub e v)
      (hconst : ∀ n base, v ≠ .const n base) (hne : e.type.width ≠ type.width)
      (hwidth : e.type.width > type.width) :
      ValueOf L sub (.cast type e) (.slice v 0 (type.width - 1))

theorem ensures_cutConstant (n : Int) (base width : Int64) :
    Ensures (cutConstant n base width) fun _ v => v = .const (lowPart n width) base where
  grows h := by
    obtain ⟨-, -, rfl⟩ := yields_cutConstant.mp h
    exact Grows.refl _
  holds h _ _ := (yields_cutConstant.mp h).2.1.symm

/-- **A value has the form that its expression has.** -/
theorem ensures_valueOf (sub : Substitution) (e : Expr) :
    Ensures (value sub e) fun L v => ValueOf L sub e v := by
  cases e with
  | field f => exact (ensures_fieldRegister f).bind fun r => ensures_pure fun _ hr => .field hr
  | localVar l =>
    exact (ensures_localRegister l).bind fun r => ensures_pure fun _ hr => .localVar hr
  | param q action =>
    rw [value]
    split
    · next v hv => exact ensures_pure fun _ => .param hv
    · exact ensures_refuse _ _
  | literal l =>
    rw [value, constant]
    split
    · exact ensures_refuse _ _
    · next hneg =>
      split
      · exact ensures_refuse _ _
      · next hfits =>
        refine ensures_pure fun _ => .literal _ (not_lt.mp hneg) fun hwidth => ?_
        exact not_lt.mp fun hlt => hfits ⟨hwidth, hlt⟩
  | truth b => exact ensures_pure fun _ => .truth b
  | slice e high low =>
    rw [value]
    split
    · exact ensures_refuse _ _
    · next hrange =>
      simp only [not_or, not_lt, gt_iff_lt, ge_iff_le, Int64.lt_iff_toInt_lt, Int64.le_iff_toInt_le,
        not_le, Int64.toInt_zero] at hrange
      obtain ⟨hlow, hle, hlt⟩ := hrange
      refine (ensures_valueOf sub e).bind fun v => ?_
      unfold cut
      split
      · refine (ensures_cutConstant _ _ _).mono fun L w hw hv => ?_
        rw [hw]
        exact .cutConst low high hv
      · next hconst => exact ensures_pure fun _ hv => .cut hv hconst hlow hle hlt
  | cast type e =>
    refine (ensures_valueOf sub e).bind fun v => ?_
    unfold castValue
    split
    · refine (ensures_cutConstant _ _ _).mono fun L w hw hv => ?_
      rw [hw]
      exact .castConst type hv
    · next hconst =>
      split
      · next hwidth => exact ensures_pure fun _ hv => .castSame hv hconst hwidth
      · next hne =>
        split
        · next hwidth => exact ensures_pure fun _ hv => .castNarrow hv hconst hne hwidth
        · exact ensures_refuse _ _
  | _ => exact ensures_refuse _ _

/-! ## Stores -/

/-- A constant that is checked against a width fits it. -/
theorem ensures_checkFits (v : Flow.Expr) (width : Int64) (construct : Text) :
    Ensures (checkFits v width construct) fun _ _ =>
      ∀ n base, v = .const n base → width ≠ 0 → (bitLength n : Int) ≤ width.toInt := by
  unfold checkFits
  split
  · split
    · exact ensures_refuse _ _
    · next hfits =>
      refine ensures_pure fun _ n base heq hwidth => ?_
      cases heq
      exact not_lt.mp fun hlt => hfits ⟨hwidth, hlt⟩
  · next hconst => exact ensures_pure fun _ n base heq => absurd heq (hconst n base)

/-- What stores a value: constants that fit and variables are loaded, and all else is moved between
equal widths. -/
inductive StoreOf (width sourceWidth : Int64) (src dst : Flow.Expr) : Action → Prop
  | load (hmoved : src.isMoved = false)
      (hfits : ∀ n base, src = .const n base → width ≠ 0 → (bitLength n : Int) ≤ width.toInt) :
      StoreOf width sourceWidth src dst (.load src dst)
  | move (hmoved : src.isMoved = true) (hwidth : sourceWidth = width) :
      StoreOf width sourceWidth src dst (.move src dst)

theorem ensures_storeOf (construct : Text) (width sourceWidth : Int64) (src dst : Flow.Expr) :
    Ensures (store construct width sourceWidth src dst) fun _ act =>
      StoreOf width sourceWidth src dst act := by
  have hmove : src.isMoved = true →
      Ensures (if sourceWidth ≠ width then
        refuse construct
          ("moving " ++ Numeral.word sourceWidth ++ " bits into " ++ Numeral.word width ++ " bits")
        else pure (.move src dst)) fun _ act => StoreOf width sourceWidth src dst act := by
    intro hmoved
    split
    · exact ensures_refuse _ _
    · next hwidth => exact ensures_pure fun _ => .move hmoved (not_ne_iff.mp hwidth)
  cases src with
  | const n base | var name bits =>
    exact (ensures_checkFits _ _ _).bind fun _ => ensures_pure fun _ hfits => .load rfl hfits
  | reg r | slice v low high => exact hmove rfl

/-- The load or move that an assignment becomes. -/
structure AssignmentOf (L : Layout) (sub : Substitution) (left right : Expr) (act : Action) :
    Prop where
  isStorage : left.isStorage = true
  exists_store : ∃ dst src, ValueOf L sub left dst ∧ ValueOf L sub right src ∧
    StoreOf left.type.width right.type.width src dst act

theorem ensures_assignmentOf (sub : Substitution) (left right : Expr) :
    Ensures (assignment sub left right) fun L act => AssignmentOf L sub left right act := by
  unfold assignment
  dsimp only
  split
  · next hleft =>
    refine (ensures_valueOf sub left).bind fun dst => (ensures_valueOf sub right).bind fun src => ?_
    exact (ensures_storeOf _ _ _ src dst).mono fun L act hact hsrc hdst =>
      ⟨hleft, dst, src, hdst, hsrc, hact⟩
  · exact ensures_refuse _ _

/-- The only call is the one that drops the packet: it loads the port that means nowhere. -/
theorem ensures_call_drop (target : Option Text) (method : Text) (args : List Expr) :
    Ensures (call target method args) fun L act => method = "mark_to_drop" ∧
      ∃ r, L.port = some r ∧ act = loadDropPort L.target.dropPort r := by
  unfold call
  dsimp only
  split
  · next hmethod =>
    refine ensures_get.bind fun b => ?_
    split
    · next r hr =>
      refine ensures_get.bind fun c => ensures_pure fun L hc hb => ⟨hmethod, r, hb.2 r hr, ?_⟩
      rw [hc.1]
    · exact ensures_throw _
  · exact ensures_refuse _ _

end Flowline.Lower
