import Flowline.Proofs.Lower.Placement

/-!
# Parts of storage

The width of an expression is counted twice: by its type, and by the register of its value.  Slices
and casts of a field or a local take parts of its register (`PartOf`), and each of them is as wide as
the type says (`exists_part`).

Only the whole of the storage need not be: a register may be wider than what it holds, and a cast to
the width that is there already takes nothing away.
-/

namespace Flowline.Switch.Register

variable {r s base : Register} {n low high : Int64}

/-- A register is a part of another: it has the same base, and its range lies inside. -/
structure PartOf (r base : Register) : Prop where
  number_eq : r.number = base.number
  bundle_eq : r.bundle = base.bundle
  size_eq : r.size = base.size
  field_eq : r.field = base.field
  low_le : base.low.toInt ≤ r.low.toInt
  high_le : r.high.toInt ≤ base.high.toInt

theorem PartOf.refl (r : Register) : r.PartOf r := ⟨rfl, rfl, rfl, rfl, le_rfl, le_rfl⟩

theorem PartOf.trans (h : s.PartOf r) (h' : r.PartOf base) : s.PartOf base :=
  ⟨h.number_eq.trans h'.number_eq, h.bundle_eq.trans h'.bundle_eq, h.size_eq.trans h'.size_eq,
    h.field_eq.trans h'.field_eq, h'.low_le.trans h.low_le, h.high_le.trans h'.high_le⟩

/-- A range of the bits of a register is a part of it, as wide as the range. -/
theorem Covers.exists_partOf (h : r.Covers n) (hlow : 0 ≤ low.toInt) (hle : low.toInt ≤ high.toInt)
    (hlt : high.toInt < n.toInt) :
    ∃ s, r.slice low high = some s ∧ s.Covers (high - low + 1) ∧ s.PartOf r := by
  obtain ⟨s, hs, hcovers, -⟩ := h.slice {} hlow hle hlt
  refine ⟨s, hs, hcovers, ?_⟩
  have heq := h.high_eq
  have hlast := r.high.toInt_lt
  have hfirst := r.low.le_toInt
  have hsum : (r.low + low).toInt = r.low.toInt + low.toInt := Word.toInt_add (by omega) (by omega)
  obtain ⟨-, -, hhigh, rfl⟩ := slice_eq_some hs
  refine ⟨rfl, rfl, rfl, rfl, ?_, hhigh⟩
  show r.low.toInt ≤ (r.low + low).toInt
  omega

end Flowline.Switch.Register

namespace Flowline.Lower

open Source (Expr)
open Switch (Register Word.toInt_pred)

/-! ## Expressions of storage -/

/-- The type of the field or local that an expression takes a part of. -/
def storageType : Expr → ValueType
  | .field f => f.type
  | .localVar l => l.type
  | .slice e _ _ => storageType e
  | .cast _ e => storageType e
  | _ => {}

/-- The register of the field or local that an expression takes a part of. -/
def Layout.base (L : Layout) : Expr → Option Register
  | .field f => L.ofField f
  | .localVar l => L.ofLocal l
  | .slice e _ _ => L.base e
  | .cast _ e => L.base e
  | _ => none

/-- Whether an expression takes all of a field or local: it is one, or a cast of one to the width that
it has. -/
def isWhole : Expr → Bool
  | .field _ => true
  | .localVar _ => true
  | .cast type e => isWhole e && decide (e.type.width = type.width)
  | _ => false

/-- Whether an expression takes a part of a built-in field, which is in a reserved register. -/
def isReserved : Expr → Bool
  | .field f => decide (f.builtin ≠ .none)
  | .slice e _ _ => isReserved e
  | .cast _ e => isReserved e
  | _ => false

/-- Casts that make an expression narrower leave a bit of it. -/
def CutsSome : Expr → Prop
  | .slice e _ _ => CutsSome e
  | .cast type e => CutsSome e ∧ (e.type.width = type.width ∨ 0 < type.width.toInt)
  | _ => True

/-- Slices lie inside what they take a part of, and casts make nothing wider. -/
def InBounds : Expr → Prop
  | .slice e high low => InBounds e ∧ 0 ≤ low.toInt ∧ low.toInt ≤ high.toInt ∧
      high.toInt < e.type.width.toInt
  | .cast type e => InBounds e ∧ type.width.toInt ≤ e.type.width.toInt
  | _ => True

theorem reg_ne_const (r : Register) (n : Int) (base : Int64) :
    Flow.Expr.reg r ≠ .const n base := nofun

theorem slice_ne_const (v : Flow.Expr) (low high : Int64) (n : Int) (base : Int64) :
    Flow.Expr.slice v low high ≠ .const n base := nofun

/-- A value of storage: it is the register of the expression, and all that is taken is there. -/
structure OfStorage (L : Layout) (e : Expr) (v : Flow.Expr) : Prop where
  inBounds : InBounds e
  exists_base : ∃ base, L.base e = some base
  register_eq : v.asRegister = L.register e
  ne_const : ∀ n base, v ≠ .const n base

theorem ValueOf.ofStorage {L : Layout} {sub : Substitution} {e : Expr} {v : Flow.Expr}
    (h : ValueOf L sub e v) : e.isStorage = true → OfStorage L e v := by
  induction h with
  | @field f r hr | @localVar l r hr => exact fun _ => ⟨trivial, ⟨r, hr⟩, hr.symm, reg_ne_const r⟩
  | param | literal | truth => exact fun he => by cases he
  | cutConst _ _ _ ih | castConst _ _ ih => exact fun he => absurd rfl ((ih he).ne_const _ _)
  | cut _ _ hlow hle hlt ih =>
    intro he
    have hv := ih he
    refine ⟨⟨hv.inBounds, hlow, hle, hlt⟩, hv.exists_base, ?_, slice_ne_const _ _ _⟩
    rw [Flow.Expr.asRegister, hv.register_eq, Layout.register]
  | castSame _ _ hwidth ih =>
    intro he
    have hv := ih he
    refine ⟨⟨hv.inBounds, hwidth ▸ le_rfl⟩, hv.exists_base, ?_, hv.ne_const⟩
    rw [hv.register_eq, Layout.register, if_pos hwidth]
  | castNarrow _ _ hne hwidth ih =>
    intro he
    have hv := ih he
    have hle := (Int64.lt_iff_toInt_lt.mp hwidth).le
    refine ⟨⟨hv.inBounds, hle⟩, hv.exists_base, ?_, slice_ne_const _ _ _⟩
    rw [Flow.Expr.asRegister, hv.register_eq, Layout.register, if_neg hne]

theorem ensures_value_storage (sub : Substitution) {e : Expr} (he : e.isStorage = true) :
    Ensures (value sub e) fun L v => OfStorage L e v :=
  (ensures_valueOf sub e).mono fun _ _ hv => hv.ofStorage he

/-! ## Widths -/

/-- A register has room for a value of a width, if there is one. -/
def HasRoom (r : Register) (width : Int64) : Prop :=
  0 < width.toInt → ∃ n, r.Covers n ∧ width.toInt ≤ n.toInt

/-- The register of an expression, as a part of the register of its storage. -/
structure TakesPart (e : Expr) (base r : Register) : Prop where
  part : r.PartOf base
  room : HasRoom r e.type.width
  whole : isWhole e = true → r = base ∧ e.type.width = (storageType e).width
  covers : isWhole e = false → r.Covers e.type.width

/-- A range of what an expression takes. -/
theorem TakesPart.exists_slice {e : Expr} {base r : Register} (h : TakesPart e base r)
    (low high : Int64) (hlow : 0 ≤ low.toInt) (hle : low.toInt ≤ high.toInt)
    (hlt : high.toInt < e.type.width.toInt) :
    ∃ s, r.slice low high = some s ∧ s.Covers (high - low + 1) ∧ s.PartOf base := by
  obtain ⟨n, hcovers, hn⟩ := h.room (by omega)
  obtain ⟨s, hs, hscovers, hpart⟩ := hcovers.exists_partOf hlow hle (by omega)
  exact ⟨s, hs, hscovers, hpart.trans h.part⟩

/-- **Parts of storage are as wide as their types.**  If the register of a field or local has room
for it, then each expression that takes a part of it has a part of the register. -/
theorem exists_part {L : Layout} {e : Expr} (he : e.isStorage = true) (hbounds : InBounds e)
    (hcuts : CutsSome e) {base : Register} (hbase : L.base e = some base)
    (hroom : HasRoom base (storageType e).width) :
    ∃ r, L.register e = some r ∧ TakesPart e base r := by
  cases e with
  | field f | localVar l => exact ⟨base, hbase, .refl _, hroom, fun _ => ⟨rfl, rfl⟩, nofun⟩
  | slice e high low =>
    obtain ⟨hbounds, hlow, hle, hlt⟩ := hbounds
    obtain ⟨r, hr, htakes⟩ := exists_part (e := e) he hbounds hcuts hbase hroom
    obtain ⟨s, hs, hcovers, hpart⟩ := htakes.exists_slice low high hlow hle hlt
    refine ⟨s, ?_, hpart, fun _ => ⟨_, hcovers, le_rfl⟩, nofun, fun _ => hcovers⟩
    rw [Layout.register, hr, Option.bind_some, hs]
  | cast type e =>
    obtain ⟨hbounds, hle⟩ := hbounds
    obtain ⟨hcuts, hwidth⟩ := hcuts
    obtain ⟨r, hr, htakes⟩ := exists_part (e := e) he hbounds hcuts hbase hroom
    by_cases hsame : e.type.width = type.width
    · have hwhole : isWhole (.cast type e) = isWhole e := by
        rw [isWhole, decide_eq_true hsame, Bool.and_true]
      have hregister : L.register (.cast type e) = some r := by
        rw [Layout.register, if_pos hsame, hr]
      have htype : (Expr.cast type e).type.width = e.type.width := hsame.symm
      refine ⟨r, hregister, htakes.part, htype ▸ htakes.room, fun h => ?_, fun h => ?_⟩
      · rw [hwhole] at h
        exact ⟨(htakes.whole h).1, htype.trans (htakes.whole h).2⟩
      · rw [hwhole] at h
        exact htype ▸ htakes.covers h
    · have hpos := hwidth.resolve_left hsame
      have hne : e.type.width.toInt ≠ type.width.toInt := fun heq => hsame (Int64.toInt_inj.mp heq)
      have hbound := type.width.toInt_lt
      have hzero : (0 : Int64).toInt = 0 := rfl
      have hlast : (type.width - 1).toInt = type.width.toInt - 1 := Word.toInt_pred (by omega)
      obtain ⟨s, hs, hcovers, hpart⟩ := htakes.exists_slice 0 (type.width - 1) (by omega)
        (by omega) (by omega)
      have hlength : type.width - 1 - 0 + 1 = type.width := by grind
      rw [hlength] at hcovers
      have hcut : isWhole (.cast type e) = false := by
        rw [isWhole, decide_eq_false hsame, Bool.and_false]
      refine ⟨s, ?_, hpart, fun _ => ⟨_, hcovers, le_rfl⟩, fun h => ?_, fun _ => hcovers⟩
      · rw [Layout.register, if_neg hsame, hr, Option.bind_some, hs]
      · rw [hcut] at h
        cases h
  | _ => cases he

end Flowline.Lower
