import Flowline.Proofs.Compile.Ownership
import Flowline.Proofs.Lower.Widths

/-!
# Storage is as wide as its type

The registers of a program are given out on the way, each for the width with which its name is first
asked for.  So the register of a field or local is as wide as its declaration, unless another one of
its name has another width, and parts of it are as wide as their types (`storage_width`).

Built-in fields are in the reserved registers, which have sixteen bits whatever the declaration says.
A built-in field that is declared with less has the whole register.
-/

namespace Flowline.Compile

open Lower
open Pipeline
open Source (Expr)
open Switch (Allocator Register Target Word.toInt_pred Word.toInt_sub_succ)
open Switch.Allocator (Ledger Request)

/-! ## Expressions of a program -/

/-- An expression takes a part of storage that a program declares. -/
def Declared (p : Program) : Expr → Prop
  | .field f => f ∈ p.fields
  | .localVar l => l ∈ p.locals
  | .slice e _ _ => Declared p e
  | .cast _ e => Declared p e
  | _ => False

/-- No declaration of another width has the name that owns the register of an expression. -/
def Undisputed (p : Program) : Expr → Prop
  | .field f => ownsRegister f = true → ∀ d ∈ storageOf p, d.name = f.name → d.width = f.type.width
  | .localVar l => ∀ d ∈ storageOf p, d.name = l.fullName → d.width = l.type.width
  | .slice e _ _ => Undisputed p e
  | .cast _ e => Undisputed p e
  | _ => True

/-- An expression of storage of a program that has a register of its own width, narrowed to some
bits. -/
structure Storable (p : Program) (e : Expr) : Prop where
  declared : Declared p e
  undisputed : Undisputed p e
  cutsSome : CutsSome e

section

variable {p : Program} {t : Target} {a a' : Allocator} {r : Register}

theorem Declared.isStorage {e : Expr} (h : Declared p e) : e.isStorage = true := by
  cases e with
  | field | localVar => rfl
  | slice e _ _ | cast _ e => exact Declared.isStorage (e := e) h
  | _ => exact h.elim

/-- The registers that an expression asks for are those of the program. -/
theorem Declared.uses {e : Expr} (h : Declared p e) : Uses (Stored p) e := by
  cases e with
  | field f =>
    exact fun hbuiltin hpacket => .field h (ownsRegister_eq_true.mpr ⟨hpacket, hbuiltin⟩)
  | localVar l => exact .ofLocal h
  | slice e _ _ | cast _ e => exact Declared.uses (e := e) h
  | _ => exact h.elim

/-! ## Registers of storage -/

/-- A register of storage of a width: it has room for it, and is as wide, or has sixteen bits if it
is reserved. -/
structure Seated (r : Register) (width : Int64) (sixteen : Bool) : Prop where
  room : HasRoom r width
  width_eq : r.width = if sixteen then 16 else width

theorem Seated.of_covers {width : Int64} (h : r.Covers width) : Seated r width false :=
  ⟨fun _ => ⟨width, h, le_rfl⟩, h.width_eq⟩

/-- The reserved registers have sixteen bits: no name of storage is like theirs. -/
theorem covers_of_lookup_reserved (hp : Loaded p) (ha : Ledger (Stored p) a) {name : Text}
    (hname : '.' ∉ name.toList) (hr : a.lookup name = some r) : r.Covers 16 := by
  obtain ⟨q, hq, hanswers⟩ := ha.answers _ (Allocator.mem_owners_of_lookup hr)
  have hdotted : '.' ∉ q.name.toList := hanswers.name_eq ▸ hname
  have hcovers := hanswers.covers
  cases hq with
  | output | group => exact hcovers
  | field hf _ => exact absurd (hp.dotted _ hf) hdotted
  | ofLocal _ => exact absurd (dotted_fullName _) hdotted

theorem seated_of_reserved (hp : Loaded p) (ha : Ledger (Stored p) a) {owner : Text}
    (howner : '.' ∉ owner.toList) {f : Field} (h : reserved a owner f = .ok r) :
    Seated r f.type.width true := by
  unfold reserved at h
  split at h
  · cases h
  · next s hs =>
    split at h
    · cases h
    · next hwidth =>
      cases h
      have hcovers := covers_of_lookup_reserved hp ha howner hs
      rw [hcovers.width_eq, Int64.lt_iff_toInt_lt, not_lt] at hwidth
      exact ⟨fun _ => ⟨16, hcovers, hwidth⟩, hcovers.width_eq⟩

theorem seated_of_packetField {f : Field} {packet : Text} (h : packetField f packet = .ok r) :
    Seated r f.type.width false := by
  unfold packetField at h
  split at h
  · cases h
    refine ⟨fun hpos => ⟨f.type.width, ⟨hpos, ?_⟩, le_rfl⟩, ?_⟩
    · show (f.type.width - 1).toInt = (0 : Int64).toInt + f.type.width.toInt - 1
      have hbound := f.type.width.toInt_lt
      rw [Word.toInt_pred (by omega), Int64.toInt_zero]
      omega
    · show f.type.width - 1 - 0 + 1 = f.type.width
      grind
  · next s _ =>
    obtain ⟨⟨_, hle, _, hwidth⟩, rfl⟩ := slicedField_eq_ok_iff.mp h
    refine .of_covers ⟨by omega, ?_⟩
    show s.high.toInt = s.low.toInt + f.type.width.toInt - 1
    omega

/-- A register that its name has asked for with one width only. -/
theorem seated_of_lookup (ha : Ledger (Stored p) a) {name : Text} (hname : '.' ∈ name.toList)
    {width : Int64} (hsole : ∀ d ∈ storageOf p, d.name = name → d.width = width)
    (hr : a.lookup name = some r) : Seated r width false := by
  obtain ⟨q, hq, hanswers⟩ := ha.answers _ (Allocator.mem_owners_of_lookup hr)
  have hsame : name = q.name := hanswers.name_eq
  obtain ⟨d, hd, hdname, hdwidth⟩ := hq.exists_storage (hsame ▸ hname)
  rw [← hsole d hd (hdname.trans hsame.symm), hdwidth]
  exact .of_covers hanswers.covers

theorem seated_of_fieldRegister (hp : Loaded p) (ha : Ledger (Stored p) a) {f : Field}
    (hf : f ∈ p.fields) (hsole : Undisputed p (.field f)) (h : Yields (fieldRegister f) a r a') :
    Seated r f.type.width (isReserved (.field f)) := by
  have ha' : Ledger (Stored p) a' :=
    (asks_fieldRegister (Declared.uses (e := .field f) hf)).ledger ha h
  rw [isReserved]
  unfold fieldRegister at h
  cases hbuiltin : f.builtin with
  | outputPort | multicastGroup =>
    simp only [hbuiltin, yields_bind, yields_get, yields_ofExcept] at h
    obtain ⟨s, b, ⟨rfl, rfl⟩, hr, rfl⟩ := h
    exact seated_of_reserved hp ha (by decide) hr
  | none =>
    simp only [hbuiltin] at h
    cases hpacket : f.packet with
    | some packet =>
      simp only [hpacket, yields_ofExcept] at h
      exact seated_of_packetField h.1
    | none =>
      simp only [hpacket] at h
      exact seated_of_lookup ha' (hp.dotted f hf)
        (hsole (ownsRegister_eq_true.mpr ⟨hpacket, hbuiltin⟩)) (yields_allocate h).2

theorem seated_base (hp : Loaded p) (ha : Ledger (Stored p) a) {e : Expr} (he : Declared p e)
    (hsole : Undisputed p e) {base : Register} (hbase : (Layout.of a).base e = some base) :
    Seated base (storageType e).width (isReserved e) := by
  cases e with
  | field f =>
    obtain ⟨a', hyields⟩ := exists_yields_of_result? hbase
    exact seated_of_fieldRegister hp ha he hsole hyields
  | localVar l =>
    obtain ⟨a', hyields⟩ := exists_yields_of_result? hbase
    have ha' : Ledger (Stored p) a' := (asks_localRegister (.ofLocal he)).ledger ha hyields
    exact seated_of_lookup ha' (dotted_fullName l) hsole (yields_allocate hyields).2
  | slice e _ _ | cast _ e => exact seated_base (e := e) hp ha he hsole hbase
  | _ => exact he.elim

end

/-! ## Values of storage -/

/-- **Storage is as wide as its type.**  In an accepted program, take any expression made of slices
and casts of a field or local, such that no other declaration disputes the width of its register and
each narrowing cast leaves a bit.  Whenever it has a value on the way of a compilation, the value is a
register, and folds to it; the register is a part of that of the field or local, and as wide as the
type of the expression.  Only the whole of a built-in field is sixteen bits wide instead. -/
theorem storage_width {d : Description.Program} {p : Program} {t : Target}
    (hload : ofDescription d = .ok p) {a a' : Allocator} (ha : Reached p t a) {e : Expr}
    (he : Storable p e) {sub : Substitution} {v : Flow.Expr} (h : Yields (value sub e) a v a') :
    ∃ base r, (Layout.of a').base e = some base ∧ v.asRegister = some r ∧ v.fold.1 = .reg r ∧
      r.PartOf base ∧ r.width = if isWhole e && isReserved e then 16 else e.type.width := by
  have ha' : Ledger (Stored p) a' := (asks_value sub he.declared.uses).ledger ha.ledger h
  have hvalue := (ensures_value_storage sub he.declared.isStorage).holds h (Grows.refl a')
  obtain ⟨base, hbase⟩ := hvalue.exists_base
  have hseated := seated_base (loaded_of_ofDescription hload) ha' he.declared he.undisputed hbase
  obtain ⟨r, hr, htakes⟩ :=
    exists_part he.declared.isStorage hvalue.inBounds he.cutsSome hbase hseated.room
  have hregister : v.asRegister = some r := hvalue.register_eq.trans hr
  refine ⟨base, r, hbase, hregister, Flow.Expr.fold_of_asRegister hregister, htakes.part, ?_⟩
  cases hwhole : isWhole e with
  | true =>
    obtain ⟨rfl, hwidth⟩ := htakes.whole hwhole
    rw [hseated.width_eq, hwidth, Bool.true_and]
  | false =>
    rw [(htakes.covers hwhole).width_eq, Bool.false_and]
    rfl

/-! ## A field of its own and a narrow built-in field -/

/-- A program with a metadata field, and a port of eight bits. -/
def narrowDescription : Description.Program where
  metadata := [{ name := "x", width := 32 }]
  standard := [{ name := "p", width := 8, builtin := "output_port" }]
  ingress := some idleControl
  egress := some idleControl

/-- The metadata field. -/
def wideField : Field := { name := "meta.x", type := { width := 32 } }

/-- The port. -/
def narrowPort : Field := { name := "std.p", type := { width := 8 }, builtin := .outputPort }

/-- Four bits of a part of a part of the metadata field. -/
def nestedPart : Expr := .cast { width := 4 } (.slice (.slice (.field wideField) 20 5) 11 4)

/-- The program has both fields and no other storage. -/
structure IsNarrow (p : Program) : Prop where
  wide : wideField ∈ p.fields
  narrow : narrowPort ∈ p.fields
  sole : ∀ d ∈ storageOf p, d.width = 32

theorem exists_narrow : ∃ p, ofDescription narrowDescription = .ok p ∧ IsNarrow p := by
  obtain ⟨p, hload, htest⟩ := exists_of_accepts narrowDescription (fun p =>
    decide (wideField ∈ p.fields ∧ narrowPort ∈ p.fields ∧ ∀ d ∈ storageOf p, d.width = 32))
    (by decide +kernel)
  obtain ⟨hwide, hnarrow, hsole⟩ := of_decide_eq_true htest
  exact ⟨p, hload, hwide, hnarrow, hsole⟩

/-- Bits nine to twelve of the register of the field. -/
theorem storage_width_nestedPart :
    ∃ p, ofDescription narrowDescription = .ok p ∧ Reached p {} (.fresh {}) ∧ Storable p nestedPart ∧
      ∃ v a', Yields (value [] nestedPart) (.fresh {}) v a' ∧
        ∃ base r, (Layout.of a').base nestedPart = some base ∧ v.asRegister = some r ∧
          v.fold.1 = .reg r ∧ r.PartOf base ∧ r.width = 4 := by
  obtain ⟨p, hload, hp⟩ := exists_narrow
  have hreached : Reached p {} (.fresh {}) := ⟨[], nofun, rfl⟩
  have hstorable : Storable p nestedPart :=
    ⟨hp.wide, fun _ d hd _ => hp.sole d hd, ⟨trivial, Or.inr (by decide)⟩⟩
  have hyields : Yields (value [] nestedPart) (.fresh {}) _ _ := rfl
  exact ⟨p, hload, hreached, hstorable, _, _, hyields,
    storage_width hload hreached hstorable hyields⟩

/-- The register file with the output port reserved. -/
def reservedFile : Allocator := (Allocator.fresh {}).serve [⟨outputPort, 16, 16, false⟩]

/-- The port has eight bits, and its register has sixteen. -/
theorem width_ne_narrowPort :
    ∃ p, ofDescription narrowDescription = .ok p ∧ Reached p {} reservedFile ∧
      Declared p (.field narrowPort) ∧ ∃ v a' r, Yields (value [] (.field narrowPort)) reservedFile v a' ∧ v.asRegister = some r ∧
        r.width ≠ (Expr.field narrowPort).type.width := by
  obtain ⟨p, hload, hp⟩ := exists_narrow
  have hreached : Reached p {} reservedFile :=
    ⟨[⟨outputPort, 16, 16, false⟩], List.forall_mem_singleton.mpr .output, rfl⟩
  have hyields : Yields (value [] (.field narrowPort)) reservedFile _ _ := rfl
  exact ⟨p, hload, hreached, hp.narrow, _, _, _, hyields, rfl, by decide⟩

end Flowline.Compile
