import Flowline.Proofs.Lower.Forms
import Flowline.Proofs.Lower.Meaning

/-!
# Values keep their meaning

The value that lowering gives to an expression denotes what the expression does (`ensures_value`).
Storage becomes a register with the same places in the same order, however slices and casts are
nested; everything else becomes a constant, whose number is that of the expression in every
situation.

Constants are cut with masks, so a signed constant that is made wider gets zeros in front.
-/

namespace Flowline.Lower

open Source (Expr Literal)
open Switch (Register Word.toInt_pred)

variable {sub : Substitution} {args : Text → Int} {L : Layout}

/-! ## Numbers -/

/-- A number has so many bits exactly when it is below that power of two. -/
theorem lt_modulus_of_bitLength {v : Int} {n : Int64} (hv : 0 ≤ v)
    (h : (bitLength v : Int) ≤ n.toInt) : v < modulus n := by
  unfold bitLength at h
  unfold modulus
  split at h
  · next hzero =>
    rw [hzero]
    positivity
  · next hne =>
    have hbits : v.natAbs < 2 ^ n.toInt.toNat := by
      rw [← Nat.log2_lt (by omega)]
      omega
    have hcast : (v.natAbs : Int) < 2 ^ n.toInt.toNat := by exact_mod_cast hbits
    omega

/-- A number that fits a width, unless that is zero, is below its power of two. -/
theorem lt_modulus_of_fits {v : Int} {width : Int64} (hv : 0 ≤ v) (hpos : 0 < width)
    (hfits : width ≠ 0 → (bitLength v : Int) ≤ width.toInt) : v < modulus width := by
  refine lt_modulus_of_bitLength hv (hfits ?_)
  rintro rfl
  exact absurd hpos (by decide)

theorem lowPart_eq {v : Int} {n : Int64} (hv : 0 ≤ v) : lowPart v n = v % modulus n := by
  unfold lowPart
  split
  · next h => rw [Int.emod_eq_of_lt hv (lt_modulus_of_bitLength hv h.2)]
  · rw [Nat.one_shiftLeft, modulus, Nat.cast_pow, Nat.cast_ofNat]

theorem highPart_eq (v : Int) (n : Int64) : highPart v n = v / modulus n := by
  rw [highPart, Int.shiftRight_eq_div_pow, modulus]
  norm_cast

/-! ## What a value denotes -/

/-- A value of a flow stands for an expression: for storage, as a register with its places; for
anything else, as a constant. -/
inductive Denotes (L : Layout) (args : Text → Int) (e : Expr) : Flow.Expr → Prop
  | storage {v : Flow.Expr} {r : Register} (hstorage : e.isStorage = true)
      (hregister : v.asRegister = some r) (hcovers : r.Covers e.type.width)
      (hplaces : r.places L.target = L.places e) : Denotes L args e v
  | constant {n : Int} {base : Int64} (hstorage : e.isStorage = false) (hnonneg : 0 ≤ n)
      (hlt : 0 < e.type.width → n < modulus e.type.width)
      (hvalue : ∀ s, evaluate .zero L args s e = n) : Denotes L args e (.const n base)

variable {e : Expr} {v : Flow.Expr} {n : Int} {base : Int64} {type : ValueType}

theorem Denotes.width_pos (h : Denotes L args e v) (hstorage : e.isStorage = true) :
    0 < e.type.width := by
  cases h with
  | storage _ _ hcovers _ =>
    rw [Int64.lt_iff_toInt_lt]
    exact hcovers.pos
  | constant hconst => exact absurd hstorage (by simp [hconst])

/-! ## Constants -/

theorem denotes_literal {l : Literal} (base : Int64) (hnonneg : 0 ≤ l.value)
    (hfits : 0 < l.width → (bitLength l.value : Int) ≤ l.width.toInt) :
    Denotes L args (.literal l) (.const l.value base) := by
  have hlt : 0 < l.width → l.value < modulus l.width := fun hw =>
    lt_modulus_of_bitLength hnonneg (hfits hw)
  refine .constant rfl hnonneg hlt fun s => ?_
  unfold evaluate
  split
  · next hw => exact Int.emod_eq_of_lt hnonneg (hlt hw)
  · rfl

theorem denotes_truth (b : Bool) :
    Denotes L args (.truth b) (.number (if b then 1 else 0)) := by
  refine .constant rfl ?_ ?_ fun s => rfl
  · cases b <;> decide
  · intro _
    cases b <;> decide

/-! ## Slices -/

/-- The lowest bits of a number are the value of a constant. -/
theorem denotes_lowPart (hstorage : e.isStorage = false) (hnonneg : 0 ≤ n)
    (hvalue : ∀ s, evaluate .zero L args s e = n % modulus e.type.width) :
    Denotes L args e (.const (lowPart n e.type.width) base) := by
  rw [lowPart_eq hnonneg]
  exact .constant hstorage (Int.emod_nonneg _ (modulus_pos _).ne')
    (fun _ => Int.emod_lt_of_pos _ (modulus_pos _)) hvalue

/-- The bits of a constant are those of its number. -/
theorem Denotes.cut_constant {low high : Int64} (hv : Denotes L args e (.const n base)) :
    Denotes L args (.slice e high low)
      (.const (lowPart (highPart n low) (high - low + 1)) base) := by
  cases hv with
  | storage _ hregister => cases hregister
  | constant hstorage hnonneg _ hvalue =>
    have hhigh : 0 ≤ highPart n low := by
      rw [highPart_eq]
      exact Int.ediv_nonneg hnonneg (modulus_pos low).le
    refine denotes_lowPart (e := .slice e high low) hstorage hhigh fun s => ?_
    rw [evaluate, hvalue s, highPart_eq]
    rfl

/-- The bits of storage are a part of its register. -/
theorem Denotes.cut_storage {low high : Int64} (hv : Denotes L args e v)
    (hconst : ∀ n base, v ≠ .const n base) (hlow : 0 ≤ low.toInt) (hle : low.toInt ≤ high.toInt)
    (hlt : high.toInt < e.type.width.toInt) :
    Denotes L args (.slice e high low) (.slice v low high) := by
  cases hv with
  | constant => exact absurd rfl (hconst _ _)
  | storage hstorage hregister hcovers hplaces =>
    obtain ⟨s, hs, hcovers', hplaces'⟩ := hcovers.slice L.target hlow hle hlt
    refine .storage hstorage ?_ hcovers' ?_
    · rw [Flow.Expr.asRegister, hregister, Option.bind_some, hs]
    · rw [hplaces', hplaces, Layout.places]

/-! ## Casts -/

/-- The lowest bits of a constant are those of its number. -/
theorem Denotes.cast_constant (hv : Denotes L args e (.const n base)) :
    Denotes L args (.cast type e) (.const (lowPart n type.width) base) := by
  cases hv with
  | storage _ hregister => cases hregister
  | constant hstorage hnonneg _ hvalue =>
    refine denotes_lowPart (e := .cast type e) hstorage hnonneg fun s => ?_
    rw [evaluate, hvalue s, Padding.integer]
    rfl

/-- A cast to the same width takes all places. -/
theorem Denotes.cast_same (hv : Denotes L args e v) (hconst : ∀ n base, v ≠ .const n base)
    (hwidth : e.type.width = type.width) : Denotes L args (.cast type e) v := by
  cases hv with
  | constant => exact absurd rfl (hconst _ _)
  | storage hstorage hregister hcovers hplaces =>
    refine .storage hstorage hregister (hwidth ▸ hcovers) ?_
    have hlength : (L.places e).length = type.width.toInt.toNat := by
      rw [← hplaces, Register.length_places, hcovers.width_eq, hwidth]
    rw [hplaces, Layout.places, List.take_of_length_le hlength.le]

/-- A cast to a smaller width takes the lowest places. -/
theorem Denotes.cast_narrow (hv : Denotes L args e v) (hconst : ∀ n base, v ≠ .const n base)
    (hpos : 0 < type.width) (hwider : e.type.width > type.width) :
    Denotes L args (.cast type e) (.slice v 0 (type.width - 1)) := by
  rw [gt_iff_lt, Int64.lt_iff_toInt_lt] at hwider
  rw [Int64.lt_iff_toInt_lt, Int64.toInt_zero] at hpos
  have hbound := e.type.width.toInt_lt
  have hlast : (type.width - 1).toInt = type.width.toInt - 1 := Word.toInt_pred (by omega)
  have hlow : (0 : Int64).toInt ≤ (type.width - 1).toInt := by
    rw [hlast, Int64.toInt_zero]
    omega
  have hcount : type.width - 1 - 0 + 1 = type.width := by grind
  cases hv.cut_storage hconst (by decide) hlow (by omega) with
  | storage hstorage hregister hcovers hplaces =>
    refine .storage hstorage hregister (hcount ▸ hcovers) (hplaces.trans ?_)
    rw [Layout.places, Layout.places, hcount]
    rfl

/-! ## All values -/

/-- What parameters stand for are constants, with the given numbers. -/
def Binds (sub : Substitution) (args : Text → Int) : Prop :=
  ∀ q v, sub.lookup q = some v → ∃ base, v = .const (args q) base

/-- Where nothing stands for a parameter, no argument matters. -/
theorem binds_nil (args : Text → Int) : Binds [] args := nofun

theorem ValueOf.denotes (hsub : Binds sub args) (h : ValueOf L sub e v) :
    L.Sized args e → Denotes L args e v := by
  induction h with
  | @field f r hr | @localVar l r hr =>
    intro hsized
    refine .storage rfl rfl (hsized r hr) ?_
    rw [Layout.places, hr]
    rfl
  | param hv =>
    intro hsized
    obtain ⟨base, rfl⟩ := hsub _ _ hv
    exact .constant rfl hsized.1 (fun _ => hsized.2) fun _ => rfl
  | literal base hnonneg hfits => exact fun _ => denotes_literal base hnonneg hfits
  | truth b => exact fun _ => denotes_truth b
  | cutConst low high _ ih => exact fun hsized => (ih hsized).cut_constant
  | cut _ hconst hlow hle hlt ih => exact fun hsized => (ih hsized).cut_storage hconst hlow hle hlt
  | castConst type _ ih => exact fun hsized => (ih hsized.2).cast_constant
  | castSame _ hconst hwidth ih => exact fun hsized => (ih hsized.2).cast_same hconst hwidth
  | castNarrow _ hconst _ hwidth ih =>
    exact fun hsized => (ih hsized.2).cast_narrow hconst hsized.1 hwidth

/-- **Values keep their meaning.**  A value that is lowered denotes its expression, wherever storage
has its size. -/
theorem ensures_value (hsub : Binds sub args) (e : Expr) :
    Ensures (value sub e) fun L v => L.Sized args e → Denotes L args e v :=
  (ensures_valueOf sub e).mono fun _ _ hv => hv.denotes hsub

/-! ## Constants of every width -/

theorem Denotes.number (h : Denotes L args e (.const n base)) :
    0 ≤ n ∧ ∀ s, evaluate .zero L args s e = n := by
  cases h with
  | storage _ hregister => cases hregister
  | constant _ hnonneg _ hvalue => exact ⟨hnonneg, hvalue⟩

/-- A constant denotes its expression, whatever the widths in it are. -/
theorem ValueOf.denotes_const (args : Text → Int) (h : ValueOf L [] e v) :
    ∀ n base, v = .const n base → Denotes L args e v := by
  induction h with
  | field | localVar | cut | castNarrow => exact fun _ _ heq => by cases heq
  | param hv => cases hv
  | literal base hnonneg hfits => exact fun _ _ _ => denotes_literal base hnonneg hfits
  | truth b => exact fun _ _ _ => denotes_truth b
  | cutConst low high _ ih => exact fun _ _ _ => (ih _ _ rfl).cut_constant
  | castConst type _ ih => exact fun _ _ _ => (ih _ _ rfl).cast_constant
  | castSame _ hconst => exact fun n base heq => absurd heq (hconst n base)

theorem ensures_value_constant (args : Text → Int) (e : Expr) :
    Ensures (value [] e) fun L v => ∀ n base, v = .const n base → Denotes L args e v :=
  (ensures_valueOf [] e).mono fun _ _ hv => hv.denotes_const args

/-! ## The register of storage -/

/-- The register that storage is in; a part of storage is in that part of its register. -/
def Layout.register (L : Layout) : Expr → Option Register
  | .field f => L.ofField f
  | .localVar l => L.ofLocal l
  | .slice e high low => (L.register e).bind fun r => r.slice low high
  | .cast type e =>
    if e.type.width = type.width then L.register e
    else (L.register e).bind fun r => r.slice 0 (type.width - 1)
  | _ => none

theorem ValueOf.asRegister_eq (h : ValueOf L [] e v) : v.asRegister = L.register e := by
  induction h with
  | field hr | localVar hr => exact hr.symm
  | param hv => cases hv
  | literal | truth => rfl
  | cutConst low high _ ih =>
    rw [Layout.register, ← ih]
    rfl
  | cut _ _ _ _ _ ih => rw [Flow.Expr.asRegister, ih, Layout.register]
  | castConst type _ ih =>
    rw [Layout.register, ← ih]
    split <;> rfl
  | castSame _ _ hwidth ih => rw [ih, Layout.register, if_pos hwidth]
  | castNarrow _ _ hne _ ih => rw [Flow.Expr.asRegister, ih, Layout.register, if_neg hne]

/-- A value denotes the register of its expression. -/
theorem ensures_value_register (e : Expr) :
    Ensures (value [] e) fun L v => v.asRegister = L.register e :=
  (ensures_valueOf [] e).mono fun _ _ hv => hv.asRegister_eq

end Flowline.Lower
