import Flowline.Proofs.Flow.Leaves
import Flowline.Proofs.Flow.Matching

/-!
# Folding parts of registers

A part of a part of a register is written by nesting slices.  Two things look through the nesting:
simplifying replaces a value by the register that it denotes, and the text of a comparison is that
of the register.  Both find the same register.

* `Repeats`: passes are repeated until one changes nothing; over values and over matches the second
  pass never does (`Expr.fold_settled`, `Match.pass_settled`).
* `PartOf`: where the register of a nested value begins, and how wide it is
  (`Expr.partOf_of_asRegister`).
* `Match.text_simplify`: a match whose comparisons are of registers keeps its text.
-/

namespace Flowline.Flow

open Switch

/-! ## Repeated passes -/

/-- Passes are repeated until one changes nothing. -/
inductive Repeats {α : Type} (pass : α → α × Bool) : α → α → Prop
  | stop {x y : α} : pass x = (y, false) → Repeats pass x y
  | again {x y z : α} : pass x = (y, true) → Repeats pass y z → Repeats pass x z

/-- If a second pass changes nothing, then the passes end, and with what the first one gives. -/
theorem repeats_iff {α : Type} {pass : α → α × Bool}
    (hpass : ∀ x, pass (pass x).1 = ((pass x).1, false)) (x y : α) :
    Repeats pass x y ↔ y = (pass x).1 := by
  constructor
  · intro h
    cases h with
    | stop hx => rw [hx]
    | again hx hy =>
      have hsettled := hpass x
      rw [hx] at hsettled ⊢
      cases hy with
      | stop hy => exact (Prod.ext_iff.mp (hy.symm.trans hsettled)).1
      | again hy _ => cases hy.symm.trans hsettled
  · rintro rfl
    cases hchanged : (pass x).2 with
    | false => exact .stop (Prod.ext rfl hchanged)
    | true => exact .again (Prod.ext rfl hchanged) (.stop (hpass x))

theorem Expr.fold_settled (e : Expr) : e.fold.1.fold = (e.fold.1, false) := by
  rcases e.fold.1.shrinks_fold with ⟨hchanged, he⟩ | ⟨-, hlt⟩
  · exact Prod.ext he hchanged
  · rw [e.fold_fold] at hlt
    exact absurd hlt (Nat.lt_irrefl _)

/-- A value folds to a register if and only if it denotes one. -/
theorem Expr.fold_eq_reg_iff {e : Expr} {r : Register} :
    e.fold.1 = .reg r ↔ e.asRegister = some r := by
  constructor
  · intro h
    rw [← e.asRegister_fold, h, Expr.asRegister]
  · exact fold_of_asRegister

namespace Match

theorem pass_settled (m : Match) : m.pass.1.pass = (m.pass.1, false) := by
  induction m with
  | seq left right ihl ihr =>
    show (Match.seq left.pass.1 right.pass.1).pass = _
    rw [Match.pass, ihl, ihr]
    rfl
  | equals left right mask =>
    show (Match.equals left.fold.1 right mask).pass = _
    rw [Match.pass, left.fold_settled]
    rfl
  | _ => rfl

theorem passes_of_settled {m : Match} (h : m.pass = (m, false)) (n : Nat) : m.passes n = m := by
  cases n with
  | zero => rfl
  | succ n => rw [Match.passes, h]

theorem simplify_eq_pass (m : Match) : m.simplify = m.pass.1 := by
  have hsize : ∃ n, m.size = n + 1 := by
    cases m <;> exact ⟨_, rfl⟩
  obtain ⟨n, hn⟩ := hsize
  have hsettled := m.pass_settled
  rw [Match.simplify, hn, Match.passes]
  split
  · next b hpass =>
    rw [hpass] at hsettled ⊢
    exact passes_of_settled hsettled n
  · next b hpass => rw [hpass]

theorem simplify_simplify (m : Match) : m.simplify.simplify = m.simplify := by
  rw [simplify_eq_pass m, simplify_eq_pass, m.pass_settled]

/-! ## Texts -/

/-- What the comparisons of a match are of denotes registers. -/
def OfRegisters : Match → Prop
  | equals left _ _ => left.asRegister.isSome = true
  | seq left right => left.OfRegisters ∧ right.OfRegisters
  | _ => True

theorem ofRegisters_foldl (m : Match) (ms : List Match) :
    (ms.foldl .seq m).OfRegisters ↔ m.OfRegisters ∧ ∀ x ∈ ms, x.OfRegisters :=
  foldl_iff_forall (fun _ _ => Iff.rfl) m ms

end Match

/-- The text of a comparison is that of the register. -/
theorem equalsText_fold {left : Expr} (h : left.asRegister.isSome = true) (right : Expr)
    (mask : Option Expr) : equalsText left.fold.1 right mask = equalsText left right mask := by
  obtain ⟨r, hr⟩ := Option.isSome_iff_exists.mp h
  rw [equalsText, equalsText, left.asRegister_fold, hr]

namespace Match

theorem text_pass {m : Match} (h : m.OfRegisters) : m.pass.1.text = m.text := by
  induction m with
  | seq left right ihl ihr =>
    have hl := ihl h.1
    have hr := ihr h.2
    -- Whether a comma stands between the halves depends on the form of the second, which stays.
    cases right with
    | interpolated name => exact congrArg (· ++ interpolation name) hl
    | _ => exact congrArg₂ (fun l r => l ++ ", " ++ r) hl hr
  | equals left right mask => exact equalsText_fold h right mask
  | _ => rfl

theorem text_simplify {m : Match} (h : m.OfRegisters) : m.simplify.text = m.text := by
  rw [simplify_eq_pass, text_pass h]

end Match

/-! ## Nested slices -/

namespace Expr

/-- What is left of a value without its slices. -/
def base : Expr → Expr
  | slice e _ _ => e.base
  | e => e

/-- The bounds of the slices of a value, the outermost first. -/
def slices : Expr → List (Int64 × Int64)
  | slice e low high => (low, high) :: e.slices
  | _ => []

end Expr

/-- A register is cut out of another one by nested slices, the outermost first: it begins where the
lower bounds lead, and is as wide as the outermost slice. -/
structure PartOf (b : Register) (slices : List (Int64 × Int64)) (r : Register) : Prop where
  base_eq : r.number = b.number ∧ r.bundle = b.bundle ∧ r.size = b.size ∧ r.field = b.field
  low_eq : r.low = b.low + (slices.map Prod.fst).sum
  width_eq : r.width = (slices.head?.map fun q => q.2 - q.1 + 1).getD b.width

theorem partOf_nil (b : Register) : PartOf b [] b :=
  ⟨⟨rfl, rfl, rfl, rfl⟩, (Int64.add_zero b.low).symm, rfl⟩

theorem PartOf.slice {b r s : Register} {slices : List (Int64 × Int64)} {low high : Int64}
    (h : PartOf b slices r) (hs : r.slice low high = some s) :
    PartOf b ((low, high) :: slices) s := by
  obtain ⟨-, -, -, rfl⟩ := Register.slice_eq_some hs
  refine ⟨h.base_eq, ?_, ?_⟩
  · show r.low + low = b.low + (low + (slices.map Prod.fst).sum)
    rw [h.low_eq]
    grind
  · show r.low + high - (r.low + low) + 1 = high - low + 1
    grind

theorem Expr.partOf_of_asRegister {e : Expr} {r : Register} (h : e.asRegister = some r) :
    ∃ b, e.base = .reg b ∧ PartOf b e.slices r := by
  induction e generalizing r with
  | reg b =>
    cases h
    exact ⟨b, rfl, partOf_nil b⟩
  | const | var => cases h
  | slice e low high ih =>
    obtain ⟨q, hq, hslice⟩ := Option.bind_eq_some_iff.mp h
    obtain ⟨b, hb, hpart⟩ := ih hq
    exact ⟨b, hb, hpart.slice hslice⟩

/-- **Simplifying and printing see one register.**  Folding a value over and over ends, with a
register exactly where the value denotes one, and with that register; it begins at the sum of the
lower bounds of the slices, and is as wide as the outermost one.  Simplifying a match ends as well,
does nothing to what is simplified, and keeps the text if the comparisons are of registers. -/
theorem folding_agrees (e : Expr) {m : Match} (hm : m.OfRegisters) :
    (∃ e', (∀ x, Repeats Expr.fold e x ↔ x = e') ∧ e'.asRegister = e.asRegister ∧
      ∀ r, e' = .reg r ↔ e.asRegister = some r) ∧
    (∀ r, e.asRegister = some r → ∃ b, e.base = .reg b ∧ PartOf b e.slices r) ∧
    (∀ x, Repeats Match.pass m x ↔ x = m.simplify) ∧
    m.simplify.simplify = m.simplify ∧ m.simplify.text = m.text ∧
    ∀ l, m.simplify.hasText l = m.hasText l := by
  refine ⟨⟨e.fold.1, repeats_iff Expr.fold_settled e, e.asRegister_fold, ?_⟩,
    fun r => Expr.partOf_of_asRegister, fun x => ?_, m.simplify_simplify, Match.text_simplify hm,
    fun l => m.hasText_simplify⟩
  · exact fun r => Expr.fold_eq_reg_iff
  · rw [m.simplify_eq_pass]
    exact repeats_iff Match.pass_settled m x

/-- Bits 4 to 5 of bits 8 to 15 of a whole base register. -/
def nestedSlices : Expr :=
  .slice (.slice (.reg { number := 0, bundle := 1, size := 32, low := 0, high := 31 }) 8 15) 4 5

/-- The part begins at bit twelve, two bits wide, and a comparison of it keeps its text. -/
theorem folding_agrees_nestedSlices :
    (∃ r, nestedSlices.asRegister = some r ∧ r.low = 12 ∧ r.width = 2 ∧
      Repeats Expr.fold nestedSlices (.reg r)) ∧
    (Match.equals nestedSlices (.number 1) none).OfRegisters ∧
    (Match.equals nestedSlices (.number 1) none).simplify.text = "reg0=0x1000/0x3000" := by
  have hm : (Match.equals nestedSlices (.number 1) none).OfRegisters := rfl
  obtain ⟨⟨e', hrepeats, -, hreg⟩, -, -, -, htext, -⟩ := folding_agrees nestedSlices hm
  refine ⟨⟨_, rfl, by decide, by decide, ?_⟩, hm, ?_⟩
  · exact (hrepeats _).mpr ((hreg _).mpr rfl).symm
  · rw [htext]
    decide +kernel

end Flowline.Flow
