import Flowline.Lower.Condition
import Flowline.Proofs.Flow.Contents
import Flowline.Proofs.Lower.Values

/-!
# Conditions keep their meaning

The match of a condition holds of a packet exactly when the condition does and the prerequisites of
all fields that it reads hold.  The induction runs over conjunctions (`ensures_bareCondition`);
below them stand validity tests, truth values in storage, and equations, whose two sides may be
swapped.

## Signs and constants

Two conditions need care.  An equation with a signed constant that a cast makes wider compares with
zeros in front of the constant, where copies of its sign would stand otherwise.  And a truth value
must be in storage to be compared at all: a cast of a constant to a truth value has no register
(`Grounded`).
-/

namespace Flowline.Flow

open Switch (Situation Target)

/-- Whether a match holds of a packet.  A comparison needs a register on its left and a constant on
its right; the kinds of match that no condition becomes hold of nothing here. -/
def Match.Holds (t : Target) (s : Situation) : Match → Prop
  | equals left (.const n _) none =>
    ∃ r ∈ left.asRegister, (s.memory.read (r.places t) : Int) = n
  | protocol text => s.texts text = true
  | prereq text => s.texts text = true
  | seq left right => left.Holds t s ∧ right.Holds t s
  | _ => False

variable {t : Target} {s : Situation}

theorem Match.holds_foldl (m : Match) (ms : List Match) :
    (ms.foldl .seq m).Holds t s ↔ m.Holds t s ∧ ∀ x ∈ ms, x.Holds t s :=
  foldl_iff_forall (p := Match.Holds t s) (fun _ _ => Iff.rfl) m ms

theorem Match.holds_all? (ms : List Match) :
    (∀ x ∈ Match.all? ms, x.Holds t s) ↔ ∀ x ∈ ms, x.Holds t s := by
  cases ms with
  | nil => simp [Match.all?]
  | cons m ms =>
    simp only [Match.all?, Option.mem_some_iff, forall_eq', holds_foldl, List.forall_mem_cons]

end Flowline.Flow

namespace Flowline.Lower

open Flowline.Flow (Match)
open Source (Expr)
open Switch (Allocator Register Situation)

variable {args : Text → Int}

/-- Truth values that a condition tests by a cast are in storage. -/
def Grounded : Expr → Prop
  | .binary .and left right => Grounded left ∧ Grounded right
  | .cast _ e => e.isStorage = true
  | _ => True

/-! ## Prerequisites -/

theorem prereqTexts_eq (e : Expr) :
    prereqTexts e = (fieldsRead e).flatMap fun f => f.prereq.toList := by
  cases e with
  | field f => simp [prereqTexts, fieldsRead]
  | binary op left right =>
    rw [prereqTexts, fieldsRead, List.flatMap_append, prereqTexts_eq left, prereqTexts_eq right]
  | negation e | slice e high low | cast type e => rw [prereqTexts, fieldsRead, prereqTexts_eq e]
  | _ => rfl

/-- The prerequisites of an expression hold when those of all fields that it reads do. -/
theorem holds_prereqs {t : Switch.Target} {s : Situation} (e : Expr) :
    (∀ x ∈ prereqs e, Match.Holds t s x) ↔
      ∀ f ∈ fieldsRead e, ∀ p ∈ f.prereq, s.texts p = true := by
  have htexts : (∀ x ∈ prereqs e, Match.Holds t s x) ↔ ∀ p ∈ prereqTexts e, s.texts p = true := by
    simp only [prereqs, List.forall_mem_map, List.mem_eraseDups, Match.Holds]
  rw [htexts, prereqTexts_eq]
  constructor
  · intro h f hf p hp
    exact h p (List.mem_flatMap.2 ⟨f, hf, Option.mem_toList.2 hp⟩)
  · intro h p hp
    obtain ⟨f, hf, hp⟩ := List.mem_flatMap.1 hp
    exact h f hf p (Option.mem_toList.1 hp)

/-! ## Equations -/

/-- A sized operand is compared as it is. -/
theorem operand_of_pos {type other : ValueType} (h : 0 < type.width) (v : Int) :
    operand type other v = v := by
  unfold operand
  rw [if_neg]
  rintro ⟨hle, -⟩
  exact absurd h (Int64.not_lt.2 hle)

/-- An operand that fits the width of the other is compared as it is. -/
theorem operand_of_fits {type other : ValueType} {v : Int} (h : 0 ≤ v)
    (hlt : v < modulus other.width) : operand type other v = v := by
  unfold operand
  split
  · exact Int.emod_eq_of_lt h hlt
  · rfl

/-- The register of storage has a number exactly when the storage has that value. -/
theorem Denotes.holds_equals {L : Layout} {e : Expr} {v : Flow.Expr} (h : Denotes L args e v)
    (hstorage : e.isStorage = true) (n : Int) (base : Int64) (s : Situation) :
    Match.Holds L.target s (.equals v (.const n base) none) ↔ evaluate .zero L args s e = n := by
  cases h with
  | storage _ hregister _ hplaces =>
    simp only [Match.Holds, hregister, Option.mem_some_iff, exists_eq_left']
    rw [hplaces, evaluate_storage s hstorage]
  | constant hconst => exact absurd hstorage (by simp [hconst])

/-- A comparison holds exactly when storage and the other side have the same value. -/
theorem ensures_comparison (args : Text → Int) (e : Expr) {storage other : Expr}
    (hstorage : storage.isStorage = true) (hother : other.isStorage = false) :
    Ensures (comparison e storage other) fun L m =>
      L.Sized args storage → L.Sized args other → ∀ s, m.Holds L.target s ↔
        operand storage.type other.type (evaluate .zero L args s storage) =
          operand other.type storage.type (evaluate .zero L args s other) := by
  refine (ensures_value (binds_nil args) storage).bind fun l => ?_
  refine (ensures_value (binds_nil args) other).bind fun r => ?_
  refine (ensures_checkFits r storage.type.width e.text).bind fun _ => ?_
  refine ensures_pure fun L hfits hr hl hsizedL hsizedR s => ?_
  have hL := hl hsizedL
  have hpos := hL.width_pos hstorage
  cases hr hsizedR with
  | storage hbad => exact absurd hbad (by simp [hother])
  | constant _ hnonneg _ hvalue =>
    have hlt := lt_modulus_of_fits hnonneg hpos (hfits _ _ rfl)
    rw [hvalue s, operand_of_pos hpos, operand_of_fits hnonneg hlt]
    exact hL.holds_equals hstorage _ _ s

/-- An equation holds exactly when its sides have the same value, whichever of them is storage. -/
theorem ensures_equation (args : Text → Int) (e left right : Expr) :
    Ensures (equation e left right) fun L m =>
      L.Sized args left → L.Sized args right → ∀ s, m.Holds L.target s ↔
        evaluate .zero L args s (.binary .eq left right) = 1 := by
  unfold equation
  split
  · next hsides =>
    simp only [Bool.and_eq_true, Bool.not_eq_true'] at hsides
    refine (ensures_comparison args e hsides.1 hsides.2).mono fun L m hm hl hr s => ?_
    rw [hm hl hr s, evaluate, truthNumber_eq_one]
  · split
    · next hsides =>
      -- the storage stands on the right
      simp only [Bool.and_eq_true, Bool.not_eq_true'] at hsides
      refine (ensures_comparison args e hsides.2 hsides.1).mono fun L m hm hl hr s => ?_
      rw [hm hr hl s, evaluate, truthNumber_eq_one]
      exact eq_comm
    · exact ensures_refuse _ _

/-- A truth value in storage is tested for being one. -/
theorem ensures_truthOf (args : Text → Int) {e : Expr} (hstorage : e.isStorage = true) :
    Ensures (truthOf e) fun L m => L.Sized args e → ∀ s,
      m.Holds L.target s ↔ evaluate .zero L args s e = 1 := by
  unfold truthOf
  split
  · refine (ensures_value (binds_nil args) e).bind fun v => ensures_pure fun L hv hsized s => ?_
    exact (hv hsized).holds_equals hstorage 1 10 s
  · exact ensures_refuse _ _

/-! ## Conditions -/

/-- What is to be shown of the match of a condition: without prerequisites, it holds exactly when
the condition does. -/
def Tells (args : Text → Int) (e : Expr) (L : Layout) (m : Option Match) : Prop :=
  L.Sized args e → ∀ s, (∀ x ∈ m, Match.Holds L.target s x) ↔ evaluate .zero L args s e = 1

theorem ensures_some_truthOf (args : Text → Int) {e : Expr} (hstorage : e.isStorage = true) :
    Ensures (some <$> truthOf e) (Tells args e) :=
  (ensures_truthOf args hstorage).map fun L x hx hsized s => by simpa using hx hsized s

theorem holds_both {t : Switch.Target} {s : Situation} (l r : Option Match) :
    (∀ x ∈ both l r, Match.Holds t s x) ↔
      (∀ x ∈ l, Match.Holds t s x) ∧ ∀ x ∈ r, Match.Holds t s x := by
  cases l with
  | none => simp [both]
  | some l =>
    cases r with
    | none => simp [both]
    | some r => simp [both, Match.Holds]

/-- Without its prerequisites, the match of a condition holds exactly when the condition does. -/
theorem ensures_bareCondition (args : Text → Int) {e : Expr} (hgrounded : Grounded e) :
    Ensures (bareCondition e) (Tells args e) := by
  match e with
  | .truth true => exact ensures_pure fun L _ s => by simp [evaluate]
  | .truth false => exact ensures_refuse _ _
  | .valid header =>
    unfold bareCondition
    split
    · next p hp => exact ensures_pure fun L _ s => by simp [evaluate, hp, Match.Holds]
    · exact ensures_refuse _ _
  | .binary .and left right =>
    refine (ensures_bareCondition args hgrounded.1).bind fun l => ?_
    refine (ensures_bareCondition args hgrounded.2).bind fun r => ?_
    refine ensures_pure fun L hr hl hsized s => ?_
    rw [holds_both, hl hsized.1, hr hsized.2, evaluate, truthNumber_eq_one]
  | .binary .eq left right =>
    refine (ensures_equation args _ left right).bind fun x => ensures_pure fun L hx hsized s => ?_
    rw [← hx hsized.1 hsized.2 s]
    simp
  | .field f | .localVar l => exact ensures_some_truthOf args rfl
  | .cast type e => exact ensures_some_truthOf args hgrounded
  | .slice e high low =>
    -- a slice is never a truth value
    exact (ensures_refuse _ _).map fun L x (hx : False) => hx.elim
  | .binary .or _ _ | .binary .ne _ _ | .binary .mask _ _
  | .missing | .path _ | .call .. | .member .. | .param .. | .hit .. | .actionRun _
  | .literal _ | .negation _ | .any => exact ensures_refuse _ _

/-- A condition that needs no match reads nothing. -/
theorem fieldsRead_of_none {e : Expr} {m : Option Match} {a a' : Allocator}
    (h : Yields (bareCondition e) a m a') (hm : m = none) : fieldsRead e = [] := by
  match e with
  | .truth _ | .valid _ | .localVar _ => rfl
  | .binary .and left right =>
    simp only [bareCondition, yields_bind, yields_pure] at h
    obtain ⟨l, c, hl, r, d, hr, rfl, rfl⟩ := h
    have hnone : l = none ∧ r = none := by
      cases l <;> cases r <;> simp_all [both]
    rw [fieldsRead, fieldsRead_of_none hl hnone.1, fieldsRead_of_none hr hnone.2]
    rfl
  | .binary .eq left right =>
    simp only [bareCondition, yields_bind, yields_pure] at h
    obtain ⟨x, c, -, rfl, -⟩ := h
    cases hm
  | .field _ | .cast .. | .slice .. =>
    obtain ⟨x, -, rfl⟩ := yields_map.1 h
    cases hm
  | .binary .or _ _ | .binary .ne _ _ | .binary .mask _ _
  | .missing | .path _ | .call .. | .member .. | .param .. | .hit .. | .actionRun _
  | .literal _ | .negation _ | .any => exact absurd h not_yields_refuse

/-- **Conditions keep their meaning.**  Whenever a condition is lowered, its match holds of a packet
exactly when the condition is true on what is stored in the layout at the end of the lowering and
the prerequisites of all fields that it reads hold. -/
theorem condition_holds_iff {e : Expr} {m : Option Match} {a a' : Allocator}
    (h : Yields (condition e) a m a') (hsized : (Layout.of a').Sized args e)
    (hgrounded : Grounded e) (s : Situation) :
    (∀ x ∈ m, Match.Holds a'.target s x) ↔
      evaluate .zero (Layout.of a') args s e = 1 ∧
        ∀ f ∈ fieldsRead e, ∀ p ∈ f.prereq, s.texts p = true := by
  simp only [condition, yields_bind, yields_pure] at h
  obtain ⟨x, c, hx, rfl, rfl⟩ := h
  have hbare := (ensures_bareCondition args hgrounded).holds hx (Grows.refl c) hsized s
  cases x with
  | none =>
    rw [← hbare, fieldsRead_of_none hx rfl]
    simp
  | some x =>
    have htarget : (Layout.of c).target = c.target := rfl
    rw [← hbare, htarget, Option.bind_some, Match.holds_all?, ← holds_prereqs (t := c.target)]
    simp [or_imp, forall_and, and_comm]

/-! ## A condition in two kinds of storage -/

/-- A local, a packet field with a prerequisite, a part of each, and the two orders of an equation.
-/
def sampleCondition : Expr :=
  .binary .and
    (.binary .eq (.literal { value := 5 })
      (.slice (.localVar { control := "Ingress", name := "x", type := { width := 16 } }) 7 4))
    (.binary .eq
      (.cast { width := 4 }
        (.field { name := "hdr.ip.proto", type := { width := 8 }, packet := some "ip_proto",
                  prereq := some "ip" }))
      (.literal { value := 2, width := 4 }))

/-- The register of the local. -/
def sampleRegister : Register :=
  { number := 0, bundle := 1, size := 32, low := 0, high := 15, owner := "Ingress.x" }

/-- The register file with that register given out. -/
def sampleFile : Allocator := (Allocator.fresh {}).give "Ingress.x" 16 sampleRegister

/-- The match of the condition. -/
def sampleMatch : Match :=
  .seq (.prereq "ip") (.seq
    (.equals (.slice (.reg sampleRegister) 4 7) (.const 5 10) none)
    (.equals (.slice (.reg (.ofField "ip_proto" 8 0 7)) 0 3) (.const 2 10) none))

theorem condition_holds_iff_sampleCondition :
    Yields (condition sampleCondition) (.fresh {}) (some sampleMatch) sampleFile ∧
      (Layout.of sampleFile).Sized (fun _ => 0) sampleCondition ∧ Grounded sampleCondition ∧
      ∀ s : Situation, (∀ x ∈ some sampleMatch, Match.Holds sampleFile.target s x) ↔
        evaluate .zero (Layout.of sampleFile) (fun _ => 0) s sampleCondition = 1 ∧
          ∀ f ∈ fieldsRead sampleCondition, ∀ p ∈ f.prereq, s.texts p = true := by
  have hyields : Yields (condition sampleCondition) (.fresh {}) (some sampleMatch) sampleFile := rfl
  have hlocal : ∀ r ∈ some sampleRegister, r.Covers 16 := by decide
  have hfield : ∀ r ∈ some (Register.ofField "ip_proto" 8 0 7), r.Covers 8 := by decide
  have hsized : (Layout.of sampleFile).Sized (fun _ => 0) sampleCondition :=
    ⟨⟨trivial, hlocal⟩, ⟨by decide, hfield⟩, trivial⟩
  exact ⟨hyields, hsized, ⟨trivial, trivial⟩,
    condition_holds_iff hyields hsized ⟨trivial, trivial⟩⟩

/-! ## Where signs and constants matter -/

/-- A signed field compared with a signed constant of four bits, all set, that a cast makes eight
bits wide. -/
def signedEquation : Expr :=
  .binary .eq
    (.cast { width := 8, isSigned := true }
      (.literal { value := 15, width := 4, isSigned := true }))
    (.field { name := "meta.x", type := { width := 8, isSigned := true } })

/-- The register of the signed field. -/
def signedRegister : Register :=
  { number := 0, bundle := 1, size := 32, low := 0, high := 7, owner := "meta.x" }

/-- A constant as a truth value. -/
def constantTruth : Expr := .cast .truth (.literal { value := 1, width := 1 })

/-- Every bit is set, and every match text holds. -/
def allSet : Situation := ⟨fun _ => true, fun _ => true⟩

/-- With copies of its sign in front, the widened constant is the number of eight bits all set, but
the match asks for the number of four.  And the match of a constant truth value has no register, so
it does not hold although the condition does. -/
theorem condition_not_holds_iff :
    (∃ m a', Yields (condition signedEquation) (.fresh {}) m a' ∧
      (Layout.of a').Sized (fun _ => 0) signedEquation ∧
      ¬((∀ x ∈ m, Match.Holds a'.target allSet x) ↔
        evaluate .sign (Layout.of a') (fun _ => 0) allSet signedEquation = 1 ∧
          ∀ f ∈ fieldsRead signedEquation, ∀ p ∈ f.prereq, allSet.texts p = true)) ∧
    ∃ m a', Yields (condition constantTruth) (.fresh {}) m a' ∧
      (Layout.of a').Sized (fun _ => 0) constantTruth ∧
      ¬((∀ x ∈ m, Match.Holds a'.target allSet x) ↔
        evaluate .sign (Layout.of a') (fun _ => 0) allSet constantTruth = 1 ∧
          ∀ f ∈ fieldsRead constantTruth, ∀ p ∈ f.prereq, allSet.texts p = true) := by
  constructor
  · have hyields : Yields (condition signedEquation) (.fresh {})
        (some (.equals (.reg signedRegister) (.const 15 10) none))
        ((Allocator.fresh {}).give "meta.x" 8 signedRegister) := rfl
    have hfield : ∀ r ∈ some signedRegister, r.Covers 8 := by decide
    refine ⟨_, _, hyields, ⟨⟨by decide, trivial⟩, hfield⟩, fun hiff => ?_⟩
    obtain ⟨r, hr, hread⟩ := hiff.2 ⟨by decide, by simp [allSet]⟩ _ rfl
    cases hr
    exact absurd hread (by decide)
  · have hyields : Yields (condition constantTruth) (.fresh {})
        (some (.equals (.const 1 10) (.const 1 10) none)) (.fresh {}) := rfl
    refine ⟨_, _, hyields, ⟨by decide, trivial⟩, fun hiff => ?_⟩
    obtain ⟨r, hr, -⟩ := hiff.2 ⟨by decide, by simp [allSet]⟩ _ rfl
    cases hr

end Flowline.Lower
