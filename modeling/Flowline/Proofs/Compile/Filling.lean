import Flowline.Proofs.Compile.Identifiers
import Flowline.Proofs.Ddlog.Evaluation
import Flowline.Proofs.Flow.Comparing

/-!
# Filling in the text of a flow

The pieces of a match become a text once the variables of its rule have values: what is interpolated
is read as an expression (`interpolated?`), evaluated, and written in its place (`fill`).

A value is written at the place of a register inside its base, as bits of the size of the base.  If
the register lies inside the base, no bit is lost there, and the switch reads off the text what was
to be compared (`fill_equals`, `fill_equals_masked`).

The helper that makes a mask of a prefix length counts modulo two to the power of thirty-two.  It
gives the mask of the prefix for all lengths from none to all bits (`callIn_prefixMaskName`).
-/

namespace Flowline.Compile

open Ddlog (Env Value callIn eval numeral? operate?)
open Flowline.Flow (Piece comparison? equalsPieces movedHole number? positionedPieces)
open Switch (Register prefixMask)

/-! ## Interpolations as expressions -/

/-- A variable or a function that is applied to one, and what stands behind it. -/
def operand? (cs : List Char) : Option (Ddlog.Expr × List Char) :=
  let name := String.ofList (cs.takeWhile isIdentifierChar)
  match cs.dropWhile isIdentifierChar with
  | '(' :: ds =>
    match ds.dropWhile isIdentifierChar with
    | ')' :: rest =>
      some (.call name [.var (String.ofList (ds.takeWhile isIdentifierChar))], rest)
    | _ => none
  | rest => some (.var name, rest)

/-- The expression that is interpolated: an operand, or one that is cast and shifted up. -/
def interpolated? : List Char → Option Ddlog.Expr
  | '(' :: cs => do
    let (e, cs) ← operand? cs
    let cs ← cs.dropPrefix? " as bit<".toList
    let size ← Numeral.natural? 10 (cs.takeWhile Char.isDigit)
    let amount ← (cs.dropWhile Char.isDigit).dropPrefix? ">) << ".toList
    pure (.binary "<<" (.cast e (.bits (Int64.ofNat size))) (.int (String.ofList amount)))
  | cs =>
    match operand? cs with
    | some (e, []) => some e
    | _ => none

/-- A text that is read as an operand, alone or in a cast. -/
structure IsOperand (t : Text) (e : Ddlog.Expr) : Prop where
  head_ne : ∀ cs, t.toList ≠ '(' :: cs
  alone : operand? t.toList = some (e, [])
  inCast : ∀ rest, operand? (t.toList ++ ' ' :: rest) = some (e, ' ' :: rest)

section

variable {t : Text} (h : isName t = true)

include h

theorem isIdentifierChar_of_isName : ∀ c ∈ t.toList, isIdentifierChar c = true :=
  List.all_eq_true.mp (Bool.and_eq_true_iff.mp h).1

theorem head_ne_of_isName (cs : List Char) : t.toList ≠ '(' :: cs := by
  intro heq
  have hc := isIdentifierChar_of_isName h '(' (by simp [heq])
  exact absurd hc (by decide)

/-- A name ends where no identifier goes on. -/
theorem span_name {c : Char} (hc : isIdentifierChar c = false) (rest : List Char) :
    (t.toList ++ c :: rest).takeWhile isIdentifierChar = t.toList ∧
      (t.toList ++ c :: rest).dropWhile isIdentifierChar = c :: rest := by
  have hall := isIdentifierChar_of_isName h
  rw [List.takeWhile_append_of_pos hall, List.dropWhile_append_of_pos hall]
  simp [hc]

theorem isOperand_name : IsOperand t (.var t) where
  head_ne := head_ne_of_isName h
  alone := by
    have hall := isIdentifierChar_of_isName h
    unfold operand?
    rw [List.takeWhile_eq_self_iff.mpr hall, List.dropWhile_eq_nil_iff.mpr hall,
      String.ofList_toList]
  inCast rest := by
    obtain ⟨htake, hdrop⟩ := span_name h (show isIdentifierChar ' ' = false by decide) rest
    unfold operand?
    rw [htake, hdrop, String.ofList_toList]
    rfl

theorem isOperand_call {f : Text} (hf : isName f = true) :
    IsOperand (f ++ "(" ++ t ++ ")") (.call f [.var t]) := by
  have hlist : ∀ rest, (f ++ "(" ++ t ++ ")").toList ++ rest =
      f.toList ++ '(' :: (t.toList ++ ')' :: rest) := by
    intro rest
    simp [String.toList_append]
  have hcall : ∀ rest, operand? ((f ++ "(" ++ t ++ ")").toList ++ rest) =
      some (.call f [.var t], rest) := by
    intro rest
    obtain ⟨htake, hdrop⟩ :=
      span_name hf (show isIdentifierChar '(' = false by decide) (t.toList ++ ')' :: rest)
    obtain ⟨htake', hdrop'⟩ := span_name h (show isIdentifierChar ')' = false by decide) rest
    unfold operand?
    rw [hlist, htake, hdrop]
    simp only [htake', hdrop', String.ofList_toList]
  refine ⟨fun cs heq => ?_, ?_, fun rest => hcall _⟩
  · obtain ⟨c, ds, hc⟩ : ∃ c ds, f.toList = c :: ds := by
      refine List.exists_cons_of_ne_nil fun hnil => ?_
      have hvariable := (Bool.and_eq_true_iff.mp hf).2
      rw [hnil] at hvariable
      cases hvariable
    have hfirst := (hlist []).symm.trans (List.append_nil _)
    rw [heq, hc, List.cons_append, List.cons.injEq] at hfirst
    exact head_ne_of_isName hf ds (hfirst.1 ▸ hc)
  · have halone := hcall []
    rwa [List.append_nil] at halone

end

theorem interpolated?_operand {t : Text} {e : Ddlog.Expr} (h : IsOperand t e) :
    interpolated? t.toList = some e := by
  unfold interpolated?
  split
  · next cs heq => exact absurd heq (h.head_ne cs)
  · rw [h.alone]

/-- An operand that is moved to the place of a register. -/
theorem interpolated?_movedHole {t : Text} {e : Ddlog.Expr} (h : IsOperand t e) {r : Register}
    (hsize : 0 ≤ r.size.toInt) :
    interpolated? (movedHole t r).toList =
      some (.binary "<<" (.cast e (.bits r.size)) (.int (Numeral.word r.low))) := by
  have hlist : (movedHole t r).toList = '(' :: (t.toList ++ (" as bit<".toList ++
      (Nat.toDigits 10 r.size.toInt.toNat ++ (">) << ".toList ++ (Numeral.word r.low).toList)))) := by
    rw [← Numeral.toList_word hsize]
    simp [movedHole, String.toList_append]
  have hall : ∀ c ∈ Nat.toDigits 10 r.size.toInt.toNat, c.isDigit = true :=
    fun _ => Numeral.isDigit_of_mem_toDigits
  have hread : Numeral.natural? 10 (Nat.toDigits 10 r.size.toInt.toNat) = some r.size.toInt.toNat :=
    Numeral.natural?_toDigits (by decide) (by decide) _
  have hword : Int64.ofNat r.size.toInt.toNat = r.size := by
    rw [← Int64.ofInt_eq_ofNat, Int.toNat_of_nonneg hsize, Int64.ofInt_toInt]
  have hoperand : ∀ rest, operand? (t.toList ++ (" as bit<".toList ++ rest)) =
      some (e, " as bit<".toList ++ rest) := fun rest => h.inCast _
  have hstop : ∀ rest, (">) << ".toList ++ rest).takeWhile Char.isDigit = [] ∧
      (">) << ".toList ++ rest).dropWhile Char.isDigit = ">) << ".toList ++ rest :=
    fun rest => ⟨rfl, rfl⟩
  rw [hlist, interpolated?]
  simp only [hoperand, Option.bind_eq_bind, Option.bind_some,
    List.dropPrefix?_append_of_beq _ (beq_self_eq_true _), List.takeWhile_append_of_pos hall,
    List.dropWhile_append_of_pos hall, (hstop _).1, (hstop _).2, List.append_nil, hread, hword,
    String.ofList_toList]
  rfl

/-! ## Filling -/

/-- The text of what is interpolated. -/
def holeText? (p : Ddlog.Program) (env : Env) (t : Text) : Option Text :=
  ((interpolated? t.toList).bind (eval (callIn p) env)).bind Value.text?

/-- The text that pieces make up, with values for the variables. -/
def fill (p : Ddlog.Program) (env : Env) : List Piece → Option Text
  | [] => some ""
  | .plain t :: ps => (fill p env ps).map (t ++ ·)
  | .hole t :: ps => (holeText? p env t).bind fun s => (fill p env ps).map (s ++ ·)

section

variable {p : Ddlog.Program} {env : Env}

theorem fill_append {ps qs : List Piece} {s t : Text} (hps : fill p env ps = some s)
    (hqs : fill p env qs = some t) : fill p env (ps ++ qs) = some (s ++ t) := by
  induction ps generalizing s with
  | nil =>
    cases hps
    rw [List.nil_append, hqs, String.empty_append]
  | cons x ps ih =>
    cases x with
    | plain u =>
      obtain ⟨v, hv, rfl⟩ := Option.map_eq_some_iff.mp hps
      rw [List.cons_append, fill, ih hv, Option.map_some, String.append_assoc]
    | hole u =>
      obtain ⟨w, hw, hrest⟩ := Option.bind_eq_some_iff.mp hps
      obtain ⟨v, hv, rfl⟩ := Option.map_eq_some_iff.mp hrest
      rw [List.cons_append, fill, hw, Option.bind_some, ih hv, Option.map_some, String.append_assoc]

theorem fill_plain (t : Text) : fill p env [.plain t] = some t := by
  rw [fill, fill, Option.map_some, String.append_empty]

theorem fill_hole {t s : Text} (h : holeText? p env t = some s) : fill p env [.hole t] = some s := by
  rw [fill, fill, h, Option.bind_some, Option.map_some, String.append_empty]

/-! ## Comparisons -/

/-- A variable of a flow has a number. -/
def HasNumber (p : Ddlog.Program) (env : Env) (name : Text) (n : Nat) : Prop :=
  ∃ e width, IsOperand name e ∧ eval (callIn p) env e = some (.bits width n)

variable {r : Register} {w : Int64} {name : Text} {n : Nat} {width : Int64}

/-- A value at the place of a register that lies inside its base. -/
theorem fill_positioned (h : r.Inside) (hr : r.Covers w) (hname : HasNumber p env name n)
    (hn : n < 2 ^ w.toInt.toNat) :
    fill p env (positionedPieces (.var name width) r) = some (Numeral.decimal (r.shifted n)) := by
  obtain ⟨e, width', hoperand, hvalue⟩ := hname
  have hlow := h.low_nonneg
  have hhigh := h.high_lt_size
  have heq := hr.high_eq
  have hpos := hr.pos
  unfold positionedPieces
  split
  · next hzero =>
    refine fill_hole ?_
    rw [holeText?, interpolated?_operand hoperand, Option.bind_some, hvalue, Option.bind_some,
      Value.text?, Register.shifted, hzero]
    rfl
  · refine fill_hole ?_
    -- neither the cast nor the shift loses a bit
    have hfits : n <<< r.low.toInt.toNat < 2 ^ r.size.toInt.toNat := by
      rw [Nat.shiftLeft_eq]
      calc n * 2 ^ r.low.toInt.toNat < 2 ^ w.toInt.toNat * 2 ^ r.low.toInt.toNat :=
            Nat.mul_lt_mul_of_pos_right hn (Nat.two_pow_pos _)
        _ = 2 ^ (w.toInt.toNat + r.low.toInt.toNat) := (Nat.pow_add _ _ _).symm
        _ ≤ 2 ^ r.size.toInt.toNat := Nat.pow_le_pow_right (by decide) (by omega)
    have hcast : n < 2 ^ r.size.toInt.toNat :=
      lt_of_lt_of_le hn (Nat.pow_le_pow_right (by decide) (by omega))
    have hamount : numeral? (Numeral.word r.low) = some (.number r.low.toInt.toNat) :=
      Ddlog.numeral?_word hlow
    rw [holeText?, interpolated?_movedHole hoperand (by omega), Option.bind_some, eval,
      Ddlog.eval_cast, hvalue, eval, hamount]
    simp only [Option.bind_some, Value.cast?, Value.amount?, Option.map_some, operate?,
      Nat.mod_eq_of_lt hcast, Nat.mod_eq_of_lt hfits]
    rfl

/-- The text of a comparison without a mask is read back. -/
theorem fill_equals {left : Flow.Expr} (hleft : left.asRegister = some r) (h : r.Inside)
    (hr : r.Covers w) (hname : HasNumber p env name n) (hn : n < 2 ^ w.toInt.toNat) :
    ∃ text, fill p env (equalsPieces left (.var name width) none) = some text ∧
      comparison? r.baseName text = some ⟨r.shifted n, r.ownMask⟩ := by
  have hvalue : fill p env (positionedPieces (.var name width) r) = _ := fill_positioned h hr hname hn
  have hbase := fill_append (fill_plain (r.baseName ++ "=")) hvalue
  rw [equalsPieces, hleft]
  unfold Register.ownMask
  dsimp only
  split
  · refine ⟨_, fill_append hbase (fill_plain _), ?_⟩
    have hread := Flow.comparison?_masked r.baseName (r.shifted n) (Flow.number?_hex r.mask)
    have hmark : "/0x" ++ Numeral.hex r.mask = "/" ++ ("0x" ++ Numeral.hex r.mask) := by
      rw [← String.append_assoc]
      rfl
    rwa [hmark, ← String.append_assoc]
  · refine ⟨_, fill_append hbase rfl, ?_⟩
    rw [String.append_empty]
    exact Flow.comparison?_whole _ _

theorem fill_equals_masked {left : Flow.Expr} (hleft : left.asRegister = some r) (h : r.Inside)
    (hr : r.Covers w) (hname : HasNumber p env name n) (hn : n < 2 ^ w.toInt.toNat) {mask : Text}
    {m : Nat} {width' : Int64} (hmask : HasNumber p env mask m) (hm : m < 2 ^ w.toInt.toNat) :
    ∃ text, fill p env (equalsPieces left (.var name width) (some (.var mask width'))) = some text ∧
      comparison? r.baseName text = some ⟨r.shifted n, some (r.shifted m)⟩ := by
  have hvalue : fill p env (positionedPieces (.var name width) r) = _ := fill_positioned h hr hname hn
  have hmask' : fill p env (positionedPieces (.var mask width') r) = _ :=
    fill_positioned h hr hmask hm
  have hbase := fill_append (fill_plain (r.baseName ++ "=")) hvalue
  rw [equalsPieces, hleft]
  refine ⟨_, fill_append hbase (fill_append (fill_plain "/") hmask'), ?_⟩
  have hread := Flow.comparison?_masked r.baseName (r.shifted n) (Flow.number?_decimal (r.shifted m))
  simpa only [String.append_assoc] using hread

end

/-! ## Masks of prefixes -/

/-- The function that makes masks of prefix lengths. -/
def maskFunction (w : Int64) : Ddlog.Function where
  name := prefixMaskName w
  params := [.mk "plen" (.bits 32)]
  result := .bits w
  body :=
    .ifElse (.binary "==" (.var "plen") (.int "0")) (.int "0")
      (.binary "<<" (.int (Numeral.word w ++ "'h" ++ Numeral.hex (Switch.lowBits w)))
        (.binary "-" (.int (Numeral.word w)) (.var "plen")))

/-- The bits of a prefix that are compared under the mask that the function makes.  The number of
bits behind the prefix is counted in a word of thirty-two bits, so of a longer rest only what is left
over by full turns of the word stays out of the comparison. -/
def keptPrefix (width count : Nat) : Nat :=
  if count = 0 then 0 else width - (width - count) % 2 ^ 32

theorem keptPrefix_eq_iff {width count : Nat} (h : count ≤ width) :
    keptPrefix width count = count ↔ count = 0 ∨ width - count < 2 ^ 32 := by
  unfold keptPrefix
  split <;> omega

theorem prefixMask_kept {width count : Nat} (hcount : count ≠ 0) (h : count ≤ width) :
    prefixMask width (keptPrefix width count) =
      (2 ^ width - 1) <<< ((width - count) % 2 ^ 32) % 2 ^ width := by
  have hrest : (width - count) % 2 ^ 32 ≤ width - count := Nat.mod_le _ _
  rw [prefixMask, keptPrefix, if_neg hcount, if_neg (by omega), Nat.sub_sub_self (by omega)]

theorem prefixMaskName_inj {v w : Int64} : prefixMaskName v = prefixMaskName w ↔ v = w := by
  rw [prefixMaskName, prefixMaskName, String.append_right_inj, Numeral.word_inj]

section

variable {w : Int64} {count : Nat}

/-- The function makes the mask of the bits that it keeps. -/
theorem value?_maskFunction (hw : 0 ≤ w.toInt) (hcount : count ≤ w.toInt.toNat)
    (hword : count < 2 ^ 32) :
    (maskFunction w).value? (.bits 32 count) =
      some (.bits w.toInt.toNat (prefixMask w.toInt.toNat (keptPrefix w.toInt.toNat count))) := by
  have hones : Switch.lowBits w < 2 ^ w.toInt.toNat := by
    rw [Register.lowBits_eq]
    exact Nat.sub_lt (Nat.two_pow_pos _) (by decide)
  have hzero : numeral? "0" = some (.number 0) := rfl
  have hplen : ([("plen", .bits 32 count)] : Env).lookup "plen" = some (.bits 32 count) := rfl
  show (eval (fun _ _ => none) [("plen", .bits 32 count)] (maskFunction w).body).bind
    (fun v => v.as? (.bits w)) = _
  have hcond : eval (fun _ _ => none) [("plen", .bits 32 count)]
      (.binary "==" (.var "plen") (.int "0")) = some (.truth (count == 0)) := by
    simp only [eval, hplen, hzero, Option.bind_some, Ddlog.operate?_eq]
    rfl
  rw [maskFunction, Ddlog.eval_ifElse hcond]
  by_cases hcount' : count = 0
  · rw [if_pos (beq_iff_eq.mpr hcount'), eval, hzero, hcount']
    show some (Value.bits w.toInt.toNat (0 % 2 ^ w.toInt.toNat)) = _
    rw [Nat.zero_mod]
    rfl
  · have hdifference : (w.toInt.toNat % 2 ^ 32 + (2 ^ 32 - count)) % 2 ^ 32 =
        (w.toInt.toNat - count) % 2 ^ 32 := by
      omega
    have hshift : eval (fun _ _ => none) [("plen", .bits 32 count)]
        (.binary "-" (.int (Numeral.word w)) (.var "plen")) =
          some (.bits 32 ((w.toInt.toNat - count) % 2 ^ 32)) := by
      simp only [eval, hplen, Ddlog.numeral?_word hw, Option.bind_some, Ddlog.operate?_sub,
        Value.common?, Option.map_some, hdifference]
    rw [if_neg (by simpa using hcount'), eval, eval, Ddlog.numeral?_hex hw hones, hshift,
      Option.bind_some, Option.bind_some, Ddlog.operate?_shift, Value.amount?, Option.map_some,
      Option.bind_some, prefixMask_kept hcount' hcount, Register.lowBits_eq]
    exact if_pos rfl

/-- The helper of a width makes the mask of the bits that it keeps of a prefix. -/
theorem callIn_prefixMaskName {widths : List Int64} (hmem : w ∈ widths) (hw : 0 ≤ w.toInt)
    (hcount : count ≤ w.toInt.toNat) (hword : count < 2 ^ 32) :
    callIn (prefixMaskHelpers widths) (prefixMaskName w) (.bits 32 count) =
      some (.bits w.toInt.toNat (prefixMask w.toInt.toNat (keptPrefix w.toInt.toNat count))) := by
  have hsorted : w ∈ widths.eraseDups.mergeSort fun a b => a ≤ b := by
    rwa [List.mem_mergeSort, List.mem_eraseDups]
  have hfunctions : (prefixMaskHelpers widths).filterMap Ddlog.Decl.function? =
      (widths.eraseDups.mergeSort fun a b => a ≤ b).map maskFunction := by
    rw [prefixMaskHelpers, List.filterMap_map]
    exact congrFun List.filterMap_eq_map _
  have hfind : ((widths.eraseDups.mergeSort fun a b => a ≤ b).map maskFunction).find?
      (fun f => f.name == prefixMaskName w) = some (maskFunction w) := by
    have hname : ((fun f : Ddlog.Function => f.name == prefixMaskName w) ∘ maskFunction) =
        fun v => v == w := by
      funext v
      exact Bool.eq_iff_iff.mpr (by simp [maskFunction, prefixMaskName_inj])
    have hfound : ∃ v, (widths.eraseDups.mergeSort fun a b => a ≤ b).find? (fun v => v == w) =
        some v := Option.isSome_iff_exists.mp (List.find?_isSome.mpr ⟨w, hsorted, beq_self_eq_true w⟩)
    obtain ⟨v, hv⟩ := hfound
    have heq : (v == w) = true := List.find?_some (p := fun v => v == w) hv
    cases beq_iff_eq.mp heq
    rw [List.find?_map, hname, hv]
    rfl
  rw [callIn, hfunctions, hfind, Option.bind_some, value?_maskFunction hw hcount hword]

end

end Flowline.Compile
