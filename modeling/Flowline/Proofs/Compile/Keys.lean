import Flowline.Proofs.Compile.Filling
import Flowline.Proofs.Compile.FirstMatch
import Flowline.Proofs.Lower.Placement

/-!
# Keys match what the control plane asks for

A rule over the rows of a table matches each key against what the row has for it: a value, a value
under a mask, a value with a prefix length, or perhaps a value.  `KeyMatch.text?` is the text that a
key adds to the match, with a value of its column filled in.  The switch reads the text as a
comparison of the base of the key's register (`Reads`), and this holds exactly when the bits of the
key are as the value says (`KeyAsks`).

Whatever the place of the register in its base is, the value and the mask are moved to it; the mask
is given, that of the register, or that of a prefix.  The mask of the register has to be formed, which
a machine can do only up to some width; that of a prefix is made by a helper when the rule is
evaluated.

## Long rests behind a prefix

The helper of a width gets the length of a prefix as a word of thirty-two bits, and takes it from the
width in words of that size.  So it is right as long as the bits behind the prefix can be counted in
such a word.  Where there are more, it leaves only the remainder out of the comparison, and the text
compares more bits than the control plane asks for (`kept`).  A key of two to the thirty-second and
five bits with a prefix of three, for instance, is compared in all but its last two bits
(`prefix_miscounted_longKey`).
-/

namespace Flowline.Compile

open Ddlog (Env Value callIn eval)
open Flowline.Flow (Comparison Match comparison?)
open Lower
open Pipeline (Key)
open Switch (Allocator Limits Register Situation Target)

/-! ## The text of a key -/

/-- The variables of a pattern, with their values. -/
def Pattern.bind? : Pattern → Value → Option Env
  | var name, v => some [(name, v)]
  | pair first second, .pair x y => some [(first, x), (second, y)]
  | _, _ => none

/-- The values of variables behind a binding. -/
def bindIn? (p : Ddlog.Program) (env : Env) : Binding → Option Env
  | .optional name source v m =>
    match env.lookup source with
    | some .absent => some ((name, .text "") :: env)
    | some (.present x) =>
      (fill p ((v, x) :: env) (.plain ", " :: m.pieces)).map fun t => (name, .text t) :: env
    | _ => none
  | b =>
    match b.term with
    | .assign name e => (eval (callIn p) env e).map fun v => (name, v) :: env
    | _ => none

/-- The text that a key adds to the match of a rule, for a value of its column. -/
def KeyMatch.text? (p : Ddlog.Program) (km : KeyMatch) (v : Value) : Option Text :=
  (km.pattern.bind? v).bind fun env =>
    (km.bindings.foldlM (bindIn? p) env).bind fun env => fill p env km.guard.pieces

/-- The text of a key whose value is bound to a variable, and then one more. -/
theorem KeyMatch.text?_of_bindIn {p : Ddlog.Program} {x : Text} {b : Binding} {guard : Match}
    {prereqs : List Match} {v : Value} {env : Env} (h : bindIn? p [(x, v)] b = some env) :
    (⟨.var x, [b], guard, prereqs⟩ : KeyMatch).text? p v = fill p env guard.pieces := by
  rw [KeyMatch.text?, Pattern.bind?, Option.bind_some, List.foldlM_cons, h]
  rfl

/-! ## What the text says -/

/-- Conditions on a packet, and a comparison of the base of a register. -/
structure Reading where
  conditions : List Text
  comparison : Option Comparison

/-- The text of a key is empty, a comparison, or conditions and a comparison, each with a comma in
front. -/
inductive Reads (base : Text) (conditions : List Text) : Text → Reading → Prop
  | nothing : Reads base conditions "" ⟨[], none⟩
  | comparison {text : Text} {c : Comparison} (h : comparison? base text = some c) :
      Reads base conditions text ⟨[], some c⟩
  | conjunction {text : Text} {c : Comparison} (h : comparison? base text = some c) :
      Reads base conditions (String.join ((conditions ++ [text]).map (", " ++ ·)))
        ⟨conditions, some c⟩

/-- Whether all that is read holds of a packet. -/
def Reading.Holds (t : Target) (r : Register) (s : Situation) (q : Reading) : Prop :=
  (∀ c ∈ q.conditions, s.texts c = true) ∧
    ∀ c ∈ q.comparison, c.Holds (s.memory.read (r.whole.places t))

/-! ## What the control plane asks for -/

/-- The bits of a key, as a number. -/
def keyBits (L : Layout) (s : Situation) (k : Key) : Nat := s.memory.read (L.places k.expr)

/-- The bits of a key are as a value of its column says.  Of a prefix, the first bits count. -/
def KeyAsks (k : Key) (s : Situation) (x : Nat) (v : Value) : Prop :=
  match k.kind, v with
  | .exact, .truth b => x = b.toNat
  | .exact, .bits _ n => x = n
  | .ternary, .pair (.bits _ n) (.bits _ mask) => x &&& mask = n &&& mask
  | .lpm, .pair (.bits width n) (.bits _ count) => x >>> (width - count) = n >>> (width - count)
  | .optional, .absent => True
  | .optional, .present (.bits _ n) => x = n ∧ KeyReady s k
  | _, _ => False

/-- A prefix is not longer than the key. -/
def PrefixFits : Value → Prop
  | .pair (.bits width _) (.bits _ count) => count ≤ width
  | _ => True

/-- The bits behind a prefix can be counted in a word of thirty-two bits. -/
def PrefixCounted : Value → Prop
  | .pair (.bits width _) (.bits _ count) => count = 0 ∨ width - count < 2 ^ 32
  | _ => True

/-- What the text of a key asks for: the value of the column, with the bits of a prefix that its
helper keeps. -/
def kept (k : Key) (v : Value) : Value :=
  match k.kind, v with
  | .lpm, .pair (.bits width n) (.bits size count) =>
    .pair (.bits width n) (.bits size (keptPrefix width count))
  | _, v => v

theorem kept_eq_iff {k : Key} {v : Value} (hfits : k.kind = .lpm → PrefixFits v) :
    kept k v = v ↔ (k.kind = .lpm → PrefixCounted v) := by
  unfold kept
  split
  · next width n size count hkind =>
    simp [hkind, PrefixCounted, keptPrefix_eq_iff (hfits hkind)]
  · next hother =>
    refine iff_of_true rfl fun hkind => ?_
    unfold PrefixCounted
    split
    · exact absurd rfl (hother _ _ _ _ hkind)
    · trivial

/-- The register of a key is a range of bits with the width of the key. -/
def KeyPlaced (L : Layout) (k : Key) : Prop :=
  ∀ r ∈ L.register k.expr, 0 ≤ r.low.toInt ∧ r.Covers k.expr.type.width

/-! ## Conjunctions -/

section

variable {p : Ddlog.Program} {env : Env}

theorem pieces_seq {left right : Match} (h : ∀ name, right ≠ .interpolated name) :
    (Match.seq left right).pieces = left.pieces ++ .plain ", " :: right.pieces := by
  cases right with
  | interpolated name => exact absurd rfl (h name)
  | _ => rfl

/-- Matches one after the other, each with a comma in front. -/
theorem fill_foldl {m : Match} {t : Text} (hm : fill p env m.pieces = some t) {ms : List Match}
    {ts : List Text} (hms : List.Forall₂ (fun x u => fill p env x.pieces = some u) ms ts)
    (hplain : ∀ x ∈ ms, ∀ name, x ≠ .interpolated name) :
    fill p env (ms.foldl .seq m).pieces = some (t ++ String.join (ts.map (", " ++ ·))) := by
  induction hms generalizing m t with
  | nil => simpa using hm
  | @cons x u ms ts hx _ ih =>
    rw [List.forall_mem_cons] at hplain
    have hseq : fill p env (Match.seq m x).pieces = some (t ++ (", " ++ u)) := by
      rw [pieces_seq hplain.1]
      refine fill_append hm ?_
      rw [fill, hx, Option.map_some]
    rw [List.foldl_cons, ih hseq hplain.2, List.map_cons, String.join_cons, String.append_assoc]

theorem fill_conjunction {m : Match} {ms : List Match} (hall : Match.all? ms = some m)
    {ts : List Text} (hms : List.Forall₂ (fun x u => fill p env x.pieces = some u) ms ts)
    (hplain : ∀ x ∈ ms, ∀ name, x ≠ .interpolated name) :
    fill p env (.plain ", " :: m.pieces) = some (String.join (ts.map (", " ++ ·))) := by
  cases hms with
  | nil => cases hall
  | @cons x u ms ts hx hms =>
    cases hall
    rw [List.forall_mem_cons] at hplain
    rw [fill, fill_foldl hx hms hplain.2, Option.map_some, List.map_cons, String.join_cons,
      String.append_assoc]

/-! ## Variables -/

theorem hasNumber_cons {name : Text} (h : isName name = true) (width n : Nat) :
    HasNumber p ((name, .bits width n) :: env) name n := by
  refine ⟨.var name, width, isOperand_name h, ?_⟩
  rw [eval, List.lookup_cons_self]

theorem hasNumber_of_ne {name other : Text} (h : isName name = true) (hne : name ≠ other)
    (v : Value) (width n : Nat) :
    HasNumber p ((other, v) :: (name, .bits width n) :: env) name n := by
  refine ⟨.var name, width, isOperand_name h, ?_⟩
  rw [eval, List.lookup_cons, beq_eq_false_iff_ne.mpr hne]
  exact List.lookup_cons_self

end

/-! ## Keys by the way in which they are matched -/

section

variable {k : Key} {left : Flow.Expr} {r : Register} {L : Layout} {widths : List Int64} {v : Value}

/-- The register of a key lies inside its base and has the bits of the key. -/
structure KeyLodged (L : Layout) (k : Key) (left : Flow.Expr) (r : Register) : Prop where
  register : left.asRegister = some r
  inside : r.Inside
  covers : r.Covers k.expr.type.width
  places : L.places k.expr = r.places L.target

theorem KeyLodged.keyBits_lt (h : KeyLodged L k left r) (s : Situation) :
    keyBits L s k < 2 ^ k.expr.type.width.toInt.toNat := by
  have hlt := s.memory.read_lt (r.places L.target)
  rwa [Register.length_places, h.covers.width_eq, ← h.places] at hlt

theorem texts_prereqs {s : Situation} :
    (∀ c ∈ (prereqTexts k.expr).eraseDups, s.texts c = true) ↔ KeyReady s k := by
  simp only [List.mem_eraseDups, prereqTexts_eq, KeyReady, List.forall_mem_flatMap,
    Option.mem_toList]
  rfl

/-- What a key contributes is read back, and holds when the key is as the row says, of a prefix as far
as it is kept. -/
def KeySays (L : Layout) (widths : List Int64) (k : Key) (r : Register) (km : KeyMatch)
    (v : Value) : Prop :=
  ∃ text q, km.text? (prefixMaskHelpers widths) v = some text ∧
    Reads r.baseName (prereqTexts k.expr).eraseDups text q ∧
    ∀ s, q.Holds L.target r s ↔ KeyAsks k s (keyBits L s k) (kept k v)

theorem holds_comparison {t : Target} {s : Situation} {c : Comparison} :
    Reading.Holds t r s ⟨[], some c⟩ ↔ c.Holds (s.memory.read (r.whole.places t)) := by
  simp [Reading.Holds]

/-- A key that is compared as a whole with the number of a variable. -/
theorem KeyLodged.says_equals (h : KeyLodged L k left r) {p : Ddlog.Program} {env : Env}
    {name : Text} {n : Nat} (hname : HasNumber p env name n)
    (hn : n < 2 ^ k.expr.type.width.toInt.toNat) {width : Int64} :
    ∃ text c, fill p env (Match.equals left (.var name width) none).pieces = some text ∧
      comparison? r.baseName text = some c ∧
      ∀ s : Situation, c.Holds (s.memory.read (r.whole.places L.target)) ↔ keyBits L s k = n := by
  have hfill : ∃ text, fill p env (Flow.equalsPieces left (.var name width) none) = some text ∧
      comparison? r.baseName text = some ⟨r.shifted n, r.ownMask⟩ :=
    fill_equals h.register h.inside h.covers hname hn
  obtain ⟨text, htext, hread⟩ := hfill
  refine ⟨text, _, htext, hread, fun s => ?_⟩
  rw [Flow.holds_whole h.inside h.covers L.target s.memory hn, keyBits, h.places]

/-- A key that is compared under a mask. -/
theorem KeyLodged.says_masked (h : KeyLodged L k left r) {p : Ddlog.Program} {env : Env}
    {name mask : Text} {n m : Nat} (hname : HasNumber p env name n)
    (hn : n < 2 ^ k.expr.type.width.toInt.toNat) (hmask : HasNumber p env mask m)
    (hm : m < 2 ^ k.expr.type.width.toInt.toNat) {width width' : Int64} :
    ∃ text c,
      fill p env (Match.equals left (.var name width) (some (.var mask width'))).pieces = some text ∧
      comparison? r.baseName text = some c ∧
      ∀ s : Situation, c.Holds (s.memory.read (r.whole.places L.target)) ↔
        keyBits L s k &&& m = n &&& m := by
  have hfill : ∃ text, fill p env
      (Flow.equalsPieces left (.var name width) (some (.var mask width'))) = some text ∧
        comparison? r.baseName text = some ⟨r.shifted n, some (r.shifted m)⟩ :=
    fill_equals_masked h.register h.inside h.covers hname hn hmask hm
  obtain ⟨text, htext, hread⟩ := hfill
  refine ⟨text, _, htext, hread, fun s => ?_⟩
  rw [Flow.holds_masked h.inside h.covers L.target s.memory hm, keyBits, h.places]

theorem valueTy_bits {type : ValueType} (hbool : type.isBool = false)
    (hsign : type.isSigned = false) : valueTy type = .bits type.width := by
  rw [valueTy, hbool, hsign]
  rfl

theorem says_truth (h : KeyLodged L k left r) (hkind : k.kind = .exact)
    (hbool : k.expr.type.isBool = true) (hv : v.Has (keyTy k)) :
    KeySays L widths k r ⟨.var (keyVar k), [.flag ("b_" ++ identifier k.name) (keyVar k)],
      .equals left (.var ("b_" ++ identifier k.name) k.expr.type.width) none, prereqs k.expr⟩ v := by
  have hty : keyTy k = .bool := by
    rw [keyTy, hkind]
    exact if_pos hbool
  obtain ⟨b, rfl⟩ := Value.has_bool (hty ▸ hv)
  have hflag : bindIn? (prefixMaskHelpers widths) [(keyVar k, .truth b)]
      (.flag ("b_" ++ identifier k.name) (keyVar k)) =
        some [("b_" ++ identifier k.name, .bits 1 b.toNat), (keyVar k, .truth b)] := by
    have hcond : eval (callIn (prefixMaskHelpers widths)) [(keyVar k, .truth b)]
        (.var (keyVar k)) = some (.truth b) := by
      rw [eval, List.lookup_cons_self]
    have hone : Ddlog.numeral? "1'd1" = some (.bits 1 1) := rfl
    have hzero : Ddlog.numeral? "1'd0" = some (.bits 1 0) := rfl
    show (eval _ _ (.ifElse (.var (keyVar k)) (.int "1'd1") (.int "1'd0"))).map _ = _
    rw [Ddlog.eval_ifElse hcond, eval, eval, hone, hzero]
    cases b <;> rfl
  have hname : isName ("b_" ++ identifier k.name) = true :=
    isName_marked (by decide) (by decide) k.name
  have hn : b.toNat < 2 ^ k.expr.type.width.toInt.toNat := by
    have hle := b.toNat_le
    have hpos := h.covers.pos
    have htwo : 2 ^ 1 ≤ 2 ^ k.expr.type.width.toInt.toNat :=
      Nat.pow_le_pow_right (by decide) (by omega)
    omega
  obtain ⟨text, c, htext, hread, hholds⟩ := h.says_equals (hasNumber_cons hname 1 b.toNat) hn
  refine ⟨text, _, ?_, .comparison hread, fun s => ?_⟩
  · rw [KeyMatch.text?_of_bindIn hflag]
    exact htext
  · simp only [holds_comparison, hholds, kept, KeyAsks, hkind]

theorem says_exact (h : KeyLodged L k left r) (hkind : k.kind = .exact)
    (hty : valueTy k.expr.type = .bits k.expr.type.width) (hv : v.Has (keyTy k)) :
    KeySays L widths k r ⟨.var (keyVar k), [],
      .equals left (.var (keyVar k) k.expr.type.width) none, prereqs k.expr⟩ v := by
  rw [keyTy, hkind] at hv
  obtain ⟨n, rfl, hn⟩ := Value.has_bits (hty ▸ hv)
  obtain ⟨text, c, htext, hread, hholds⟩ := h.says_equals (hasNumber_cons (isName_keyVar k) _ n) hn
  refine ⟨text, _, htext, .comparison hread, fun s => ?_⟩
  simp only [holds_comparison, hholds, kept, KeyAsks, hkind]

theorem says_ternary (h : KeyLodged L k left r) (hkind : k.kind = .ternary)
    (hty : valueTy k.expr.type = .bits k.expr.type.width) (hv : v.Has (keyTy k)) :
    KeySays L widths k r ⟨.pair (keyVar k ++ "_value") (keyVar k ++ "_mask"), [],
      .equals left (.var (keyVar k ++ "_value") k.expr.type.width)
        (some (.var (keyVar k ++ "_mask") k.expr.type.width)), prereqs k.expr⟩ v := by
  rw [keyTy, hkind, hty] at hv
  obtain ⟨x, y, rfl, hx, hy⟩ := Value.has_pair hv
  obtain ⟨n, rfl, hn⟩ := Value.has_bits hx
  obtain ⟨m, rfl, hm⟩ := Value.has_bits hy
  have hne : keyVar k ++ "_mask" ≠ keyVar k ++ "_value" := by
    rw [Ne, String.append_right_inj]
    decide
  obtain ⟨text, c, htext, hread, hholds⟩ := h.says_masked
    (hasNumber_cons (isName_keyVar_append k (by decide)) _ n) hn
    (hasNumber_of_ne (isName_keyVar_append k (by decide)) hne _ _ m) hm
  refine ⟨text, _, htext, .comparison hread, fun s => ?_⟩
  simp only [holds_comparison, hholds, kept, KeyAsks, hkind]

theorem says_lpm (h : KeyLodged L k left r) (hkind : k.kind = .lpm)
    (hty : valueTy k.expr.type = .bits k.expr.type.width) (hmem : k.expr.type.width ∈ widths)
    (hv : v.Has (keyTy k)) (hbegins : PrefixFits v) :
    KeySays L widths k r ⟨.pair (keyVar k ++ "_value") (keyVar k ++ "_plen"), [],
      .equals left (.var (keyVar k ++ "_value") k.expr.type.width)
        (some (.var (prefixMaskName k.expr.type.width ++ "(" ++ keyVar k ++ "_plen)")
          k.expr.type.width)), prereqs k.expr⟩ v := by
  rw [keyTy, hkind, hty] at hv
  obtain ⟨x, y, rfl, hx, hy⟩ := Value.has_pair hv
  obtain ⟨n, rfl, hn⟩ := Value.has_bits hx
  obtain ⟨count, rfl, hcount⟩ := Value.has_bits hy
  have hne : keyVar k ++ "_plen" ≠ keyVar k ++ "_value" := by
    rw [Ne, String.append_right_inj]
    decide
  have hplen : isName (keyVar k ++ "_plen") = true := isName_keyVar_append k (by decide)
  have hfunction : isName (prefixMaskName k.expr.type.width) = true :=
    isName_prefixMaskName (le_of_lt h.covers.pos)
  have hmask : HasNumber (prefixMaskHelpers widths)
      [(keyVar k ++ "_value", .bits k.expr.type.width.toInt.toNat n),
        (keyVar k ++ "_plen", .bits 32 count)]
      (prefixMaskName k.expr.type.width ++ "(" ++ keyVar k ++ "_plen)")
      (Switch.prefixMask k.expr.type.width.toInt.toNat
        (keptPrefix k.expr.type.width.toInt.toNat count)) := by
    have hcall := isOperand_call hplen hfunction
    rw [← maskCall_eq] at hcall
    refine ⟨_, k.expr.type.width.toInt.toNat, hcall, ?_⟩
    rw [eval, eval, List.lookup_cons, beq_eq_false_iff_ne.mpr hne]
    dsimp only
    rw [List.lookup_cons_self, Option.bind_some]
    exact callIn_prefixMaskName hmem h.covers.pos.le hbegins hcount
  have hbits : Switch.prefixMask k.expr.type.width.toInt.toNat
      (keptPrefix k.expr.type.width.toInt.toNat count) < 2 ^ k.expr.type.width.toInt.toNat := by
    unfold Switch.prefixMask
    split
    · exact Nat.two_pow_pos _
    · exact Nat.mod_lt _ (Nat.two_pow_pos _)
  obtain ⟨text, c, htext, hread, hholds⟩ := h.says_masked
    (hasNumber_cons (isName_keyVar_append k (by decide)) _ n) hn hmask hbits
  refine ⟨text, _, htext, .comparison hread, fun s => ?_⟩
  simp only [holds_comparison, hholds, kept, KeyAsks, hkind]
  exact Switch.and_prefixMask_eq_iff (h.keyBits_lt s) hn

theorem says_optional (h : KeyLodged L k left r) (hkind : k.kind = .optional)
    (hty : valueTy k.expr.type = .bits k.expr.type.width) {m : Match}
    (hm : Match.all? (prereqs k.expr ++
      [.equals left (.var ("v_" ++ identifier k.name) k.expr.type.width) none]) = some m)
    (hv : v.Has (keyTy k)) :
    KeySays L widths k r ⟨.var (keyVar k),
      [.optional ("m_" ++ identifier k.name) (keyVar k) ("v_" ++ identifier k.name) m],
      .interpolated ("m_" ++ identifier k.name), []⟩ v := by
  rw [keyTy, hkind, hty] at hv
  have hname : isName ("m_" ++ identifier k.name) = true :=
    isName_marked (by decide) (by decide) k.name
  -- the guard is the text that the binding computes
  have hguard : ∀ text env, fill (prefixMaskHelpers widths)
      (("m_" ++ identifier k.name, .text text) :: env)
      (Match.interpolated ("m_" ++ identifier k.name)).pieces = some text := by
    intro text env
    refine fill_hole ?_
    rw [holeText?, interpolated?_operand (isOperand_name hname), Option.bind_some, eval,
      List.lookup_cons_self]
    rfl
  rcases Value.has_option hv with rfl | ⟨x, rfl, hx⟩
  · refine ⟨"", ⟨[], none⟩, ?_, .nothing, fun s => ?_⟩
    · rw [KeyMatch.text?_of_bindIn (by rw [bindIn?, List.lookup_cons_self])]
      exact hguard _ _
    · simp only [Reading.Holds, kept, KeyAsks, hkind]
      simp
  · obtain ⟨n, rfl, hn⟩ := Value.has_bits hx
    have hvalue : isName ("v_" ++ identifier k.name) = true :=
      isName_marked (by decide) (by decide) k.name
    obtain ⟨text, c, htext, hread, hholds⟩ := h.says_equals (hasNumber_cons hvalue _ n) hn
    have hprereqs : List.Forall₂ (fun x u => fill (prefixMaskHelpers widths)
        [("v_" ++ identifier k.name, .bits k.expr.type.width.toInt.toNat n),
          (keyVar k, .present (.bits k.expr.type.width.toInt.toNat n))] x.pieces = some u)
        (prereqs k.expr) (prereqTexts k.expr).eraseDups := by
      rw [prereqs, List.forall₂_map_left_iff]
      exact List.forall₂_same.mpr fun u _ => fill_plain u
    have hplain : ∀ x ∈ prereqs k.expr ++
        [.equals left (.var ("v_" ++ identifier k.name) k.expr.type.width) none],
          ∀ name, x ≠ .interpolated name := by
      intro x hx name heq
      rcases List.mem_append.mp hx with hx | hx
      · obtain ⟨u, -, rfl⟩ := List.mem_map.mp hx
        cases heq
      · cases List.mem_singleton.mp hx
        cases heq
    have hfill := fill_conjunction hm
      (List.rel_append hprereqs (List.Forall₂.cons htext .nil)) hplain
    refine ⟨_, _, ?_, .conjunction hread, fun s => ?_⟩
    · rw [KeyMatch.text?_of_bindIn (by
        rw [bindIn?, List.lookup_cons_self]
        dsimp only
        rw [hfill, Option.map_some])]
      exact hguard _ _
    · simp only [Reading.Holds, kept, KeyAsks, hkind, Option.mem_some_iff, forall_eq', hholds]
      rw [and_comm, texts_prereqs]

/-- Every key says what the control plane asks for, however it is matched. -/
theorem says_of_form (h : KeyLodged L k left r) {km : KeyMatch} (hform : KeyForm k left km)
    (hsign : k.expr.type.isSigned = false) (hbool : k.expr.type.isBool = true → k.kind = .exact)
    (hmask : k.kind = .lpm → k.expr.type.width ∈ widths)
    (hv : v.Has (keyTy k)) (hbegins : k.kind = .lpm → PrefixFits v) :
    KeySays L widths k r km v := by
  have hty : k.kind ≠ .exact → valueTy k.expr.type = .bits k.expr.type.width := fun hne =>
    valueTy_bits (Bool.not_eq_true _ ▸ fun h => hne (hbool h)) hsign
  cases hform with
  | truth hkind htruth => exact says_truth h hkind htruth hv
  | exact hkind hfalse => exact says_exact h hkind (valueTy_bits hfalse hsign) hv
  | ternary hkind => exact says_ternary h hkind (hty (by simp [hkind])) hv
  | lpm hkind => exact says_lpm h hkind (hty (by simp [hkind])) (hmask hkind) hv (hbegins hkind)
  | optional hkind hm => exact says_optional h hkind (hty (by simp [hkind])) hm hv

end

/-! ## Masks that a text needs -/

/-- A register that is compared as a whole can be written: it is a whole packet field, or its mask
can be formed. -/
def HasWholeMask (l : Limits) (r : Register) : Prop :=
  (r.field.isSome = true ∧ r.isFull = true) ∨ r.hasMask l = true

instance (l : Limits) (r : Register) : Decidable (HasWholeMask l r) :=
  inferInstanceAs (Decidable (_ ∨ _))

/-- A key that is compared as a whole, and not under a mask of the row. -/
def ComparesWhole (k : Key) : Prop := k.kind = .exact ∨ k.kind = .optional

instance (k : Key) : Decidable (ComparesWhole k) := inferInstanceAs (Decidable (_ ∨ _))

/-- The texts of an element of a key in a rule exist. -/
def KeyMatch.HasTexts (l : Limits) (km : KeyMatch) : Prop :=
  km.guard.hasText l = true ∧ ∀ x ∈ km.bindings, x.hasText l = true

section

variable {k : Key} {left : Flow.Expr} {r : Register} {km : KeyMatch} {m : Match} {l : Limits}

theorem hasText_of_mem_prereqs {e : Source.Expr} (h : m ∈ Lower.prereqs e) : m.hasText l = true := by
  obtain ⟨t, -, rfl⟩ := List.mem_map.mp h
  rfl

theorem hasText_equals_var (h : left.asRegister = some r) (name : Text) (width : Int64) :
    (Match.equals left (.var name width) none).hasText l = true ↔ HasWholeMask l r := by
  rw [Match.hasText, h]
  cases hfield : r.field <;> cases hfull : r.isFull <;>
    simp [Flow.canPosition, HasWholeMask, hfield, hfull]

theorem hasText_all? {ms : List Match} (h : Match.all? ms = some m) :
    m.hasText l = true ↔ ∀ x ∈ ms, x.hasText l = true := by
  cases ms with
  | nil => cases h
  | cons y ys =>
    cases h
    rw [Match.hasText_foldl, List.forall_mem_cons]

/-- The texts of an element of a key in a rule exist if the mask does that they may need. -/
theorem hasText_of_form (hr : left.asRegister = some r) (hform : KeyForm k left km) :
    km.HasTexts l ↔ (ComparesWhole k → HasWholeMask l r) := by
  unfold KeyMatch.HasTexts
  have hmasked : ∀ name width mask, (Match.equals left (.var name width)
      (some (.var mask width))).hasText l = true := by
    intro name width mask
    rw [Match.hasText, hr]
    rfl
  cases hform with
  | truth hkind hbool =>
    rw [hasText_equals_var hr]
    simp [ComparesWhole, hkind, Binding.hasText]
  | exact hkind hbool =>
    rw [hasText_equals_var hr]
    simp [ComparesWhole, hkind]
  | ternary hkind | lpm hkind => simp [ComparesWhole, hkind, hmasked]
  | optional hkind hm =>
    have hprereqs : ∀ x ∈ Lower.prereqs k.expr, x.hasText l = true := fun x hx =>
      hasText_of_mem_prereqs hx
    have hall := hasText_all? (l := l) hm
    rw [List.forall_mem_append, List.forall_mem_singleton, hasText_equals_var hr,
      and_iff_right hprereqs] at hall
    simp [ComparesWhole, hkind, Binding.hasText, Match.hasText, hall]

end

/-! ## Keys that pass the check -/

section

variable {k : Key} {s : State}

/-- A key that passes the check is in a register, and has a form. -/
theorem accepted_of_checkKey (h : (after (checkKey k) s).1 = []) :
    k.kind ≠ .range ∧ (k.expr.type.isBool = true → k.kind = .exact) ∧
      ∃ left a r, Yields (value [] k.expr) s.allocator left a ∧ left.asRegister = some r := by
  unfold checkKey at h
  split at h
  · cases h
  · next hrange =>
    split at h
    · cases h
    · next hbool =>
      refine ⟨hrange, fun htruth => not_not.mp fun hne => hbool ⟨htruth, hne⟩, ?_⟩
      unfold refusal at h
      rw [after_bind] at h
      cases hrun : (after (lower (keyRegister k)) s).1 with
      | error p =>
        rw [hrun] at h
        cases h
      | ok r =>
        have hyields : Yields (keyRegister k) s.allocator r
            (after (lower (keyRegister k)) s).2.allocator := Prod.ext hrun rfl
        simp only [keyRegister, yields_bind] at hyields
        obtain ⟨left, a, hleft, hr⟩ := hyields
        split at hr
        · next r' hregister => exact ⟨left, a, r', hleft, hregister⟩
        · exact absurd hr not_yields_throw

theorem keyMatch?_isSome (hrange : k.kind ≠ .range) (left : Flow.Expr) :
    ∃ km, keyMatch? k left = some km := by
  unfold keyMatch?
  dsimp only
  split
  · split <;> exact ⟨_, rfl⟩
  · exact ⟨_, rfl⟩
  · exact ⟨_, rfl⟩
  · cases prereqs k.expr with
    | nil | cons x xs => exact ⟨_, rfl⟩
  · next hkind => exact absurd hkind hrange

/-- What is emitted for a key whose value is known. -/
theorem after_emitKey {left : Flow.Expr} {a : Allocator} {km : KeyMatch}
    (hleft : Yields (value [] k.expr) s.allocator left a) (hkm : keyMatch? k left = some km) :
    (after (emitKey k) s).1 = some km ∧ (after (emitKey k) s).2.allocator = a ∧
      (k.kind = .lpm → k.expr.type.width ∈ (after (emitKey k) s).2.prefixWidths) := by
  have hlower : after (lower? (value [] k.expr)) s =
      (some left, (after (lower (value [] k.expr)) s).2) := by
    have hok : (after (lower (value [] k.expr)) s).1 = .ok left := congrArg Prod.fst hleft
    unfold lower?
    rw [after_bind, hok]
    rfl
  have hallocator : (after (lower (value [] k.expr)) s).2.allocator = a := congrArg Prod.snd hleft
  unfold emitKey
  rw [after_bind, hlower]
  dsimp only
  rw [hkm]
  by_cases hkind : k.kind = .lpm
  · rw [if_pos hkind]
    refine ⟨rfl, hallocator, fun _ => ?_⟩
    exact List.mem_append_right _ List.mem_cons_self
  · rw [if_neg hkind]
    exact ⟨rfl, hallocator, fun h => absurd h hkind⟩

end

section

variable {t : Target} {requests : List Allocator.Request} {s : State} {k : Key}
  (hs : s.allocator = (Allocator.fresh t).serve requests) (hcheck : (after (checkKey k) s).1 = [])
  (hsign : k.expr.type.isSigned = false)
  (hplaced : KeyPlaced (Layout.of (after (emitKey k) s).2.allocator) k) {widths : List Int64}
  (hwidths : (after (emitKey k) s).2.prefixWidths ⊆ widths)

include hs hcheck hsign hplaced hwidths

/-- A key that passes the check is emitted in a form, with a register, and says what is kept of the
values of its column. -/
theorem says_of_checkKey :
    ∃ km left r, (after (emitKey k) s).1 = some km ∧ KeyForm k left km ∧
      left.asRegister = some r ∧ (Layout.of (after (emitKey k) s).2.allocator).target = t ∧
      (Layout.of (after (emitKey k) s).2.allocator).register k.expr = some r ∧
      ∀ v : Value, v.Has (keyTy k) → (k.kind = .lpm → PrefixFits v) →
        KeySays (Layout.of (after (emitKey k) s).2.allocator) widths k r km v := by
  obtain ⟨hrange, hbool, left, a, r, hleft, hregister⟩ := accepted_of_checkKey hcheck
  obtain ⟨km, hkm⟩ := keyMatch?_isSome hrange left
  obtain ⟨hemitted, hallocator, hmask⟩ := after_emitKey hleft hkm
  rw [hallocator] at hplaced ⊢
  have hasks : Asks (fun _ => True) (value [] k.expr) :=
    asks_value [] (uses_of_forall (fun _ => trivial) k.expr)
  have hledger : Allocator.Ledger (fun _ => True) a := by
    refine hasks.ledger ?_ hleft
    rw [hs]
    exact (Allocator.ledger_fresh t).serve fun _ _ => trivial
  have htarget : a.target = t := by
    obtain ⟨qs, -, heq⟩ := hasks s.allocator
    have ha : a = s.allocator.serve qs := (congrArg Prod.snd hleft).symm.trans heq
    rw [ha, Allocator.target_serve, hs, Allocator.target_serve]
    rfl
  have hgives : Gives a (value [] k.expr) left := ⟨_, _, hleft, Grows.refl a⟩
  have hkey : (Layout.of a).register k.expr = some r :=
    ((ensures_value_register k.expr).of_gives hgives).symm.trans hregister
  obtain ⟨hlow, hcovers⟩ := hplaced r hkey
  have hend : 0 ≤ r.high.toInt := by
    have hpos := hcovers.pos
    have heq := hcovers.high_eq
    omega
  have hlodged : Lodged (Layout.of a) k.expr r :=
    (ensures_value_lodged k.expr).of_gives hgives (roomy_of_ledger hledger) hcovers.pos r hregister
      hend
  have hkeyLodged : KeyLodged (Layout.of a) k left r :=
    ⟨hregister, hlodged.inside, hcovers, hlodged.places_eq hcovers⟩
  have hform := keyForm_of_keyMatch? hkm
  exact ⟨km, left, r, hemitted, hform, hregister, htarget, hkey, fun v hv hbegins =>
    says_of_form hkeyLodged hform hsign hbool (fun hkind => hwidths (hmask hkind)) hv hbegins⟩

end

/-- **The text of a key holds exactly when the key is as the control plane asks, as far as prefixes
are kept.**  In any state of the register file, a key that passes the check is emitted.  Its texts
exist if and only if the mask can be formed of a register that is compared as a whole.  For every
value of its column the text that it adds can be filled in and is read as a comparison of the base of
its register, which holds of a packet when the bits of the key are as what is kept of the value says;
and all of the value is kept exactly if the bits behind a prefix can be counted in a word of
thirty-two bits.  For an optional key without a value nothing is asked, and with one the
prerequisites hold as well.

The helper for prefixes may stand among those of other widths. -/
theorem key_text_holds_iff (t : Target) (requests : List Allocator.Request) (s : State) (k : Key)
    (hs : s.allocator = (Allocator.fresh t).serve requests)
    (hcheck : (after (checkKey k) s).1 = []) (hsign : k.expr.type.isSigned = false)
    (hplaced : KeyPlaced (Layout.of (after (emitKey k) s).2.allocator) k) (widths : List Int64)
    (hwidths : (after (emitKey k) s).2.prefixWidths ⊆ widths) :
    ∃ km r, (after (emitKey k) s).1 = some km ∧
      (Layout.of (after (emitKey k) s).2.allocator).register k.expr = some r ∧
      (km.HasTexts t.limits ↔ (ComparesWhole k → HasWholeMask t.limits r)) ∧
      ∀ v : Value, v.Has (keyTy k) → (k.kind = .lpm → PrefixFits v) →
        ∃ text q, km.text? (prefixMaskHelpers widths) v = some text ∧
          Reads r.baseName (prereqTexts k.expr).eraseDups text q ∧
          (∀ packet : Situation, q.Holds t r packet ↔ KeyAsks k packet
            (keyBits (Layout.of (after (emitKey k) s).2.allocator) packet k) (kept k v)) ∧
          (kept k v = v ↔ (k.kind = .lpm → PrefixCounted v)) := by
  obtain ⟨km, left, r, hemitted, hform, hregister, htarget, hkey, hsays⟩ :=
    says_of_checkKey hs hcheck hsign hplaced hwidths
  refine ⟨km, r, hemitted, hkey, hasText_of_form hregister hform, fun v hv hbegins => ?_⟩
  obtain ⟨text, q, htext, hreads, hholds⟩ := hsays v hv hbegins
  rw [htarget] at hholds
  exact ⟨text, q, htext, hreads, hholds, kept_eq_iff hbegins⟩

/-- Five bits in the middle of a field, matched by a prefix. -/
def sampleKey : Key := ⟨"part", .slice (.field sampleKind) 6 2, .lpm⟩

/-- A compilation that has given out no registers. -/
def sampleState : State := { allocator := .fresh {} }

theorem key_text_holds_iff_sampleKey :
    (after (checkKey sampleKey) sampleState).1 = [] ∧
      KeyPlaced (Layout.of (after (emitKey sampleKey) sampleState).2.allocator) sampleKey ∧
      ∃ km r text q, (after (emitKey sampleKey) sampleState).1 = some km ∧
        km.text? (prefixMaskHelpers [5]) (.pair (.bits 5 22) (.bits 32 3)) = some text ∧
        Reads r.baseName [] text q ∧
        ∀ packet : Situation, q.Holds {} r packet ↔
          keyBits (Layout.of (after (emitKey sampleKey) sampleState).2.allocator) packet
            sampleKey >>> 2 = 22 >>> 2 := by
  have hcheck : (after (checkKey sampleKey) sampleState).1 = [] := by
    decide +kernel
  have hplaced : KeyPlaced (Layout.of (after (emitKey sampleKey) sampleState).2.allocator)
      sampleKey := by
    unfold KeyPlaced
    decide +kernel
  have hwidths : (after (emitKey sampleKey) sampleState).2.prefixWidths ⊆ [5] := by
    decide +kernel
  refine ⟨hcheck, hplaced, ?_⟩
  obtain ⟨km, r, hkm, -, -, hall⟩ := key_text_holds_iff {} [] sampleState sampleKey rfl hcheck rfl
    hplaced [5] hwidths
  obtain ⟨text, q, htext, hreads, hholds, -⟩ :=
    hall (.pair (.bits 5 22) (.bits 32 3)) ⟨⟨by decide, by decide⟩, by decide, by decide⟩
      fun _ => show 3 ≤ 5 by decide
  exact ⟨km, r, text, q, hkm, htext, hreads, hholds⟩

/-! ## A prefix with a long rest -/

/-- A packet field of two to the thirty-second and five bits. -/
def longField : Field :=
  { name := "meta.wide", type := { width := 4294967301 }, packet := some "wide" }

/-- The packet field, matched by a prefix. -/
def longKey : Key := ⟨"wide", .field longField, .lpm⟩

/-- A packet in which one bit of the packet field is set. -/
def onePacket (i : Int64) : Situation := ⟨fun p => p = .packet "wide" i, fun _ => true⟩

theorem has_bits_zero (w : Int64) : Value.Has (.bits w.toInt.toNat 0) (.bits w) :=
  ⟨rfl, Nat.two_pow_pos _⟩

theorem places_field {L : Layout} {f : Field} {r : Register}
    (h : L.register (.field f) = some r) : L.places (.field f) = r.places L.target := by
  rw [Layout.places, show L.ofField f = some r from h, Option.elim_some]

theorem testBit_keyBits_onePacket {L : Layout} {w i : Int64} {k : Key} {r : Register}
    (hplaces : L.places k.expr = r.places L.target) (hfield : r.field = some "wide")
    (hlow : r.low = 0) (hwidth : r.width = w) (hi : 0 ≤ i.toInt) (hlt : i.toInt < w.toInt)
    (j : Nat) :
    (keyBits L (onePacket i) k).testBit j = decide (j = i.toInt.toNat) := by
  have hbound := w.toInt_lt
  rw [keyBits, hplaces, Register.places_eq, Switch.Memory.testBit_read, List.getElem?_map, hwidth]
  rcases Nat.lt_or_ge j w.toInt.toNat with hj | hj
  · have hword : (0 + Int64.ofNat j : Int64) = Int64.ofNat j := Int64.zero_add _
    have hplace : r.place L.target (r.low + Int64.ofNat j) = .packet "wide" (Int64.ofNat j) := by
      rw [Register.place, hfield, hlow, hword]
    rw [List.getElem?_range hj, Option.map_some, Option.map_some, Option.getD_some, hplace, onePacket]
    simp only [Switch.Place.packet.injEq, true_and, decide_eq_decide]
    rw [← Int64.toInt_inj, Switch.Word.toInt_ofNat (by omega)]
    omega
  · rw [List.getElem?_eq_none (by rwa [List.length_range])]
    exact (decide_eq_false (by omega)).symm

/-- Of a prefix of three bits all but the last two bits of the key are compared: a packet whose first
three bits are as the control plane asks is missed. -/
theorem prefix_miscounted_longKey :
    (after (checkKey longKey) sampleState).1 = [] ∧
    ∃ km r text q, (after (emitKey longKey) sampleState).1 = some km ∧
      km.text? (prefixMaskHelpers [4294967301])
        (.pair (.bits 4294967301 0) (.bits 32 3)) = some text ∧
      Reads r.baseName [] text q ∧
      ∃ packet : Situation,
        KeyAsks longKey packet
          (keyBits (Layout.of (after (emitKey longKey) sampleState).2.allocator) packet longKey)
          (.pair (.bits 4294967301 0) (.bits 32 3)) ∧
        ¬q.Holds {} r packet := by
  have hcheck : (after (checkKey longKey) sampleState).1 = [] := by
    decide +kernel
  have hplaced : KeyPlaced (Layout.of (after (emitKey longKey) sampleState).2.allocator)
      longKey := by
    unfold KeyPlaced
    decide +kernel
  have hwidths : (after (emitKey longKey) sampleState).2.prefixWidths ⊆ [4294967301] := by
    decide +kernel
  obtain ⟨km, -, r, hkm, -, -, htarget, hkey, hsays⟩ :=
    says_of_checkKey (t := {}) (show sampleState.allocator = (Allocator.fresh {}).serve [] from rfl)
      hcheck rfl hplaced hwidths
  have hregister : (Layout.of (after (emitKey longKey) sampleState).2.allocator).register
      longKey.expr = some (.ofField "wide" 4294967301 0 4294967300) := by
    decide +kernel
  obtain rfl := Option.some.inj (hkey.symm.trans hregister)
  have hvalue : Value.Has (.bits 4294967301 0) (.bits 4294967301) := has_bits_zero 4294967301
  obtain ⟨text, q, htext, hreads, hholds⟩ := hsays (.pair (.bits 4294967301 0) (.bits 32 3))
    ⟨hvalue, by decide, by decide⟩ fun _ => show 3 ≤ 4294967301 by decide
  have hplaces := places_field (f := longField) hregister
  have hwidth : (Register.ofField "wide" 4294967301 0 4294967300).width = 4294967301 := by decide
  have hbits := testBit_keyBits_onePacket (k := longKey) (i := 4294967297) hplaces rfl rfl hwidth
    (by decide) (by decide)
  have hbit : (4294967297 : Int64).toInt.toNat = 4294967297 := by decide
  rw [hbit] at hbits
  refine ⟨hcheck, km, _, text, q, hkm, htext, hreads, onePacket 4294967297, ?_, fun h => ?_⟩
  · refine Nat.eq_of_testBit_eq fun j => ?_
    rw [Nat.testBit_shiftRight, hbits, Nat.zero_shiftRight, Nat.zero_testBit]
    exact decide_eq_false (by omega)
  · rw [← htarget, hholds] at h
    have hkept : 4294967301 - keptPrefix 4294967301 3 = 2 := by decide
    have heq : keyBits (Layout.of (after (emitKey longKey) sampleState).2.allocator)
        (onePacket 4294967297) longKey >>> (4294967301 - keptPrefix 4294967301 3) =
          0 >>> (4294967301 - keptPrefix 4294967301 3) := h
    have htest := congrArg (fun n => n.testBit 4294967295) heq
    simp only [hkept, Nat.testBit_shiftRight, hbits, Nat.zero_shiftRight, Nat.zero_testBit] at htest
    exact absurd htest (by decide)

end Flowline.Compile
