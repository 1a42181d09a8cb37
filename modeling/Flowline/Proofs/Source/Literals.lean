import Flowline.Proofs.Source.Relexing
import Flowline.Proofs.Text.Numerals
import Flowline.Source.Literal

/-!
# Literals are read back

The text of a literal is one number (`Literal.writes_text`), and it is read as the same literal
(`Literal.parse_text`).  Octal literals are written in decimal and lose their base, and the sign of
a literal stands in front of its digits only if its width does.

Which numbers are literals at all, and of which value, is said by `Literal.Written`, in terms of
digits and their positional value; reading succeeds on these and no others
(`Literal.parse_eq_ok_iff`, `Literal.literal_exact`).
-/

namespace Flowline.Source

open Numeral (toList_word)

/-! ## Digits -/

variable {cs : List Char} {base n : Nat} {r : Radix} {c : Char}

/-- A digit of a base up to sixteen is a hexadecimal one, and of a base up to ten a decimal one. -/
theorem isHexDigit_of_isDigit {d : Nat} (hmax : base ≤ 16) (h : Numeral.IsDigit base c d) :
    isHexDigit c = true ∧ (base ≤ 10 → isDigit c = true) := by
  have hall : ∀ n < 128, ∀ d < 16, Numeral.digitValue? (Char.ofNat n) = some d →
      isHexDigit (Char.ofNat n) = true ∧ (d < 10 → isDigit (Char.ofNat n) = true) := by
    decide +kernel
  have hd : d < 16 := Nat.lt_of_lt_of_le h.1 hmax
  have hvalue := (Numeral.digitValue?_eq_some_iff hd).mpr h.2
  have hascii : c.toNat < 128 := Numeral.toNat_lt_of_digitValue? hvalue
  have hdigit := hall c.toNat hascii d hd
  rw [Char.ofNat_toNat] at hdigit
  exact (hdigit hvalue).imp_right fun hten hbase => hten (Nat.lt_of_lt_of_le h.1 hbase)

theorem isHexDigit_of_denotes (hmax : base ≤ 16) (h : Numeral.Denotes base cs n) :
    ∀ x ∈ cs, isHexDigit x = true ∧ (base ≤ 10 → isDigit x = true) := by
  obtain ⟨ds, hds, -⟩ := h
  induction hds with
  | nil => exact nofun
  | cons hd _ ih => exact List.forall_mem_cons.mpr ⟨isHexDigit_of_isDigit hmax hd, ih⟩

theorem isHexDigit_of_mem (hbase : 1 < base) (hmax : base ≤ 16) (h : c ∈ Nat.toDigits base n) :
    isHexDigit c = true :=
  (isHexDigit_of_denotes hmax (Numeral.denotes_toDigits hbase hmax n) c h).1

theorem isDigit_of_mem (h : c ∈ Nat.toDigits 10 n) : isDigit c = true :=
  (isHexDigit_of_denotes (by decide) (Numeral.denotes_toDigits (by decide) (by decide) n) c h).2
    (Nat.le_refl _)

theorem isTail_marked {mark : Char} (hmark : mark = 'x' ∨ mark = 'b') (hbase : 1 < base)
    (hmax : base ≤ 16) : IsTail (mark :: Nat.toDigits base n) where
  all := by
    refine List.forall_mem_cons.mpr ⟨?_, fun x hx => ?_⟩
    · rcases hmark with rfl | rfl <;> decide
    · simp [isNumberTail, isHexDigit_of_mem hbase hmax hx]
  first := by
    rintro _ ⟨⟩
    rcases hmark with rfl | rfl <;> decide

theorem isTail_nil : IsTail [] := ⟨nofun, nofun⟩

theorem writes_decimal {s : Text} (hs : s.toList = Nat.toDigits 10 n) : Writes s [(.int, s)] := by
  obtain ⟨d, ds, hcons⟩ := List.exists_cons_of_ne_nil (Nat.toDigits_ne_nil (n := n) (b := 10))
  refine writes_number (hs.trans hcons) (isDigit_of_mem (hcons ▸ List.mem_cons_self)) ?_
  intro rest hend
  have hdigits : ∀ x ∈ s.toList, isDigit x = true := fun x hx => isDigit_of_mem (hs ▸ hx)
  have hlength := numberLength_plain hdigits isTail_nil hend
  rwa [List.append_nil] at hlength

theorem writes_numeral {n : Int64} (hn : 0 ≤ n.toInt) :
    Writes (Numeral.word n) [(.int, Numeral.word n)] := writes_decimal (toList_word hn)

/-- The letters that mark a base. -/
def Radix.marks : Radix → List Char
  | .binary => ['b', 'B']
  | .octal => ['o', 'O']
  | .decimal => ['d', 'D']
  | .hex => ['x', 'X']

theorem Radix.base_le (r : Radix) : r.base ≤ 16 := by
  cases r <;> decide

namespace Literal

variable {l : Literal}

/-- A literal that its text says all about: its base is decimal, hexadecimal or binary, and its
width is positive, or it has none and no sign either. -/
structure Plain (l : Literal) : Prop where
  radix : l.radix ≠ .octal
  width : 0 < l.width ∨ (l.width = 0 ∧ l.isSigned = false)

instance : Decidable l.Plain :=
  decidable_of_iff (l.radix ≠ .octal ∧ (0 < l.width ∨ (l.width = 0 ∧ l.isSigned = false)))
    ⟨fun h => ⟨h.1, h.2⟩, fun h => ⟨h.radix, h.width⟩⟩

/-- The digits of a literal, which has no minus sign. -/
theorem digits_cases (hplain : l.Plain) (hvalue : 0 ≤ l.value) : ∃ n : Nat, l.value = n ∧
    ((l.radix = .decimal ∧ l.digits.toList = Nat.toDigits 10 n) ∨
      (l.radix = .hex ∧ l.digits.toList = '0' :: 'x' :: Nat.toDigits 16 n) ∨
      (l.radix = .binary ∧ l.digits.toList = '0' :: 'b' :: Nat.toDigits 2 n)) := by
  obtain ⟨n, hn⟩ := Int.eq_ofNat_of_zero_le hvalue
  refine ⟨n, hn, ?_⟩
  have hsigned (numeral : Nat → Text) : signed numeral l.value = numeral n := by
    rw [signed, hn, if_neg (by omega), Int.natAbs_natCast]
  cases hradix : l.radix with
  | octal => exact absurd hradix hplain.radix
  | decimal =>
    refine .inl ⟨rfl, ?_⟩
    rw [digits, hradix, hn]
    exact Numeral.toList_decimal n
  | hex =>
    refine .inr (.inl ⟨rfl, ?_⟩)
    rw [digits, hradix]
    simp only [hsigned, String.toList_append, Numeral.toList_hex]
    rfl
  | binary =>
    refine .inr (.inr ⟨rfl, ?_⟩)
    rw [digits, hradix]
    simp only [hsigned, String.toList_append, Numeral.binary, String.toList_ofList]
    rfl

/-! ## Cutting -/

/-- The digits of a literal as a lexer takes them apart. -/
theorem exists_digits (hplain : l.Plain) (hvalue : 0 ≤ l.value) : ∃ d ds tail,
    l.digits.toList = d :: (ds ++ tail) ∧ isDigit d = true ∧ (∀ x ∈ ds, isDigit x = true) ∧
      IsTail tail := by
  obtain ⟨n, -, ⟨-, h⟩ | ⟨-, h⟩ | ⟨-, h⟩⟩ := digits_cases hplain hvalue
  · obtain ⟨d, ds, hcons⟩ := List.exists_cons_of_ne_nil (Nat.toDigits_ne_nil (n := n) (b := 10))
    have hall : ∀ x ∈ d :: ds, isDigit x = true := fun x hx => isDigit_of_mem (hcons ▸ hx)
    rw [List.forall_mem_cons] at hall
    exact ⟨d, ds, [], by rw [h, hcons, List.append_nil], hall.1, hall.2, isTail_nil⟩
  · exact ⟨'0', [], _, h, by decide, nofun, isTail_marked (.inl rfl) (by decide) (by decide)⟩
  · exact ⟨'0', [], _, h, by decide, nofun, isTail_marked (.inr rfl) (by decide) (by decide)⟩

theorem text_sized (hpos : 0 < l.width) : ∃ mark, (mark = 'w' ∨ mark = 's') ∧
    (mark == 's') = l.isSigned ∧
    l.text.toList = Nat.toDigits 10 l.width.toInt.toNat ++ mark :: l.digits.toList := by
  have hwidth : 0 ≤ l.width.toInt := by
    have h := Int64.lt_iff_toInt_lt.mp hpos
    exact Int.le_of_lt h
  rw [text, if_pos hpos, String.toList_append, String.toList_append, toList_word hwidth]
  cases hsigned : l.isSigned with
  | true => exact ⟨'s', .inr rfl, rfl, by simp⟩
  | false => exact ⟨'w', .inl rfl, rfl, by simp⟩

theorem text_unsized (hzero : l.width = 0) : l.text = l.digits := by
  rw [text, hzero, if_neg (by decide)]

/-- The text of a literal starts with a digit, and is a number wherever words end behind it. -/
theorem text_isNumber (hplain : l.Plain) (hvalue : 0 ≤ l.value) : ∃ x cs, l.text.toList = x :: cs ∧
    isDigit x = true ∧
    ∀ rest, Ends rest → numberLength (l.text.toList ++ rest) = l.text.toList.length := by
  obtain ⟨d, ds, tail, hdigits, hd, hds, htail⟩ := exists_digits hplain hvalue
  rcases hplain.width with hpos | ⟨hzero, -⟩
  · obtain ⟨mark, hmark, -, htext⟩ := text_sized hpos
    rw [hdigits] at htext
    obtain ⟨w, ws, hcons⟩ :=
      List.exists_cons_of_ne_nil (Nat.toDigits_ne_nil (n := l.width.toInt.toNat) (b := 10))
    refine ⟨w, ws ++ mark :: d :: (ds ++ tail), ?_, ?_, fun rest hend => ?_⟩
    · rw [htext, hcons, List.cons_append]
    · exact isDigit_of_mem (hcons ▸ List.mem_cons_self)
    · rw [htext]
      exact numberLength_sized (fun _ => isDigit_of_mem) hmark hd hds htail hend
  · rw [text_unsized hzero]
    refine ⟨d, ds ++ tail, hdigits, hd, fun rest hend => ?_⟩
    have hall : ∀ x ∈ d :: ds, isDigit x = true := List.forall_mem_cons.mpr ⟨hd, hds⟩
    rw [hdigits, ← List.cons_append]
    exact numberLength_plain hall htail hend

theorem writes_text (hplain : l.Plain) (hvalue : 0 ≤ l.value) : Writes l.text [(.int, l.text)] := by
  obtain ⟨x, cs, hs, hx, hlength⟩ := text_isNumber hplain hvalue
  exact writes_number hs hx hlength

/-! ## Reading -/

/-- The value part of a literal, underscores left out: decimal digits, or digits of a base behind a
zero and a letter that marks the base. -/
inductive Values (cs : List Char) : Radix → Nat → Prop
  | plain {n : Nat} (h : Numeral.Denotes 10 (cs.filter (· != '_')) n) : Values cs .decimal n
  | marked {r : Radix} {m : Char} {ds : List Char} {n : Nat} (hm : m ∈ r.marks)
      (heq : cs.filter (· != '_') = '0' :: m :: ds) (h : Numeral.Denotes r.base ds n) : Values cs r n

/-- How a literal is written: a value part, or decimal digits for a width that is a machine word, a
mark that tells the sign, and a value part. -/
inductive Written : List Char → Literal → Prop
  | plain {cs : List Char} {r : Radix} {n : Nat} (h : Values cs r n) :
      Written cs { value := n, radix := r }
  | sized {ws cs : List Char} {mark : Char} {w : Int64} {k n : Nat} {r : Radix}
      (hws : Numeral.Denotes 10 ws k) (hw : w.toInt = k) (hmark : mark = 'w' ∨ mark = 's')
      (h : Values cs r n) :
      Written (ws ++ mark :: cs) { value := n, width := w, radix := r, isSigned := mark == 's' }

theorem notMem_of_tail {cs : List Char} (h : ∀ x ∈ cs, isNumberTail x = true) {x : Char}
    (hx : isNumberTail x = false) : x ∉ cs := fun hmem => by
  rw [h x hmem] at hx
  cases hx

theorem isNumberTail_of_hexDigit {x : Char} (hx : isHexDigit x = true) : isNumberTail x = true := by
  simp [isNumberTail, hx]

/-- What stands in the value part of a literal may stand in a number. -/
theorem Values.tail (h : Values cs r n) : ∀ x ∈ cs, isNumberTail x = true := by
  have hunderscore : ∀ x ∈ cs, x = '_' ∨ x ∈ cs.filter (· != '_') := by
    intro x hx
    by_cases heq : x = '_'
    · exact .inl heq
    · exact .inr (List.mem_filter.mpr ⟨hx, bne_iff_ne.mpr heq⟩)
  intro x hx
  rcases hunderscore x hx with rfl | hx
  · decide
  cases h with
  | plain h => exact isNumberTail_of_hexDigit (isHexDigit_of_denotes (by decide) h x hx).1
  | marked hm heq h =>
    rw [heq, List.mem_cons, List.mem_cons] at hx
    rcases hx with rfl | rfl | hx
    · decide
    · have hmarks : ∀ r : Radix, r.marks.all isNumberTail = true := by
        intro r
        cases r <;> decide
      exact List.all_eq_true.mp (hmarks _) _ hm
    · exact isNumberTail_of_hexDigit (isHexDigit_of_denotes r.base_le h x hx).1

theorem radixMark?_eq_some_iff :
    radixMark? cs = some r ↔ ∃ m d ds, cs = '0' :: m :: d :: ds ∧ m ∈ r.marks := by
  constructor
  · intro h
    unfold radixMark? at h
    split at h
    · next m d ds =>
      refine ⟨m, d, ds, rfl, ?_⟩
      split at h
      · next hm => cases h; simpa [Radix.marks] using hm
      split at h
      · next hm => cases h; simpa [Radix.marks] using hm
      split at h
      · next hm => cases h; simpa [Radix.marks] using hm
      split at h
      · next hm => cases h; simpa [Radix.marks] using hm
      · cases h
    · cases h
  · rintro ⟨m, d, ds, rfl, hm⟩
    cases r <;> simp only [Radix.marks, List.mem_cons, List.not_mem_nil, or_false] at hm <;>
      rcases hm with rfl | rfl <;> rfl

theorem isDigit_of_mem_marks {m : Char} (h : m ∈ r.marks) : isDigit m = false := by
  have hall : r.marks.all (!isDigit ·) = true := by cases r <;> decide
  simpa using List.all_eq_true.mp hall m h

/-- The value part of a number is read as what it denotes. -/
theorem value?_eq_some_iff (htail : ∀ x ∈ cs, isNumberTail x = true) {v : Int} :
    value? cs = some (r, v) ↔ ∃ n : Nat, v = n ∧ Values cs r n := by
  have hsub : ∀ x ∈ cs.filter (· != '_'), isNumberTail x = true := fun x hx =>
    htail x (List.mem_filter.mp hx).1
  have hread {base : Nat} (hmax : base ≤ 16) {ds : List Char}
      (hds : ∀ x ∈ ds, x ∈ cs.filter (· != '_')) {v : Int} :
      Numeral.integer? base ds = some v ↔ ∃ n : Nat, v = n ∧ Numeral.Denotes base ds n :=
    Numeral.integer?_eq_some_iff hmax (fun h => notMem_of_tail hsub (by decide) (hds _ h))
      fun h => notMem_of_tail hsub (by decide) (hds _ h)
  unfold value?
  dsimp only
  split
  · next r' hr =>
    obtain ⟨m, d, ds, hcs, hm⟩ := radixMark?_eq_some_iff.mp hr
    have hdrop : (cs.filter (· != '_')).drop 2 = d :: ds := by rw [hcs]; rfl
    rw [Option.map_eq_some_iff, hdrop]
    constructor
    · rintro ⟨v', hv, heq⟩
      cases heq
      obtain ⟨n, hn, hdenotes⟩ := (hread r.base_le (hdrop ▸ fun _ => List.mem_of_mem_drop)).mp hv
      exact ⟨n, hn, .marked hm hcs hdenotes⟩
    · rintro ⟨n, rfl, ⟨h⟩ | ⟨hm', heq, h⟩⟩
      · -- the mark of a base is no decimal digit
        have hdigit := (isHexDigit_of_denotes (by decide) h m (by simp [hcs])).2 (Nat.le_refl _)
        rw [isDigit_of_mem_marks hm] at hdigit
        cases hdigit
      · rw [hcs] at heq
        cases heq
        obtain rfl : r' = r := by
          rw [hcs, radixMark?_eq_some_iff.mpr ⟨m, d, ds, rfl, hm'⟩] at hr
          exact (Option.some.inj hr).symm
        exact ⟨n, (hread r'.base_le (hdrop ▸ fun _ => List.mem_of_mem_drop)).mpr ⟨n, rfl, h⟩, rfl⟩
  · next hr =>
    rw [Option.map_eq_some_iff]
    constructor
    · rintro ⟨v', hv, heq⟩
      cases heq
      obtain ⟨n, hn, hdenotes⟩ := (hread (by decide) fun _ => id).mp hv
      exact ⟨n, hn, .plain hdenotes⟩
    · rintro ⟨n, rfl, ⟨h⟩ | ⟨hm, heq, h⟩⟩
      · exact ⟨n, (hread (by decide) fun _ => id).mpr ⟨n, rfl, h⟩, rfl⟩
      · -- a mark with a digit behind it is seen
        obtain ⟨d, ds, rfl⟩ := List.exists_cons_of_ne_nil h.ne_nil
        rw [heq, radixMark?_eq_some_iff.mpr ⟨_, d, ds, rfl, hm⟩] at hr
        cases hr

theorem isWidthMark_of_tail {x : Char} (hx : isNumberTail x = true) : isWidthMark x = false := by
  refine Bool.eq_false_iff.mpr fun hmark => ?_
  rw [isWidthMark, Bool.or_eq_true, decide_eq_true_eq, decide_eq_true_eq] at hmark
  rcases hmark with rfl | rfl <;> exact absurd hx (by decide)

theorem splitWidth?_unsized (h : ∀ x ∈ cs, isNumberTail x = true) : splitWidth? cs = none := by
  have hmarks : ∀ x ∈ cs, (!isWidthMark x) = true := fun x hx => by
    rw [isWidthMark_of_tail (h x hx)]
    rfl
  have hdrop : cs.dropWhile (!isWidthMark ·) = [] := by
    have happend : (cs ++ []).dropWhile (!isWidthMark ·) = [] :=
      List.dropWhile_append_of_pos hmarks
    rwa [List.append_nil] at happend
  unfold splitWidth?
  rw [hdrop]
  split <;> first | rfl | contradiction

theorem splitWidth?_sized {ws rest : List Char} {mark : Char} (hne : ws ≠ [])
    (hws : ∀ x ∈ ws, isDigit x = true) (hmark : mark = 'w' ∨ mark = 's') :
    splitWidth? (ws ++ mark :: rest) = some (ws, mark, rest) := by
  have hmarks : ∀ x ∈ ws, (!isWidthMark x) = true := fun x hx => by
    rw [isWidthMark_of_tail (isNumberTail_of_digit (hws x hx))]
    rfl
  have hstop : ¬(!isWidthMark mark) = true := by rcases hmark with rfl | rfl <;> decide
  have htake : (ws ++ mark :: rest).takeWhile (!isWidthMark ·) = ws := by
    refine takeWhile_append_stop hmarks ?_
    rintro _ ⟨⟩
    exact Bool.eq_false_iff.mpr hstop
  have hdrop : (ws ++ mark :: rest).dropWhile (!isWidthMark ·) = mark :: rest := by
    rw [List.dropWhile_append_of_pos hmarks,
      List.dropWhile_cons_of_neg (p := (!isWidthMark ·)) hstop]
  have hsecond (m : Char) (cs : List Char) (hm : isDigit m = false) : ws ≠ '0' :: m :: cs := by
    intro heq
    have hdigit : isDigit m = true := hws m (by rw [heq]; simp)
    rw [hdigit] at hm
    cases hm
  unfold splitWidth?
  rw [htake, hdrop]
  split
  · contradiction
  · contradiction
  · next cs _ => exact absurd rfl (hsecond 'x' cs (by decide))
  · next cs _ => exact absurd rfl (hsecond 'X' cs (by decide))
  · next heq =>
    cases heq
    rfl

theorem word?_digits {ws : List Char} (hws : ∀ x ∈ ws, isDigit x = true) {w : Int64} :
    Numeral.word? ws = some w ↔ ∃ k : Nat, w.toInt = k ∧ Numeral.Denotes 10 ws k := by
  have htail : ∀ x ∈ ws, isNumberTail x = true := fun x hx => isNumberTail_of_digit (hws x hx)
  exact Numeral.word?_eq_some_iff (notMem_of_tail htail (by decide))
    (notMem_of_tail htail (by decide))

theorem parse_of_written {lit : Text} (h : Written lit.toList l) : parse lit = .ok l := by
  unfold parse
  generalize lit.toList = cs at h
  cases h with
  | plain h =>
    rw [splitWidth?_unsized h.tail]
    simp only [(value?_eq_some_iff h.tail).mpr ⟨_, rfl, h⟩]
  | sized hws hw hmark h =>
    have hdigits : ∀ x ∈ _, isDigit x = true := fun x hx =>
      (isHexDigit_of_denotes (by decide) hws x hx).2 (Nat.le_refl _)
    rw [splitWidth?_sized hws.ne_nil hdigits hmark]
    simp only [(word?_digits hdigits).mpr ⟨_, hw, hws⟩,
      (value?_eq_some_iff h.tail).mpr ⟨_, rfl, h⟩]

/-- Reading a number gives the literal that is written, and fails where none is. -/
theorem parse_eq_ok_iff {lit : Text} (hnumber : IsNumber lit.toList) :
    parse lit = .ok l ↔ Written lit.toList l := by
  refine ⟨fun h => ?_, parse_of_written⟩
  unfold parse at h
  generalize lit.toList = cs at h hnumber
  cases hnumber with
  | plain htail =>
    rw [splitWidth?_unsized htail] at h
    dsimp only at h
    split at h
    · cases h
    · next r v hv =>
      obtain ⟨n, rfl, hvalues⟩ := (value?_eq_some_iff htail).mp hv
      cases h
      exact .plain hvalues
  | sized hne hws hmark htail =>
    rw [splitWidth?_sized hne hws hmark] at h
    dsimp only at h
    split at h
    · cases h
    · next w hw =>
      split at h
      · cases h
      · next r v hv =>
        obtain ⟨k, hk, hdenotes⟩ := (word?_digits hws).mp hw
        obtain ⟨n, rfl, hvalues⟩ := (value?_eq_some_iff htail).mp hv
        cases h
        exact .sized hdenotes hk hmark hvalues

theorem Written.nonneg (h : Written cs l) : 0 ≤ l.value ∧ 0 ≤ l.width.toInt := by
  cases h with
  | plain _ => exact ⟨Int.natCast_nonneg _, Int.le_refl 0⟩
  | sized _ hw _ _ => exact ⟨Int.natCast_nonneg _, hw ▸ Int.natCast_nonneg _⟩

/-! ## Reading back -/

theorem filter_underscore (h : ∀ x ∈ cs, isHexDigit x = true ∨ x = 'x') :
    cs.filter (· != '_') = cs := by
  refine List.filter_eq_self.mpr fun x hx => bne_iff_ne.mpr ?_
  rintro rfl
  rcases h _ hx with h | h <;> exact absurd h (by decide)

theorem values_digits (hplain : l.Plain) (hvalue : 0 ≤ l.value) :
    ∃ n : Nat, l.value = n ∧ Values l.digits.toList l.radix n := by
  have hmarked {mark : Char} {r : Radix} (n : Nat) (hmark : mark ∈ r.marks)
      (hlegal : isHexDigit mark = true ∨ mark = 'x') (hbase : 1 < r.base) :
      Values ('0' :: mark :: Nat.toDigits r.base n) r n := by
    refine .marked hmark (filter_underscore ?_) (Numeral.denotes_toDigits hbase r.base_le n)
    rw [List.forall_mem_cons, List.forall_mem_cons]
    exact ⟨.inl (by decide), hlegal, fun x hx => .inl (isHexDigit_of_mem hbase r.base_le hx)⟩
  obtain ⟨n, hn, ⟨hradix, h⟩ | ⟨hradix, h⟩ | ⟨hradix, h⟩⟩ := digits_cases hplain hvalue <;>
    refine ⟨n, hn, ?_⟩ <;> rw [h, hradix]
  · refine .plain ?_
    rw [filter_underscore fun x hx => .inl (isHexDigit_of_mem (by decide) (by decide) hx)]
    exact Numeral.denotes_toDigits (by decide) (by decide) n
  · exact hmarked (r := .hex) n (by decide) (.inr rfl) (by decide)
  · exact hmarked (r := .binary) n (by decide) (.inl (by decide)) (by decide)

theorem written_text (hplain : l.Plain) (hvalue : 0 ≤ l.value) : Written l.text.toList l := by
  obtain ⟨n, hn, hvalues⟩ := values_digits hplain hvalue
  rcases hplain.width with hpos | ⟨hzero, hunsigned⟩
  · obtain ⟨mark, hmark, hsigned, htext⟩ := text_sized hpos
    have hwidth : l.width.toInt = l.width.toInt.toNat :=
      (Int.toNat_of_nonneg (Int.le_of_lt (Int64.lt_iff_toInt_lt.mp hpos))).symm
    have hwritten := Written.sized (Numeral.denotes_toDigits (by decide) (by decide) _) hwidth hmark
      hvalues
    rwa [← htext, hsigned, ← hn] at hwritten
  · have hwritten := Written.plain hvalues
    rwa [← text_unsized hzero, ← hn, ← hzero, ← hunsigned] at hwritten

/-- Reading a literal undoes writing it. -/
theorem parse_text (hplain : l.Plain) (hvalue : 0 ≤ l.value) : parse l.text = .ok l :=
  parse_of_written (written_text hplain hvalue)

/-- A machine word is read back as a literal. -/
theorem parse_word {n : Int64} (hn : 0 ≤ n.toInt) :
    parse (Numeral.word n) = .ok { value := n.toInt } :=
  parse_text (l := { value := n.toInt }) ⟨nofun, .inr ⟨rfl, rfl⟩⟩ hn

/-- What the text of a literal says about it. -/
def asWritten (l : Literal) : Literal :=
  { l with
    radix := if l.radix = .octal then .decimal else l.radix
    isSigned := decide (0 < l.width) && l.isSigned }

theorem text_asWritten (l : Literal) : l.asWritten.text = l.text := by
  have hdigits : l.asWritten.digits = l.digits := by
    unfold digits asWritten
    cases l.radix <;> rfl
  rw [text, text, hdigits]
  by_cases hwidth : 0 < l.width
  · rw [if_pos (show 0 < l.asWritten.width from hwidth), if_pos hwidth]
    simp only [asWritten, hwidth, decide_true, Bool.true_and]
  · rw [if_neg (show ¬0 < l.asWritten.width from hwidth), if_neg hwidth]

theorem plain_asWritten (l : Literal) (h : 0 ≤ l.width.toInt) : l.asWritten.Plain where
  radix := by
    unfold asWritten
    dsimp only
    cases l.radix <;> decide
  width := by
    by_cases hwidth : 0 < l.width
    · exact Or.inl hwidth
    · have hzero : l.width = 0 := by
        rw [Int64.lt_iff_toInt_lt, Int64.toInt_zero] at hwidth
        rw [← Int64.toInt_inj, Int64.toInt_zero]
        omega
      exact Or.inr ⟨hzero, by simp [asWritten, hwidth]⟩

/-- Reading the text of a literal gives what the text says about it. -/
theorem parse_text_asWritten (h : Written cs l) : parse l.text = .ok l.asWritten := by
  rw [← text_asWritten]
  exact parse_text (plain_asWritten l h.nonneg.2) h.nonneg.1

/-- Literals are read and written exactly.  A number of a text is read if and only if it is written
as a literal says: an optional width that is a machine word, with its mark, and digits of a base
with underscores among them.  The literal is then read back from its own text, but for the base if
it was octal and for the sign if the width is zero. -/
theorem literal_exact {c c' : Cursor} {t : Token} (hnext : c.next = .ok (t, c'))
    (hint : t.kind = .int) :
    (∀ l, parse t.literal = .ok l ↔ Written t.literal.toList l) ∧
      ∀ l, parse t.literal = .ok l → ∃ l', parse l.text = .ok l' ∧ l'.value = l.value ∧
        l'.width = l.width ∧ (l.radix ≠ .octal → l'.radix = l.radix) ∧
        (0 < l.width → l'.isSigned = l.isSigned) := by
  have hnumber : IsNumber t.literal.toList := (Cursor.isRead_token hnext).int hint
  refine ⟨fun l => parse_eq_ok_iff hnumber, fun l hl => ?_⟩
  refine ⟨l.asWritten, parse_text_asWritten ((parse_eq_ok_iff hnumber).mp hl), rfl, rfl, ?_, ?_⟩
  · exact fun hradix => if_neg hradix
  · intro hwidth
    simp [asWritten, hwidth]

theorem literal_exact_octal : ∃ c', Cursor.next ⟨"8s0O_17;".toList, 1, 1⟩ =
      .ok (⟨.int, "8s0O_17", 1, 1⟩, c') ∧
    Written "8s0O_17".toList ⟨15, 8, .octal, true⟩ ∧
    ∃ l', parse (Literal.mk 15 8 .octal true).text = .ok l' ∧ l'.value = 15 ∧ l'.width = 8 ∧
      l'.isSigned = true := by
  have hnext : Cursor.next ⟨"8s0O_17;".toList, 1, 1⟩ =
      .ok (⟨.int, "8s0O_17", 1, 1⟩, ⟨[';'], 1, 8⟩) := by decide +kernel
  obtain ⟨hread, hback⟩ := literal_exact hnext rfl
  have hl : parse "8s0O_17" = .ok ⟨15, 8, .octal, true⟩ := by decide +kernel
  obtain ⟨l', hparse, hvalue, hwidth, -, hsigned⟩ := hback _ hl
  exact ⟨_, hnext, (hread _).mp hl, l', hparse, hvalue, hwidth, hsigned (by decide)⟩

end Literal

end Flowline.Source
