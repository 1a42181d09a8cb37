import Flowline.Proofs.Source.Lexing

/-!
# Texts put together from pieces

A text that is put together from words, numbers, symbols and blanks is cut into the same pieces
again, if no piece grows into the one behind it.  `Lexes ok s ws` says that wherever `s` stands in
front of text that is `ok`, it is cut into the words `ws`, and reading goes on right behind it.
Words and numbers have to end there (`Writes`); what ends in a bracket or a blank stands in front
of anything (`Glues`).

The tokens of a text have the form that this needs: identifiers are words, and numbers are made of
digits and a few letters, maybe with a width in front (`IsRead`).
-/

namespace Flowline.Source

variable {x : Char} {cs : List Char} {k : TokenKind}

/-- A token without its place. -/
abbrev Word := TokenKind × Text

/-- The word of a token. -/
def Token.word (t : Token) : Word := (t.kind, t.literal)

/-- The word of a class that is spelled by its name. -/
def TokenKind.word (k : TokenKind) : Word := (k, k.name)

/-! ## Reading words -/

namespace Cursor

/-- Reading from one cursor to another gives words, with nothing but blanks between them. -/
inductive Yields : Cursor → List Word → Cursor → Prop
  | nil {c : Cursor} : Yields c [] c
  | blank {c c' : Cursor} {x : Char} {cs : List Char} {ws : List Word} (hrest : c.rest = x :: cs)
      (hx : isBlank x = true) (h : Yields c.advance ws c') : Yields c ws c'
  | token {c c₁ c' : Cursor} {t : Token} {ws : List Word} (hskip : c.skipTrivia = c)
      (ht : c.token = .ok (t, c₁)) (hless : c₁.rest.length < c.rest.length)
      (h : Yields c₁ ws c') : Yields c (t.word :: ws) c'

section

variable {c c' c'' : Cursor} {us ws : List Word}

theorem Yields.trans (h : c.Yields us c') (h' : c'.Yields ws c'') : c.Yields (us ++ ws) c'' := by
  induction h with
  | nil => exact h'
  | blank hrest hx _ ih => exact .blank hrest hx (ih h')
  | token hskip ht hless _ ih => exact .token hskip ht hless (ih h')

theorem rest_advanceBy (n : Nat) (c : Cursor) : (c.advanceBy n).rest = c.rest.drop n := by
  induction n generalizing c with
  | zero => rfl
  | succ n ih => rw [advanceBy_succ, ih, advance, arrive_rest, List.drop_tail]

/-- The cursor behind a text stands in front of what follows it. -/
theorem rest_behind {s rest : List Char} (h : c.rest = s ++ rest) :
    (c.advanceBy s.length).rest = rest := by
  rw [rest_advanceBy, h, List.drop_left]

theorem skipTrivia_blank (hrest : c.rest = x :: cs) (hx : isBlank x = true) :
    c.skipTrivia = c.advance.skipTrivia := by
  rw [skipTrivia, skipTrivia, advance, hrest, skipFrom.eq_def, List.tail_cons, arrive_rest]
  simp only [hx, if_true]

theorem skipTrivia_self (hrest : c.rest = x :: cs) (hx : isBlank x = false) (hslash : x ≠ '/') :
    c.skipTrivia = c := by
  obtain ⟨rest, line, column⟩ := c
  cases hrest
  rw [skipTrivia, skipFrom.eq_def]
  simp only [hx, hslash, if_false, Bool.false_eq_true]

/-- Only the place behind blanks matters. -/
theorem scanFrom_congr (h : c.skipTrivia = c'.skipTrivia) (n : Nat) :
    scanFrom (n + 1) c = scanFrom (n + 1) c' := by
  rw [scanFrom, scanFrom, h]

/-- The words up to the end of a text are those of its tokens. -/
theorem Yields.scanFrom_eq (h : c.Yields ws c') (hend : c'.rest = []) {n : Nat}
    (hn : c.rest.length < n) :
    (scanFrom n c).tokens.map Token.word = ws ∧ (scanFrom n c).fault = none := by
  obtain ⟨n, rfl⟩ : ∃ m, n = m + 1 := ⟨n - 1, by omega⟩
  induction h generalizing n with
  | @nil c =>
    have hskip : c.skipTrivia.rest = [] := by
      rw [skipTrivia, hend]
      rfl
    rw [scanFrom]
    simp only [hskip, List.map_nil, and_self]
  | @blank c c' x cs ws hrest hx _ ih =>
    rw [scanFrom_congr (skipTrivia_blank hrest hx)]
    refine ih hend n ?_
    rw [advance, arrive_rest, hrest, List.tail_cons]
    rw [hrest, List.length_cons] at hn
    omega
  | @token c c₁ c' t ws hskip ht hless _ ih =>
    obtain ⟨m, rfl⟩ : ∃ m, n = m + 1 := ⟨n - 1, by omega⟩
    obtain ⟨htokens, hfault⟩ := ih hend m (by omega)
    obtain ⟨x, cs, hrest⟩ := List.exists_cons_of_length_pos (Nat.zero_lt_of_lt hless)
    rw [scanFrom]
    simp only [hskip, hrest, ht, List.map_cons, htokens, hfault, and_self]

end

end Cursor

/-! ## Tokens by their first byte -/

theorem isWordChar_of_letter (hx : isLetter x = true) : isWordChar x = true := by
  rw [isWordChar, hx, Bool.true_or]

theorem isWordChar_of_digit (hx : isDigit x = true) : isWordChar x = true := by
  rw [isWordChar, hx, Bool.or_true]

/-- A byte of a word starts neither a string nor a comment, and is no blank. -/
theorem of_wordChar (hx : isWordChar x = true) :
    x ≠ nul ∧ x ≠ '"' ∧ x ≠ '/' ∧ isBlank x = false := by
  refine ⟨?_, ?_, ?_, Bool.eq_false_iff.mpr fun hblank => ?_⟩
  case refine_4 =>
    simp only [isBlank, Bool.or_eq_true, decide_eq_true_eq] at hblank
    rcases hblank with ((rfl | rfl) | rfl) | rfl <;> exact absurd hx (by decide)
  all_goals
    rintro rfl
    exact absurd hx (by decide)

namespace Cursor

variable {c : Cursor}

theorem token_of_letter (hrest : c.rest = x :: cs) (hx : isLetter x = true) :
    c.token = .ok (⟨.ofWord (String.ofList (c.rest.takeWhile isWordChar)),
      String.ofList (c.rest.takeWhile isWordChar), c.line, c.column⟩,
      c.advanceBy (c.rest.takeWhile isWordChar).length) := by
  obtain ⟨hnul, hquote, -⟩ := of_wordChar (isWordChar_of_letter hx)
  rw [token, hrest]
  simp only [hnul, hquote, hx, if_true, if_false]

theorem token_of_digit (hrest : c.rest = x :: cs) (hx : isDigit x = true)
    (hletter : isLetter x = false) :
    c.token = .ok (⟨.int, String.ofList (c.rest.take (numberLength c.rest)), c.line, c.column⟩,
      c.advanceBy (numberLength c.rest)) := by
  obtain ⟨hnul, hquote, -⟩ := of_wordChar (isWordChar_of_digit hx)
  rw [token, hrest]
  simp only [hnul, hquote, hletter, hx, if_true, if_false, Bool.false_eq_true]

end Cursor

/-- A byte that starts an operator or a delimiter starts nothing else. -/
theorem of_symbol (h : symbol? (x :: cs) = some k) :
    x ≠ nul ∧ x ≠ '"' ∧ x ≠ '/' ∧ isLetter x = false ∧ isDigit x = false ∧ isBlank x = false := by
  unfold symbol? at h
  split at h <;> first | (rename_i heq; cases heq; decide) | cases h

theorem Cursor.token_of_symbol {c : Cursor} (hrest : c.rest = x :: cs)
    (hk : symbol? c.rest = some k) :
    c.token = .ok (⟨k, k.name, c.line, c.column⟩, c.advanceBy k.name.length) := by
  rw [hrest] at hk
  obtain ⟨hnul, hquote, -, hletter, hdigit, -⟩ := of_symbol hk
  rw [token, hrest]
  simp only [hnul, hquote, hletter, hdigit, hk, if_false, Bool.false_eq_true]

/-! ## Pieces of text -/

/-- Wherever a text stands in front of text of a kind, it is cut into the given words. -/
def Lexes (ok : List Char → Prop) (s : Text) (ws : List Word) : Prop :=
  ∀ (c : Cursor) (rest : List Char), c.rest = s.toList ++ rest → ok rest →
    ∃ c', c'.rest = rest ∧ c.Yields ws c'

/-- Text in front of which words and numbers end. -/
def Ends (rest : List Char) : Prop := ∀ x ∈ rest.head?, isWordChar x = false

/-- A text that is cut into words if words end behind it. -/
abbrev Writes (s : Text) (ws : List Word) : Prop := Lexes Ends s ws

/-- A text that is cut into words whatever stands behind it. -/
abbrev Glues (s : Text) (ws : List Word) : Prop := Lexes (fun _ => True) s ws

section

variable {ok ok' : List Char → Prop} {s s' : Text} {us ws : List Word}

theorem Lexes.append (h : Lexes ok s us) (h' : Lexes ok' s' ws)
    (hok : ∀ rest, ok' rest → ok (s'.toList ++ rest)) : Lexes ok' (s ++ s') (us ++ ws) := by
  intro c rest hrest hend
  rw [String.toList_append, List.append_assoc] at hrest
  obtain ⟨c₁, hrest₁, hfirst⟩ := h c _ hrest (hok rest hend)
  obtain ⟨c₂, hrest₂, hsecond⟩ := h' c₁ rest hrest₁ hend
  exact ⟨c₂, hrest₂, hfirst.trans hsecond⟩

theorem Lexes.of_eq (heq : s = s') (h : Lexes ok s' ws) : Lexes ok s ws := heq ▸ h

theorem glues_append (h : Glues s us) (h' : Lexes ok s' ws) : Lexes ok (s ++ s') (us ++ ws) :=
  h.append h' fun _ _ => trivial

theorem writes_of_glues (h : Glues s ws) : Writes s ws := fun c rest hrest _ =>
  h c rest hrest trivial

/-- A text starts with a byte that ends words. -/
def Splits (s : Text) : Prop := ∃ x cs, s.toList = x :: cs ∧ isWordChar x = false

theorem writes_append (h : Writes s us) (h' : Lexes ok s' ws) (hsplits : Splits s') :
    Lexes ok (s ++ s') (us ++ ws) := by
  refine h.append h' fun rest _ => ?_
  obtain ⟨x, cs, hs, hx⟩ := hsplits
  rw [hs]
  rintro _ ⟨⟩
  exact hx

theorem glues_empty : Glues "" [] := fun c _ hrest _ => ⟨c, hrest, .nil⟩

theorem glues_blanks {s : Text} (h : ∀ x ∈ s.toList, isBlank x = true) : Glues s [] := by
  intro c rest hrest _
  generalize s.toList = cs at h hrest
  induction cs generalizing c with
  | nil => exact ⟨c, hrest, .nil⟩
  | cons x cs ih =>
    rw [List.forall_mem_cons] at h
    have hadvance : c.advance.rest = cs ++ rest := by
      rw [Cursor.advance, Cursor.arrive_rest, hrest]
      rfl
    obtain ⟨c', hc', hyields⟩ := ih c.advance h.2 hadvance
    exact ⟨c', hc', .blank hrest h.1 hyields⟩

/-- A text that is one token wherever it stands in front of text of a kind. -/
theorem lexes_token {literal : Text} (hs : s.toList = x :: cs) (hx : isBlank x = false)
    (hslash : x ≠ '/')
    (h : ∀ (c : Cursor) (rest : List Char), c.rest = s.toList ++ rest → ok rest →
      c.token = .ok (⟨k, literal, c.line, c.column⟩, c.advanceBy s.toList.length)) :
    Lexes ok s [(k, literal)] := by
  intro c rest hrest hok
  have ht := h c rest hrest hok
  have hcons : c.rest = x :: (cs ++ rest) := by rw [hrest, hs, List.cons_append]
  have hbehind := Cursor.rest_behind hrest
  refine ⟨_, hbehind, .token (Cursor.skipTrivia_self hcons hx hslash) ht ?_ .nil⟩
  rw [hbehind, hcons, List.length_cons, List.length_append]
  omega

theorem lexes_symbol (h : ∀ rest, ok rest → symbol? (k.name.toList ++ rest) = some k)
    (hsome : ∃ rest, ok rest) : Lexes ok k.name [k.word] := by
  obtain ⟨rest₀, hrest₀⟩ := hsome
  obtain ⟨-, hne, -⟩ := symbol?_spec (h rest₀ hrest₀)
  obtain ⟨x, cs, hname⟩ := List.exists_cons_of_ne_nil hne
  have hfirst := h rest₀ hrest₀
  rw [hname, List.cons_append] at hfirst
  obtain ⟨-, -, hslash, -, -, hblank⟩ := of_symbol hfirst
  refine lexes_token hname hblank hslash fun c rest hrest hok => ?_
  have hcons : c.rest = x :: (cs ++ rest) := by rw [hrest, hname, List.cons_append]
  rw [Cursor.token_of_symbol hcons (hrest ▸ h rest hok), String.length_toList]

end

/-! ## Words -/

/-- A letter and letters or digits behind it. -/
structure IsWord (w : Text) : Prop where
  first : ∃ x cs, w.toList = x :: cs ∧ isLetter x = true
  all : ∀ x ∈ w.toList, isWordChar x = true

/-- A word that is no keyword. -/
structure IsIdent (w : Text) : Prop extends IsWord w where
  kind : TokenKind.ofWord w = .ident

theorem takeWhile_append_stop {p : Char → Bool} {s rest : List Char} (hs : ∀ x ∈ s, p x = true)
    (hrest : ∀ x ∈ rest.head?, p x = false) : (s ++ rest).takeWhile p = s := by
  rw [List.takeWhile_append_of_pos hs]
  cases rest with
  | nil => rw [List.takeWhile_nil, List.append_nil]
  | cons x rest =>
    have hx : ¬p x = true := Bool.eq_false_iff.mp (hrest x rfl)
    rw [List.takeWhile_cons_of_neg hx, List.append_nil]

theorem writes_word {w : Text} (hw : IsWord w) : Writes w [(TokenKind.ofWord w, w)] := by
  obtain ⟨x, cs, hs, hx⟩ := hw.first
  obtain ⟨-, -, hslash, hblank⟩ := of_wordChar (isWordChar_of_letter hx)
  refine lexes_token hs hblank hslash fun c rest hrest hend => ?_
  have hcons : c.rest = x :: (cs ++ rest) := by rw [hrest, hs, List.cons_append]
  have htake : c.rest.takeWhile isWordChar = w.toList := by
    rw [hrest]
    exact takeWhile_append_stop hw.all hend
  rw [Cursor.token_of_letter hcons hx, htake, String.ofList_toList]

theorem writes_ident {w : Text} (hw : IsIdent w) : Writes w [(.ident, w)] := by
  have h := writes_word hw.toIsWord
  rwa [hw.kind] at h

theorem writes_keyword (hk : k ∈ TokenKind.keywords) : Writes k.name [k.word] := by
  have hword : IsWord k.name ∧ TokenKind.ofWord k.name = k := by
    simp only [TokenKind.keywords, List.mem_cons, List.not_mem_nil, or_false] at hk
    rcases hk with rfl | rfl | rfl | rfl | rfl | rfl | rfl | rfl | rfl | rfl | rfl | rfl <;>
      exact ⟨⟨⟨_, _, rfl, by decide⟩, List.all_eq_true.mp (by decide)⟩, by decide⟩
  have h := writes_word hword.1
  rwa [hword.2] at h

/-! ## Numbers -/

theorem digit_cases (hx : isDigit x = true) : x ∈ "0123456789".toList := by
  simp only [isDigit, Bool.and_eq_true, decide_eq_true_eq] at hx
  have hlow : 48 ≤ x.toNat := hx.1
  have hhigh : x.toNat ≤ 57 := hx.2
  have hall : ∀ n ≤ 57, 48 ≤ n → Char.ofNat n ∈ "0123456789".toList := by decide
  have hmem := hall x.toNat hhigh hlow
  rwa [Char.ofNat_toNat] at hmem

theorem isLetter_of_digit (hx : isDigit x = true) : isLetter x = false := by
  have hall : ("0123456789".toList.all fun x => !isLetter x) = true := by decide
  have hnot := List.all_eq_true.mp hall x (digit_cases hx)
  rwa [Bool.not_eq_true'] at hnot

/-- A text that is a number wherever words end behind it. -/
theorem writes_number {s : Text} (hs : s.toList = x :: cs) (hx : isDigit x = true)
    (h : ∀ rest, Ends rest → numberLength (s.toList ++ rest) = s.toList.length) :
    Writes s [(.int, s)] := by
  obtain ⟨-, -, hslash, hblank⟩ := of_wordChar (isWordChar_of_digit hx)
  refine lexes_token hs hblank hslash fun c rest hrest hend => ?_
  have hcons : c.rest = x :: (cs ++ rest) := by rw [hrest, hs, List.cons_append]
  have hlength : numberLength c.rest = s.toList.length := by rw [hrest, h rest hend]
  rw [Cursor.token_of_digit hcons hx (isLetter_of_digit hx), hlength, hrest, List.take_left,
    String.ofList_toList]

/-- What may stand behind the digits of a number: nothing, or letters and digits of a base. -/
structure IsTail (tail : List Char) : Prop where
  all : ∀ x ∈ tail, isNumberTail x = true
  first : ∀ x ∈ tail.head?, isDigit x = false ∧ x ≠ 'w' ∧ x ≠ 's'

section

variable {digits tail rest : List Char}

theorem isWordChar_of_numberTail (hx : isNumberTail x = true) : isWordChar x = true := by
  simp only [isNumberTail, isHexDigit, Bool.or_eq_true, Bool.and_eq_true, decide_eq_true_eq] at hx
  rcases hx with ((((((hdigit | hlower) | hupper) | rfl) | rfl) | rfl) | rfl) | rfl
  · exact isWordChar_of_digit hdigit
  · have hz : x ≤ 'z' := Char.le_trans hlower.2 (by decide)
    simp [isWordChar, isLetter, hlower.1, hz]
  · have hz : x ≤ 'Z' := Char.le_trans hupper.2 (by decide)
    simp [isWordChar, isLetter, hupper.1, hz]
  all_goals decide

/-- Behind digits and their tail stands no further digit and no width. -/
theorem IsTail.stops (h : IsTail tail) (hend : Ends rest) :
    ∀ x ∈ (tail ++ rest).head?, isDigit x = false ∧ x ≠ 'w' ∧ x ≠ 's' := by
  cases tail with
  | cons x tail => exact h.first
  | nil =>
    intro x hx
    have hword := hend x hx
    refine ⟨?_, ?_, ?_⟩
    · rw [isWordChar, Bool.or_eq_false_iff] at hword
      exact hword.2
    · rintro rfl
      exact absurd hword (by decide)
    · rintro rfl
      exact absurd hword (by decide)

theorem IsTail.takeWhile_eq (h : IsTail tail) (hend : Ends rest) :
    (tail ++ rest).takeWhile isNumberTail = tail := by
  refine takeWhile_append_stop h.all fun x hx => Bool.eq_false_iff.mpr fun htail => ?_
  exact absurd (isWordChar_of_numberTail htail) (Bool.eq_false_iff.mp (hend x hx))

theorem widthLength_eq_zero (h : ∀ x ∈ rest.head?, x ≠ 'w' ∧ x ≠ 's') : widthLength rest = 0 := by
  unfold widthLength
  split
  · next c d cs =>
    obtain ⟨hw, hs⟩ := h c rfl
    rw [if_neg fun hmark => hmark.1.elim hw hs]
  · rfl

theorem numberLength_plain (hdigits : ∀ x ∈ digits, isDigit x = true) (htail : IsTail tail)
    (hend : Ends rest) : numberLength (digits ++ tail ++ rest) = (digits ++ tail).length := by
  have hstops := htail.stops hend
  have hfirst : (digits ++ (tail ++ rest)).takeWhile isDigit = digits :=
    takeWhile_append_stop hdigits fun x hx => (hstops x hx).1
  have hwidth : widthLength (tail ++ rest) = 0 :=
    widthLength_eq_zero fun x hx => (hstops x hx).2
  rw [List.append_assoc, numberLength, hfirst, List.drop_left, hwidth, Nat.add_zero,
    List.drop_left, htail.takeWhile_eq hend, List.length_append]

theorem numberLength_sized {width : List Char} {mark d : Char}
    (hwidth : ∀ x ∈ width, isDigit x = true) (hmark : mark = 'w' ∨ mark = 's')
    (hd : isDigit d = true) (hdigits : ∀ x ∈ digits, isDigit x = true) (htail : IsTail tail)
    (hend : Ends rest) :
    numberLength (width ++ mark :: d :: (digits ++ tail) ++ rest) =
      (width ++ mark :: d :: (digits ++ tail)).length := by
  have hstops := htail.stops hend
  have hnodigit : isDigit mark = false := by rcases hmark with rfl | rfl <;> decide
  have hfirst : (width ++ mark :: d :: (digits ++ (tail ++ rest))).takeWhile isDigit = width := by
    refine takeWhile_append_stop hwidth ?_
    rintro _ ⟨⟩
    exact hnodigit
  have hsecond : (digits ++ (tail ++ rest)).takeWhile isDigit = digits :=
    takeWhile_append_stop hdigits fun x hx => (hstops x hx).1
  have hlength : widthLength (mark :: d :: (digits ++ (tail ++ rest))) = 2 + digits.length := by
    rw [widthLength, if_pos ⟨hmark, hd⟩, hsecond]
  have hdrop : (width ++ mark :: d :: (digits ++ (tail ++ rest))).drop
      (width.length + (2 + digits.length)) = tail ++ rest := by
    rw [List.drop_length_add_append, Nat.add_comm, List.drop_succ_cons, List.drop_succ_cons,
      List.drop_left]
  rw [List.append_assoc, List.cons_append, List.cons_append, List.append_assoc, numberLength,
    hfirst, List.drop_left, hlength, hdrop, htail.takeWhile_eq hend]
  simp only [List.length_append, List.length_cons]
  omega

end

/-! ## Tokens of texts -/

/-- The text of a number: digits and letters that may stand among them, behind a width or not. -/
inductive IsNumber : List Char → Prop
  | plain {cs : List Char} (h : ∀ x ∈ cs, isNumberTail x = true) : IsNumber cs
  | sized {ws cs : List Char} {mark : Char} (hne : ws ≠ []) (hws : ∀ x ∈ ws, isDigit x = true)
      (hmark : mark = 'w' ∨ mark = 's') (h : ∀ x ∈ cs, isNumberTail x = true) :
      IsNumber (ws ++ mark :: cs)

/-- The form of the tokens that reading gives: identifiers are words that are no keywords, numbers
are such, and only strings and what is illegal may hold a zero byte. -/
structure Token.IsRead (t : Token) : Prop where
  ident : t.kind = .ident → IsIdent t.literal
  int : t.kind = .int → IsNumber t.literal.toList
  nul_notMem : t.kind ≠ .string → t.kind ≠ .illegal → nul ∉ t.literal.toList

theorem Token.isRead_mk {kind : TokenKind} {literal : Text} (h : kind ≠ .ident ∧ kind ≠ .int)
    (hnul : kind ≠ .string → kind ≠ .illegal → nul ∉ literal.toList) (line column : Nat) :
    (Token.mk kind literal line column).IsRead :=
  ⟨fun hkind => absurd hkind h.1, fun hkind => absurd hkind h.2, hnul⟩

theorem symbol?_ne {kind : TokenKind} (h : symbol? cs = some kind) :
    (kind ≠ .ident ∧ kind ≠ .int) ∧ nul ∉ kind.name.toList := by
  unfold symbol? at h
  split at h <;> cases h <;> decide

theorem nul_notMem_of_word (h : ∀ x ∈ cs, isWordChar x = true) : nul ∉ cs :=
  fun hmem => absurd (h nul hmem) (by decide)

theorem isNumberTail_of_digit (hx : isDigit x = true) : isNumberTail x = true := by
  simp [isNumberTail, isHexDigit, hx]

theorem take_takeWhile (p : Char → Bool) (cs : List Char) :
    cs.take (cs.takeWhile p).length = cs.takeWhile p :=
  (List.prefix_iff_eq_take.mp (List.takeWhile_prefix p)).symm

theorem mem_takeWhile {p : Char → Bool} : ∀ x ∈ cs.takeWhile p, p x = true :=
  List.all_eq_true.mp List.all_takeWhile

/-- A width in front of a number, and what stands behind it. -/
theorem take_widthLength (cs : List Char) : widthLength cs = 0 ∨ ∃ mark ds,
    (mark = 'w' ∨ mark = 's') ∧ (∀ x ∈ ds, isDigit x = true) ∧
      cs.take (widthLength cs) = mark :: ds := by
  unfold widthLength
  split
  · next c d cs =>
    split
    · next hwidth =>
      refine .inr ⟨c, d :: cs.takeWhile isDigit, hwidth.1,
        List.forall_mem_cons.mpr ⟨hwidth.2, mem_takeWhile⟩, ?_⟩
      rw [Nat.add_comm, List.take_succ_cons, List.take_succ_cons, take_takeWhile]
    · exact .inl rfl
  · exact .inl rfl

/-- The text of a number could stand in a word. -/
theorem IsNumber.word (h : IsNumber cs) : ∀ x ∈ cs, isWordChar x = true := by
  cases h with
  | plain h => exact fun x hx => isWordChar_of_numberTail (h x hx)
  | sized _ hws hmark h =>
    rw [List.forall_mem_append, List.forall_mem_cons]
    refine ⟨fun x hx => isWordChar_of_digit (hws x hx), ?_, fun x hx =>
      isWordChar_of_numberTail (h x hx)⟩
    rcases hmark with rfl | rfl <;> decide

/-- What is cut out as a number has the text of one. -/
theorem isNumber_take (hx : isDigit x = true) (cs : List Char) :
    IsNumber ((x :: cs).take (numberLength (x :: cs))) := by
  have hdigits : ∀ {ys : List Char}, (∀ y ∈ ys, isDigit y = true) → ∀ y ∈ ys, isNumberTail y = true :=
    fun h y hy => isNumberTail_of_digit (h y hy)
  rw [numberLength, List.take_add, List.take_add, take_takeWhile, take_takeWhile]
  rcases take_widthLength ((x :: cs).drop ((x :: cs).takeWhile isDigit).length) with
    hzero | ⟨mark, ds, hmark, hds, hwidth⟩
  · rw [hzero, List.take_zero, List.append_nil]
    exact .plain (List.forall_mem_append.mpr ⟨hdigits mem_takeWhile, mem_takeWhile⟩)
  · rw [hwidth, List.append_assoc, List.cons_append]
    refine .sized ?_ mem_takeWhile hmark (List.forall_mem_append.mpr ⟨hdigits hds, mem_takeWhile⟩)
    rw [List.takeWhile_cons_of_pos hx]
    exact List.cons_ne_nil _ _

theorem isWord_takeWhile (hx : isLetter x = true) (cs : List Char) :
    IsWord (String.ofList ((x :: cs).takeWhile isWordChar)) := by
  have hword := isWordChar_of_letter hx
  rw [List.takeWhile_cons_of_pos hword]
  refine ⟨⟨x, _, String.toList_ofList, hx⟩, ?_⟩
  rw [String.toList_ofList, ← List.takeWhile_cons_of_pos hword]
  exact mem_takeWhile

theorem Cursor.isRead_token {c c' : Cursor} {t : Token} (h : c.token = .ok (t, c')) : t.IsRead := by
  rw [token] at h
  split at h
  · cases h
    exact Token.isRead_mk (by decide) (fun _ _ => List.not_mem_nil) _ _
  · next x cs hrest =>
    split at h
    · cases h
      exact Token.isRead_mk (by decide) (fun _ _ => List.not_mem_nil) _ _
    split at h
    · split at h <;> cases h
      exact Token.isRead_mk (by decide) (fun hstring => absurd rfl hstring) _ _
    split at h
    · next hletter =>
      cases h
      have hword := isWord_takeWhile hletter cs
      rw [← hrest] at hword
      refine ⟨fun hkind => ⟨hword, hkind⟩, fun hkind => ?_, fun _ _ => nul_notMem_of_word hword.2⟩
      have hmem := ofWord_mem (String.ofList (c.rest.takeWhile isWordChar))
      rw [show TokenKind.ofWord _ = TokenKind.int from hkind] at hmem
      exact absurd hmem (by decide)
    split at h
    · next hdigit =>
      cases h
      have hnumber := isNumber_take hdigit cs
      rw [← hrest, ← String.toList_ofList (l := c.rest.take _)] at hnumber
      exact ⟨fun hkind => (by cases hkind), fun _ => hnumber, fun _ _ =>
        nul_notMem_of_word hnumber.word⟩
    split at h
    · next kind hkind =>
      cases h
      exact Token.isRead_mk (symbol?_ne hkind).1 (fun _ _ => (symbol?_ne hkind).2) _ _
    · cases h
      exact Token.isRead_mk (by decide) (fun _ hillegal => absurd rfl hillegal) _ _

theorem isRead_scanFrom (n : Nat) (c : Cursor) : ∀ t ∈ (scanFrom n c).tokens, t.IsRead := by
  induction n generalizing c with
  | zero => exact nofun
  | succ n ih =>
    rw [scanFrom]
    split
    · exact nofun
    · exact nofun
    · next t c' ht _ => exact List.forall_mem_cons.mpr ⟨Cursor.isRead_token ht, ih c'⟩

end Flowline.Source
