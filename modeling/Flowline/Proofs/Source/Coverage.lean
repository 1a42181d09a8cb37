import Flowline.Proofs.Source.Texts

/-!
# How far a text is read

The parser stops at the first end of input, and a zero byte reads as one.  A text that is read
without an error is taken apart by the tokens that the parser took, with nothing but blanks and
comments around them, up to its first zero byte; so no text is left out exactly if there is none
(`covers_iff`).

Strings are the only tokens that could hold a zero byte and go on behind it, and there is no place
for a string in the grammar.
-/

namespace Flowline.Source

/-! ## The tokens that are taken -/

section

variable {tokens : List Token} {last : Token}

theorem length_beforeEnd_le (tokens : List Token) : (beforeEnd tokens).length ≤ tokens.length :=
  (List.takeWhile_prefix _).length_le

/-- Statements are read up to the first end of input. -/
theorem taken_statements (hlast : last.kind = .eof) {ss : List Stmt}
    (h : (Clause.stmts ss).Derives True (beforeEnd tokens)) : tokens =
      beforeEnd tokens ++ (statements (depthBound tokens) ⟨tokens, last, []⟩).2.tokens := by
  obtain ⟨rest, hts, hrest⟩ := exists_beforeEnd tokens hlast []
  have hrun := h.parses rest last [] false (depthBound tokens)
    (le_depthBound (length_beforeEnd_le tokens) (by decide)) (.inl hrest)
  rw [← hts] at hrun
  unfold statements
  rw [hrun]
  exact hts

theorem taken_expression (hlast : last.kind = .eof) {e : Expr}
    (h : (Phrase.level .or e).Derives (beforeEnd tokens)) : tokens =
      beforeEnd tokens ++ (expression (depthBound tokens) ⟨tokens, last, []⟩).2.tokens := by
  obtain ⟨rest, hts, hrest⟩ := exists_beforeEnd tokens hlast []
  have hrun := h.parseBinary_eq (le_depthBound (length_beforeEnd_le tokens) (by decide)) hrest
  rw [← hts] at hrun
  rw [expression_eq, hrun, expectEnd_of_eof _ hrest]
  exact hts

theorem taken_keyset (hlast : last.kind = .eof) {e : Expr} (h : Keyset True e (beforeEnd tokens)) :
    tokens = beforeEnd tokens ++ (keyset (depthBound tokens) ⟨tokens, last, []⟩).2.tokens := by
  obtain ⟨rest, hts, hrest⟩ := exists_beforeEnd tokens hlast []
  have hrun := h.keysetBody_eq (le_depthBound (length_beforeEnd_le tokens) (by decide)) hrest
  rw [← hts] at hrun
  rw [keyset_eq, hrun, expectEnd_of_eof _ hrest]
  exact hts

end

/-- A text is read without an error by one of the entries of the parser, which stops in a state. -/
inductive ReadTo (input : Text) : ParseState → Prop
  | statements {ss : List Stmt} (h : parseStatements input = .ok ⟨ss, []⟩) :
      ReadTo input (runOn statements input).2
  | expression {e : Option Expr} (h : parseExpression input = .ok ⟨e, []⟩) :
      ReadTo input (runOn expression input).2
  | keyset {e : Option Expr} (h : parseKeyset input = .ok ⟨e, []⟩) :
      ReadTo input (runOn keyset input).2

section

variable {input : Text} {s : ParseState}

theorem ReadTo.taken (h : ReadTo input s) :
    Known (tokensOf input) ∧ (scan input).tokens = tokensOf input ++ s.tokens := by
  cases h with
  | statements h =>
    have hderives := derives_of_parseStatements h rfl
    exact ⟨hderives.known, taken_statements (kind_last_scan input) hderives⟩
  | expression h =>
    obtain ⟨e, -, hderives⟩ := derives_of_parseExpression h rfl
    exact ⟨hderives.known, taken_expression (kind_last_scan input) hderives⟩
  | keyset h =>
    obtain ⟨e, -, hderives⟩ := derives_of_parseKeyset h rfl
    exact ⟨hderives.known, taken_keyset (kind_last_scan input) hderives⟩

/-- The parser stops in front of the place where a text breaks off. -/
theorem ReadTo.ne_nil_of_fault (h : ReadTo input s) (hfault : (scan input).fault ≠ none) :
    s.tokens ≠ [] := by
  have hstops {α : Type} {parse : Nat → ParseState → α × ParseState} {p : Parsed α}
      (h : parseText parse input = .ok p) : (runOn parse input).2.tokens ≠ [] := by
    unfold parseText at h
    dsimp only at h
    split at h
    · split at h
      · cases h
      · next hlength =>
        intro hnil
        rw [runOn] at hnil
        rw [hnil] at hlength
        exact hlength (by decide)
    · next hnone => exact absurd hnone hfault
  cases h with
  | statements h | expression h | keyset h => exact hstops h

end

/-! ## The text of the tokens -/

/-- Tokens take a text apart, up to an offset at which it reads as ended. -/
def Covers (cs : List Char) (ts : List Token) (stop : Nat) : Prop :=
  ∃ ps o e, ps.map Placed.token = ts ∧ Tiles cs 0 ps o ∧ EndsAt cs o stop e

theorem Cursor.scanFrom_next {c c' : Cursor} {t : Token} (h : c.next = .ok (t, c'))
    (ht : t.kind ≠ .eof) (n : Nat) : scanFrom (n + 1) c =
      ⟨t :: (scanFrom n c').tokens, (scanFrom n c').last, (scanFrom n c').fault⟩ := by
  have htoken : c.skipTrivia.token = .ok (t, c') := h
  cases hrest : c.skipTrivia.rest with
  | nil =>
    rw [Cursor.token, hrest] at htoken
    cases htoken
    exact absurd rfl ht
  | cons x cs =>
    rw [scanFrom]
    simp only [hrest, htoken]

/-- The tokens before the first end of input take the text apart up to there, unless it breaks off
before. -/
theorem Cursor.IsAt.tiles_scanFrom {cs : List Char} {o n : Nat} {c : Cursor} (hat : IsAt cs o c)
    (hn : cs.length - o < n) :
    ∃ ps o', beforeEnd (scanFrom n c).tokens = ps.map Placed.token ∧ Tiles cs o ps o' ∧
      ((∃ stop e, EndsAt cs o' stop e) ∨
        (scanFrom n c).fault ≠ none ∧ (scanFrom n c).tokens = ps.map Placed.token) := by
  induction n generalizing o c with
  | zero => omega
  | succ n ih =>
    cases hat.next with
    | unfinished hu =>
      have hnext := token_of_unfinished hu
      obtain ⟨body, -, hrest⟩ := hu
      rw [scanFrom]
      simp only [hrest, hnext]
      exact ⟨[], o, rfl, .nil, .inr ⟨Option.some_ne_none _, rfl⟩⟩
    | @eof e stop c' hnext hends =>
      have htoken : c.skipTrivia.token = .ok (e, c') := hnext
      refine ⟨[], o, ?_, .nil, .inl ⟨stop, e, hends⟩⟩
      rw [scanFrom]
      cases hrest : c.skipTrivia.rest with
      | nil => rfl
      | cons x cs => simp [beforeEnd, htoken, hends.kind_eq]
    | @token p c' hnext hle hgap hp hat' =>
      have hstart := hp.start_lt
      have hstop := hp.stop_le
      have hbehind := hp.stop_le_behind
      obtain ⟨ps, o', htokens, htiles, hend⟩ := ih hat' (by omega)
      rw [scanFrom_next hnext hp.kind_ne]
      refine ⟨p :: ps, o', ?_, .cons hle hgap hp htiles, hend.imp_right fun h => ⟨h.1, ?_⟩⟩
      · rw [List.map_cons, ← htokens]
        exact List.takeWhile_cons_of_pos (decide_eq_true hp.kind_ne)
      · rw [h.2, List.map_cons]

/-- The tokens that were taken cover the text up to an end of input. -/
theorem ReadTo.exists_covers {input : Text} {s : ParseState} (h : ReadTo input s) :
    ∃ stop, Covers input.toList (tokensOf input) stop := by
  have hat := Cursor.isAt_start input.toList
  have hn : input.toList.length - 0 < input.length + 1 := by
    rw [String.length_toList]
    omega
  obtain ⟨ps, o, htokens, htiles, ⟨stop, e, hends⟩ | ⟨hfault, hall⟩⟩ := hat.tiles_scanFrom hn
  · exact ⟨stop, ps, o, e, htokens.symm, htiles, hends⟩
  · have htaken := h.taken.2
    have hsame : tokensOf input = (scan input).tokens := htokens.trans hall.symm
    rw [← hsame] at htaken
    exact absurd (List.self_eq_append_right.mp htaken) (h.ne_nil_of_fault hfault)

/-! ## The first zero byte -/

theorem nul_notMem_take {cs : List Char} {o stop : Nat} (h : nul ∉ cs.take o) (hle : o ≤ stop)
    (hnext : nul ∉ cs.extract o stop) : nul ∉ cs.take stop := by
  obtain ⟨n, rfl⟩ := Nat.exists_eq_add_of_le hle
  rw [List.extract_eq_take_drop, Nat.add_sub_cancel_left] at hnext
  rw [List.take_add, List.mem_append]
  exact not_or.mpr ⟨h, hnext⟩

theorem Trivia.nul_notMem {gap : List Char} (h : Trivia gap) : nul ∉ gap := by
  induction h with
  | nil => exact List.not_mem_nil
  | blank hc _ ih =>
    refine List.not_mem_cons_of_ne_of_not_mem ?_ ih
    rintro rfl
    exact absurd hc (by decide)
  | @comment form body rest hbody _ ih =>
    have hmarks : nul ∉ form.opening ∧ nul ∉ form.closing := by cases form <;> decide
    simp only [List.mem_append, not_or]
    exact ⟨hmarks.1, hbody.nul_notMem, hmarks.2, ih⟩

theorem Gap.nul_notMem {gap behind : List Char} (h : Gap gap behind) : nul ∉ gap := by
  cases h with
  | whole h => exact h.nul_notMem
  | @cut form before body heq h hbody =>
    have hopening : nul ∉ form.opening := by cases form <;> decide
    rw [heq]
    simp only [List.mem_append, not_or]
    exact ⟨h.nul_notMem, hopening, hbody.nul_notMem⟩

section

variable {cs : List Char} {ts : List Token} {o o' stop : Nat}

/-- A token of the grammar holds no zero byte, and reading goes on right behind it. -/
theorem Placed.Sound.nul_notMem {p : Placed} (h : p.Sound cs) (hread : p.token.IsRead)
    (hstring : p.token.kind ≠ .string) (hillegal : p.token.kind ≠ .illegal) :
    nul ∉ p.span cs ∧ p.behind cs = p.stop := by
  constructor
  · have hspells := h.spells
    have hnul := hread.nul_notMem hstring hillegal
    generalize p.span cs = span, cs.drop p.stop = behind at hspells
    cases hspells with
    | quoted ht | unquoted ht => exact absurd ht hstring
    | illegal ht => exact absurd ht hillegal
    | plain => exact hnul
  · have hstart := h.start_lt
    have hstop := h.stop_le
    rw [behind, reach_of_ne hstring, span, List.extract_eq_take_drop, List.length_take,
      List.length_drop]
    omega

/-- Tokens of the grammar have no zero byte in or between them. -/
theorem Tiles.nul_notMem {ps : List Placed} (h : Tiles cs o ps o')
    (hknown : Known (ps.map Placed.token)) (hread : ∀ p ∈ ps, p.token.IsRead)
    (ho : nul ∉ cs.take o ∧ o ≤ cs.length) : nul ∉ cs.take o' ∧ o' ≤ cs.length := by
  induction h with
  | nil => exact ho
  | cons hle hgap hp _ ih =>
    rw [List.map_cons, known_cons] at hknown
    rw [List.forall_mem_cons] at hread
    obtain ⟨⟨-, hstring, hillegal⟩, hknown⟩ := hknown
    obtain ⟨hspan, hbehind⟩ := hp.nul_notMem hread.1 hstring hillegal
    refine ih hknown hread.2 ?_
    rw [hbehind]
    exact ⟨nul_notMem_take (nul_notMem_take ho.1 hle hgap.nul_notMem) hp.start_lt.le hspan,
      hp.stop_le⟩

/-- What tokens of the grammar cover ends at the first zero byte. -/
theorem Covers.stop_eq (h : Covers cs ts stop) (hknown : Known ts) (hread : ∀ t ∈ ts, t.IsRead) :
    stop = (cs.takeWhile (· ≠ nul)).length := by
  obtain ⟨ps, o, e, rfl, htiles, hends⟩ := h
  rw [List.forall_mem_map] at hread
  obtain ⟨htake, ho⟩ := htiles.nul_notMem hknown hread ⟨List.not_mem_nil, Nat.zero_le _⟩
  have hnul := nul_notMem_take htake hends.le_stop hends.gap.nul_notMem
  have hstop : stop ≤ cs.length := Nat.max_eq_right ho ▸ hends.stop_le
  have hwhile : (cs.take stop ++ cs.drop stop).takeWhile (· ≠ nul) = cs.take stop := by
    refine takeWhile_append_stop (fun x hx => decide_eq_true ?_) fun x hx => ?_
    · rintro rfl
      exact hnul hx
    · rw [hends.atEnd x hx]
      rfl
  rw [List.take_append_drop] at hwhile
  rw [hwhile, List.length_take_of_le hstop]

end

theorem length_takeWhile_eq_iff {cs : List Char} :
    (cs.takeWhile (· ≠ nul)).length = cs.length ↔ nul ∉ cs := by
  have hwhole : cs.takeWhile (· ≠ nul) = cs ↔ nul ∉ cs := by
    rw [List.takeWhile_eq_self_iff]
    exact ⟨fun h hnul => absurd (h nul hnul) (by decide), fun h x hx =>
      decide_eq_true fun heq => h (heq ▸ hx)⟩
  rw [← hwhole]
  exact ⟨(List.takeWhile_prefix _).eq_of_length, congrArg List.length⟩

/-- A text is read up to its first zero byte: the tokens that the parser took take it apart up to
there.  So they cover all of it exactly if it has none. -/
theorem covers_iff {input : Text} {s : ParseState} (h : ReadTo input s) :
    ∃ ts, (scan input).tokens = ts ++ s.tokens ∧
      Covers input.toList ts (input.toList.takeWhile (· ≠ nul)).length ∧
      (Covers input.toList ts input.toList.length ↔ nul ∉ input.toList) := by
  obtain ⟨hknown, htaken⟩ := h.taken
  obtain ⟨stop, hcovers⟩ := h.exists_covers
  have hstop {stop : Nat} (hcovers : Covers input.toList (tokensOf input) stop) :=
    hcovers.stop_eq hknown (isRead_tokensOf input)
  rw [hstop hcovers] at hcovers
  refine ⟨tokensOf input, htaken, hcovers, ?_⟩
  rw [← length_takeWhile_eq_iff]
  exact ⟨fun hall => (hstop hall).symm, fun hall => hall ▸ hcovers⟩

theorem parseExpression_name {input name : Text} (line column : Nat)
    (hfault : (scan input).fault = none)
    (htokens : tokensOf input = [⟨.ident, name, line, column⟩]) :
    parseExpression input = .ok ⟨some (.path name), []⟩ := by
  have hname : (Phrase.unary (.path name)).Derives [⟨.ident, name, line, column⟩] :=
    .bare (.plain (.name (t := ⟨.ident, name, line, column⟩) rfl))
  refine parseExpression_of_derives hfault ?_
  rw [htokens]
  exact .operand (l := .or) (.operand (l := .and) (.operand (l := .eq) hname))

/-- Comments around a name, the second of which the text leaves open. -/
theorem covers_iff_openComment :
    parseExpression "/**/a // b" = .ok ⟨some (.path "a"), []⟩ ∧
      ∃ ts, (scan "/**/a // b").tokens = ts ++ (runOn expression "/**/a // b").2.tokens ∧
        Covers "/**/a // b".toList ts 10 := by
  have hread : parseExpression "/**/a // b" = .ok ⟨some (.path "a"), []⟩ :=
    parseExpression_name 1 5 (by decide +kernel) (by decide +kernel)
  obtain ⟨ts, htokens, -, hall⟩ := covers_iff (.expression hread)
  exact ⟨hread, ts, htokens, hall.mpr (by decide)⟩

/-- Behind a zero byte text is left out, here the `b`. -/
theorem not_covers_zeroByte :
    parseExpression "a\x00b" = .ok ⟨some (.path "a"), []⟩ ∧
      ∀ ts, (scan "a\x00b").tokens = ts ++ (runOn expression "a\x00b").2.tokens →
        ¬Covers "a\x00b".toList ts 3 := by
  have hread : parseExpression "a\x00b" = .ok ⟨some (.path "a"), []⟩ :=
    parseExpression_name 1 1 (by decide +kernel) (by decide +kernel)
  obtain ⟨hknown, htaken⟩ := (ReadTo.expression hread).taken
  refine ⟨hread, fun ts htokens hcovers => ?_⟩
  obtain rfl := List.append_cancel_right (htokens.symm.trans htaken)
  have hstop := hcovers.stop_eq hknown (isRead_tokensOf _)
  revert hstop
  decide

end Flowline.Source
