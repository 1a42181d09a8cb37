import Flowline.Proofs.Source.Completeness
import Flowline.Proofs.Source.Soundness

/-!
# The parser accepts exactly its grammar

On any tokens, read up to the first end of input, the parser records no error if and only if they
derive in the grammar, and then it returns the tree of the derivation, in which no operand is
missing and no name is resolved (`parsesExactly`).  Operators group to the left, and each `else`
belongs to the nearest `if`; a list of statements has one such derivation at most.

In keys `_` is reserved.  It is a name elsewhere, but no key starts with it as with a name.
-/

namespace Flowline.Source

/-! ## The first end of input -/

/-- The tokens before the first end of input. -/
def beforeEnd (tokens : List Token) : List Token := tokens.takeWhile fun t => t.kind ≠ .eof

variable {rest us : List Token} {errs : List Text} {e : Expr} {n : Nat}

theorem beforeEnd_append {last : Token} (hus : NoEnd us)
    (hrest : (⟨rest, last, errs⟩ : ParseState).kind = .eof) : beforeEnd (us ++ rest) = us := by
  have hall : ∀ t ∈ us, decide (t.kind ≠ .eof) = true := fun t ht => decide_eq_true (hus t ht)
  unfold beforeEnd
  rw [List.takeWhile_append_of_pos hall]
  cases rest with
  | nil => simp
  | cons t rest =>
    have ht : t.kind = .eof := hrest
    simp [ht]

theorem exists_beforeEnd (tokens : List Token) {last : Token} (hlast : last.kind = .eof)
    (errs : List Text) :
    ∃ rest, tokens = beforeEnd tokens ++ rest ∧ (⟨rest, last, errs⟩ : ParseState).kind = .eof := by
  refine ⟨tokens.dropWhile fun t => t.kind ≠ .eof, List.takeWhile_append_dropWhile.symm, ?_⟩
  have hhead := List.head?_dropWhile_not (fun t : Token => decide (t.kind ≠ .eof)) tokens
  generalize tokens.dropWhile (fun t => decide (t.kind ≠ .eof)) = rest at hhead
  cases rest with
  | nil => exact hlast
  | cons t rest => simpa using hhead

/-! ## Accepting -/

/-- A run records no error exactly where something derives, and then returns the tree of the one
derivation that follows all rules, with no operand missing. -/
structure Accepts {α : Type} (run : Option α × ParseState) (D T : α → Prop) (W : α → Prop) :
    Prop where
  quiet_iff : run.2.errors = [] ↔ ∃ a, D a
  tree : run.2.errors = [] → ∃ a, run.1 = some a ∧ T a ∧ W a
  unique : ∀ a, T a → run.1 = some a

theorem expectEnd_quiet {what : Text} {s : ParseState} (h : (expectEnd what s).errors = []) :
    s.kind = .eof ∧ s.errors = [] := by
  unfold expectEnd at h
  split at h
  · next heof => exact ⟨heof, h⟩
  · have hlength := s.length_errors_fail ("unexpected " ++ s.kind.name ++ " after " ++ what)
    rw [h] at hlength
    exact absurd hlength.symm (Nat.succ_ne_zero _)

theorem expectEnd_of_eof (what : Text) {s : ParseState} (h : s.kind = .eof) :
    expectEnd what s = s := if_pos h

/-- A step that reads what derives, and reads all of it where the text ends behind it, accepts. -/
theorem accepts_of_reads {strict : Prop} {D : Expr → List Token → Prop} {tokens : List Token}
    {last : Token} {p : Option Expr × ParseState} {W : Expr → Prop} (what : Text)
    (hlast : last.kind = .eof) (hreads : Reads strict last [] D tokens p) (hnoEnd : ∀ e us, D e us → NoEnd us)
    (hwhole : ∀ e us, D e us → W e)
    (hparses : ∀ e us rest, tokens = us ++ rest → (⟨rest, last, []⟩ : ParseState).kind = .eof →
      D e us → p = (some e, ⟨rest, last, []⟩)) :
    Accepts (p.1, expectEnd what p.2) (fun e => D e (beforeEnd tokens))
      (fun e => D e (beforeEnd tokens)) W := by
  have hsound : (expectEnd what p.2).errors = [] → ∃ e, p.1 = some e ∧ D e (beforeEnd tokens) := by
    intro hquiet
    obtain ⟨heof, herrors⟩ := expectEnd_quiet hquiet
    cases hreads with
    | failed h =>
      rw [herrors] at h
      exact absurd h (Nat.lt_irrefl _)
    | @took e us rest hts h =>
      refine ⟨e, rfl, ?_⟩
      rwa [hts, beforeEnd_append (hnoEnd e us h) heof]
  have hcomplete : ∀ e, D e (beforeEnd tokens) →
      p.1 = some e ∧ (expectEnd what p.2).errors = [] := by
    intro e he
    obtain ⟨rest, hts, heof⟩ := exists_beforeEnd tokens hlast []
    rw [hparses e _ rest hts heof he]
    exact ⟨rfl, by rw [expectEnd_of_eof what heof]⟩
  refine ⟨⟨fun hquiet => ?_, fun ⟨e, he⟩ => (hcomplete e he).2⟩, fun hquiet => ?_,
    fun e he => (hcomplete e he).1⟩
  · obtain ⟨e, -, he⟩ := hsound hquiet
    exact ⟨e, he⟩
  · obtain ⟨e, hp, he⟩ := hsound hquiet
    exact ⟨e, hp, he, hwhole e _ he⟩

/-! ## Expressions and keys -/

theorem expression_eq (n : Nat) (s : ParseState) :
    expression n s = ((parseBinary n .or s).1, expectEnd "expression" (parseBinary n .or s).2) := rfl

theorem keyset_eq (n : Nat) (s : ParseState) :
    keyset n s = ((keysetBody n s).1, expectEnd "keyset" (keysetBody n s).2) := rfl

/-- The depth bound suffices for no more tokens than there are. -/
theorem le_depthBound {tokens : List Token} (h : us.length ≤ tokens.length) {c : Nat}
    (hc : c ≤ 32) : 16 * us.length + c ≤ depthBound tokens := by
  rw [depthBound]
  omega

section

variable {tokens : List Token} {last : Token}

/-- An expression at the end of a text. -/
theorem Phrase.Derives.parseBinary_eq (h : (Phrase.level .or e).Derives us)
    (hn : 16 * us.length + 9 ≤ n) (hrest : (⟨rest, last, errs⟩ : ParseState).kind = .eof) :
    parseBinary n .or ⟨us ++ rest, last, errs⟩ = (some e, ⟨rest, last, errs⟩) :=
  h.parses.whole hn (by rw [hrest]; rfl) (by rw [hrest]; rfl)

theorem Phrase.Derives.not_any (h : (Phrase.level .or e).Derives us)
    (hfirst : ∀ t ∈ us.head?, ¬IsWildcard t) (rest : List Token) :
    ¬((⟨us ++ rest, last, errs⟩ : ParseState).kind = .kwDefault ∨
      ((⟨us ++ rest, last, errs⟩ : ParseState).kind = .ident ∧
        (⟨us ++ rest, last, errs⟩ : ParseState).current.literal = "_")) := by
  obtain ⟨t, us, rfl, ht⟩ := h.starts
  rintro (hdefault | hwild)
  · rw [List.cons_append, ParseState.kind_cons] at hdefault
    rw [hdefault] at ht
    cases ht
  · exact hfirst t rfl hwild

theorem accepts_expression (hlast : last.kind = .eof) :
    Accepts (expression (depthBound tokens) ⟨tokens, last, []⟩)
      (fun e => (Phrase.level .or e).Derives (beforeEnd tokens))
      (fun e => (Phrase.level .or e).Derives (beforeEnd tokens)) Expr.Whole := by
  have hreads := (readsAt hlast [] (depthBound tokens)).binary .or tokens
    (le_depthBound (Nat.le_refl _) (by decide))
  rw [expression_eq]
  refine accepts_of_reads "expression" hlast hreads (fun _ _ h => h.known.noEnd)
    (fun _ _ h => h.whole) fun e us rest hts hrest h => ?_
  rw [hts]
  exact h.parseBinary_eq (le_depthBound (by simp) (by decide)) hrest

/-- A key is read, or an error is recorded, maybe beside a key with a hole. -/
theorem reads_keysetBody (hlast : last.kind = .eof) (hn : 16 * tokens.length + 9 ≤ n) :
    Reads False last [] (Keyset True) tokens (keysetBody n ⟨tokens, last, []⟩) := by
  have hvalue := (readsAt hlast [] n).binary .or tokens hn
  unfold keysetBody
  split
  · next hany =>
    rcases hany with hdefault | ⟨hident, hliteral⟩
    · obtain ⟨t, rest, rfl, ht⟩ := cons_of_kind hlast hdefault nofun
      exact .took rfl (.default ht)
    · obtain ⟨t, rest, rfl, ht⟩ := cons_of_kind hlast hident nofun
      exact .took rfl (.wildcard ⟨ht, hliteral⟩)
  · next hany =>
    generalize parseBinary n .or ⟨tokens, last, []⟩ = p at hvalue
    cases hvalue with
    | @failed _ s h hnone =>
      cases hnone trivial
      dsimp only
      split
      · -- the error stays when the mask is read
        have hgrows : Grows s.advance (parseBinary n .or s.advance) :=
          (growsAt n).binary .or s.advance
        exact .failed (Nat.lt_of_lt_of_le h hgrows.of_advance) False.elim
      · exact .failed h False.elim
    | @took e us rest hts h =>
      have hfirst : True → ∀ t ∈ us.head?, ¬IsWildcard t := by
        rintro - t ht hwild
        obtain ⟨us, rfl⟩ := List.head?_eq_some_iff.mp ht
        rw [hts] at hany
        exact hany (.inr hwild)
      dsimp only
      split
      · next hmask =>
        obtain ⟨t, vs, rfl, ht⟩ := cons_of_kind hlast hmask nofun
        have hlength : tokens.length = us.length + (vs.length + 1) := by rw [hts]; simp
        have hreads := (readsAt hlast [] n).binary .or vs (by simp only [Level.depth]; omega)
        rw [ParseState.advance_cons]
        generalize parseBinary n .or ⟨vs, last, []⟩ = q at hreads
        cases hreads with
        | failed h' => exact .failed h' False.elim
        | took hvs hm => exact .took (by rw [hts, hvs]; simp) (.masked h hfirst ht hm)
      · exact .took hts (.value h hfirst)

/-- A key at the end of a text. -/
theorem Keyset.keysetBody_eq (h : Keyset True e us) (hn : 16 * us.length + 9 ≤ n)
    (hrest : (⟨rest, last, []⟩ : ParseState).kind = .eof) :
    keysetBody n ⟨us ++ rest, last, []⟩ = (some e, ⟨rest, last, []⟩) := by
  unfold keysetBody
  cases h with
  | default ht => exact if_pos (.inl ht)
  | wildcard ht => exact if_pos (.inr ht)
  | value h hfirst =>
    rw [if_neg (h.not_any (hfirst trivial) _), h.parseBinary_eq hn hrest]
    exact if_neg (by rw [hrest]; nofun)
  | @masked e m t ts us h hfirst ht hm =>
    rw [List.length_append, List.length_cons] at hn
    rw [List.append_assoc, if_neg (h.not_any (hfirst trivial) _), List.cons_append,
      h.parses.before (by simp [ht]) (by omega)]
    dsimp only
    rw [ParseState.kind_cons, if_pos ht, ParseState.advance_cons, hm.parseBinary_eq (by omega) hrest]
    rfl

theorem accepts_keyset (hlast : last.kind = .eof) :
    Accepts (keyset (depthBound tokens) ⟨tokens, last, []⟩)
      (fun e => Keyset True e (beforeEnd tokens)) (fun e => Keyset True e (beforeEnd tokens))
      Expr.WholeKey := by
  have hreads := reads_keysetBody hlast (le_depthBound (Nat.le_refl tokens.length) (by decide))
  rw [keyset_eq]
  refine accepts_of_reads "keyset" hlast hreads
    (fun _ _ h => h.known.noEnd) (fun _ _ h => h.wholeKey) fun e us rest hts hrest h => ?_
  rw [hts]
  exact h.keysetBody_eq (le_depthBound (by simp) (by decide)) hrest

/-! ## Statements -/

theorem accepts_statements (hlast : last.kind = .eof) :
    Accepts (always (statements (depthBound tokens) ⟨tokens, last, []⟩))
      (fun ss => (Clause.stmts ss).Derives False (beforeEnd tokens))
      (fun ss => (Clause.stmts ss).Derives True (beforeEnd tokens)) WholeStmts := by
  have hreads := (stmtReadsAt hlast [] (depthBound tokens)).many false tokens
    (le_depthBound (Nat.le_refl _) (by decide))
  have hsound : (statements (depthBound tokens) ⟨tokens, last, []⟩).2.errors = [] →
      ∃ ss, (Clause.stmts ss).Derives False (beforeEnd tokens) := by
    intro hquiet
    unfold statements at hquiet
    generalize parseMany (depthBound tokens) false ⟨tokens, last, []⟩ = p at hreads hquiet
    cases hreads with
    | failed h => exact absurd (congrArg List.length hquiet) (Nat.ne_of_gt h)
    | @took ss us rest hts h hend =>
      refine ⟨ss, ?_⟩
      rwa [hts, beforeEnd_append h.known.noEnd (hend rfl)]
  have hcomplete : ∀ ss, (Clause.stmts ss).Derives True (beforeEnd tokens) →
      ∃ rest, statements (depthBound tokens) ⟨tokens, last, []⟩ = (ss, ⟨rest, last, []⟩) := by
    intro ss h
    obtain ⟨rest, hts, hrest⟩ := exists_beforeEnd tokens hlast []
    generalize beforeEnd tokens = us at hts h
    refine ⟨rest, ?_⟩
    unfold statements
    rw [hts, h.parses rest last [] false _ (le_depthBound (by simp) (by decide)) (.inl hrest)]
  refine ⟨⟨hsound, fun ⟨ss, hss⟩ => ?_⟩, fun hquiet => ?_, fun ss hss => ?_⟩
  · obtain ⟨ss', hss'⟩ := hss.nearest
    obtain ⟨rest, hrun⟩ := hcomplete ss' hss'
    exact congrArg (·.2.errors) hrun
  · -- any derivation has a twin with each `else` at the nearest `if`, and that one is returned
    obtain ⟨ss, hss⟩ := hsound hquiet
    obtain ⟨ss', hss'⟩ := hss.nearest
    obtain ⟨rest, hrun⟩ := hcomplete ss' hss'
    exact ⟨ss', by rw [always, hrun], hss', hss'.whole⟩
  · obtain ⟨rest, hrun⟩ := hcomplete ss hss
    rw [always, hrun]

end

/-! ## The whole grammar -/

/-- On tokens up to the first end of input, the parser accepts exactly what derives, where `_` is
`reserved` in keys or not. -/
structure ParsesExactly (reserved : Prop) (tokens : List Token) (last : Token) : Prop where
  expression : Accepts (Source.expression (depthBound tokens) ⟨tokens, last, []⟩)
    (fun e => (Phrase.level .or e).Derives (beforeEnd tokens))
    (fun e => (Phrase.level .or e).Derives (beforeEnd tokens)) Expr.Whole
  keyset : Accepts (Source.keyset (depthBound tokens) ⟨tokens, last, []⟩)
    (fun e => Keyset reserved e (beforeEnd tokens)) (fun e => Keyset reserved e (beforeEnd tokens))
    Expr.WholeKey
  statements : Accepts (always (Source.statements (depthBound tokens) ⟨tokens, last, []⟩))
    (fun ss => (Clause.stmts ss).Derives False (beforeEnd tokens))
    (fun ss => (Clause.stmts ss).Derives True (beforeEnd tokens)) WholeStmts

/-- **The parser accepts exactly its grammar.**  On every list of tokens, with an end of input
behind it, each entry of the parser records no error if and only if the tokens before the first end
of input derive, and then it returns the tree of the derivation, with no operand missing and no
name resolved.  In keys `_` is reserved for the wildcard. -/
theorem parsesExactly (tokens : List Token) {last : Token} (hlast : last.kind = .eof) :
    ParsesExactly True tokens last :=
  ⟨accepts_expression hlast, accepts_keyset hlast, accepts_statements hlast⟩

/-- The end of a text of one line. -/
def sampleEnd : Token := ⟨.eof, "", 1, 80⟩

/-- `if (a) if (b) exit; else f.g(c[7:0],);`, where the `else` has two places to go. -/
def sampleTokens : List Token :=
  [⟨.kwIf, "if", 1, 1⟩, ⟨.lparen, "(", 1, 4⟩, ⟨.ident, "a", 1, 5⟩, ⟨.rparen, ")", 1, 6⟩,
    ⟨.kwIf, "if", 1, 8⟩, ⟨.lparen, "(", 1, 11⟩, ⟨.ident, "b", 1, 12⟩, ⟨.rparen, ")", 1, 13⟩,
    ⟨.kwExit, "exit", 1, 15⟩, ⟨.semicolon, ";", 1, 19⟩, ⟨.kwElse, "else", 1, 21⟩,
    ⟨.ident, "f", 1, 26⟩, ⟨.dot, ".", 1, 27⟩, ⟨.ident, "g", 1, 28⟩, ⟨.lparen, "(", 1, 29⟩,
    ⟨.ident, "c", 1, 30⟩, ⟨.lbracket, "[", 1, 31⟩, ⟨.int, "7", 1, 32⟩, ⟨.colon, ":", 1, 33⟩,
    ⟨.int, "0", 1, 34⟩, ⟨.rbracket, "]", 1, 35⟩, ⟨.comma, ",", 1, 36⟩, ⟨.rparen, ")", 1, 37⟩,
    ⟨.semicolon, ";", 1, 38⟩]

theorem parsesExactly_sampleTokens :
    sampleEnd.kind = .eof ∧ ParsesExactly True sampleTokens sampleEnd :=
  ⟨rfl, parsesExactly sampleTokens rfl⟩

/-- `_ == 1`, which compares a name. -/
def wildcardComparison : List Token :=
  [⟨.ident, "_", 1, 1⟩, ⟨.eq, "==", 1, 3⟩, ⟨.int, "1", 1, 6⟩]

theorem derives_wildcardComparison :
    (Phrase.level .or (.binary .eq (.path "_") (.literal { value := 1 }))).Derives
      wildcardComparison := by
  have hname : (Phrase.unary (.path "_")).Derives [⟨.ident, "_", 1, 1⟩] :=
    .bare (.plain (.name (t := ⟨.ident, "_", 1, 1⟩) rfl))
  have hone : (Phrase.unary (.literal { value := 1 })).Derives [⟨.int, "1", 1, 6⟩] :=
    .bare (.plain (.literal rfl (by decide)))
  have hleft : (Phrase.level .eq (.path "_")).Derives [⟨.ident, "_", 1, 1⟩] := .operand hname
  have hboth := Phrase.Derives.joined (l := .eq) (t := ⟨.eq, "==", 1, 3⟩) hleft .eq hone
  exact .operand (l := .or) (.operand (l := .and) hboth)

/-- The wildcard ends a key, so with `_` as a name like any other more keys derive than the parser
accepts. -/
theorem not_parsesExactly_wildcardComparison :
    ¬ParsesExactly False wildcardComparison sampleEnd := by
  intro h
  have hkey : ∃ e, Keyset False e (beforeEnd wildcardComparison) :=
    ⟨_, .value derives_wildcardComparison False.elim⟩
  have hquiet := h.keyset.quiet_iff.mpr hkey
  revert hquiet
  decide

end Flowline.Source
