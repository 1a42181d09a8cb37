import Flowline.Proofs.Source.Parsing
import Flowline.Proofs.Source.Relexing

/-!
# Parsing a text

A text is cut into tokens, and the parser runs on those.  So a text that is read without an error
has tokens that derive, and a text whose tokens derive is read without an error, unless it breaks
off before its end.
-/

namespace Flowline.Source

variable {input : Text} {α : Type}

theorem kind_last_scan (input : Text) : (scan input).last.kind = .eof := by
  unfold scan
  generalize input.length + 1 = n
  generalize Cursor.start input.toList = c
  induction n generalizing c with
  | zero => rfl
  | succ n ih =>
    rw [scanFrom]
    split
    · rfl
    · rfl
    · exact ih _

/-- A parser on the tokens of a text. -/
def runOn (parse : Nat → ParseState → α × ParseState) (input : Text) : α × ParseState :=
  parse (depthBound (scan input).tokens) ⟨(scan input).tokens, (scan input).last, []⟩

/-- What is read of a text, if it can be read at all. -/
theorem parseText_eq_ok {parse : Nat → ParseState → α × ParseState} {p : Parsed α}
    (h : parseText parse input = .ok p) :
    p.tree = (runOn parse input).1 ∧ p.errors = (runOn parse input).2.errors := by
  unfold parseText at h
  dsimp only at h
  split at h
  · split at h <;> cases h
    exact ⟨rfl, rfl⟩
  · cases h
    exact ⟨rfl, rfl⟩

/-- A text that does not break off can be read. -/
theorem parseText_of_whole (parse : Nat → ParseState → α × ParseState)
    (h : (scan input).fault = none) :
    parseText parse input = .ok ⟨(runOn parse input).1, (runOn parse input).2.errors⟩ := by
  unfold parseText
  dsimp only
  rw [h]
  rfl

/-- The tokens of a text, up to the first end of input. -/
def tokensOf (input : Text) : List Token := beforeEnd (scan input).tokens

theorem isRead_tokensOf (input : Text) : ∀ t ∈ tokensOf input, t.IsRead := by
  intro t ht
  exact isRead_scanFrom _ _ t ((List.takeWhile_prefix _).subset ht)

theorem accepts_runOn_statements (input : Text) :
    Accepts (always (runOn statements input))
      (fun ss => (Clause.stmts ss).Derives False (tokensOf input))
      (fun ss => (Clause.stmts ss).Derives True (tokensOf input)) WholeStmts :=
  accepts_statements (kind_last_scan input)

theorem accepts_runOn_expression (input : Text) :
    Accepts (runOn expression input) (fun e => (Phrase.level .or e).Derives (tokensOf input))
      (fun e => (Phrase.level .or e).Derives (tokensOf input)) Expr.Whole :=
  accepts_expression (kind_last_scan input)

theorem accepts_runOn_keyset (input : Text) :
    Accepts (runOn keyset input) (fun e => Keyset True e (tokensOf input))
      (fun e => Keyset True e (tokensOf input)) Expr.WholeKey :=
  accepts_keyset (kind_last_scan input)

theorem derives_of_parseStatements {p : Parsed (List Stmt)} (h : parseStatements input = .ok p)
    (hquiet : p.errors = []) : (Clause.stmts p.tree).Derives True (tokensOf input) := by
  obtain ⟨htree, herrors⟩ := parseText_eq_ok h
  have haccepts := accepts_runOn_statements input
  obtain ⟨ss, hss, hderives, -⟩ := haccepts.tree (herrors.symm.trans hquiet)
  rw [htree, Option.some.inj hss]
  exact hderives

theorem derives_of_parseExpression {p : Parsed (Option Expr)} (h : parseExpression input = .ok p)
    (hquiet : p.errors = []) :
    ∃ e, p.tree = some e ∧ (Phrase.level .or e).Derives (tokensOf input) := by
  obtain ⟨htree, herrors⟩ := parseText_eq_ok h
  have haccepts := accepts_runOn_expression input
  obtain ⟨e, hrun, hderives, -⟩ := haccepts.tree (herrors.symm.trans hquiet)
  exact ⟨e, htree.trans hrun, hderives⟩

theorem derives_of_parseKeyset {p : Parsed (Option Expr)} (h : parseKeyset input = .ok p)
    (hquiet : p.errors = []) : ∃ e, p.tree = some e ∧ Keyset True e (tokensOf input) := by
  obtain ⟨htree, herrors⟩ := parseText_eq_ok h
  have haccepts := accepts_runOn_keyset input
  obtain ⟨e, hrun, hderives, -⟩ := haccepts.tree (herrors.symm.trans hquiet)
  exact ⟨e, htree.trans hrun, hderives⟩

/-- A text that does not break off and whose tokens derive statements is read as these. -/
theorem parseStatements_of_derives {ss : List Stmt} (hfault : (scan input).fault = none)
    (h : (Clause.stmts ss).Derives True (tokensOf input)) :
    parseStatements input = .ok ⟨ss, []⟩ := by
  have haccepts := accepts_runOn_statements input
  have htree : (runOn statements input).1 = ss := Option.some.inj (haccepts.unique ss h)
  have hquiet : (runOn statements input).2.errors = [] :=
    haccepts.quiet_iff.mpr ⟨ss, h.imp False.elim⟩
  rw [parseStatements, parseText_of_whole statements hfault, htree, hquiet]

/-- A text that does not break off and whose tokens derive an expression is read as this. -/
theorem parseExpression_of_derives {e : Expr} (hfault : (scan input).fault = none)
    (h : (Phrase.level .or e).Derives (tokensOf input)) :
    parseExpression input = .ok ⟨some e, []⟩ := by
  have haccepts := accepts_runOn_expression input
  have htree : (runOn expression input).1 = some e := haccepts.unique e h
  have hquiet : (runOn expression input).2.errors = [] := haccepts.quiet_iff.mpr ⟨e, h⟩
  rw [parseExpression, parseText_of_whole expression hfault, htree, hquiet]

end Flowline.Source
