import Flowline.Proofs.Source.Steps
import Mathlib.Data.List.TakeWhile

/-!
# What derives, the parser accepts

On tokens that derive from a nonterminal, and with nothing behind them that could be read as a part
of them, the functions of the parser take just these tokens and return the tree of the derivation
(`Phrase.Derives.parses`, `Clause.Derives.parses`).

Loops are followed from a derivation by what they do next: where operators of a level, or suffixes,
have been read up to some point, the parser is about to look for more behind them.  Hence
`Phrase.Parses` is not the same for all nonterminals.  Levels and suffixes are related to the call of
the loop that comes next, with the calls that are left for it; the others to their result.  Otherwise
left recursion of the grammar could not be followed by a loop that goes to the right.

What may stand behind is said by the next token alone.  An operand of a level is extended by a dot, a
bracket or a parenthesis (`TokenKind.beginsSuffix`) and by operators that bind tighter than those of
the level (`Level.extendedBy`), and an `else` extends a statement that ends in an `if` without one.
The last is why derivations are taken with each `else` at the nearest `if`, as the parser reads
them.  Where the parser decides on the first token, a derivation tells what it is
(`Phrase.Derives.starts`).
-/

namespace Flowline.Source

/-! ## Types, bounds and callees -/

variable {n : Nat} {k : TokenKind} {l : Level} {type : ValueType} {e : Expr} {es : List Expr}
  {t lp rp lb rb colon last : Token} {ts us rest : List Token} {errs : List Text} {ss : List Stmt}
  {nearest : Prop} {method : Text} {target : Option Text}

theorem Sized.type_eq {width : Int64} (h : Sized width k type) :
    k ≠ .kwBool ∧ type = { width, isSigned := k = .kwInt, isVarbit := k = .kwVarbit } := by
  cases h <;> exact ⟨nofun, rfl⟩

theorem parseType_of_derives (h : DerivesType type ts) :
    parseType ⟨ts ++ rest, last, errs⟩ = (some type, ⟨rest, last, errs⟩) := by
  cases h with
  | truth ht => simp [parseType, ht]
  | sized ht hlt hw hwidth hgt =>
    obtain ⟨hbool, rfl⟩ := ht.type_eq
    rw [List.cons_append, List.cons_append, List.cons_append, List.cons_append, List.nil_append,
      parseType, ParseState.kind_cons, if_neg hbool, ParseState.advance_cons, take_cons hlt,
      andThen_some, ParseState.kind_cons, if_neg (not_not_intro hw), ParseState.current_cons, hwidth,
      ParseState.advance_cons]
    dsimp only
    rw [take_cons hgt, andThen_some]

theorem parseBound_of_isBound {bound : Int64} (h : IsBound t bound) :
    parseBound ⟨t :: rest, last, errs⟩ = (some bound, ⟨rest, last, errs⟩) := by
  obtain ⟨ht, l, hl, hvalue⟩ := h
  have hword : Numeral.isWord bound.toInt = true := by
    have hle := bound.le_toInt
    have hlt := bound.toInt_lt
    simp only [Numeral.isWord, Bool.and_eq_true, decide_eq_true_eq]
    omega
  simp [parseBound, ht, hl, hword, hvalue]

theorem parseBounds_of_isBound {h l : Token} {high low : Int64} (hhigh : IsBound h high)
    (hcolon : colon.kind = .colon) (hlow : IsBound l low) (hrb : rb.kind = .rbracket) :
    parseBounds ⟨h :: colon :: l :: rb :: rest, last, errs⟩ =
      (some (high, low), ⟨rest, last, errs⟩) := by
  rw [parseBounds, parseBound_of_isBound hhigh, andThen_some, take_cons hcolon,
    andThen_some, parseBound_of_isBound hlow, andThen_some, take_cons hrb, andThen_some]

theorem splitCallee_of_callee {p : Text} (h : Callee p target method) :
    splitCallee p = (target, method) := by
  have hall : ∀ {m : Text}, '.' ∉ m.toList → ∀ c ∈ m.toList.reverse, decide (c ≠ '.') = true := by
    intro m h c hc
    rw [decide_eq_true_eq]
    rintro rfl
    exact h (List.mem_reverse.mp hc)
  cases h with
  | plain h =>
    unfold splitCallee
    dsimp only
    rw [List.dropWhile_eq_nil_iff.mpr (hall h), List.takeWhile_eq_self_iff.mpr (hall h),
      List.reverse_reverse, String.ofList_toList]
  | @dotted target method h =>
    have hreverse : (target ++ "." ++ method).toList.reverse =
        method.toList.reverse ++ '.' :: target.toList.reverse := by
      simp [String.toList_append]
    unfold splitCallee
    dsimp only
    rw [hreverse, List.takeWhile_append_of_pos (hall h), List.dropWhile_append_of_pos (hall h)]
    simp [String.ofList_toList]

/-! ## What stands behind -/

/-- The classes of tokens that start a suffix. -/
def TokenKind.beginsSuffix : TokenKind → Bool
  | dot | lparen | lbracket => true
  | _ => false

/-- Whether a token behind an operand of a level would be read as a part of it. -/
def Level.extendedBy : Level → TokenKind → Bool
  | .or, k => (Level.and.operator? k).isSome || (Level.eq.operator? k).isSome || k.beginsSuffix
  | .and, k => (Level.eq.operator? k).isSome || k.beginsSuffix
  | .eq, k => k.beginsSuffix

theorem Joins.operator {op : BinaryOp} (h : Joins l k op) :
    l.operator? k = some op ∧ l.extendedBy k = false := by
  cases h <;> exact ⟨rfl, rfl⟩

theorem parseOperators_stop (hn : 1 ≤ n) (e : Expr)
    (h : l.operator? (⟨rest, last, errs⟩ : ParseState).kind = none) :
    parseOperators n l e ⟨rest, last, errs⟩ = (some e, ⟨rest, last, errs⟩) := by
  obtain ⟨n, rfl⟩ := Nat.exists_eq_add_of_le' hn
  rw [parseOperators, h]

theorem parseSuffixes_stop (hn : 1 ≤ n) (e : Expr)
    (h : (⟨rest, last, errs⟩ : ParseState).kind.beginsSuffix = false) :
    parseSuffixes n e ⟨rest, last, errs⟩ = (some e, ⟨rest, last, errs⟩) := by
  obtain ⟨n, rfl⟩ := Nat.exists_eq_add_of_le' hn
  rw [parseSuffixes]
  generalize ParseState.kind _ = k at h
  cases k <;> first | rfl | cases h

/-! ## Expressions -/

theorem succ_of_le {c m : Nat} (h : c + (m + 1) ≤ n) : ∃ k, n = k + 1 := ⟨n - 1, by omega⟩

/-- The parser reads the tokens of a nonterminal. -/
def Phrase.Parses : Phrase → List Token → Prop
  | .level l e, ts => ∀ rest last errs n, 16 * ts.length + l.depth ≤ n →
      l.extendedBy (⟨rest, last, errs⟩ : ParseState).kind = false →
      ∃ m, n ≤ m + 16 * ts.length + 1 ∧
        parseBinary n l ⟨ts ++ rest, last, errs⟩ = parseOperators m l e ⟨rest, last, errs⟩
  | .unary e, ts => ∀ rest last errs n, 16 * ts.length + 3 ≤ n →
      (⟨rest, last, errs⟩ : ParseState).kind.beginsSuffix = false →
      parseUnary n ⟨ts ++ rest, last, errs⟩ = (some e, ⟨rest, last, errs⟩)
  | .suffixed e, ts => ∀ rest last errs n, 16 * ts.length + 2 ≤ n →
      ∃ m, n ≤ m + 16 * ts.length + 1 ∧
        parsePostfix n ⟨ts ++ rest, last, errs⟩ = parseSuffixes m e ⟨rest, last, errs⟩
  | .primary e, ts => ∀ rest last errs n, 16 * ts.length + 1 ≤ n →
      parsePrimary n ⟨ts ++ rest, last, errs⟩ = (some e, ⟨rest, last, errs⟩)
  | .args es, ts => ∀ rest last errs n, 16 * ts.length + 10 ≤ n →
      (⟨rest, last, errs⟩ : ParseState).kind = .rparen →
      parseArgs n ⟨ts ++ rest, last, errs⟩ = (some es, ⟨rest, last, errs⟩)

theorem Level.five_le_depth (l : Level) : 5 ≤ l.depth := by
  cases l <;> decide

/-- An expression with nothing behind it that belongs to it. -/
theorem Phrase.Parses.whole (h : (Phrase.level l e).Parses ts) (hn : 16 * ts.length + l.depth ≤ n)
    (hext : l.extendedBy (⟨rest, last, errs⟩ : ParseState).kind = false)
    (hop : l.operator? (⟨rest, last, errs⟩ : ParseState).kind = none) :
    parseBinary n l ⟨ts ++ rest, last, errs⟩ = (some e, ⟨rest, last, errs⟩) := by
  obtain ⟨m, hm, hparse⟩ := h rest last errs n hn hext
  rw [hparse]
  have hdepth := l.five_le_depth
  exact parseOperators_stop (by omega) e hop

theorem Level.parses_operand (h : (l.operand e).Parses ts) (hn : 16 * ts.length + l.depth ≤ n + 1)
    (hext : l.extendedBy (⟨rest, last, errs⟩ : ParseState).kind = false) :
    parseOperand n l ⟨ts ++ rest, last, errs⟩ = (some e, ⟨rest, last, errs⟩) := by
  have hdepth := l.five_le_depth
  obtain ⟨n, rfl⟩ : ∃ m, n = m + 1 := ⟨n - 1, by omega⟩
  cases l with
  | or =>
    simp only [Level.extendedBy, Bool.or_eq_false_iff, Option.isSome_eq_false_iff,
      Option.isNone_iff_eq_none] at hext
    simp only [Level.depth] at hn
    rw [parseOperand]
    refine Phrase.Parses.whole h (by simp only [Level.depth]; omega) ?_ hext.1.1
    simp [Level.extendedBy, hext]
  | and =>
    simp only [Level.extendedBy, Bool.or_eq_false_iff, Option.isSome_eq_false_iff,
      Option.isNone_iff_eq_none] at hext
    simp only [Level.depth] at hn
    rw [parseOperand]
    exact Phrase.Parses.whole h (by simp only [Level.depth]; omega) hext.2 hext.1
  | eq =>
    simp only [Level.depth] at hn
    rw [parseOperand]
    exact h rest last errs n (by omega) hext

theorem TokenKind.of_beginsExpr (h : k.beginsExpr = true) : k.beginsType = false ∧ k ≠ .rparen := by
  cases k <;> first | decide | cases h

theorem DerivesType.starts (h : DerivesType type ts) :
    ∃ t us, ts = t :: us ∧ t.kind.beginsType = true := by
  cases h with
  | truth ht => exact ⟨_, _, rfl, by rw [ht]; rfl⟩
  | @sized t _ _ _ _ _ ht =>
    refine ⟨t, _, rfl, ?_⟩
    generalize t.kind = k at ht
    cases ht <;> rfl

/-- No cast is ahead where an expression with suffixes starts. -/
theorem parseUnary_of_starts (h : (Phrase.suffixed e).Starts ts) (n : Nat) :
    parseUnary (n + 1) ⟨ts ++ rest, last, errs⟩ = parsePostfix n ⟨ts ++ rest, last, errs⟩ := by
  obtain ⟨t, us, rfl, -, hnot, hparen⟩ := h
  rw [List.cons_append, parseUnary, ParseState.kind_cons, if_neg hnot, if_neg]
  rintro ⟨hlp, htype⟩
  obtain ⟨t', vs, rfl, ht'⟩ := hparen hlp
  rw [List.cons_append, ParseState.peekKind_cons, (TokenKind.of_beginsExpr ht').1] at htype
  cases htype

/-! ### Operators -/

section

variable {left right : Expr} {ls rs : List Token}

theorem Phrase.Parses.level (h : (l.operand e).Parses ts) : (Phrase.level l e).Parses ts := by
  intro rest last errs n hn hext
  have hdepth := l.five_le_depth
  obtain ⟨n, rfl⟩ : ∃ k, n = k + 1 := ⟨n - 1, by omega⟩
  refine ⟨n, by omega, ?_⟩
  rw [parseBinary, Level.parses_operand h hn hext, andThen_some]

theorem Phrase.Parses.joined {op : BinaryOp} (hl : (Phrase.level l left).Parses ls)
    (ht : Joins l t.kind op) (hr : (l.operand right).Parses rs) :
    (Phrase.level l (.binary op left right)).Parses (ls ++ t :: rs) := by
  intro rest last errs n hn hext
  rw [List.length_append, List.length_cons] at hn
  have hdepth := l.five_le_depth
  obtain ⟨m, hm, hparse⟩ := hl (t :: (rs ++ rest)) last errs n (by omega) ht.operator.2
  obtain ⟨m, rfl⟩ : ∃ k, m = k + 1 := ⟨m - 1, by omega⟩
  refine ⟨m, ?_, ?_⟩
  · rw [List.length_append, List.length_cons]
    omega
  · rw [List.append_assoc, List.cons_append, hparse, parseOperators, ParseState.kind_cons,
      ht.operator.1, ParseState.advance_cons]
    dsimp only
    rw [Level.parses_operand hr (by omega) hext, andThen_some]

end

/-! ### Negations and casts -/

theorem Phrase.Parses.negation (ht : t.kind = .not) (h : (Phrase.unary e).Parses ts) :
    (Phrase.unary (.negation e)).Parses (t :: ts) := by
  intro rest last errs n hn hsuffix
  rw [List.length_cons] at hn
  obtain ⟨n, rfl⟩ := succ_of_le hn
  rw [List.cons_append, parseUnary, ParseState.kind_cons, if_pos ht,
    ParseState.advance_cons, h rest last errs n (by omega) hsuffix, andThen_some]

theorem Phrase.Parses.cast (hlp : lp.kind = .lparen) (htype : DerivesType type us)
    (hrp : rp.kind = .rparen) (h : (Phrase.unary e).Parses ts) :
    (Phrase.unary (.cast type e)).Parses (lp :: (us ++ rp :: ts)) := by
  intro rest last errs n hn hsuffix
  rw [List.length_cons, List.length_append, List.length_cons] at hn
  obtain ⟨n, rfl⟩ := succ_of_le hn
  have hcast : (⟨lp :: (us ++ rp :: (ts ++ rest)), last, errs⟩ : ParseState).kind = .lparen ∧
      (⟨lp :: (us ++ rp :: (ts ++ rest)), last, errs⟩ : ParseState).peekKind.beginsType = true := by
    obtain ⟨t, vs, rfl, ht⟩ := htype.starts
    exact ⟨hlp, ht⟩
  simp only [List.cons_append, List.append_assoc]
  rw [parseUnary, if_neg (by rw [hcast.1]; decide), if_pos hcast,
    ParseState.advance_cons, parseType_of_derives htype, andThen_some, take_cons hrp, andThen_some,
    h rest last errs n (by omega) hsuffix, andThen_some]

/-- An expression with suffixes and nothing behind it that belongs to it. -/
theorem Phrase.Parses.suffixed_whole (h : (Phrase.suffixed e).Parses ts)
    (hn : 16 * ts.length + 2 ≤ n)
    (hsuffix : (⟨rest, last, errs⟩ : ParseState).kind.beginsSuffix = false) :
    parsePostfix n ⟨ts ++ rest, last, errs⟩ = (some e, ⟨rest, last, errs⟩) := by
  obtain ⟨m, hm, hparse⟩ := h rest last errs n hn
  rw [hparse, parseSuffixes_stop (by omega) e hsuffix]

theorem Phrase.Parses.bare (hstarts : (Phrase.suffixed e).Starts ts)
    (h : (Phrase.suffixed e).Parses ts) : (Phrase.unary e).Parses ts := by
  intro rest last errs n hn hsuffix
  obtain ⟨n, rfl⟩ := succ_of_le hn
  rw [parseUnary_of_starts hstarts, h.suffixed_whole (by omega) hsuffix]

/-! ### Suffixes -/

theorem Phrase.Parses.plain (h : (Phrase.primary e).Parses ts) : (Phrase.suffixed e).Parses ts := by
  intro rest last errs n hn
  obtain ⟨n, rfl⟩ := succ_of_le hn
  refine ⟨n, by omega, ?_⟩
  rw [parsePostfix, h rest last errs n (by omega), andThen_some]

/-- One more suffix.  It takes a call of its own, and its tokens leave enough for its parts. -/
theorem Phrase.Parses.suffix {e' : Expr} (h : (Phrase.suffixed e).Parses ts) (hpos : 1 ≤ us.length)
    (hstep : ∀ rest last errs m, 16 * us.length ≤ m + 1 →
      parseSuffixes (m + 1) e ⟨us ++ rest, last, errs⟩ = parseSuffixes m e' ⟨rest, last, errs⟩) :
    (Phrase.suffixed e').Parses (ts ++ us) := by
  intro rest last errs n hn
  rw [List.length_append] at hn ⊢
  obtain ⟨m, hm, hparse⟩ := h (us ++ rest) last errs n (by omega)
  obtain ⟨m, rfl⟩ : ∃ k, m = k + 1 := ⟨m - 1, by omega⟩
  refine ⟨m, by omega, ?_⟩
  rw [List.append_assoc, hparse, hstep rest last errs m (by omega)]

theorem Phrase.Parses.member {dot name : Token} (h : (Phrase.suffixed e).Parses ts)
    (hdot : dot.kind = .dot) (hname : name.kind = .ident) :
    (Phrase.suffixed (e.select name.literal)).Parses (ts ++ [dot, name]) := by
  refine h.suffix (by simp) fun rest last errs m _ => ?_
  rw [parseSuffixes]
  simp [hdot, hname]

theorem Phrase.Parses.call {p : Text} (h : (Phrase.suffixed (.path p)).Parses ts)
    (hcallee : Callee p target method) (hlp : lp.kind = .lparen)
    (hargs : (Phrase.args es).Parses us) (hrp : rp.kind = .rparen) :
    (Phrase.suffixed (.call target method es)).Parses (ts ++ lp :: (us ++ [rp])) := by
  refine h.suffix (by simp) fun rest last errs m hm => ?_
  simp only [List.length_cons, List.length_append, List.length_nil] at hm
  have hparse := hargs (rp :: rest) last errs m (by omega) hrp
  rw [parseSuffixes]
  simp [hlp, Expr.callee?, hparse, hrp, splitCallee_of_callee hcallee]

theorem Phrase.Parses.slice {high low : Int64} {h l : Token} (he : (Phrase.suffixed e).Parses ts)
    (hlb : lb.kind = .lbracket) (hhigh : IsBound h high) (hcolon : colon.kind = .colon)
    (hlow : IsBound l low) (hrb : rb.kind = .rbracket) :
    (Phrase.suffixed (.slice e high low)).Parses (ts ++ [lb, h, colon, l, rb]) := by
  refine he.suffix (by simp) fun rest last errs m _ => ?_
  rw [parseSuffixes]
  simp [hlb, parseBounds_of_isBound hhigh hcolon hlow hrb]

/-! ### Arguments and parentheses -/

/-- An expression in front of a token that ends it. -/
theorem Phrase.Parses.before (h : (Phrase.level .or e).Parses ts)
    (ht : t.kind ∈ [.rparen, .comma, .semicolon, .mask]) (hn : 16 * ts.length + 9 ≤ n) :
    parseBinary n .or ⟨ts ++ t :: rest, last, errs⟩ = (some e, ⟨t :: rest, last, errs⟩) := by
  refine Phrase.Parses.whole h hn ?_ ?_
  all_goals
    rw [ParseState.kind_cons]
    simp only [List.mem_cons, List.not_mem_nil, or_false] at ht
    rcases ht with ht | ht | ht | ht <;> rw [ht] <;> rfl

theorem Phrase.Parses.noArgs : (Phrase.args []).Parses [] := by
  intro rest last errs n hn hparen
  obtain ⟨n, rfl⟩ := succ_of_le hn
  rw [List.nil_append, parseArgs, if_pos hparen]

theorem ne_rparen_of_starts (h : (Phrase.level .or e).Starts ts) :
    (⟨ts ++ rest, last, errs⟩ : ParseState).kind ≠ .rparen := by
  obtain ⟨t, us, rfl, ht⟩ := h
  exact (TokenKind.of_beginsExpr ht).2

theorem Phrase.Parses.lastArg (hstarts : (Phrase.level .or e).Starts ts)
    (h : (Phrase.level .or e).Parses ts) : (Phrase.args [e]).Parses ts := by
  intro rest last errs n hn hparen
  obtain ⟨n, rfl⟩ := succ_of_le hn
  have hdepth : 16 * ts.length + Level.or.depth ≤ n := by
    simp only [Level.depth]
    omega
  have hparse := h.whole hdepth (by rw [hparen]; rfl) (by rw [hparen]; rfl)
  rw [parseArgs, if_neg (ne_rparen_of_starts hstarts), hparse, andThen_some,
    if_neg (by rw [hparen]; decide)]

theorem Phrase.Parses.moreArgs {comma : Token} (hstarts : (Phrase.level .or e).Starts ts)
    (h : (Phrase.level .or e).Parses ts) (hcomma : comma.kind = .comma)
    (hs : (Phrase.args es).Parses us) : (Phrase.args (e :: es)).Parses (ts ++ comma :: us) := by
  intro rest last errs n hn hparen
  rw [List.length_append, List.length_cons] at hn
  obtain ⟨n, rfl⟩ := succ_of_le hn
  rw [List.append_assoc, List.cons_append, parseArgs,
    if_neg (ne_rparen_of_starts hstarts), h.before (by simp [hcomma]) (by omega),
    andThen_some, ParseState.kind_cons, if_pos hcomma, ParseState.advance_cons,
    hs rest last errs n (by omega) hparen, andThen_some]

theorem Phrase.Parses.parens (hlp : lp.kind = .lparen) (h : (Phrase.level .or e).Parses ts)
    (hrp : rp.kind = .rparen) : (Phrase.primary e).Parses (lp :: (ts ++ [rp])) := by
  intro rest last errs n hn
  simp only [List.length_append, List.length_cons, List.length_nil] at hn
  obtain ⟨n, rfl⟩ := succ_of_le hn
  simp only [List.cons_append, List.append_assoc, List.nil_append]
  rw [parsePrimary, ParseState.kind_cons, hlp, ParseState.advance_cons]
  dsimp only
  rw [h.before (by simp [hrp]) (by omega), andThen_some, take_cons hrp, andThen_some]

theorem Phrase.Parses.single (h : ∀ n rest last errs,
      parsePrimary (n + 1) ⟨t :: rest, last, errs⟩ = (some e, ⟨rest, last, errs⟩)) :
    (Phrase.primary e).Parses [t] := by
  intro rest last errs n hn
  obtain ⟨n, rfl⟩ := succ_of_le hn
  exact h n rest last errs

/-- On what derives from a nonterminal for expressions, the parser returns its tree. -/
theorem Phrase.Derives.parses {x : Phrase} (h : x.Derives ts) : x.Parses ts := by
  induction h with
  | operand _ ih => exact .level ih
  | joined _ ht _ ihl ihr => exact ihl.joined ht ihr
  | negation ht _ ih => exact .negation ht ih
  | cast hlp htype hrp _ ih => exact .cast hlp htype hrp ih
  | bare h ih => exact .bare h.starts ih
  | plain _ ih => exact .plain ih
  | member _ hdot hname ih => exact ih.member hdot hname
  | call _ hcallee hlp _ hrp ih ihargs => exact ih.call hcallee hlp ihargs hrp
  | slice _ hlb hhigh hcolon hlow hrb ih => exact ih.slice hlb hhigh hcolon hlow hrb
  | noArgs => exact .noArgs
  | lastArg h ih => exact .lastArg h.starts ih
  | moreArgs h hcomma _ ih ihs => exact .moreArgs h.starts ih hcomma ihs
  | literal ht hl => exact .single fun _ _ _ _ => by simp [parsePrimary, ht, hl]
  | yes ht | no ht | name ht => exact .single fun _ _ _ _ => by simp [parsePrimary, ht]
  | parens hlp _ hrp ih => exact .parens hlp ih hrp

/-! ## Statements -/

/-- The parser reads the tokens of a nonterminal.  No `else` may follow a statement that would take
it. -/
def Clause.Parses : Clause → List Token → Prop
  | .stmt s, ts => ∀ rest last errs n, 16 * ts.length + 3 ≤ n →
      (s.isOpen = true → (⟨rest, last, errs⟩ : ParseState).kind ≠ .kwElse) →
      parseStatement n ⟨ts ++ rest, last, errs⟩ = (some s, ⟨rest, last, errs⟩)
  | .block ss, ts => ∀ rest last errs n, 16 * ts.length + 1 ≤ n →
      parseBlock n ⟨ts ++ rest, last, errs⟩ = (ss, ⟨rest, last, errs⟩)
  | .stmts ss, ts => ∀ rest last errs closing n, 16 * ts.length + 4 ≤ n →
      (⟨rest, last, errs⟩ : ParseState).kind = .eof ∨
        (closing = true ∧ (⟨rest, last, errs⟩ : ParseState).kind = .rbrace) →
      parseMany n closing ⟨ts ++ rest, last, errs⟩ = (ss, true, ⟨rest, last, errs⟩)
  | .cases cs, ts => ∀ rest last errs n, 16 * ts.length + 2 ≤ n →
      (⟨rest, last, errs⟩ : ParseState).kind = .rbrace →
      parseCases n ⟨ts ++ rest, last, errs⟩ = (some cs, ⟨rest, last, errs⟩)

theorem TokenKind.of_beginsStmt (h : k.beginsStmt = true) :
    k ≠ .eof ∧ k ≠ .rbrace ∧ k ≠ .kwElse := by
  cases k <;> first | decide | cases h

/-! ### Blocks and branches -/

theorem Clause.Parses.braces (h : (Clause.stmts ss).Parses ts) (hrb : rb.kind = .rbrace) :
    (Clause.block ss).Parses (lb :: (ts ++ [rb])) := by
  intro rest last errs n hn
  simp only [List.length_cons, List.length_append, List.length_nil] at hn
  obtain ⟨n, rfl⟩ := succ_of_le hn
  simp only [List.cons_append, List.append_assoc, List.nil_append]
  rw [parseBlock, ParseState.advance_cons,
    h (rb :: rest) last errs true n (by omega) (Or.inr ⟨rfl, hrb⟩)]
  simp [take, hrb]

theorem Clause.Parses.nested (hfirst : ∃ t us, ts = t :: us ∧ t.kind = .lbrace)
    (h : (Clause.block ss).Parses ts) : (Clause.stmt (.block ss)).Parses ts := by
  intro rest last errs n hn _
  obtain ⟨n, rfl⟩ := succ_of_le hn
  have hkind : (⟨ts ++ rest, last, errs⟩ : ParseState).kind = .lbrace := by
    obtain ⟨t, us, rfl, ht⟩ := hfirst
    exact ht
  rw [parseStatement, hkind]
  dsimp only
  rw [h rest last errs n (by omega), always, andThen_some]

section

variable {c : Expr} {s s' : Stmt} {kw : Token} {cs : List Token} (hlp : lp.kind = .lparen)
  (hc : (Phrase.level .or c).Derives cs) (hrp : rp.kind = .rparen)

include hlp hc hrp

theorem parseHead_of_derives (hn : 16 * cs.length + 9 ≤ n) :
    parseHead n ⟨lp :: (cs ++ rp :: rest), last, errs⟩ = (some c, ⟨rest, last, errs⟩) := by
  rw [parseHead, take_cons hlp, andThen_some, hc.parses.before (by simp [hrp]) hn,
    orMissing_some, take_cons hrp, andThen_some]

theorem parseStatement_if (hkw : kw.kind = .kwIf) (hn : 16 * cs.length + 9 ≤ n) :
    parseStatement (n + 1) ⟨kw :: lp :: (cs ++ rp :: rest), last, errs⟩ =
      andThen (parseStatement n ⟨rest, last, errs⟩) (afterThen (parseStatement n) c) := by
  rw [parseStatement, ParseState.kind_cons, hkw, ParseState.advance_cons]
  dsimp only
  rw [parseHead_of_derives hlp hc hrp hn, andThen_some]

theorem Clause.Parses.ifThen (hkw : kw.kind = .kwIf) (h : (Clause.stmt s).Parses ts) :
    (Clause.stmt (.ifThen c s)).Parses (kw :: lp :: (cs ++ rp :: ts)) := by
  intro rest last errs n hn hopen
  simp only [List.length_cons, List.length_append] at hn
  obtain ⟨n, rfl⟩ := succ_of_le hn
  have hnone := hopen rfl
  simp only [List.cons_append, List.append_assoc]
  rw [parseStatement_if hlp hc hrp hkw (by omega),
    h rest last errs n (by omega) (fun _ => hnone), andThen_some, afterThen, if_neg hnone]

theorem Clause.Parses.ifElse {alt : Token} (hkw : kw.kind = .kwIf) (h : (Clause.stmt s).Parses ts)
    (hclosed : s.isOpen = false) (halt : alt.kind = .kwElse) (h' : (Clause.stmt s').Parses us) :
    (Clause.stmt (.ifElse c s s')).Parses (kw :: lp :: (cs ++ rp :: (ts ++ alt :: us))) := by
  intro rest last errs n hn hopen
  simp only [List.length_cons, List.length_append] at hn
  obtain ⟨n, rfl⟩ := succ_of_le hn
  simp only [List.cons_append, List.append_assoc]
  rw [parseStatement_if hlp hc hrp hkw (by omega),
    h (alt :: (us ++ rest)) last errs n (by omega) (by simp [hclosed]), andThen_some,
    afterThen, ParseState.kind_cons, if_pos halt, ParseState.advance_cons,
    h' rest last errs n (by omega) hopen, andThen_some]

theorem Clause.Parses.switch {arms : List Case} (hkw : kw.kind = .kwSwitch) (hlb : lb.kind = .lbrace)
    (h : (Clause.cases arms).Parses ts) (hrb : rb.kind = .rbrace) :
    (Clause.stmt (.switch c arms)).Parses (kw :: lp :: (cs ++ rp :: lb :: (ts ++ [rb]))) := by
  intro rest last errs n hn _
  simp only [List.length_cons, List.length_append, List.length_nil] at hn
  obtain ⟨n, rfl⟩ := succ_of_le hn
  simp only [List.cons_append, List.append_assoc, List.nil_append]
  rw [parseStatement, ParseState.kind_cons, hkw, ParseState.advance_cons]
  dsimp only
  rw [parseHead_of_derives hlp hc hrp (by omega), andThen_some, afterSubject,
    ParseState.kind_cons, if_neg (not_not_intro hlb), ParseState.advance_cons,
    h (rb :: rest) last errs n (by omega) hrb, andThen_some, take_cons hrb, andThen_some]

end

/-! ### Assignments and calls -/

section

variable {semi : Token} {ls : List Token} (hfirst : ls.head?.map Token.kind = some .ident)

include hfirst

theorem parseStatement_ident (n : Nat) :
    parseStatement (n + 1) ⟨ls ++ rest, last, errs⟩ =
      parseAssignOrCall n ⟨ls ++ rest, last, errs⟩ := by
  obtain ⟨t, us, rfl, ht⟩ := cons_of_head hfirst
  rw [List.cons_append, parseStatement, ParseState.kind_cons, ht]

theorem Clause.Parses.assign {left right : Expr} {eq : Token} {rs : List Token}
    (hl : (Phrase.suffixed left).Derives ls) (heq : eq.kind = .assign)
    (hr : (Phrase.level .or right).Derives rs) (hsemi : semi.kind = .semicolon) :
    (Clause.stmt (.assign left right)).Parses (ls ++ eq :: (rs ++ [semi])) := by
  intro rest last errs n hn _
  simp only [List.length_cons, List.length_append, List.length_nil] at hn
  obtain ⟨n, rfl⟩ := succ_of_le hn
  have hsuffix : (⟨eq :: (rs ++ semi :: rest), last, errs⟩ : ParseState).kind.beginsSuffix =
      false := by
    rw [ParseState.kind_cons, heq]
    rfl
  simp only [List.cons_append, List.append_assoc, List.nil_append]
  rw [parseStatement_ident hfirst, parseAssignOrCall,
    hl.parses.suffixed_whole (by omega) hsuffix, andThen_some, ParseState.kind_cons, if_pos heq,
    ParseState.advance_cons, hr.parses.before (by simp [hsemi]) (by omega), orMissing_some,
    take_cons hsemi, andThen_some]

theorem Clause.Parses.call (hl : (Phrase.suffixed (.call target method es)).Derives ls)
    (hsemi : semi.kind = .semicolon) :
    (Clause.stmt (.call target method es)).Parses (ls ++ [semi]) := by
  intro rest last errs n hn _
  simp only [List.length_cons, List.length_append, List.length_nil] at hn
  obtain ⟨n, rfl⟩ := succ_of_le hn
  have hsuffix : (⟨semi :: rest, last, errs⟩ : ParseState).kind.beginsSuffix = false := by
    rw [ParseState.kind_cons, hsemi]
    rfl
  simp only [List.cons_append, List.append_assoc, List.nil_append]
  rw [parseStatement_ident hfirst, parseAssignOrCall,
    hl.parses.suffixed_whole (by omega) hsuffix, andThen_some, ParseState.kind_cons,
    if_neg (by rw [hsemi]; decide)]
  dsimp only
  rw [take_cons hsemi, andThen_some]

end

/-! ### Lists of statements and cases -/

theorem Clause.Parses.nil : (Clause.stmts []).Parses [] := by
  intro rest last errs closing n hn hend
  obtain ⟨n, rfl⟩ := succ_of_le hn
  rw [List.nil_append, parseMany, if_pos hend]

theorem ne_else_of_stmts (h : (Clause.stmts ss).Derives nearest us)
    (hrest : (⟨rest, last, errs⟩ : ParseState).kind ≠ .kwElse) :
    (⟨us ++ rest, last, errs⟩ : ParseState).kind ≠ .kwElse := by
  cases h with
  | nil => exact hrest
  | cons h =>
    obtain ⟨t, us, rfl, ht⟩ := h.starts
    exact (TokenKind.of_beginsStmt ht).2.2

theorem Clause.Parses.cons {s : Stmt} (hts : (Clause.stmt s).Derives nearest ts)
    (hus : (Clause.stmts ss).Derives nearest us) (h : (Clause.stmt s).Parses ts)
    (hs : (Clause.stmts ss).Parses us) : (Clause.stmts (s :: ss)).Parses (ts ++ us) := by
  intro rest last errs closing n hn hend
  obtain ⟨t, vs, rfl, ht⟩ := hts.starts
  rw [List.length_append, List.length_cons] at hn
  obtain ⟨n, rfl⟩ := succ_of_le hn
  have hnot : (⟨rest, last, errs⟩ : ParseState).kind ≠ .kwElse := by
    rcases hend with hend | ⟨-, hend⟩ <;> rw [hend] <;> nofun
  have hgo : ¬(t.kind = .eof ∨ closing = true ∧ t.kind = .rbrace) := by
    obtain ⟨heof, hbrace, -⟩ := TokenKind.of_beginsStmt ht
    rintro (h | ⟨-, h⟩)
    · exact heof h
    · exact hbrace h
  have hstmt := h (us ++ rest) last errs n (by rw [List.length_cons]; omega) fun _ =>
    ne_else_of_stmts hus hnot
  rw [List.append_assoc]
  rw [List.cons_append] at hstmt ⊢
  rw [parseMany, ParseState.kind_cons, if_neg hgo, hstmt]
  dsimp only
  rw [if_neg (Nat.lt_irrefl _), hs rest last errs closing n (by omega) hend]
  rfl

theorem Clause.Parses.noCases : (Clause.cases []).Parses [] := by
  intro rest last errs n hn hbrace
  obtain ⟨n, rfl⟩ := succ_of_le hn
  rw [List.nil_append, parseCases, if_pos (Or.inr hbrace)]

/-- Behind a label and a colon the parser goes on with the body, if there is one. -/
theorem parseCases_label {label : Text} (ht : IsLabel t label) (hcolon : colon.kind = .colon)
    (n : Nat) :
    parseCases (n + 1) ⟨t :: colon :: rest, last, errs⟩ =
      afterLabel (parseBlock n) (parseCases n) label ⟨rest, last, errs⟩ := by
  have hlabel : (t.kind = .ident ∨ t.kind = .kwDefault) ∧
      (if t.kind = .ident then t.literal else "default") = label := by
    cases ht with
    | name ht => exact ⟨Or.inl ht, if_pos ht⟩
    | default ht => exact ⟨Or.inr ht, if_neg (by rw [ht]; decide)⟩
  have hgo : ¬(t.kind = .eof ∨ t.kind = .rbrace) := by
    rcases hlabel.1 with h | h <;> rw [h] <;> nofun
  rw [parseCases, ParseState.kind_cons, if_neg hgo, if_pos hlabel.1, ParseState.advance_cons,
    take_cons hcolon, andThen_some, ParseState.current_cons, hlabel.2]

theorem ne_lbrace_of_cases {cs : List Case} (h : (Clause.cases cs).Derives nearest us)
    (hrest : (⟨rest, last, errs⟩ : ParseState).kind = .rbrace) :
    (⟨us ++ rest, last, errs⟩ : ParseState).kind ≠ .lbrace := by
  have hlabel : ∀ {t : Token} {label : Text}, IsLabel t label → t.kind ≠ .lbrace := by
    rintro t label (ht | ht) <;> rw [ht] <;> nofun
  cases h with
  | noCases =>
    rw [List.nil_append, hrest]
    nofun
  | bare ht | arm ht => exact hlabel ht

section

variable {label : Text} {cs : List Case} {t colon : Token} {ts us : List Token}

theorem Clause.Parses.bare (ht : IsLabel t label) (hcolon : colon.kind = .colon)
    (hts : (Clause.cases cs).Derives nearest ts) (h : (Clause.cases cs).Parses ts) :
    (Clause.cases (.bare label :: cs)).Parses (t :: colon :: ts) := by
  intro rest last errs n hn hbrace
  simp only [List.length_cons] at hn
  obtain ⟨n, rfl⟩ := succ_of_le hn
  rw [List.cons_append, List.cons_append, parseCases_label ht hcolon, afterLabel,
    if_neg (ne_lbrace_of_cases hts hbrace), h rest last errs n (by omega) hbrace, andThen_some]

theorem Clause.Parses.arm {body : List Stmt} (ht : IsLabel t label) (hcolon : colon.kind = .colon)
    (hfirst : ∃ t us, ts = t :: us ∧ t.kind = .lbrace) (h : (Clause.block body).Parses ts)
    (hs : (Clause.cases cs).Parses us) :
    (Clause.cases (.arm label body :: cs)).Parses (t :: colon :: (ts ++ us)) := by
  intro rest last errs n hn hbrace
  simp only [List.length_cons, List.length_append] at hn
  obtain ⟨n, rfl⟩ := succ_of_le hn
  have hkind : (⟨ts ++ (us ++ rest), last, errs⟩ : ParseState).kind = .lbrace := by
    obtain ⟨t, us, rfl, ht⟩ := hfirst
    exact ht
  rw [List.cons_append, List.cons_append, List.append_assoc, parseCases_label ht hcolon, afterLabel,
    if_pos hkind, h (us ++ rest) last errs n (by omega), always, andThen_some,
    hs rest last errs n (by omega) hbrace, andThen_some]

end

/-- On what derives from a nonterminal for statements, with each `else` at the nearest `if`, the
parser returns its tree. -/
theorem Clause.Derives.parses {x : Clause} (h : x.Derives True ts) : x.Parses ts := by
  induction h with
  | braces _ _ hrb ih => exact ih.braces hrb
  | nested h ih => exact .nested h.block_starts ih
  | ifThen hkw hlp hc hrp _ ih => exact .ifThen hlp hc hrp hkw ih
  | ifElse hkw hlp hc hrp _ hclosed halt _ ih ih' =>
    exact .ifElse hlp hc hrp hkw ih (hclosed trivial) halt ih'
  | switch hkw hlp hx hrp hlb _ hrb ih => exact .switch hlp hx hrp hkw hlb ih hrb
  | exit hkw hsemi | ret hkw hsemi =>
    intro rest last errs n hn _
    obtain ⟨n, rfl⟩ := succ_of_le hn
    simp [parseStatement, hkw, hsemi]
  | empty hsemi =>
    intro rest last errs n hn _
    obtain ⟨n, rfl⟩ := succ_of_le hn
    simp [parseStatement, hsemi]
  | assign hfirst hl heq hr hsemi => exact .assign hfirst hl heq hr hsemi
  | call hfirst hl hsemi => exact .call hfirst hl hsemi
  | nil => exact .nil
  | cons h hs ih ihs => exact .cons h hs ih ihs
  | noCases => exact .noCases
  | bare ht hcolon h ih => exact .bare ht hcolon h ih
  | arm ht hcolon h _ ih ihs => exact .arm ht hcolon h.block_starts ih ihs

end Flowline.Source
