import Flowline.Proofs.Source.Steps

/-!
# What the parser accepts, derives

Each function takes tokens that derive from its nonterminal, with the tree that it returns, or it
records an error (`Reads`).  Functions for expressions are strict: behind an error they return nothing
(`ReadsAt`).  Functions for statements may go on with a tree that has a hole, but do not take the
error back (`StmtReadsAt`).

The parser is a family of functions that call each other, with a number that bounds the depth of
calls.  The two structures have a field for each function, and say what it does with such a number at
hand; the proofs are one step lemma for each function (`ReadsAt.binary_succ` and its like), from all
fields at one number to one field at the next.

Sixteen calls for each token to go, and some for calls that take no token, are always enough.  No
token is taken between one level of operators and the next, and the deepest descent, from arguments
down to a primary expression, is shorter than sixteen.  The fields differ in what they add, so that
each function can afford the calls in front of its first token.

What a function does behind tokens that were taken is put together by `Reads.andThen`, `Reads.goOn`
and `Reads.orMissing`, one for each way in which the parser goes on: only behind a success, behind an
error too, or with a hole for an operand that is missing.  The last two need that errors are never
taken back (`Grows`).
-/

namespace Flowline.Source

/-! ## Steps that read -/

/-- A step takes tokens that derive from its result, or it records an error.  A strict step has no
result then. -/
inductive Reads {α : Type} (strict : Prop) (last : Token) (errs : List Text)
    (D : α → List Token → Prop) (ts : List Token) : Option α × ParseState → Prop
  | took {a : α} {us rest : List Token} (hts : ts = us ++ rest) (h : D a us) :
      Reads strict last errs D ts (some a, ⟨rest, last, errs⟩)
  | failed {a : Option α} {s : ParseState} (h : errs.length < s.errors.length)
      (hnone : strict → a = none) : Reads strict last errs D ts (a, s)

variable {k : TokenKind} {t : Token}

section

variable {α β : Type} {strict : Prop} {last : Token} {errs : List Text} {ts : List Token}
  {D : α → List Token → Prop} {E : β → List Token → Prop}

theorem reads_pure {b : β} (h : E b []) : Reads strict last errs E ts (some b, ⟨ts, last, errs⟩) :=
  .took rfl h

theorem reads_fail (us : List Token) (reason : Text) :
    Reads strict last errs E ts (none, (⟨us, last, errs⟩ : ParseState).fail reason) := by
  refine .failed ?_ fun _ => rfl
  rw [ParseState.length_errors_fail]
  exact Nat.lt_succ_self _

theorem Reads.imp {D' : α → List Token → Prop} {p : Option α × ParseState}
    (h : Reads strict last errs D ts p) (himp : ∀ a us, D a us → D' a us) :
    Reads strict last errs D' ts p := by
  cases h with
  | took hts h => exact .took hts (himp _ _ h)
  | failed h hnone => exact .failed h hnone

theorem Reads.append {us rest : List Token} {p : Option β × ParseState}
    (h : Reads strict last errs (fun b vs => E b (us ++ vs)) rest p) :
    Reads strict last errs E (us ++ rest) p := by
  cases h with
  | took hrest h => exact .took (by rw [hrest, List.append_assoc]) h
  | failed h hnone => exact .failed h hnone

theorem reads_cons {p : Option β × ParseState}
    (h : Reads strict last errs (fun b us => E b (t :: us)) ts p) :
    Reads strict last errs E (t :: ts) p :=
  show Reads strict last errs E ([t] ++ ts) p from h.append

section

variable {c : α → ParseState → Option β × ParseState} {p : Option α × ParseState}

theorem Reads.andThen (hp : Reads True last errs D ts p)
    (h : ∀ a us rest, ts = us ++ rest → D a us →
      Reads strict last errs (fun b vs => E b (us ++ vs)) rest (c a ⟨rest, last, errs⟩)) :
    Reads strict last errs E ts (andThen p c) := by
  cases hp with
  | failed hp hnone =>
    cases hnone trivial
    exact .failed hp fun _ => rfl
  | took hts ha =>
    subst hts
    exact (h _ _ _ rfl ha).append

/-- What goes on behind an error must not take it back. -/
theorem Reads.goOn (hp : Reads False last errs D ts p) (hc : ∀ a t, Grows t (c a t))
    (h : ∀ a us rest, ts = us ++ rest → D a us →
      Reads False last errs (fun b vs => E b (us ++ vs)) rest (c a ⟨rest, last, errs⟩)) :
    Reads False last errs E ts (Source.andThen p c) := by
  cases hp with
  | @failed a s hp =>
    cases a with
    | none => exact .failed hp False.elim
    | some a => exact .failed (Nat.lt_of_lt_of_le hp (hc a s)) False.elim
  | took hts ha =>
    subst hts
    exact (h _ _ _ rfl ha).append

end

/-- Behind an expression that is missing, reading goes on. -/
theorem Reads.orMissing {D : Expr → List Token → Prop} {p : Option Expr × ParseState}
    {c : Expr → ParseState → Option β × ParseState} (hp : Reads True last errs D ts p)
    (hc : ∀ e t, Grows t (c e t))
    (h : ∀ e us rest, ts = us ++ rest → D e us →
      Reads False last errs (fun b vs => E b (us ++ vs)) rest (c e ⟨rest, last, errs⟩)) :
    Reads False last errs E ts (Source.orMissing p c) := by
  cases hp with
  | failed hp hnone =>
    cases hnone trivial
    exact .failed (Nat.lt_of_lt_of_le hp (hc _ _)) False.elim
  | took hts ha =>
    subst hts
    exact (h _ _ _ rfl ha).append

theorem reads_take (hlast : last.kind = .eof) (hk : k ≠ .eof) :
    Reads strict last errs (fun t us => us = [t] ∧ t.kind = k) ts (take k ⟨ts, last, errs⟩) := by
  unfold take
  by_cases hkind : (⟨ts, last, errs⟩ : ParseState).kind = k
  · rw [if_pos hkind]
    cases ts with
    | nil => exact absurd (hkind.symm.trans hlast) hk
    | cons t rest => exact reads_cons (reads_pure ⟨rfl, hkind⟩)
  · rw [if_neg hkind]
    exact reads_fail _ _

theorem reads_take_andThen {c : Token → ParseState → Option β × ParseState}
    (hlast : last.kind = .eof) (h : ∀ t rest, ts = t :: rest → t.kind = k →
      Reads strict last errs (fun b us => E b (t :: us)) rest (c t ⟨rest, last, errs⟩))
    (hk : k ≠ .eof := by decide) :
    Reads strict last errs E ts (andThen (take k ⟨ts, last, errs⟩) c) := by
  refine (reads_take hlast hk).andThen ?_
  rintro t _ rest hts ⟨rfl, ht⟩
  exact h t rest hts ht

end

/-! ## Types and bounds -/

theorem sized_of_beginsType (h : k.beginsType = true) (hbool : k ≠ .kwBool) (width : Int64) :
    Sized width k { width, isSigned := k = .kwInt, isVarbit := k = .kwVarbit } := by
  cases k with
  | kwBit => exact .bit
  | kwInt => exact .int
  | kwVarbit => exact .varbit
  | kwBool => exact absurd rfl hbool
  | _ => cases h

section

variable {last : Token} {errs : List Text} (hlast : last.kind = .eof)

include hlast

/-- The class of a token to be read is that of a token, unless the text has ended. -/
theorem cons_of_kind {ts : List Token} (h : (⟨ts, last, errs⟩ : ParseState).kind = k)
    (hk : k ≠ .eof := by decide) : ∃ t rest, ts = t :: rest ∧ t.kind = k := by
  cases ts with
  | nil => exact absurd (h.symm.trans hlast) hk
  | cons t rest => exact ⟨t, rest, rfl, h⟩

theorem reads_parseType (ht : t.kind.beginsType = true) (ts : List Token) :
    Reads True last errs DerivesType (t :: ts) (parseType ⟨t :: ts, last, errs⟩) := by
  rw [parseType, ParseState.kind_cons, ParseState.advance_cons]
  refine reads_cons ?_
  by_cases hbool : t.kind = .kwBool
  · rw [if_pos hbool]
    exact reads_pure (.truth hbool)
  · rw [if_neg hbool]
    refine reads_take_andThen hlast fun lt rest _ hlt => ?_
    by_cases hint : (⟨rest, last, errs⟩ : ParseState).kind = .int
    · obtain ⟨w, rest, rfl, hw⟩ := cons_of_kind hlast hint
      rw [if_neg (not_not_intro hint), ParseState.current_cons, ParseState.advance_cons]
      split
      · exact reads_fail _ _
      · next width hwidth =>
        refine reads_cons (reads_take_andThen hlast fun gt rest _ hgt => reads_pure ?_)
        exact .sized (sized_of_beginsType ht hbool width) hlt hw hwidth hgt
    · rw [if_pos hint]
      exact reads_fail _ _

theorem reads_parseBound (ts : List Token) :
    Reads True last errs (fun b us => ∃ t, us = [t] ∧ IsBound t b) ts
      (parseBound ⟨ts, last, errs⟩) := by
  unfold parseBound
  by_cases hint : (⟨ts, last, errs⟩ : ParseState).kind = .int
  · obtain ⟨t, ts, rfl, ht⟩ := cons_of_kind hlast hint
    rw [if_neg (not_not_intro hint), ParseState.current_cons, ParseState.advance_cons]
    split
    · next l hl =>
      split
      · next hword =>
        refine reads_cons (reads_pure ⟨t, rfl, ht, l, hl, ?_⟩)
        simp only [Numeral.isWord, Bool.and_eq_true, decide_eq_true_eq] at hword
        exact (Int64.toInt_ofInt_of_le (by omega) (by omega)).symm
      · exact reads_fail _ _
    · exact reads_fail _ _
  · rw [if_pos hint]
    exact reads_fail _ _

theorem reads_parseBounds (ts : List Token) :
    Reads True last errs (fun b us => ∃ h colon l rb, us = [h, colon, l, rb] ∧ IsBound h b.1 ∧
      colon.kind = .colon ∧ IsBound l b.2 ∧ rb.kind = .rbracket) ts
      (parseBounds ⟨ts, last, errs⟩) := by
  rw [parseBounds]
  refine (reads_parseBound hlast ts).andThen ?_
  rintro high _ rest rfl ⟨h, rfl, hhigh⟩
  refine reads_take_andThen hlast fun colon rest _ hcolon =>
    (reads_parseBound hlast rest).andThen ?_
  rintro low _ rest rfl ⟨l, rfl, hlow⟩
  refine reads_take_andThen hlast fun rb rest _ hrb => reads_pure ?_
  exact ⟨h, colon, l, rb, rfl, hhigh, hcolon, hlow, hrb⟩

end

/-! ## Expressions -/

/-- What the functions for expressions read, at some depth of calls. -/
structure ReadsAt (last : Token) (errs : List Text) (n : Nat) : Prop where
  binary : ∀ l ts, 16 * ts.length + l.depth ≤ n →
    Reads True last errs (fun e => (Phrase.level l e).Derives) ts (parseBinary n l ⟨ts, last, errs⟩)
  operators : ∀ l left ls ts, (Phrase.level l left).Derives ls → 16 * ts.length + 1 ≤ n →
    Reads True last errs (fun e us => (Phrase.level l e).Derives (ls ++ us)) ts
      (parseOperators n l left ⟨ts, last, errs⟩)
  operand : ∀ l ts, 16 * ts.length + l.depth ≤ n + 1 →
    Reads True last errs (fun e => (l.operand e).Derives) ts (parseOperand n l ⟨ts, last, errs⟩)
  unary : ∀ ts, 16 * ts.length + 3 ≤ n →
    Reads True last errs (fun e => (Phrase.unary e).Derives) ts (parseUnary n ⟨ts, last, errs⟩)
  suffixed : ∀ ts, 16 * ts.length + 2 ≤ n →
    Reads True last errs (fun e => (Phrase.suffixed e).Derives) ts (parsePostfix n ⟨ts, last, errs⟩)
  suffixes : ∀ e es ts, (Phrase.suffixed e).Derives es → 16 * ts.length + 1 ≤ n →
    Reads True last errs (fun e' us => (Phrase.suffixed e').Derives (es ++ us)) ts
      (parseSuffixes n e ⟨ts, last, errs⟩)
  args : ∀ ts, 16 * ts.length + 10 ≤ n →
    Reads True last errs (fun es => (Phrase.args es).Derives) ts (parseArgs n ⟨ts, last, errs⟩)
  primary : ∀ ts, 16 * ts.length + 1 ≤ n →
    Reads True last errs (fun e => (Phrase.primary e).Derives) ts (parsePrimary n ⟨ts, last, errs⟩)

theorem joins_of_operator {l : Level} {op : BinaryOp} (h : l.operator? k = some op) :
    Joins l k op := by
  unfold Level.operator? at h
  split at h
  · cases h
    exact .or
  · cases h
    exact .and
  · cases h
    exact .eq
  · cases h
    exact .ne
  · cases h

theorem callee_splitCallee (name : Text) : Callee name (splitCallee name).1 (splitCallee name).2 := by
  have hsplit := List.takeWhile_append_dropWhile (p := fun c => decide (c ≠ '.'))
    (l := name.toList.reverse)
  unfold splitCallee
  dsimp only
  generalize hmethod : name.toList.reverse.takeWhile (fun c => decide (c ≠ '.')) = method at hsplit ⊢
  have hdot : '.' ∉ (String.ofList method.reverse).toList := by
    rw [String.toList_ofList, List.mem_reverse, ← hmethod]
    exact fun hmem => absurd (List.all_eq_true.mp List.all_takeWhile _ hmem) (by decide)
  split
  · next hnone =>
    rw [hnone, List.append_nil] at hsplit
    have hname : name = String.ofList method.reverse := by
      rw [hsplit, List.reverse_reverse, String.ofList_toList]
    rw [hname]
    exact .plain hdot
  · next c target hsome =>
    rw [hsome] at hsplit
    have hc : c = '.' := by
      have hhead := List.head?_dropWhile_not (fun c => decide (c ≠ '.')) name.toList.reverse
      rw [hsome] at hhead
      simpa using hhead
    have hname : name = String.ofList target.reverse ++ "." ++ String.ofList method.reverse := by
      rw [← String.toList_inj, String.toList_append, String.toList_append, String.toList_ofList,
        String.toList_ofList, ← List.reverse_reverse name.toList, ← hsplit, hc]
      simp
    rw [hname]
    exact .dotted hdot

section

variable {last : Token} {errs : List Text} {n : Nat} (ih : ReadsAt last errs n)

include ih

theorem ReadsAt.binary_succ (l : Level) (ts : List Token) (hn : 16 * ts.length + l.depth ≤ n + 1) :
    Reads True last errs (fun e => (Phrase.level l e).Derives) ts
      (parseBinary (n + 1) l ⟨ts, last, errs⟩) := by
  rw [parseBinary]
  refine (ih.operand l ts hn).andThen ?_
  rintro left us rest rfl hleft
  refine ih.operators l left us rest (.operand hleft) ?_
  rw [List.length_append] at hn
  cases l <;> simp only [Level.depth] at hn <;> omega

theorem ReadsAt.operand_succ (l : Level) (ts : List Token)
    (hn : 16 * ts.length + l.depth ≤ n + 1 + 1) :
    Reads True last errs (fun e => (l.operand e).Derives) ts
      (parseOperand (n + 1) l ⟨ts, last, errs⟩) := by
  cases l with
  | or => exact ih.binary .and ts (by simp only [Level.depth] at hn ⊢; omega)
  | and => exact ih.binary .eq ts (by simp only [Level.depth] at hn ⊢; omega)
  | eq => exact ih.unary ts (by simp only [Level.depth] at hn; omega)

theorem ReadsAt.suffixed_succ (ts : List Token) (hn : 16 * ts.length + 2 ≤ n + 1) :
    Reads True last errs (fun e => (Phrase.suffixed e).Derives) ts
      (parsePostfix (n + 1) ⟨ts, last, errs⟩) := by
  rw [parsePostfix]
  refine (ih.primary ts (by omega)).andThen ?_
  rintro e us rest rfl he
  rw [List.length_append] at hn
  exact ih.suffixes e us rest (.plain he) (by omega)

variable (hlast : last.kind = .eof)

include hlast

theorem ReadsAt.operators_succ (l : Level) (left : Expr) (ls ts : List Token)
    (hleft : (Phrase.level l left).Derives ls) (hn : 16 * ts.length + 1 ≤ n + 1) :
    Reads True last errs (fun e us => (Phrase.level l e).Derives (ls ++ us)) ts
      (parseOperators (n + 1) l left ⟨ts, last, errs⟩) := by
  rw [parseOperators]
  split
  · exact reads_pure (by rwa [List.append_nil])
  · next op hop =>
    have hjoins := joins_of_operator hop
    obtain ⟨t, ts, rfl, ht⟩ := cons_of_kind hlast rfl (by rintro h; rw [h] at hjoins; cases hjoins)
    rw [ParseState.kind_cons] at hjoins
    rw [ParseState.advance_cons]
    rw [List.length_cons] at hn
    refine reads_cons ((ih.operand l ts ?_).andThen ?_)
    · cases l <;> simp only [Level.depth] <;> omega
    · rintro right us rest rfl hright
      have hboth := ih.operators l _ _ rest (.joined hleft hjoins hright) ?_
      · simpa using hboth
      · rw [List.length_append] at hn
        omega

theorem ReadsAt.unary_succ (ts : List Token) (hn : 16 * ts.length + 3 ≤ n + 1) :
    Reads True last errs (fun e => (Phrase.unary e).Derives) ts
      (parseUnary (n + 1) ⟨ts, last, errs⟩) := by
  rw [parseUnary]
  split
  · next hnot =>
    obtain ⟨t, ts, rfl, ht⟩ := cons_of_kind hlast hnot
    rw [List.length_cons] at hn
    rw [ParseState.advance_cons]
    refine reads_cons ((ih.unary ts (by omega)).andThen ?_)
    rintro e us rest rfl he
    refine reads_pure ?_
    rw [List.append_nil]
    exact .negation ht he
  · split
    · next hcast =>
      obtain ⟨lp, ts, rfl, hlp⟩ := cons_of_kind hlast hcast.1
      cases ts with
      | nil =>
        -- behind the parenthesis the text has ended
        have hpeek := hcast.2
        change last.kind.beginsType = true at hpeek
        rw [hlast] at hpeek
        cases hpeek
      | cons t ts =>
        simp only [List.length_cons] at hn
        rw [ParseState.advance_cons]
        refine reads_cons ((reads_parseType hlast hcast.2 ts).andThen ?_)
        intro type us rest hrest htype
        have hlength := congrArg List.length hrest
        rw [List.length_cons, List.length_append] at hlength
        refine reads_take_andThen hlast ?_
        rintro rp rest rfl hrp
        rw [List.length_cons] at hlength
        refine (ih.unary rest (by omega)).andThen ?_
        rintro e vs rest rfl he
        refine reads_pure ?_
        simpa using Phrase.Derives.cast hlp htype hrp he
    · exact (ih.suffixed ts (by omega)).imp fun _ _ => .bare

theorem ReadsAt.suffixes_succ (e : Expr)
    (es ts : List Token) (he : (Phrase.suffixed e).Derives es) (hn : 16 * ts.length + 1 ≤ n + 1) :
    Reads True last errs (fun e' us => (Phrase.suffixed e').Derives (es ++ us)) ts
      (parseSuffixes (n + 1) e ⟨ts, last, errs⟩) := by
  rw [parseSuffixes]
  split
  · next hdot =>
    obtain ⟨dot, ts, rfl, hdot⟩ := cons_of_kind hlast hdot
    rw [ParseState.advance_cons]
    by_cases hident : (⟨ts, last, errs⟩ : ParseState).kind = .ident
    · obtain ⟨name, ts, rfl, hname⟩ := cons_of_kind hlast hident
      rw [if_neg (not_not_intro hident), ParseState.current_cons, ParseState.advance_cons]
      simp only [List.length_cons] at hn
      have hmore := ih.suffixes _ _ ts (.member he hdot hname) (by omega)
      refine reads_cons (reads_cons ?_)
      simpa using hmore
    · rw [if_pos hident]
      exact reads_fail _ _
  · split
    · next hparen =>
      obtain ⟨lp, ts, rfl, hlp⟩ := cons_of_kind hlast hparen
      split
      · next p hp =>
        obtain rfl : e = .path p := by
          cases e <;> cases hp
          rfl
        rw [List.length_cons] at hn
        rw [ParseState.advance_cons]
        refine reads_cons ((ih.args ts (by omega)).andThen ?_)
        rintro args us rest rfl hargs
        refine reads_take_andThen hlast ?_
        rintro rp rest rfl hrp
        rw [List.length_append, List.length_cons] at hn
        have hmore := ih.suffixes _ _ rest
          (.call he (callee_splitCallee p) hlp hargs hrp) (by omega)
        simpa using hmore
      · exact reads_fail _ _
    · split
      · next hbracket =>
        obtain ⟨lb, ts, rfl, hlb⟩ := cons_of_kind hlast hbracket
        rw [ParseState.advance_cons]
        refine reads_cons ((reads_parseBounds hlast ts).andThen ?_)
        rintro ⟨high, low⟩ _ rest rfl ⟨h, colon, l, rb, rfl, hhigh, hcolon, hlow, hrb⟩
        simp only [List.length_cons, List.length_append] at hn
        have hmore := ih.suffixes _ _ rest (.slice he hlb hhigh hcolon hlow hrb) (by omega)
        simpa using hmore
      · exact reads_pure (by rwa [List.append_nil])

theorem ReadsAt.args_succ (ts : List Token) (hn : 16 * ts.length + 10 ≤ n + 1) :
    Reads True last errs (fun es => (Phrase.args es).Derives) ts
      (parseArgs (n + 1) ⟨ts, last, errs⟩) := by
  rw [parseArgs]
  split
  · exact reads_pure .noArgs
  · refine (ih.binary .or ts (by simp only [Level.depth]; omega)).andThen ?_
    rintro e us rest rfl he
    split
    · next hcomma =>
      obtain ⟨comma, rest, rfl, hcomma⟩ := cons_of_kind hlast hcomma
      rw [List.length_append, List.length_cons] at hn
      rw [ParseState.advance_cons]
      refine reads_cons ((ih.args rest (by omega)).andThen ?_)
      rintro es vs rest rfl hes
      refine reads_pure ?_
      simpa using Phrase.Derives.moreArgs he hcomma hes
    · refine reads_pure ?_
      rw [List.append_nil]
      exact .lastArg he

theorem ReadsAt.primary_succ (ts : List Token) (hn : 16 * ts.length + 1 ≤ n + 1) :
    Reads True last errs (fun e => (Phrase.primary e).Derives) ts
      (parsePrimary (n + 1) ⟨ts, last, errs⟩) := by
  rw [parsePrimary]
  split
  · next hint =>
    obtain ⟨t, ts, rfl, ht⟩ := cons_of_kind hlast hint
    rw [ParseState.current_cons, ParseState.advance_cons]
    split
    · next l hl => exact reads_cons (reads_pure (.literal ht hl))
    · exact reads_fail _ _
  · next hyes =>
    obtain ⟨t, ts, rfl, ht⟩ := cons_of_kind hlast hyes
    exact reads_cons (reads_pure (.yes ht))
  · next hno =>
    obtain ⟨t, ts, rfl, ht⟩ := cons_of_kind hlast hno
    exact reads_cons (reads_pure (.no ht))
  · next hident =>
    obtain ⟨t, ts, rfl, ht⟩ := cons_of_kind hlast hident
    exact reads_cons (reads_pure (.name ht))
  · next hparen =>
    obtain ⟨lp, ts, rfl, hlp⟩ := cons_of_kind hlast hparen
    rw [List.length_cons] at hn
    rw [ParseState.advance_cons]
    refine reads_cons ((ih.binary .or ts (by simp only [Level.depth]; omega)).andThen ?_)
    rintro e us rest rfl he
    refine reads_take_andThen hlast ?_
    rintro rp rest rfl hrp
    exact reads_pure (.parens hlp he hrp)
  · exact reads_fail _ _

end

theorem readsAt {last : Token} (hlast : last.kind = .eof) (errs : List Text) (n : Nat) :
    ReadsAt last errs n := by
  induction n with
  | zero =>
    refine ⟨fun l ts h => ?_, fun _ _ _ ts _ h => ?_, fun l ts h => ?_, fun ts h => ?_,
      fun ts h => ?_, fun _ _ ts _ h => ?_, fun ts h => ?_, fun ts h => ?_⟩
    · cases l <;> simp only [Level.depth] at h <;> omega
    · omega
    · cases l <;> simp only [Level.depth] at h <;> omega
    all_goals omega
  | succ n ih =>
    exact ⟨ih.binary_succ, ih.operators_succ hlast, ih.operand_succ, ih.unary_succ hlast,
      ih.suffixed_succ, ih.suffixes_succ hlast, ih.args_succ hlast, ih.primary_succ hlast⟩

/-! ## Statements -/

/-- An expression in parentheses. -/
def DerivesHead (e : Expr) (ts : List Token) : Prop :=
  ∃ lp rp us, lp.kind = .lparen ∧ (Phrase.level .or e).Derives us ∧ rp.kind = .rparen ∧
    ts = lp :: (us ++ [rp])

section

variable {last : Token} {errs : List Text} (hlast : last.kind = .eof)

include hlast

theorem reads_parseHead (n : Nat) (ts : List Token) (hn : 16 * ts.length ≤ n + 7) :
    Reads False last errs DerivesHead ts (parseHead n ⟨ts, last, errs⟩) := by
  rw [parseHead]
  refine reads_take_andThen hlast ?_
  rintro lp rest rfl hlp
  rw [List.length_cons] at hn
  have hcond := (readsAt hlast errs n).binary .or rest (by simp only [Level.depth]; omega)
  refine hcond.orMissing (fun _ t => (grows_take _ t).andThen fun _ _ => grows_refl _ _) ?_
  intro e us rest _ he
  refine reads_take_andThen hlast fun rp rest _ hrp => ?_
  exact reads_pure ⟨lp, rp, us, hlp, he, hrp, rfl⟩

theorem reads_parseAssignOrCall (n : Nat) (ht : t.kind = .ident)
    (ts : List Token) (hn : 16 * (t :: ts).length + 2 ≤ n) :
    Reads False last errs (fun s => (Clause.stmt s).Derives False) (t :: ts)
      (parseAssignOrCall n ⟨t :: ts, last, errs⟩) := by
  rw [parseAssignOrCall]
  have hleft := (readsAt hlast errs n).suffixed (t :: ts) hn
  refine hleft.andThen fun left ls rest hts hl => ?_
  have hlength := congrArg List.length hts
  rw [List.length_append] at hlength
  have hfirst : ls.head?.map Token.kind = some .ident := by
    obtain ⟨t', us, rfl, -⟩ := hl.starts
    cases hts
    exact congrArg some ht
  split
  · next hassign =>
    obtain ⟨eq, rest, rfl, heq⟩ := cons_of_kind hlast hassign
    simp only [List.length_cons] at hlength hn
    rw [ParseState.advance_cons]
    have hright := (readsAt hlast errs n).binary .or rest (by simp only [Level.depth]; omega)
    refine reads_cons ?_
    refine hright.orMissing (fun _ t => (grows_take _ t).andThen fun _ _ => grows_refl _ _) ?_
    intro right rs rest _ hr
    refine reads_take_andThen hlast fun semi rest _ hsemi => ?_
    exact reads_pure (.assign hfirst hl heq hr hsemi)
  · split
    · refine reads_take_andThen hlast fun semi rest _ hsemi => ?_
      exact reads_pure (.call hfirst hl hsemi)
    · exact reads_fail _ _

end

/-- Reading statements ends where they have to end, or records an error. -/
inductive ReadsMany (last : Token) (errs : List Text) (closing : Bool) (ts : List Token) :
    List Stmt × Bool × ParseState → Prop
  | took {ss : List Stmt} {us rest : List Token} (hts : ts = us ++ rest)
      (h : (Clause.stmts ss).Derives False us)
      (hend : closing = false → (⟨rest, last, errs⟩ : ParseState).kind = .eof) :
      ReadsMany last errs closing ts (ss, true, ⟨rest, last, errs⟩)
  | failed {ss : List Stmt} {ok : Bool} {s : ParseState} (h : errs.length < s.errors.length) :
      ReadsMany last errs closing ts (ss, ok, s)

/-- What the functions for statements read, at some depth of calls. -/
structure StmtReadsAt (last : Token) (errs : List Text) (n : Nat) : Prop where
  stmt : ∀ ts, 16 * ts.length + 3 ≤ n →
    Reads False last errs (fun s => (Clause.stmt s).Derives False) ts
      (parseStatement n ⟨ts, last, errs⟩)
  block : ∀ lb ts, lb.kind = .lbrace → 16 * (lb :: ts).length + 1 ≤ n →
    Reads False last errs (fun ss => (Clause.block ss).Derives False) (lb :: ts)
      (always (parseBlock n ⟨lb :: ts, last, errs⟩))
  many : ∀ closing ts, 16 * ts.length + 4 ≤ n →
    ReadsMany last errs closing ts (parseMany n closing ⟨ts, last, errs⟩)
  cases : ∀ ts, 16 * ts.length + 2 ≤ n →
    Reads False last errs (fun cs => (Clause.cases cs).Derives False) ts
      (parseCases n ⟨ts, last, errs⟩)

section

variable {last : Token} {errs : List Text} {n : Nat} (ih : StmtReadsAt last errs n)

include ih

theorem StmtReadsAt.many_succ (closing : Bool) (ts : List Token) (hn : 16 * ts.length + 4 ≤ n + 1) :
    ReadsMany last errs closing ts (parseMany (n + 1) closing ⟨ts, last, errs⟩) := by
  rw [parseMany]
  split
  · next hstop =>
    refine .took (List.nil_append ts).symm .nil fun hclosing => ?_
    rcases hstop with heof | ⟨hclosing', -⟩
    · exact heof
    · rw [hclosing] at hclosing'
      cases hclosing'
  · have hstmt := ih.stmt ts (by omega)
    generalize parseStatement n ⟨ts, last, errs⟩ = p at hstmt
    cases hstmt with
    | failed h =>
      dsimp only
      rw [if_pos h]
      exact .failed h
    | @took s us rest hts h =>
      dsimp only
      rw [if_neg (Nat.lt_irrefl _)]
      obtain ⟨t, us, rfl, -⟩ := h.starts
      have hlength := congrArg List.length hts
      rw [List.length_append, List.length_cons] at hlength
      have hmore := ih.many closing rest (by omega)
      generalize parseMany n closing ⟨rest, last, errs⟩ = q at hmore
      cases hmore with
      | failed h' => exact .failed h'
      | @took ss vs rest' hrest h' hend =>
        refine .took ?_ (.cons h h') hend
        rw [hts, hrest, List.append_assoc]

variable (hlast : last.kind = .eof)

include hlast

theorem StmtReadsAt.afterThen {kw : Token} (hkw : kw.kind = .kwIf) {cond : Expr} {thn : Stmt}
    {cs us : List Token} (hc : DerivesHead cond cs) (hthn : (Clause.stmt thn).Derives False us)
    (ts : List Token) (hn : 16 * ts.length ≤ n) :
    Reads False last errs (fun s vs => (Clause.stmt s).Derives False (kw :: (cs ++ us ++ vs))) ts
      (afterThen (parseStatement n) cond thn ⟨ts, last, errs⟩) := by
  obtain ⟨lp, rp, cs, hlp, hc, hrp, rfl⟩ := hc
  unfold Source.afterThen
  split
  · next helse =>
    obtain ⟨alt, ts, rfl, halt⟩ := cons_of_kind hlast helse
    rw [List.length_cons] at hn
    rw [ParseState.advance_cons]
    refine reads_cons ?_
    refine (ih.stmt ts (by omega)).goOn (fun _ _ => grows_refl _ _) ?_
    intro els vs rest _ hels
    refine reads_pure ?_
    simpa using Clause.Derives.ifElse hkw hlp hc hrp hthn False.elim halt hels
  · refine reads_pure ?_
    simpa using Clause.Derives.ifThen hkw hlp hc hrp hthn

theorem StmtReadsAt.afterSubject {kw : Token} (hkw : kw.kind = .kwSwitch) {subject : Expr}
    {xs : List Token} (hx : DerivesHead subject xs) (ts : List Token) (hn : 16 * ts.length ≤ n) :
    Reads False last errs (fun s vs => (Clause.stmt s).Derives False (kw :: (xs ++ vs))) ts
      (afterSubject (parseCases n) subject ⟨ts, last, errs⟩) := by
  obtain ⟨lp, rp, xs, hlp, hx, hrp, rfl⟩ := hx
  unfold Source.afterSubject
  by_cases hbrace : (⟨ts, last, errs⟩ : ParseState).kind = .lbrace
  · obtain ⟨lb, ts, rfl, hlb⟩ := cons_of_kind hlast hbrace
    rw [List.length_cons] at hn
    rw [if_neg (not_not_intro hbrace), ParseState.advance_cons]
    refine reads_cons ?_
    refine (ih.cases ts (by omega)).goOn
      (fun _ t => (grows_take _ t).andThen fun _ _ => grows_refl _ _) ?_
    intro cs us rest _ hcs
    refine reads_take_andThen hlast fun rb rest _ hrb => reads_pure ?_
    simpa using Clause.Derives.switch hkw hlp hx hrp hlb hcs hrb
  · rw [if_pos hbrace]
    exact reads_fail _ _

theorem StmtReadsAt.stmt_succ (ts : List Token) (hn : 16 * ts.length + 3 ≤ n + 1) :
    Reads False last errs (fun s => (Clause.stmt s).Derives False) ts
      (parseStatement (n + 1) ⟨ts, last, errs⟩) := by
  rw [parseStatement]
  split
  · next hbrace =>
    obtain ⟨lb, ts, rfl, hlb⟩ := cons_of_kind hlast hbrace
    refine (ih.block lb ts hlb (by omega)).goOn (fun _ _ => grows_refl _ _) ?_
    intro ss us rest _ hss
    refine reads_pure ?_
    rw [List.append_nil]
    exact .nested hss
  · next hif =>
    obtain ⟨kw, ts, rfl, hkw⟩ := cons_of_kind hlast hif
    rw [List.length_cons] at hn
    rw [ParseState.advance_cons]
    refine reads_cons ?_
    refine (reads_parseHead hlast n ts (by omega)).goOn (fun cond t =>
      ((stmtGrowsAt n).stmt t).andThen ((stmtGrowsAt n).afterThen cond)) ?_
    rintro cond cs rest rfl hc
    rw [List.length_append] at hn
    refine (ih.stmt rest (by omega)).goOn ((stmtGrowsAt n).afterThen cond) ?_
    rintro thn us rest rfl hthn
    rw [List.length_append] at hn
    simpa using ih.afterThen hlast hkw hc hthn rest (by omega)
  · next hswitch =>
    obtain ⟨kw, ts, rfl, hkw⟩ := cons_of_kind hlast hswitch
    rw [List.length_cons] at hn
    rw [ParseState.advance_cons]
    refine reads_cons ?_
    refine (reads_parseHead hlast n ts (by omega)).goOn (stmtGrowsAt n).afterSubject ?_
    rintro subject xs rest rfl hx
    rw [List.length_append] at hn
    exact ih.afterSubject hlast hkw hx rest (by omega)
  · next hexit =>
    obtain ⟨kw, ts, rfl, hkw⟩ := cons_of_kind hlast hexit
    refine reads_cons (reads_take_andThen hlast ?_)
    exact fun semi rest _ hsemi => reads_pure (.exit hkw hsemi)
  · next hreturn =>
    obtain ⟨kw, ts, rfl, hkw⟩ := cons_of_kind hlast hreturn
    refine reads_cons (reads_take_andThen hlast ?_)
    exact fun semi rest _ hsemi => reads_pure (.ret hkw hsemi)
  · next hsemicolon =>
    obtain ⟨semi, ts, rfl, hsemi⟩ := cons_of_kind hlast hsemicolon
    exact reads_cons (reads_pure (.empty hsemi))
  · next hident =>
    obtain ⟨t, ts, rfl, ht⟩ := cons_of_kind hlast hident
    exact reads_parseAssignOrCall hlast n ht ts (by omega)
  · refine .failed ?_ False.elim
    rw [ParseState.errors_advance, ParseState.failGot, ParseState.length_errors_fail]
    exact Nat.lt_succ_self _

theorem StmtReadsAt.block_succ (lb : Token) (ts : List Token) (hlb : lb.kind = .lbrace)
    (hn : 16 * (lb :: ts).length + 1 ≤ n + 1) :
    Reads False last errs (fun ss => (Clause.block ss).Derives False) (lb :: ts)
      (always (parseBlock (n + 1) ⟨lb :: ts, last, errs⟩)) := by
  rw [List.length_cons] at hn
  rw [parseBlock, ParseState.advance_cons]
  have hmany := ih.many true ts (by omega)
  generalize parseMany n true ⟨ts, last, errs⟩ = p at hmany
  cases hmany with
  | @failed ss ok s h =>
    cases ok with
    | false => exact .failed h False.elim
    | true => exact .failed (Nat.lt_of_lt_of_le h (grows_take .rbrace s)) False.elim
  | @took ss us rest hts h hend =>
    dsimp only
    unfold take
    by_cases hbrace : (⟨rest, last, errs⟩ : ParseState).kind = .rbrace
    · obtain ⟨rb, rest, rfl, hrb⟩ := cons_of_kind hlast hbrace
      rw [if_pos hbrace]
      refine .took ?_ (Clause.Derives.braces hlb h hrb)
      simp [hts]
    · rw [if_neg hbrace]
      refine .failed ?_ False.elim
      rw [ParseState.failGot, ParseState.length_errors_fail]
      exact Nat.lt_succ_self _

theorem StmtReadsAt.afterLabel {colon : Token} {label : Text} (ht : IsLabel t label)
    (hcolon : colon.kind = .colon) (ts : List Token) (hn : 16 * ts.length + 2 ≤ n) :
    Reads False last errs (fun cs us => (Clause.cases cs).Derives False (t :: colon :: us)) ts
      (afterLabel (parseBlock n) (parseCases n) label ⟨ts, last, errs⟩) := by
  unfold Source.afterLabel
  split
  · next hbrace =>
    obtain ⟨lb, ts, rfl, hlb⟩ := cons_of_kind hlast hbrace
    refine (ih.block lb ts hlb (by omega)).goOn
      (fun _ t => ((stmtGrowsAt n).cases t).andThen fun _ _ => grows_refl _ _) ?_
    intro body us rest hts hbody
    have hlength := congrArg List.length hts
    rw [List.length_append] at hlength
    refine (ih.cases rest (by omega)).goOn (fun _ _ => grows_refl _ _) ?_
    intro cs vs rest _ hcs
    refine reads_pure ?_
    rw [List.append_nil]
    exact .arm ht hcolon hbody hcs
  · refine (ih.cases ts hn).goOn (fun _ _ => grows_refl _ _) ?_
    intro cs us rest _ hcs
    refine reads_pure ?_
    rw [List.append_nil]
    exact .bare ht hcolon hcs

theorem StmtReadsAt.cases_succ (ts : List Token) (hn : 16 * ts.length + 2 ≤ n + 1) :
    Reads False last errs (fun cs => (Clause.cases cs).Derives False) ts
      (parseCases (n + 1) ⟨ts, last, errs⟩) := by
  rw [parseCases]
  split
  · exact reads_pure .noCases
  · next hstop =>
    split
    · next hlabel =>
      obtain ⟨t, ts, rfl, -⟩ := cons_of_kind hlast rfl fun heof => hstop (Or.inl heof)
      have ht : IsLabel t (if t.kind = .ident then t.literal else "default") := by
        split
        · next hident => exact .name hident
        · next hident => exact .default (hlabel.resolve_left hident)
      rw [List.length_cons] at hn
      refine reads_cons (reads_take_andThen hlast ?_)
      rintro colon rest rfl hcolon
      rw [List.length_cons] at hn
      exact ih.afterLabel hlast ht hcolon rest (by omega)
    · exact reads_fail _ _

end

theorem stmtReadsAt {last : Token} (hlast : last.kind = .eof) (errs : List Text) (n : Nat) :
    StmtReadsAt last errs n := by
  induction n with
  | zero =>
    refine ⟨fun ts h => ?_, fun lb ts _ h => ?_, fun _ ts h => ?_, fun ts h => ?_⟩ <;> omega
  | succ n ih =>
    exact ⟨ih.stmt_succ hlast, ih.block_succ hlast, ih.many_succ, ih.cases_succ hlast⟩

end Flowline.Source
