import Flowline.Proofs.Source.Positions

/-!
# Lexing loses nothing and knows where it is

Reading tokens up to the first end of input takes the text apart: token after token, with nothing
but blanks and comments between them, and each token carries the line and the column at which its
text starts.  What text lies between tokens (`Trivia`, `Gap`), what text a token is cut out of
(`Spells`) and how the pieces follow each other (`Tiles`, `EndsAt`) is said on the text alone.

Reading breaks off at one kind of place only: a string literal in which the text ends behind a
backslash that has nothing to escape (`BreaksOff`).

Blanks and comments are skipped by a machine with a state for each kind of comment.  What it skips is
said for each state (`Skipping.Leaves`), because inside a comment there is a closing mark to come.  A
comment that is never closed reaches to the end of input and is allowed there: it is a `Gap` but no
`Trivia`, and `Gap.trivia` says that none is in front of a token.

The end of input is the end of the text or a zero byte, whichever is first (`AtEnd`).

A cursor is described by the offset that it has come to, and its line and column follow from the text
in front.  Behind a string literal that the end of the text leaves without its second quote, reading
goes on one further than the text reaches (`Token.reach`), and tiles are measured by that.
-/

namespace Flowline.Source

variable {cs : List Char} {c : Cursor}

/-! ## Blanks and comments -/

/-- The two forms of comments: up to the end of a line, and up to a closing mark. -/
inductive CommentForm where
  | line
  | closed

namespace CommentForm

/-- The mark that starts a comment. -/
def opening : CommentForm → List Char
  | line => ['/', '/']
  | closed => ['/', '*']

/-- The mark that ends a comment. -/
def closing : CommentForm → List Char
  | line => ['\n']
  | closed => ['*', '/']

end CommentForm

/-- Text inside a comment, which does not end it. -/
structure CommentForm.Holds (form : CommentForm) (body : List Char) : Prop where
  open_ : ¬form.closing <:+: body
  nul_notMem : nul ∉ body

/-- Text between tokens: blanks and comments. -/
inductive Trivia : List Char → Prop
  | nil : Trivia []
  | blank {c : Char} {rest : List Char} (hc : isBlank c) (h : Trivia rest) : Trivia (c :: rest)
  | comment {form : CommentForm} {body rest : List Char} (hbody : form.Holds body)
      (h : Trivia rest) : Trivia (form.opening ++ (body ++ (form.closing ++ rest)))

/-- Text that reads as the end of input: there is none left, or a zero byte comes first. -/
def AtEnd (cs : List Char) : Prop := ∀ c ∈ cs.head?, c = nul

/-- Text in front of a token, and what follows it.  In front of the end of input it may be cut off
inside a comment. -/
inductive Gap (gap behind : List Char) : Prop
  | whole (h : Trivia gap) (hline : behind.head? ≠ some '\n')
  | cut {form : CommentForm} {before body : List Char}
      (heq : gap = before ++ (form.opening ++ body)) (h : Trivia before) (hbody : form.Holds body)
      (hend : AtEnd behind)

/-- Text that is skipped from inside a comment on, and what follows it. -/
inductive Remains (form : CommentForm) (gap behind : List Char) : Prop
  | closed {body rest : List Char} (heq : gap = body ++ (form.closing ++ rest))
      (hbody : form.Holds body) (h : Gap rest behind)
  | cut (hbody : form.Holds gap) (hend : AtEnd behind)

section

variable {form : CommentForm} {gap behind body : List Char} {c : Char}

theorem AtEnd.ne_newline (h : AtEnd behind) : behind.head? ≠ some '\n' := by
  intro hc
  exact absurd (h _ hc) (by decide)

theorem Gap.ne_newline (h : Gap gap behind) : behind.head? ≠ some '\n' := by
  cases h with
  | whole _ hline => exact hline
  | cut _ _ _ hend => exact hend.ne_newline

/-- In front of a token that is not the end of input no comment is left open. -/
theorem Gap.trivia (h : Gap gap behind) (hend : ¬AtEnd behind) : Trivia gap := by
  cases h with
  | whole h _ => exact h
  | cut _ _ _ h => exact absurd h hend

theorem CommentForm.holds_nil (form : CommentForm) : form.Holds [] := by
  refine ⟨?_, List.not_mem_nil⟩
  cases form <;> simp [closing]

theorem CommentForm.Holds.cons (h : form.Holds body) (hc : c ≠ nul)
    (hclose : ¬form.closing <+: c :: body) : form.Holds (c :: body) := by
  constructor
  · rw [List.infix_cons_iff]
    exact not_or.2 ⟨hclose, h.open_⟩
  · simp [hc.symm, h.nul_notMem]

theorem Gap.blank (hc : isBlank c) (h : Gap gap behind) : Gap (c :: gap) behind := by
  cases h with
  | whole h hline => exact .whole (.blank hc h) hline
  | cut heq h hbody hend => exact .cut (heq ▸ rfl) (.blank hc h) hbody hend

theorem Remains.opened (h : Remains form gap behind) : Gap (form.opening ++ gap) behind := by
  cases h with
  | cut hbody hend => exact .cut rfl .nil hbody hend
  | closed heq hbody h =>
    subst heq
    cases h with
    | whole h hline => exact .whole (.comment hbody h) hline
    | cut heq h hopen hend =>
      subst heq
      exact .cut (by simp only [List.append_assoc]) (.comment hbody h) hopen hend

theorem Remains.cons (h : Remains form gap behind) (hc : c ≠ nul)
    (hclose : ¬form.closing <+: c :: (gap ++ behind)) : Remains form (c :: gap) behind := by
  cases h with
  | cut hbody hend =>
    refine .cut (hbody.cons hc fun hpre => hclose ?_) hend
    exact hpre.trans (List.prefix_append (c :: gap) behind)
  | @closed body rest heq hbody h =>
    subst heq
    refine .closed rfl (hbody.cons hc fun hpre => hclose ?_) h
    rw [List.append_assoc, ← List.cons_append]
    exact hpre.trans (List.prefix_append (c :: body) _)

end

namespace Cursor

/-- A cursor has moved on over text that has, together with what follows it, a property. -/
def Skipped (P : List Char → List Char → Prop) (c c' : Cursor) : Prop :=
  ∃ gap behind, c.rest = gap ++ behind ∧ P gap behind ∧ c' = c.advanceBy gap.length

/-- What is skipped, by what is being skipped. -/
def Skipping.Leaves : Skipping → List Char → List Char → Prop
  | .blanks => Gap
  | .line => Remains .line
  | .closed => Remains .closed

section

variable {P Q : List Char → List Char → Prop} {c' : Cursor} {x : Char} {l k : Nat}

theorem skipped_refl (h : P [] c.rest) : Skipped P c c := ⟨[], c.rest, rfl, h, rfl⟩

theorem Skipped.step (h : Skipped Q ⟨cs, (arrive cs l k).line, (arrive cs l k).column⟩ c')
    (hstep : ∀ gap behind, cs = gap ++ behind → Q gap behind → P (x :: gap) behind) :
    Skipped P ⟨x :: cs, l, k⟩ c' := by
  obtain ⟨gap, behind, hrest, hq, rfl⟩ := h
  refine ⟨x :: gap, behind, congrArg (x :: ·) hrest, hstep gap behind hrest hq, ?_⟩
  rw [mk_arrive, List.length_cons, advanceBy_succ, advance, List.tail_cons]

end

theorem remains_of_end (form : CommentForm) {behind : List Char} (h : AtEnd behind) :
    Remains form [] behind :=
  .cut form.holds_nil h

theorem atEnd_nil : AtEnd [] := fun _ h => nomatch h

theorem atEnd_nul (cs : List Char) : AtEnd (nul :: cs) := by
  intro c hc
  exact (Option.some.inj hc).symm

theorem Skipping.leaves_nil (mode : Skipping) : mode.Leaves [] [] := by
  cases mode with
  | blanks => exact .whole .nil nofun
  | line => exact remains_of_end .line atEnd_nil
  | closed => exact remains_of_end .closed atEnd_nil

theorem skipped_skipFrom (mode : Skipping) (cs : List Char) (l k : Nat) :
    Skipped mode.Leaves ⟨cs, l, k⟩ (skipFrom mode cs l k) := by
  fun_induction skipFrom mode cs l k with
  | case1 mode => exact skipped_refl mode.leaves_nil
  | case2 c cs l k hc p ih => exact ih.step fun gap behind _ h => h.blank hc
  | case3 l k ds p q _ ih | case4 l k ds p q _ ih =>
    refine Skipped.step (Q := fun gap behind => Gap ('/' :: gap) behind) (ih.step ?_) ?_
    · intro gap behind _ h
      exact h.opened
    · intro gap behind _ h
      exact h
  | case5 cs l k => exact skipped_refl (.whole .nil (by simp))
  | case6 c cs l k hc _ =>
    refine skipped_refl (.whole .nil ?_)
    intro hn
    exact hc (by simp_all [isBlank])
  | case7 cs l k => exact skipped_refl (remains_of_end .line (atEnd_nul cs))
  | case8 c cs l k hc p ih =>
    refine ih.step fun gap behind _ h => ?_
    split at h
    next hn => exact hn ▸ .closed rfl (CommentForm.holds_nil _) h
    next hn =>
      refine h.cons hc ?_
      simp [CommentForm.closing, Ne.symm hn]
  | case9 cs l k => exact skipped_refl (remains_of_end .closed (atEnd_nul cs))
  | case10 l k ds p q _ ih =>
    refine Skipped.step (Q := fun gap behind => Remains .closed ('*' :: gap) behind)
      (ih.step ?_) ?_
    · intro gap behind _ h
      have heq : '*' :: '/' :: gap = [] ++ (CommentForm.closed.closing ++ gap) := rfl
      exact .closed heq (CommentForm.holds_nil _) h
    · intro gap behind _ h
      exact h
  | case11 c l k hc cs p hclose ih =>
    refine ih.step fun gap behind hcs h => h.cons hc ?_
    intro hpre
    rw [← hcs] at hpre
    obtain ⟨tail, htail⟩ := hpre
    obtain ⟨hstar, hslash⟩ := List.cons.inj htail
    exact hclose tail hstar.symm hslash.symm

/-- Skipping stops behind blanks and comments, and in front of no newline. -/
theorem skipped_skipTrivia (c : Cursor) : Skipped Gap c c.skipTrivia :=
  skipped_skipFrom .blanks c.rest c.line c.column

end Cursor

/-! ## The text of a token -/

/-- The inside of a string literal: every backslash takes the byte behind it along, and no quote
and no zero byte stands alone. -/
inductive Escaped : List Char → Prop
  | nil : Escaped []
  | pair {c : Char} {cs : List Char} (h : Escaped cs) : Escaped ('\\' :: c :: cs)
  | plain {c : Char} {cs : List Char} (hslash : c ≠ '\\') (hquote : c ≠ '"') (hnul : c ≠ nul)
      (h : Escaped cs) : Escaped (c :: cs)

/-- A string literal that the text leaves inside an escape. -/
def Unfinished (cs : List Char) : Prop := ∃ body, Escaped body ∧ cs = '"' :: (body ++ ['\\'])

/-- The text that a token is cut out of, and what follows it.  A string has its quotes around it,
where a zero byte may stand for the second and the end of the text leaves it out.  What starts no
token is a token of one byte.  Every other token is spelled as it stands. -/
inductive Spells (t : Token) : List Char → List Char → Prop
  | quoted {q : Char} {behind : List Char} (ht : t.kind = .string)
      (hbody : Escaped t.literal.toList) (hq : q = '"' ∨ q = nul) :
      Spells t ('"' :: (t.literal.toList ++ [q])) behind
  | unquoted (ht : t.kind = .string) (hbody : Escaped t.literal.toList) :
      Spells t ('"' :: t.literal.toList) []
  | illegal {c : Char} {behind : List Char} (ht : t.kind = .illegal)
      (hc : t.literal = Text.ofUnicode (String.singleton c)) : Spells t [c] behind
  | plain {behind : List Char} (hstring : t.kind ≠ .string) (hillegal : t.kind ≠ .illegal) :
      Spells t t.literal.toList behind

/-- How far a token moves the cursor: over its text, and one further where the quote is missing
that would end a string. -/
def Token.reach (t : Token) (span : List Char) : Nat :=
  if t.kind = .string ∧ span = '"' :: t.literal.toList then span.length + 1 else span.length

theorem le_reach (t : Token) (span : List Char) : span.length ≤ t.reach span := by
  unfold Token.reach
  split <;> omega

theorem stringLength_eq_none :
    stringLength cs = none ↔ ∃ body, Escaped body ∧ cs = body ++ ['\\'] := by
  constructor
  · intro h
    fun_induction stringLength cs with
    | case1 => cases h
    | case2 => exact ⟨[], .nil, rfl⟩
    | case3 c cs ih =>
      obtain ⟨body, hbody, rfl⟩ := ih (Option.map_eq_none_iff.1 h)
      exact ⟨'\\' :: c :: body, .pair hbody, rfl⟩
    | case4 => cases h
    | case5 c cs hslash hpair hc ih =>
      obtain ⟨body, hbody, rfl⟩ := ih (Option.map_eq_none_iff.1 h)
      obtain ⟨hquote, hnul⟩ := not_or.1 hc
      refine ⟨c :: body, .plain ?_ hquote hnul hbody, rfl⟩
      rintro rfl
      cases body <;> exact hpair _ _ rfl rfl
  · rintro ⟨body, hbody, rfl⟩
    induction hbody with
    | nil => rfl
    | @pair c cs _ ih => simp [stringLength, ih]
    | @plain c cs hslash hquote hnul _ ih =>
      rw [List.cons_append, stringLength, if_neg (not_or.2 ⟨hquote, hnul⟩), ih]
      · rfl
      · intro h; exact absurd h hslash
      · intro _ _ h; exact absurd h hslash

/-- The inside of a string literal that ends, and what ends it. -/
theorem stringLength_eq_some {n : Nat} (h : stringLength cs = some n) :
    n ≤ cs.length ∧ Escaped (cs.take n) ∧
      (cs.drop n = [] ∨ ∃ q behind, (q = '"' ∨ q = nul) ∧ cs.drop n = q :: behind) := by
  fun_induction stringLength cs generalizing n with
  | case1 => cases h; exact ⟨Nat.le_refl 0, .nil, .inl rfl⟩
  | case2 => cases h
  | case3 c cs ih =>
    obtain ⟨m, hm, rfl⟩ := Option.map_eq_some_iff.1 h
    obtain ⟨hle, hbody, hend⟩ := ih hm
    exact ⟨Nat.add_le_add_right hle 2, .pair hbody, hend⟩
  | case4 c cs _ _ hc => cases h; exact ⟨Nat.zero_le _, .nil, .inr ⟨c, cs, hc, rfl⟩⟩
  | case5 c cs hslash hpair hc ih =>
    obtain ⟨m, hm, rfl⟩ := Option.map_eq_some_iff.1 h
    obtain ⟨hle, hbody, hend⟩ := ih hm
    obtain ⟨hquote, hnul⟩ := not_or.1 hc
    refine ⟨Nat.add_le_add_right hle 1, .plain ?_ hquote hnul hbody, hend⟩
    rintro rfl
    cases cs with
    | nil => exact hslash rfl rfl
    | cons d ds => exact hpair d ds rfl rfl

theorem symbol?_spec {kind : TokenKind} (h : symbol? cs = some kind) :
    kind.name.toList <+: cs ∧ kind.name.toList ≠ [] ∧ kind ≠ .eof ∧ kind ≠ .string ∧
      kind ≠ .illegal := by
  unfold symbol? at h
  split at h <;> cases h <;> simp [TokenKind.name]

theorem ofWord_mem (w : Text) : TokenKind.ofWord w ∈ TokenKind.ident :: TokenKind.keywords := by
  rw [TokenKind.ofWord]
  cases h : TokenKind.keywords.find? fun k => k.name == w with
  | none => exact List.mem_cons_self
  | some k => exact List.mem_cons_of_mem _ (List.mem_of_find?_eq_some h)

theorem ofWord_ne (w : Text) :
    TokenKind.ofWord w ≠ .eof ∧ TokenKind.ofWord w ≠ .string ∧ TokenKind.ofWord w ≠ .illegal := by
  have h := ofWord_mem w
  refine ⟨?_, ?_, ?_⟩ <;> intro he <;> rw [he] at h <;> exact absurd h (by decide)

theorem widthLength_le (cs : List Char) : widthLength cs ≤ cs.length := by
  unfold widthLength
  split
  next c d cs =>
    have := (cs.takeWhile_sublist isDigit).length_le
    rw [List.length_cons, List.length_cons]
    split <;> omega
  next => exact Nat.zero_le _

theorem numberLength_le (cs : List Char) : numberLength cs ≤ cs.length := by
  have hdigits := (cs.takeWhile_sublist isDigit).length_le
  have hwidth := widthLength_le (cs.drop (cs.takeWhile isDigit).length)
  have htail := ((cs.drop ((cs.takeWhile isDigit).length +
    widthLength (cs.drop (cs.takeWhile isDigit).length))).takeWhile_sublist
      isNumberTail).length_le
  rw [List.length_drop] at hwidth htail
  rw [numberLength]
  omega

theorem numberLength_pos {c : Char} (h : isDigit c) : 0 < numberLength (c :: cs) := by
  rw [numberLength, List.takeWhile_cons_of_pos h, List.length_cons]
  omega

section

variable {t : Token} {span : List Char}

theorem reach_of_ne (h : t.kind ≠ .string) : t.reach span = span.length :=
  if_neg fun hs => h hs.1

theorem reach_quoted (q : Char) :
    t.reach ('"' :: (t.literal.toList ++ [q])) = t.literal.toList.length + 2 := by
  rw [Token.reach, if_neg]
  · rw [List.length_cons, List.length_append, List.length_singleton]
  · rintro ⟨-, h⟩
    have := congrArg List.length h
    rw [List.length_cons, List.length_cons, List.length_append, List.length_singleton] at this
    omega

theorem reach_unquoted (h : t.kind = .string) :
    t.reach ('"' :: t.literal.toList) = t.literal.toList.length + 2 := by
  rw [Token.reach, if_pos ⟨h, rfl⟩, List.length_cons]

end

namespace Cursor

/-- What a cursor that stands on no blank and no comment finds. -/
inductive Finds (c : Cursor) : Except Fault (Token × Cursor) → Prop
  | unfinished (h : Unfinished c.rest) : Finds c (.error .unfinishedEscape)
  | eof (h : AtEnd c.rest) : Finds c (.ok (⟨.eof, "", c.line, c.column⟩, c.advance))
  | token {t : Token} {span behind : List Char} (hrest : c.rest = span ++ behind)
      (hspan : span ≠ []) (hend : ¬AtEnd c.rest) (hkind : t.kind ≠ .eof)
      (hline : t.line = c.line) (hcolumn : t.column = c.column) (h : Spells t span behind) :
      Finds c (.ok (t, c.advanceBy (t.reach span)))

/-- The token of a cursor that is spelled as it stands. -/
theorem finds_plain {kind : TokenKind} {span : List Char} (hpre : span <+: c.rest)
    (hspan : span ≠ []) (hend : ¬AtEnd c.rest)
    (hkind : kind ≠ .eof ∧ kind ≠ .string ∧ kind ≠ .illegal) :
    Finds c (.ok (⟨kind, String.ofList span, c.line, c.column⟩, c.advanceBy span.length)) := by
  obtain ⟨behind, hrest⟩ := hpre
  obtain ⟨heof, hstring, hillegal⟩ := hkind
  have hspell : Spells ⟨kind, String.ofList span, c.line, c.column⟩
      (String.ofList span).toList behind := .plain hstring hillegal
  rw [String.toList_ofList] at hspell
  have := Finds.token hrest.symm hspan hend heof rfl rfl hspell
  rwa [reach_of_ne hstring] at this

theorem finds_string {n : Nat} (hrest : c.rest = '"' :: cs) (hend : ¬AtEnd c.rest)
    (hn : stringLength cs = some n) :
    Finds c (.ok (⟨.string, String.ofList (cs.take n), c.line, c.column⟩,
      c.advanceBy (n + 2))) := by
  obtain ⟨hle, hbody, hclose⟩ := stringLength_eq_some hn
  have hlength : (cs.take n).length = n := List.length_take_of_le hle
  have hliteral : (String.ofList (cs.take n)).toList = cs.take n := String.toList_ofList
  have hescaped : Escaped (String.ofList (cs.take n)).toList := hliteral.symm ▸ hbody
  obtain hnil | ⟨q, behind, hq, hcons⟩ := hclose
  · have hsplit : c.rest = '"' :: (String.ofList (cs.take n)).toList ++ [] := by
      rw [hrest, hliteral, List.append_nil, ← List.take_append_drop n cs, hnil, List.append_nil,
        List.take_take, Nat.min_self]
    have := Finds.token (t := ⟨.string, String.ofList (cs.take n), c.line, c.column⟩) hsplit
      (List.cons_ne_nil _ _) hend nofun rfl rfl (.unquoted rfl hescaped)
    rwa [reach_unquoted rfl, hliteral, hlength] at this
  · have hsplit : c.rest = '"' :: ((String.ofList (cs.take n)).toList ++ [q]) ++ behind := by
      rw [hrest, hliteral, List.cons_append, List.append_assoc, List.singleton_append, ← hcons,
        List.take_append_drop]
    have := Finds.token (t := ⟨.string, String.ofList (cs.take n), c.line, c.column⟩) hsplit
      (List.cons_ne_nil _ _) hend nofun rfl rfl (.quoted rfl hescaped hq)
    rwa [reach_quoted, hliteral, hlength] at this

theorem token_of_unfinished (h : Unfinished c.rest) : c.token = .error .unfinishedEscape := by
  obtain ⟨body, hbody, hrest⟩ := h
  have hlength := stringLength_eq_none.2 ⟨body, hbody, rfl⟩
  rw [token, hrest]
  simp [show '"' ≠ nul by decide, hlength]

theorem finds_token (c : Cursor) : Finds c c.token := by
  rw [token]
  split
  next hrest => exact .eof (by rw [hrest]; exact atEnd_nil)
  next ch cs hrest =>
    by_cases hnul : ch = nul
    · rw [if_pos hnul]
      exact .eof (by rw [hrest, hnul]; exact atEnd_nul cs)
    rw [if_neg hnul]
    have hend : ¬AtEnd c.rest := fun h => hnul (h ch (by rw [hrest]; rfl))
    by_cases hquote : ch = '"'
    · rw [if_pos hquote]
      subst hquote
      split
      next hn =>
        obtain ⟨body, hbody, rfl⟩ := stringLength_eq_none.1 hn
        exact .unfinished ⟨body, hbody, hrest⟩
      next n hn => exact finds_string hrest hend hn
    rw [if_neg hquote]
    by_cases hletter : isLetter ch
    · rw [if_pos hletter]
      refine finds_plain (List.takeWhile_prefix _) ?_ hend (ofWord_ne _)
      have hword : isWordChar ch := by simp [isWordChar, hletter]
      rw [hrest, List.takeWhile_cons_of_pos hword]
      exact List.cons_ne_nil _ _
    rw [if_neg hletter]
    by_cases hdigit : isDigit ch
    · rw [if_pos hdigit]
      have hpos : 0 < numberLength c.rest := hrest ▸ numberLength_pos hdigit
      have hlength : (c.rest.take (numberLength c.rest)).length = numberLength c.rest :=
        List.length_take_of_le (numberLength_le _)
      have hne : c.rest.take (numberLength c.rest) ≠ [] :=
        List.length_pos_iff.1 (hlength.symm ▸ hpos)
      have hkind : TokenKind.int ≠ .eof ∧ TokenKind.int ≠ .string ∧ TokenKind.int ≠ .illegal := by
        decide
      have hfound := finds_plain (List.take_prefix (numberLength c.rest) c.rest) hne hend hkind
      rwa [hlength] at hfound
    rw [if_neg hdigit]
    split
    next kind hkind =>
      obtain ⟨hpre, hne, hnot⟩ := symbol?_spec hkind
      have := finds_plain hpre hne hend hnot
      rwa [String.ofList_toList, String.length_toList] at this
    next =>
      let t : Token := ⟨.illegal, Text.ofUnicode (String.singleton ch), c.line, c.column⟩
      have hreach : t.reach [ch] = 1 := reach_of_ne (t := t) nofun
      have hfound := Finds.token (t := t) (show c.rest = [ch] ++ cs from hrest)
        (List.cons_ne_nil _ _) hend nofun rfl rfl (.illegal rfl rfl)
      rwa [hreach] at hfound

end Cursor

/-! ## The text of all tokens -/

/-- A token is at an offset: its line and column are those of the offset. -/
structure Token.IsAt (cs : List Char) (o : Nat) (t : Token) : Prop where
  line_eq : t.line = lineAt cs o
  column_eq : t.column = columnAt cs o

/-- A token and the offsets at which its text starts and stops. -/
structure Placed where
  token : Token
  start : Nat
  stop : Nat

namespace Placed

/-- The text of a placed token. -/
def span (cs : List Char) (p : Placed) : List Char := cs.extract p.start p.stop

/-- The offset at which reading goes on behind a placed token. -/
def behind (cs : List Char) (p : Placed) : Nat := p.start + p.token.reach (p.span cs)

/-- A placed token has text, is spelled by it, and knows where it starts. -/
structure Sound (cs : List Char) (p : Placed) : Prop where
  start_lt : p.start < p.stop
  stop_le : p.stop ≤ cs.length
  kind_ne : p.token.kind ≠ .eof
  spells : Spells p.token (p.span cs) (cs.drop p.stop)
  isAt : p.token.IsAt cs p.start

theorem Sound.stop_le_behind {p : Placed} (h : p.Sound cs) : p.stop ≤ p.behind cs := by
  have hreach := le_reach p.token (p.span cs)
  have hlength : (p.span cs).length = p.stop - p.start := by
    rw [span, List.extract_eq_take_drop, List.length_take, List.length_drop]
    have := h.stop_le
    omega
  have := h.start_lt
  rw [behind]
  omega

end Placed

/-- Placed tokens that follow each other in a text from one offset to another, with nothing but
blanks and comments before each of them. -/
inductive Tiles (cs : List Char) : Nat → List Placed → Nat → Prop
  | nil {o : Nat} : Tiles cs o [] o
  | cons {o stop : Nat} {p : Placed} {ps : List Placed} (hle : o ≤ p.start)
      (hgap : Trivia (cs.extract o p.start)) (hp : p.Sound cs)
      (h : Tiles cs (p.behind cs) ps stop) : Tiles cs o (p :: ps) stop

/-- The end of input, read from an offset on: behind blanks and comments, the last of which may be
cut off there, the text ends or a zero byte stands. -/
structure EndsAt (cs : List Char) (o stop : Nat) (e : Token) : Prop where
  kind_eq : e.kind = .eof
  literal_eq : e.literal = ""
  le_stop : o ≤ stop
  stop_le : stop ≤ max o cs.length
  gap : Gap (cs.extract o stop) (cs.drop stop)
  atEnd : AtEnd (cs.drop stop)
  isAt : e.IsAt cs stop

namespace Cursor

/-- Reading on from a cursor comes to a string literal that the text leaves inside an escape. -/
inductive BreaksOff : Cursor → Prop
  | here {c : Cursor} (h : Unfinished c.skipTrivia.rest) : BreaksOff c
  | later {c c' : Cursor} {t : Token} (h : c.next = .ok (t, c')) (ht : t.kind ≠ .eof)
      (hlater : BreaksOff c') : BreaksOff c

section

variable {o : Nat}

/-- Where skipping leads from an offset: behind a gap, and off newlines. -/
theorem IsAt.skipTrivia (h : IsAt cs o c) :
    ∃ n, IsAt cs (o + n) c.skipTrivia ∧ o + n ≤ max o cs.length ∧
      Gap (cs.extract o (o + n)) (cs.drop (o + n)) := by
  obtain ⟨gap, behind, hrest, hgap, hskip⟩ := skipped_skipTrivia c
  have hlength := congrArg List.length hrest
  rw [h.length_rest, List.length_append] at hlength
  refine ⟨gap.length, hskip ▸ h.advanceBy gap.length, by omega, ?_⟩
  rw [h.extract_eq, h.drop_eq, hrest, List.take_left, List.drop_left]
  exact hgap

/-- A token of a cursor that stands on no newline is where the cursor is. -/
theorem IsAt.token {t : Token} (h : IsAt cs o c) (hline : c.rest.head? ≠ some '\n')
    (hl : t.line = c.line) (hk : t.column = c.column) : t.IsAt cs o := by
  rw [h.head?] at hline
  obtain ⟨h₁, h₂⟩ := h.off_newline hline
  exact ⟨hl.trans h₁, hk.trans h₂⟩

/-- What reading one token from an offset gives. -/
inductive Next (cs : List Char) (o : Nat) (c : Cursor) : Prop
  | unfinished (h : Unfinished c.skipTrivia.rest)
  | eof {e : Token} {stop : Nat} {c' : Cursor} (hnext : c.next = .ok (e, c'))
      (h : EndsAt cs o stop e)
  | token {p : Placed} {c' : Cursor} (hnext : c.next = .ok (p.token, c')) (hle : o ≤ p.start)
      (hgap : Trivia (cs.extract o p.start)) (hp : p.Sound cs) (hat : IsAt cs (p.behind cs) c')

theorem IsAt.next (h : IsAt cs o c) : Next cs o c := by
  obtain ⟨n, hat, hmax, hgap⟩ := h.skipTrivia
  have hline : c.skipTrivia.rest.head? ≠ some '\n' := by
    rw [hat.rest_eq]
    exact hgap.ne_newline
  have hfinds := finds_token c.skipTrivia
  generalize hr : c.skipTrivia.token = r at hfinds
  cases hfinds with
  | unfinished h => exact .unfinished h
  | eof hend =>
    refine .eof hr ⟨rfl, rfl, Nat.le_add_right o n, hmax, hgap, ?_, hat.token hline rfl rfl⟩
    rw [← hat.rest_eq]
    exact hend
  | @token t span behind hrest hspan hend hkind hl hk hspells =>
    have hspan_eq : cs.extract (o + n) (o + n + span.length) = span := by
      rw [hat.extract_eq, hrest, List.take_left]
    have hbehind : cs.drop (o + n + span.length) = behind := by
      rw [hat.drop_eq, hrest, List.drop_left]
    have hpos : 0 < span.length := List.length_pos_iff.2 hspan
    have hlength := congrArg List.length hrest
    rw [hat.length_rest, List.length_append] at hlength
    refine .token (p := ⟨t, o + n, o + n + span.length⟩) hr (Nat.le_add_right o n) ?_ ?_ ?_
    · exact hgap.trivia (hat.rest_eq ▸ hend)
    · refine ⟨Nat.lt_add_of_pos_right hpos, ?_, hkind, ?_, hat.token hline hl hk⟩
      · show o + n + span.length ≤ cs.length
        omega
      · rw [Placed.span, hspan_eq, hbehind]
        exact hspells
    · rw [Placed.behind, Placed.span, hspan_eq]
      exact hat.advanceBy (t.reach span)

end

theorem next_of_unfinished (h : Unfinished c.skipTrivia.rest) : c.next = .error .unfinishedEscape :=
  token_of_unfinished h

section

variable {o n : Nat}

theorem BreaksOff.nextUntilEof_eq (hb : BreaksOff c) (hat : IsAt cs o c) (hn : cs.length - o < n) :
    c.nextUntilEof n = .error .unfinishedEscape := by
  obtain ⟨m, rfl⟩ : ∃ m, n = m + 1 := ⟨n - 1, by omega⟩
  induction hb generalizing o m with
  | here h =>
    rw [nextUntilEof, next_of_unfinished h]
    rfl
  | @later c c' t h ht _ ih =>
    cases hat.next with
    | unfinished hu => exact absurd (h.symm.trans (next_of_unfinished hu)) nofun
    | eof hnext hends =>
      obtain ⟨rfl, -⟩ := Prod.mk.inj (Except.ok.inj (h.symm.trans hnext))
      exact absurd hends.kind_eq ht
    | @token p c₂ hnext hle _ hp hat' =>
      obtain ⟨rfl, rfl⟩ := Prod.mk.inj (Except.ok.inj (h.symm.trans hnext))
      -- a token takes text, so the steps that are left suffice for the text that is left
      have hshort : cs.length - p.behind cs < m := by
        have := hp.start_lt
        have := hp.stop_le
        have := hp.stop_le_behind
        omega
      obtain ⟨k, rfl⟩ : ∃ k, m = k + 1 := ⟨m - 1, by omega⟩
      have hrun := ih hat' k hshort
      rw [nextUntilEof, h]
      show (if p.token.kind = .eof then _ else _) = _
      rw [if_neg ht, hrun]
      rfl

/-- Reading up to the end of input takes the text apart. -/
theorem nextUntilEof_eq (hat : IsAt cs o c) (hn : cs.length - o < n) (hb : ¬BreaksOff c) :
    ∃ ps e o' stop c', c.nextUntilEof n = .ok (ps.map Placed.token ++ [e], c') ∧
      ps.length ≤ cs.length - o ∧ Tiles cs o ps o' ∧ EndsAt cs o' stop e := by
  induction n generalizing o c with
  | zero => omega
  | succ n ih =>
    cases hat.next with
    | unfinished hu => exact absurd (.here hu) hb
    | @eof e stop c' hnext hends =>
      refine ⟨[], e, o, stop, c', ?_, Nat.zero_le _, .nil, hends⟩
      rw [nextUntilEof, hnext]
      show (if e.kind = .eof then _ else _) = _
      rw [if_pos hends.kind_eq]
      rfl
    | @token p c' hnext hle hgap hp hat' =>
      have hstart := hp.start_lt
      have hstop := hp.stop_le
      have hbehind := hp.stop_le_behind
      obtain ⟨ps, e, o', stop, c₂, hrun, hlength, htiles, hends⟩ :=
        ih hat' (by omega) fun h => hb (.later hnext hp.kind_ne h)
      refine ⟨p :: ps, e, o', stop, c₂, ?_, ?_, .cons hle hgap hp htiles, hends⟩
      · rw [nextUntilEof, hnext]
        show (if p.token.kind = .eof then _ else _) = _
        rw [if_neg hp.kind_ne, hrun]
        rfl
      · rw [List.length_cons]
        omega

end

end Cursor

/-- Reading a text up to its first end of input either breaks off, in a string literal that the
text leaves inside an escape, or takes the text apart into tokens that know where they are. -/
theorem lex_takes_apart (input : Text) :
    ((Cursor.start input.toList).BreaksOff ∧ lex input 0 = .error .unfinishedEscape) ∨
      (¬(Cursor.start input.toList).BreaksOff ∧
        ∃ ps e o stop, lex input 0 = .ok (ps.map Placed.token ++ [e]) ∧
          ps.length ≤ input.length ∧ Tiles input.toList 0 ps o ∧
          EndsAt input.toList o stop e) := by
  have hat := Cursor.isAt_start input.toList
  have hn : input.toList.length - 0 < input.length + 1 := by
    rw [String.length_toList]
    omega
  by_cases hb : (Cursor.start input.toList).BreaksOff
  · refine .inl ⟨hb, ?_⟩
    rw [lex, hb.nextUntilEof_eq hat hn]
    rfl
  · obtain ⟨ps, e, o, stop, c, hrun, hlength, htiles, hends⟩ := Cursor.nextUntilEof_eq hat hn hb
    rw [String.length_toList, Nat.sub_zero] at hlength
    refine .inr ⟨hb, ps, e, o, stop, ?_, hlength, htiles, hends⟩
    rw [lex, hrun]
    show Except.ok (ps.map Placed.token ++ [e] ++ []) = _
    rw [List.append_nil]

end Flowline.Source
