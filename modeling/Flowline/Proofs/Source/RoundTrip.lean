import Mathlib.Data.List.Forall2
import Flowline.Proofs.Source.Spelling

/-!
# What is printed is read back

Statements are printed one to a line, blocks and switches over several lines, and a list of
statements with line ends between them.  Indentation makes no difference to the words of a text, so
they are the same at any depth (`Stmt.Prints`).

The main statement is `parse_printed`: printing a tree that was read without an error, and that
needs no parentheses, gives a text that is read as the same tree.

It goes through the grammar and not through the parser.  A tree that was read has a derivation, by
soundness.  Along the derivation, `Clause.Derives.printed` finds words that the printed text is cut
into, and from which the tree derives again, on whatever tokens have these words.  The lexer gives
such tokens (`scan_of_writes`), and completeness turns the new derivation into a run of the parser.

All that a statement is printed with ends in a delimiter or a blank, so that its words do not depend
on what stands behind it (`Glues`).  Trees that were not read are left out: a name in them can be any
text.
-/

namespace Flowline.Source

variable {ws : List Word}

/-! ## Fixed pieces of text -/

theorem glues_semicolon : Glues ";" [TokenKind.semicolon.word] :=
  glues_symbol (k := .semicolon) fun _ => rfl

theorem glues_lbrace : Glues "\x7b" [TokenKind.lbrace.word] :=
  glues_symbol (k := .lbrace) fun _ => rfl

theorem glues_rbrace : Glues "\x7d" [TokenKind.rbrace.word] :=
  glues_symbol (k := .rbrace) fun _ => rfl

theorem glues_newline : Glues "\n" [] := glues_blanks (List.all_eq_true.mp (by decide))

theorem glues_pad (indent : Nat) : Glues (Stmt.pad indent) [] := by
  refine glues_blanks fun x hx => ?_
  rw [Stmt.pad, String.toList_ofList] at hx
  rw [List.eq_of_mem_replicate hx]
  decide

variable {ts : List Token} {ss : List Stmt} {e : Expr} {wss : List (List Word)} {k : TokenKind}

theorem glues_keyword {s : Text} (hk : k ∈ TokenKind.keywords) (h : Glues s ws)
    (hsplits : Splits s) : Glues (k.name ++ s) (k.word :: ws) :=
  writes_append (writes_keyword hk) h hsplits

theorem glues_if : Glues "if (" [TokenKind.kwIf.word, TokenKind.lparen.word] :=
  .of_eq (by decide) (glues_keyword (by decide) (glues_append glues_space glues_lparen)
    ⟨' ', ['('], by decide, by decide⟩)

theorem glues_switch : Glues "switch (" [TokenKind.kwSwitch.word, TokenKind.lparen.word] :=
  .of_eq (by decide) (glues_keyword (by decide) (glues_append glues_space glues_lparen)
    ⟨' ', ['('], by decide, by decide⟩)

theorem glues_else : Glues " else " [TokenKind.kwElse.word] :=
  .of_eq (by decide) (glues_append glues_space (glues_keyword (by decide) glues_space
    ⟨' ', [], by decide, by decide⟩))

theorem glues_exit : Glues "exit;" [TokenKind.kwExit.word, TokenKind.semicolon.word] :=
  .of_eq (by decide) (glues_keyword (by decide) glues_semicolon ⟨';', [], by decide, by decide⟩)

theorem glues_return : Glues "return;" [TokenKind.kwReturn.word, TokenKind.semicolon.word] :=
  .of_eq (by decide) (glues_keyword (by decide) glues_semicolon ⟨';', [], by decide, by decide⟩)

theorem glues_assign : Glues " = " [TokenKind.assign.word] := by
  have hspaced : Lexes (fun rest => rest.head? = some ' ') "=" [TokenKind.assign.word] :=
    lexes_spaced (k := .assign) fun _ => rfl
  have hassign := (glues_append glues_space hspaced).append glues_space fun _ _ => rfl
  exact .of_eq (by decide) hassign

theorem glues_rparen_space : Glues ") " [TokenKind.rparen.word] :=
  .of_eq (by decide) (glues_append glues_rparen glues_space)

theorem glues_lbrace_newline : Glues "\x7b\n" [TokenKind.lbrace.word] :=
  .of_eq (by decide) (glues_append glues_lbrace glues_newline)

theorem glues_rparen_lbrace : Glues ") \x7b\n" [TokenKind.rparen.word, TokenKind.lbrace.word] :=
  .of_eq (by decide) (glues_append glues_rparen_space glues_lbrace_newline)

theorem glues_braces : Glues "\x7b\x7d" [TokenKind.lbrace.word, TokenKind.rbrace.word] :=
  .of_eq (by decide) (glues_append glues_lbrace glues_rbrace)

theorem glues_colon_space : Glues ": " [TokenKind.colon.word] :=
  .of_eq (by decide) (glues_append glues_colon glues_space)

theorem glues_colon_newline : Glues ":\n" [TokenKind.colon.word] :=
  .of_eq (by decide) (glues_append glues_colon glues_newline)

/-! ## Words of statements -/

/-- The text of a statement is cut into the given words at any indentation, and tokens with these
words derive it. -/
structure Stmt.Prints (s : Stmt) (ws : List Word) : Prop where
  glues : ∀ indent, Glues (s.textAt indent) ws
  derives : ∀ ts : List Token, ts.map Token.word = ws → (Clause.stmt s).Derives True ts

/-- The text of a block is cut into the given words at any indentation. -/
structure BlockPrints (ss : List Stmt) (ws : List Word) : Prop where
  glues : ∀ indent, Glues (Stmt.blockText indent ss) ws
  derives : ∀ ts : List Token, ts.map Token.word = ws → (Clause.block ss).Derives True ts

/-- The text of the cases of a switch is cut into the given words at any indentation. -/
structure CasesPrint (cs : List Case) (ws : List Word) : Prop where
  glues : ∀ indent, Glues (Stmt.casesText indent cs) ws
  derives : ∀ ts : List Token, ts.map Token.word = ws → (Clause.cases cs).Derives True ts

namespace Stmt

theorem Prints.keyword {s : Stmt} {text : Text} (htext : ∀ indent, s.textAt indent = text)
    (hglues : Glues text [k.word, TokenKind.semicolon.word])
    (hderives : ∀ {kw semi : Token}, kw.kind = k → semi.kind = .semicolon →
      (Clause.stmt s).Derives True [kw, semi]) :
    s.Prints [k.word, TokenKind.semicolon.word] where
  glues indent := htext indent ▸ hglues
  derives ts hts := by
    obtain ⟨kw, rest, rfl, hkw, -, hrest⟩ := cons_of_words hts
    obtain ⟨semi, rfl, hsemi, -⟩ := singleton_of_words hrest
    exact hderives hkw hsemi

theorem Prints.exit : Stmt.exit.Prints [TokenKind.kwExit.word, TokenKind.semicolon.word] :=
  .keyword (fun _ => by rw [textAt]) glues_exit .exit

theorem Prints.ret : Stmt.ret.Prints [TokenKind.kwReturn.word, TokenKind.semicolon.word] :=
  .keyword (fun _ => by rw [textAt]) glues_return .ret

theorem Prints.empty : Stmt.empty.Prints [TokenKind.semicolon.word] where
  glues indent := by
    rw [textAt]
    exact glues_semicolon
  derives ts hts := by
    obtain ⟨semi, rfl, hsemi, -⟩ := singleton_of_words hts
    exact .empty hsemi

theorem Prints.block (h : BlockPrints ss ws) :
    (Stmt.block ss).Prints ws where
  glues indent := by
    rw [textAt]
    exact h.glues indent
  derives ts hts := .nested (h.derives ts hts)

section

variable {c : Expr} {s s' : Stmt} {us vs : List Word}

/-- The tokens of a keyword with something in parentheses behind it. -/
theorem guarded_of_words (hts : ts.map Token.word =
      k.word :: TokenKind.lparen.word :: (us ++ TokenKind.rparen.word :: ws)) :
    ∃ kw lp as rp bs, ts = kw :: lp :: (as ++ rp :: bs) ∧ kw.kind = k ∧ lp.kind = .lparen ∧
      as.map Token.word = us ∧ rp.kind = .rparen ∧ bs.map Token.word = ws := by
  obtain ⟨kw, rest, rfl, hkw, -, hrest⟩ := cons_of_words hts
  obtain ⟨lp, rest, rfl, hlp, -, hrest⟩ := cons_of_words hrest
  obtain ⟨as, rest, rfl, has, hrest⟩ := List.map_eq_append_iff.mp hrest
  obtain ⟨rp, bs, rfl, hrp, -, hbs⟩ := cons_of_words hrest
  exact ⟨kw, lp, as, rp, bs, rfl, hkw, hlp, has, hrp, hbs⟩

theorem glues_condition (hc : c.Prints us) : Glues ("if (" ++ c.text ++ ") ")
    (TokenKind.kwIf.word :: TokenKind.lparen.word :: (us ++ [TokenKind.rparen.word])) :=
  writes_append (glues_append glues_if hc.writes) glues_rparen_space ⟨')', [' '], rfl, by decide⟩

theorem Prints.ifThen (hc : c.Prints us) (h : s.Prints vs) :
    (Stmt.ifThen c s).Prints (TokenKind.kwIf.word :: TokenKind.lparen.word ::
      (us ++ TokenKind.rparen.word :: vs)) where
  glues indent := by
    have htext := glues_append (glues_condition hc) (h.glues indent)
    rw [textAt]
    simpa only [List.append_assoc, List.cons_append, List.nil_append] using htext
  derives ts hts := by
    obtain ⟨kw, lp, as, rp, bs, rfl, hkw, hlp, has, hrp, hbs⟩ := guarded_of_words hts
    exact .ifThen hkw hlp (hc.anywhere has) hrp (h.derives bs hbs)

theorem Prints.ifElse (hc : c.Prints us) (h : s.Prints vs) (hclosed : s.isOpen = false)
    (h' : s'.Prints ws) :
    (Stmt.ifElse c s s').Prints (TokenKind.kwIf.word :: TokenKind.lparen.word ::
      (us ++ TokenKind.rparen.word :: (vs ++ TokenKind.kwElse.word :: ws))) where
  glues indent := by
    have hthen := glues_append (glues_condition hc) (h.glues indent)
    have htext := glues_append (glues_append hthen glues_else) (h'.glues indent)
    rw [textAt]
    simpa only [List.append_assoc, List.cons_append, List.nil_append] using htext
  derives ts hts := by
    obtain ⟨kw, lp, as, rp, rest, rfl, hkw, hlp, has, hrp, hrest⟩ := guarded_of_words hts
    obtain ⟨bs, cs, rfl, hbs, hcs⟩ := List.map_eq_append_iff.mp hrest
    obtain ⟨alt, cs, rfl, halt, -, hcs⟩ := cons_of_words hcs
    exact .ifElse hkw hlp (hc.anywhere has) hrp (h.derives bs hbs) (fun _ => hclosed) halt
      (h'.derives cs hcs)

theorem Prints.switch {cs : List Case} (hc : c.Prints us) (h : CasesPrint cs ws) :
    (Stmt.switch c cs).Prints (TokenKind.kwSwitch.word :: TokenKind.lparen.word ::
      (us ++ TokenKind.rparen.word :: TokenKind.lbrace.word ::
        (ws ++ [TokenKind.rbrace.word]))) where
  glues indent := by
    have hsubject := glues_append glues_switch hc.writes
    have hopen := writes_append hsubject glues_rparen_lbrace
      ⟨')', [' ', '\x7b', '\n'], rfl, by decide⟩
    have hcases := glues_append (glues_append hopen (h.glues (indent + 1))) (glues_pad indent)
    have htext := glues_append hcases glues_rbrace
    rw [textAt]
    simpa only [List.append_assoc, List.cons_append, List.nil_append] using htext
  derives ts hts := by
    obtain ⟨kw, lp, as, rp, rest, rfl, hkw, hlp, has, hrp, hrest⟩ := guarded_of_words hts
    obtain ⟨lb, rest, rfl, hlb, -, hrest⟩ := cons_of_words hrest
    obtain ⟨bs, ds, rfl, hbs, hds⟩ := List.map_eq_append_iff.mp hrest
    obtain ⟨rb, rfl, hrb, -⟩ := singleton_of_words hds
    exact .switch hkw hlp (hc.anywhere has) hrp hlb (h.derives bs hbs) hrb

end

/-- The tokens of what starts with a name start with an identifier. -/
theorem head_of_rooted (h : e.Prints ws) (hrooted : e.isRooted = true)
    (hts : ts.map Token.word = ws) : ts.head?.map Token.kind = some .ident := by
  have hfirst := h.rooted hrooted
  rw [← hts, List.head?_map, Option.map_map] at hfirst
  exact hfirst

theorem tightness_of_rooted (h : e.isRooted = true) : e.tightness = 4 := by
  cases e <;> first | rfl | cases h

theorem Prints.assign {left right : Expr} {us vs : List Word} (hrooted : left.isRooted = true)
    (hl : left.Prints us) (hr : right.Prints vs) :
    (Stmt.assign left right).Prints
      (us ++ TokenKind.assign.word :: (vs ++ [TokenKind.semicolon.word])) where
  glues indent := by
    have hassign := writes_append hl.writes glues_assign ⟨' ', ['=', ' '], rfl, by decide⟩
    have hright := glues_append hassign hr.writes
    have htext := writes_append hright glues_semicolon ⟨';', [], rfl, by decide⟩
    rw [textAt]
    simpa only [List.append_assoc, List.cons_append, List.nil_append] using htext
  derives ts hts := by
    obtain ⟨as, rest, rfl, has, hrest⟩ := List.map_eq_append_iff.mp hts
    obtain ⟨eq, rest, rfl, heq, -, hrest⟩ := cons_of_words hrest
    obtain ⟨bs, cs, rfl, hbs, hcs⟩ := List.map_eq_append_iff.mp hrest
    obtain ⟨semi, rfl, hsemi, -⟩ := singleton_of_words hcs
    have hleft := hl.suffixed (tightness_of_rooted hrooted) has
    exact .assign (head_of_rooted hl hrooted has) hleft heq (hr.anywhere hbs) hsemi

theorem Prints.call {target : Option Text} {method : Text} {es : List Expr} {us : List Word}
    (h : (Expr.call target method es).Prints us) :
    (Stmt.call target method es).Prints (us ++ [TokenKind.semicolon.word]) where
  glues indent := by
    rw [textAt]
    exact writes_append h.writes glues_semicolon ⟨';', [], rfl, by decide⟩
  derives ts hts := by
    obtain ⟨as, bs, rfl, has, hbs⟩ := List.map_eq_append_iff.mp hts
    obtain ⟨semi, rfl, hsemi, -⟩ := singleton_of_words hbs
    exact .call (head_of_rooted h rfl has) (h.suffixed rfl has) hsemi

end Stmt

/-! ## Blocks and cases -/

/-- Statements are cut into the given lists of words, one for each. -/
abbrev StmtsPrint (ss : List Stmt) (wss : List (List Word)) : Prop :=
  List.Forall₂ Stmt.Prints ss wss

theorem StmtsPrint.derives (h : StmtsPrint ss wss) (hts : ts.map Token.word = wss.flatten) :
    (Clause.stmts ss).Derives True ts := by
  induction h generalizing ts with
  | nil =>
    rw [List.map_eq_nil_iff.mp hts]
    exact .nil
  | cons hs _ ih =>
    obtain ⟨as, bs, rfl, has, hbs⟩ := List.map_eq_append_iff.mp hts
    exact .cons (hs.derives as has) (ih hbs)

/-- Statements one to a line, as they stand in a block. -/
theorem StmtsPrint.glues_linesText (h : StmtsPrint ss wss) (indent : Nat) :
    Glues (Stmt.linesText indent ss) wss.flatten := by
  induction h with
  | nil =>
    rw [Stmt.linesText]
    exact glues_empty
  | cons hs _ ih =>
    have hline := glues_append (glues_append (glues_pad indent) (hs.glues indent)) glues_newline
    have htext := glues_append hline ih
    rw [Stmt.linesText]
    simpa only [List.append_nil, List.nil_append, List.flatten_cons] using htext

/-- Statements with line ends between them, as they stand in a text of their own. -/
theorem StmtsPrint.glues_intercalate (h : StmtsPrint ss wss) :
    Glues ("\n".intercalate (ss.map Stmt.text)) wss.flatten := by
  induction h with
  | nil => exact glues_empty
  | cons hs hss ih =>
    cases hss with
    | nil =>
      rw [List.flatten_singleton]
      exact hs.glues 0
    | cons =>
      have htext := glues_append (glues_append (hs.glues 0) glues_newline) ih
      rw [List.append_nil] at htext
      rw [List.map_cons, List.map_cons, String.intercalate_cons_cons]
      exact htext

theorem blockPrints_nil : BlockPrints [] [TokenKind.lbrace.word, TokenKind.rbrace.word] where
  glues indent := by
    rw [Stmt.blockText]
    exact glues_braces
  derives ts hts := by
    obtain ⟨lb, rest, rfl, hlb, -, hrest⟩ := cons_of_words hts
    obtain ⟨rb, rfl, hrb, -⟩ := singleton_of_words hrest
    exact .braces hlb .nil hrb

theorem StmtsPrint.exists_blockPrints (h : StmtsPrint ss wss) : ∃ ws, BlockPrints ss ws := by
  cases ss with
  | nil => exact ⟨_, blockPrints_nil⟩
  | cons s ss =>
    refine ⟨TokenKind.lbrace.word :: (wss.flatten ++ [TokenKind.rbrace.word]),
      fun indent => ?_, fun ts hts => ?_⟩
    · have hinner := glues_append glues_lbrace_newline (h.glues_linesText (indent + 1))
      have htext := glues_append (glues_append hinner (glues_pad indent)) glues_rbrace
      rw [Stmt.blockText]
      simpa only [List.append_assoc, List.cons_append, List.nil_append] using htext
    · obtain ⟨lb, rest, rfl, hlb, -, hrest⟩ := cons_of_words hts
      obtain ⟨as, bs, rfl, has, hbs⟩ := List.map_eq_append_iff.mp hrest
      obtain ⟨rb, rfl, hrb, -⟩ := singleton_of_words hbs
      exact .braces hlb (h.derives has) hrb

/-- The text of a label is cut into the given words. -/
structure LabelPrints (label : Text) (w : Word) : Prop where
  writes : Writes label [w]
  isLabel : ∀ t : Token, t.word = w → IsLabel t label

theorem exists_labelPrints {t : Token} {label : Text} (h : IsLabel t label) (hread : t.IsRead) :
    ∃ w, LabelPrints label w := by
  cases h with
  | name ht =>
    refine ⟨(.ident, t.literal), writes_ident (hread.ident ht), fun t' ht' => ?_⟩
    have hliteral : t'.literal = t.literal := congrArg Prod.snd ht'
    rw [← hliteral]
    exact .name (congrArg Prod.fst ht')
  | default ht =>
    refine ⟨TokenKind.kwDefault.word, writes_keyword (k := .kwDefault) (by decide),
      fun t' ht' => ?_⟩
    exact .default (congrArg Prod.fst ht')

theorem casesPrint_nil : CasesPrint [] [] where
  glues indent := by
    rw [Stmt.casesText]
    exact glues_empty
  derives ts hts := by
    rw [List.map_eq_nil_iff.mp hts]
    exact .noCases

section

variable {label : Text} {w : Word} {cs : List Case} {us : List Word}

theorem CasesPrint.bare (hlabel : LabelPrints label w) (h : CasesPrint cs ws) :
    CasesPrint (.bare label :: cs) (w :: TokenKind.colon.word :: ws) where
  glues indent := by
    have hname := glues_append (glues_pad indent) hlabel.writes
    have hcolon := writes_append hname glues_colon_newline ⟨':', ['\n'], rfl, by decide⟩
    have htext := glues_append hcolon (h.glues indent)
    rw [Stmt.casesText]
    simpa only [List.append_assoc, List.cons_append, List.nil_append] using htext
  derives ts hts := by
    obtain ⟨t, as, rfl, ht, has⟩ := List.map_eq_cons_iff.mp hts
    obtain ⟨colon, as, rfl, hcolon, -, has⟩ := cons_of_words has
    exact .bare (hlabel.isLabel t ht) hcolon (h.derives as has)

theorem CasesPrint.arm {body : List Stmt} (hlabel : LabelPrints label w)
    (hbody : BlockPrints body us) (h : CasesPrint cs ws) :
    CasesPrint (.arm label body :: cs) (w :: TokenKind.colon.word :: (us ++ ws)) where
  glues indent := by
    have hname := glues_append (glues_pad indent) hlabel.writes
    have hcolon := writes_append hname glues_colon_space ⟨':', [' '], rfl, by decide⟩
    have hblock := glues_append (glues_append hcolon (hbody.glues indent)) glues_newline
    have htext := glues_append hblock (h.glues indent)
    rw [Stmt.casesText]
    simpa only [List.append_assoc, List.cons_append, List.nil_append] using htext
  derives ts hts := by
    obtain ⟨t, rest, rfl, ht, hrest⟩ := List.map_eq_cons_iff.mp hts
    obtain ⟨colon, rest, rfl, hcolon, -, hrest⟩ := cons_of_words hrest
    obtain ⟨as, bs, rfl, has, hbs⟩ := List.map_eq_append_iff.mp hrest
    exact .arm (hlabel.isLabel t ht) hcolon (hbody.derives as has) (h.derives bs hbs)

end

/-! ## Statements of texts -/

/-- What starts with an identifier starts with a name. -/
def Phrase.Rooted : Phrase → List Token → Prop
  | .suffixed e, ts | .primary e, ts => ts.head?.map Token.kind = some .ident → e.isRooted = true
  | _, _ => True

/-- The first token of an expression with a suffix is that of the expression. -/
theorem Phrase.Derives.head?_append {us : List Token} (h : (Phrase.suffixed e).Derives ts) :
    (ts ++ us).head? = ts.head? := by
  obtain ⟨t, ts, rfl, -⟩ := h.starts
  rfl

theorem Phrase.Derives.rooted {x : Phrase} (h : x.Derives ts) : x.Rooted ts := by
  induction h with
  | plain _ ih => exact ih
  | @member e _ _ _ h _ _ ih =>
    intro hfirst
    rw [h.head?_append] at hfirst
    have hrooted := ih hfirst
    cases e with
    | path => rfl
    | _ => exact hrooted
  | call => exact fun _ => rfl
  | slice h _ _ _ _ _ ih =>
    intro hfirst
    rw [h.head?_append] at hfirst
    exact ih hfirst
  | literal ht | yes ht | no ht | parens ht =>
    intro hfirst
    have hkind := Option.some.inj hfirst
    rw [ht] at hkind
    cases hkind
  | name => exact fun _ => rfl
  | _ => trivial

/-- The trees of a nonterminal can be printed if they are printable. -/
def Clause.Printed : Clause → Prop
  | .stmt s => s.Printable → ∃ ws, s.Prints ws
  | .block ss | .stmts ss => PrintableStmts ss → ∃ wss, StmtsPrint ss wss
  | .cases cs => PrintableCases cs → ∃ ws, CasesPrint cs ws

theorem exists_prints (h : (Phrase.level .or e).Derives ts) (hread : ∀ t ∈ ts, t.IsRead)
    (hprintable : e.Printable) : ∃ ws, e.Prints ws :=
  e.exists_prints_of_spelled (h.spelled hread) hprintable

theorem Clause.Derives.printed {x : Clause} (h : x.Derives True ts) (hread : ∀ t ∈ ts, t.IsRead) :
    x.Printed := by
  induction h with
  | braces _ _ _ ih =>
    rw [List.forall_mem_cons, List.forall_mem_append] at hread
    exact ih hread.2.1
  | nested _ ih =>
    intro hprintable
    obtain ⟨wss, hwss⟩ := ih hread hprintable.2
    obtain ⟨ws, hws⟩ := hwss.exists_blockPrints
    exact ⟨ws, .block hws⟩
  | ifThen _ _ hc _ _ ih =>
    simp only [List.forall_mem_cons, List.forall_mem_append] at hread
    intro hprintable
    obtain ⟨us, hus⟩ := exists_prints hc hread.2.2.1 hprintable.1
    obtain ⟨vs, hvs⟩ := ih hread.2.2.2.2 hprintable.2
    exact ⟨_, .ifThen hus hvs⟩
  | ifElse _ _ hc _ _ hclosed _ _ ih ih' =>
    simp only [List.forall_mem_cons, List.forall_mem_append] at hread
    intro hprintable
    obtain ⟨us, hus⟩ := exists_prints hc hread.2.2.1 hprintable.1
    obtain ⟨vs, hvs⟩ := ih hread.2.2.2.2.1 hprintable.2.1
    obtain ⟨ws, hws⟩ := ih' hread.2.2.2.2.2.2 hprintable.2.2
    exact ⟨_, .ifElse hus hvs (hclosed trivial) hws⟩
  | switch _ _ hx _ _ _ _ ih =>
    simp only [List.forall_mem_cons, List.forall_mem_append] at hread
    intro hprintable
    obtain ⟨us, hus⟩ := exists_prints hx hread.2.2.1 hprintable.1
    obtain ⟨ws, hws⟩ := ih hread.2.2.2.2.2.1 hprintable.2
    exact ⟨_, .switch hus hws⟩
  | exit => exact fun _ => ⟨_, .exit⟩
  | ret => exact fun _ => ⟨_, .ret⟩
  | empty => exact fun _ => ⟨_, .empty⟩
  | assign hfirst hl _ hr _ =>
    simp only [List.forall_mem_cons, List.forall_mem_append] at hread
    intro hprintable
    obtain ⟨us, hus⟩ := Expr.exists_prints_of_spelled _ (hl.spelled hread.1) hprintable.1
    obtain ⟨vs, hvs⟩ := exists_prints hr hread.2.2.1 hprintable.2
    exact ⟨_, .assign (hl.rooted hfirst) hus hvs⟩
  | call _ hl _ =>
    rw [List.forall_mem_append] at hread
    intro hprintable
    obtain ⟨us, hus⟩ := Expr.exists_prints_of_spelled _ (hl.spelled hread.1) hprintable
    exact ⟨_, .call hus⟩
  | nil => exact fun _ => ⟨[], .nil⟩
  | cons _ _ ih ihs =>
    rw [List.forall_mem_append] at hread
    intro hprintable
    obtain ⟨us, hus⟩ := ih hread.1 hprintable.1
    obtain ⟨wss, hwss⟩ := ihs hread.2 hprintable.2
    exact ⟨us :: wss, .cons hus hwss⟩
  | noCases => exact fun _ => ⟨_, casesPrint_nil⟩
  | bare ht _ _ ih =>
    simp only [List.forall_mem_cons] at hread
    intro hprintable
    obtain ⟨w, hw⟩ := exists_labelPrints ht hread.1
    obtain ⟨ws, hws⟩ := ih hread.2.2 hprintable
    exact ⟨_, .bare hw hws⟩
  | arm ht _ _ _ ih ihs =>
    simp only [List.forall_mem_cons, List.forall_mem_append] at hread
    intro hprintable
    obtain ⟨w, hw⟩ := exists_labelPrints ht hread.1
    obtain ⟨uss, huss⟩ := ih hread.2.2.1 hprintable.1
    obtain ⟨us, hus⟩ := huss.exists_blockPrints
    obtain ⟨ws, hws⟩ := ihs hread.2.2.2 hprintable.2
    exact ⟨_, .arm hw hus hws⟩

/-! ## Texts -/

/-- A text that is cut into words is cut into tokens with these words, and does not break off. -/
theorem scan_of_writes {s : Text} (h : Writes s ws) :
    (scan s).tokens.map Token.word = ws ∧ (scan s).fault = none := by
  have hstart : (Cursor.start s.toList).rest = s.toList ++ [] := by
    rw [Cursor.start, Cursor.arrive_rest, List.append_nil]
  obtain ⟨c, hend, hyields⟩ := h _ [] hstart nofun
  refine hyields.scanFrom_eq hend ?_
  rw [hstart, List.append_nil, String.length_toList]
  exact Nat.lt_succ_self _

theorem beforeEnd_of_noEnd (h : NoEnd ts) : beforeEnd ts = ts := by
  refine List.takeWhile_eq_self_iff.mpr fun t ht => ?_
  exact decide_eq_true (h t ht)

/-- Statements that can be printed are read back. -/
theorem StmtsPrint.parseStatements (h : StmtsPrint ss wss) :
    parseStatements ("\n".intercalate (ss.map Stmt.text)) = .ok ⟨ss, []⟩ := by
  obtain ⟨hwords, hfault⟩ := scan_of_writes (writes_of_glues h.glues_intercalate)
  have hderives := h.derives hwords
  refine parseStatements_of_derives hfault ?_
  rw [tokensOf, beforeEnd_of_noEnd hderives.known.noEnd]
  exact hderives

/-- An expression that can be printed is read back. -/
theorem Expr.Prints.parseExpression (h : e.Prints ws) :
    parseExpression e.text = .ok ⟨some e, []⟩ := by
  obtain ⟨hwords, hfault⟩ := scan_of_writes h.writes
  have hderives := h.anywhere hwords
  refine parseExpression_of_derives hfault ?_
  rw [tokensOf, beforeEnd_of_noEnd hderives.known.noEnd]
  exact hderives

/-- Printing is undone by reading: a tree that was read without an error, and that needs no
parentheses, is what its text is read as, again without an error. -/
theorem parse_printed (input : Text) :
    (∀ p, parseStatements input = .ok p → p.errors = [] → PrintableStmts p.tree →
      parseStatements ("\n".intercalate (p.tree.map Stmt.text)) = .ok ⟨p.tree, []⟩) ∧
    ∀ p, parseExpression input = .ok p → p.errors = [] →
      ∃ e, p.tree = some e ∧ (e.Printable → parseExpression e.text = .ok ⟨some e, []⟩) := by
  refine ⟨fun p h hquiet hprintable => ?_, fun p h hquiet => ?_⟩
  · have hderives := derives_of_parseStatements h hquiet
    obtain ⟨wss, hwss⟩ := hderives.printed (isRead_tokensOf input) hprintable
    exact hwss.parseStatements
  · obtain ⟨e, htree, hderives⟩ := derives_of_parseExpression h hquiet
    refine ⟨e, htree, fun hprintable => ?_⟩
    obtain ⟨ws, hws⟩ := exists_prints hderives (isRead_tokensOf input) hprintable
    exact hws.parseExpression

/-- Statements with parentheses, blanks and a digit that are printed otherwise. -/
def looseText : Text :=
  "if ((h.a[7:0] == 0x1F) && !(h.e.isValid()))\n" ++
  "switch (t.apply().action_run) \x7bx: default: \x7bh.a = (bit<8>) (8w3); f();\x7d\x7d else exit;"

/-- A condition with parentheses that make no difference. -/
def looseCondition : Text := "(((a)) != 0b101) || true && !((bool) (m))"

theorem parse_printed_looseText :
    (∃ p, parseStatements looseText = .ok p ∧ p.errors = [] ∧ PrintableStmts p.tree ∧
      parseStatements ("\n".intercalate (p.tree.map Stmt.text)) = .ok ⟨p.tree, []⟩) ∧
    ∃ p e, parseExpression looseCondition = .ok p ∧ p.errors = [] ∧ p.tree = some e ∧
      e.Printable ∧ parseExpression e.text = .ok ⟨some e, []⟩ := by
  refine ⟨?_, ?_⟩
  · have hread : ((parseStatements looseText).toOption.any fun p =>
        p.errors = [] ∧ PrintableStmts p.tree) = true := by decide +kernel
    cases h : parseStatements looseText with
    | error =>
      rw [h] at hread
      cases hread
    | ok p =>
      rw [h] at hread
      obtain ⟨hquiet, hprintable⟩ := of_decide_eq_true hread
      exact ⟨p, rfl, hquiet, hprintable, (parse_printed looseText).1 p h hquiet hprintable⟩
  · have hread : ((parseExpression looseCondition).toOption.any fun p =>
        p.errors = [] ∧ ∀ e ∈ p.tree, e.Printable) = true := by decide +kernel
    cases h : parseExpression looseCondition with
    | error =>
      rw [h] at hread
      cases hread
    | ok p =>
      rw [h] at hread
      obtain ⟨hquiet, hprintable⟩ := of_decide_eq_true hread
      obtain ⟨e, he, hback⟩ := (parse_printed looseCondition).2 p h hquiet
      exact ⟨p, e, rfl, hquiet, he, hprintable e he, hback (hprintable e he)⟩

end Flowline.Source
