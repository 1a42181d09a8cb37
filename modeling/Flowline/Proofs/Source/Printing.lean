import Flowline.Proofs.Source.Literals
import Flowline.Proofs.Source.Texts

/-!
# Printing and parsing

Trees are printed without parentheses.  So what is printed is read as the same tree only if each
operand binds as tightly as its place asks for, and if literals say all about themselves
(`Expr.Printable`, `Stmt.Printable`).  This is all that it takes, for trees that were read from a
text without an error.

`Prints` says for a tree into which words its text is cut, and that tokens with these words derive
the tree.  It is shown along the derivation of the tree from the text it was read from, in which
parentheses and the places of tokens are the only things that printing changes.
-/

namespace Flowline.Source

variable {ws : List Word} {e : Expr}

/-! ## Trees that need no parentheses -/

/-- How tightly an operator binds. -/
def BinaryOp.tightness : BinaryOp → Nat
  | .or | .mask => 0
  | .and => 1
  | .eq | .ne => 2

/-- How tightly an expression holds together: by its operator, as a unary expression, or as one
with suffixes. -/
def Expr.tightness : Expr → Nat
  | .binary op _ _ => op.tightness
  | .negation _ | .cast _ _ => 3
  | _ => 4

mutual

/-- Each operand of an expression binds as tightly as its place asks for, and literals are plain. -/
def Expr.Printable : Expr → Prop
  | .literal l => l.Plain
  | .call _ _ args => PrintableArgs args
  | .member base _ => base.tightness = 4 ∧ base.Printable
  | .binary op left right =>
    (op.tightness ≤ left.tightness ∧ left.Printable) ∧
      op.tightness < right.tightness ∧ right.Printable
  | .negation e => 3 ≤ e.tightness ∧ e.Printable
  | .slice e _ _ => e.tightness = 4 ∧ e.Printable
  | .cast _ e => 3 ≤ e.tightness ∧ e.Printable
  | _ => True

def PrintableArgs : List Expr → Prop
  | [] => True
  | e :: es => e.Printable ∧ PrintableArgs es

end

mutual

instance Expr.decidablePrintable : (e : Expr) → Decidable e.Printable
  | .literal l => inferInstanceAs (Decidable l.Plain)
  | .call _ _ args => decidablePrintableArgs args
  | .member base _ =>
    have := base.decidablePrintable
    inferInstanceAs (Decidable (base.tightness = 4 ∧ base.Printable))
  | .binary op left right =>
    have := left.decidablePrintable
    have := right.decidablePrintable
    inferInstanceAs (Decidable ((op.tightness ≤ left.tightness ∧ left.Printable) ∧
      op.tightness < right.tightness ∧ right.Printable))
  | .negation e | .cast _ e =>
    have := e.decidablePrintable
    inferInstanceAs (Decidable (3 ≤ e.tightness ∧ e.Printable))
  | .slice e _ _ =>
    have := e.decidablePrintable
    inferInstanceAs (Decidable (e.tightness = 4 ∧ e.Printable))
  | .missing | .path _ | .field _ | .localVar _ | .param _ _ | .valid _ | .hit _ _ | .actionRun _
  | .truth _ | .any => inferInstanceAs (Decidable True)

instance decidablePrintableArgs : (es : List Expr) → Decidable (PrintableArgs es)
  | [] => inferInstanceAs (Decidable True)
  | e :: es =>
    have := e.decidablePrintable
    have := decidablePrintableArgs es
    inferInstanceAs (Decidable (e.Printable ∧ PrintableArgs es))

end

/-- The arguments of a call are printable. -/
def Stmt.PrintableCall : Stmt → Prop
  | .call _ _ args => PrintableArgs args
  | _ => True

instance : DecidablePred Stmt.PrintableCall
  | .call _ _ args => decidablePrintableArgs args
  | .block _ | .ifThen .. | .ifElse .. | .switch .. | .apply _ | .exit | .ret | .empty
  | .assign .. => inferInstanceAs (Decidable True)

/-- The expressions of a statement are printable. -/
abbrev Stmt.Printable : Stmt → Prop := Stmt.Each (Stmt.Own Expr.Printable Stmt.PrintableCall)

abbrev PrintableStmts : List Stmt → Prop := EachStmt (Stmt.Own Expr.Printable Stmt.PrintableCall)

abbrev PrintableCases : List Case → Prop := EachCase (Stmt.Own Expr.Printable Stmt.PrintableCall)

/-! ## Fixed pieces of text -/

theorem glues_symbol {k : TokenKind} (h : ∀ rest, symbol? (k.name.toList ++ rest) = some k) :
    Glues k.name [k.word] := lexes_symbol (fun rest _ => h rest) ⟨[], trivial⟩

theorem glues_lparen : Glues "(" [TokenKind.lparen.word] := glues_symbol (k := .lparen) fun _ => rfl

theorem glues_rparen : Glues ")" [TokenKind.rparen.word] := glues_symbol (k := .rparen) fun _ => rfl

theorem glues_dot : Glues "." [TokenKind.dot.word] := glues_symbol (k := .dot) fun _ => rfl

theorem glues_lbracket : Glues "[" [TokenKind.lbracket.word] :=
  glues_symbol (k := .lbracket) fun _ => rfl

theorem glues_rbracket : Glues "]" [TokenKind.rbracket.word] :=
  glues_symbol (k := .rbracket) fun _ => rfl

theorem glues_colon : Glues ":" [TokenKind.colon.word] := glues_symbol (k := .colon) fun _ => rfl

theorem glues_lt : Glues "<" [TokenKind.lt.word] := glues_symbol (k := .lt) fun _ => rfl

theorem glues_gt : Glues ">" [TokenKind.gt.word] := glues_symbol (k := .gt) fun _ => rfl

theorem glues_space : Glues " " [] := glues_blanks (List.all_eq_true.mp (by decide))

theorem glues_comma : Glues ", " [TokenKind.comma.word] :=
  .of_eq (by decide) (glues_append (glues_symbol (k := .comma) fun _ => rfl) glues_space)

variable {k : TokenKind} {ts : List Token} {us : List Word} {l : Level} {op : BinaryOp}
  {type : ValueType}

theorem lexes_spaced (h : ∀ cs, symbol? (k.name.toList ++ ' ' :: cs) = some k) :
    Lexes (fun rest => rest.head? = some ' ') k.name [k.word] := by
  refine lexes_symbol (fun rest hrest => ?_) ⟨[' '], rfl⟩
  obtain ⟨cs, rfl⟩ := List.head?_eq_some_iff.mp hrest
  exact h cs

theorem lexes_operator (h : Joins l k op) :
    Lexes (fun rest => rest.head? = some ' ') op.symbol [k.word] := by
  cases h with
  | or => exact lexes_spaced (k := .or) fun _ => rfl
  | and => exact lexes_spaced (k := .and) fun _ => rfl
  | eq => exact lexes_spaced (k := .eq) fun _ => rfl
  | ne => exact lexes_spaced (k := .ne) fun _ => rfl

/-- The mark of negation in front of anything but an equals sign. -/
theorem lexes_not : Lexes (fun rest => rest.head? ≠ some '=') "!" [TokenKind.not.word] := by
  refine lexes_symbol (k := .not) (fun rest hrest => ?_) ⟨[], nofun⟩
  cases rest with
  | nil => rfl
  | cons x cs =>
    have hx : x ≠ '=' := fun h => hrest (h ▸ rfl)
    show symbol? ('!' :: x :: cs) = some .not
    rw [symbol?]
    exact fun _ htail => hx (List.cons.inj htail).1

/-! ## Levels -/

/-- The nonterminal of expressions that bind at least as tightly as given. -/
def phraseAt : Nat → Expr → Phrase
  | 0, e => .level .or e
  | 1, e => .level .and e
  | 2, e => .level .eq e
  | 3, e => .unary e
  | _, e => .suffixed e

theorem derives_loosen {n : Nat} (h : (phraseAt (n + 1) e).Derives ts) :
    (phraseAt n e).Derives ts := by
  match n with
  | 0 => exact .operand (l := .or) h
  | 1 => exact .operand (l := .and) h
  | 2 => exact .operand (l := .eq) h
  | 3 => exact .bare h
  | n + 4 => exact h

/-- What binds tightly stands also where less is asked for. -/
theorem derives_of_le {m n : Nat} (hle : m ≤ n) (h : (phraseAt n e).Derives ts) :
    (phraseAt m e).Derives ts := by
  induction hle with
  | refl => exact h
  | step _ ih => exact ih (derives_loosen h)

/-- The operators of a level bind as tightly as the level. -/
theorem Joins.phraseAt_eq (h : Joins l k op) (e : Expr) :
    phraseAt op.tightness e = .level l e ∧ phraseAt (op.tightness + 1) e = l.operand e := by
  cases h <;> exact ⟨rfl, rfl⟩

/-! ## Words of expressions -/

/-- Whether an expression starts with a name. -/
def Expr.isRooted : Expr → Bool
  | .path _ | .call _ _ _ => true
  | .member base _ => base.isRooted
  | .slice e _ _ => e.isRooted
  | _ => false

/-- The text of an expression is cut into the given words, and tokens with these words derive it. -/
structure Expr.Prints (e : Expr) (ws : List Word) : Prop where
  writes : Writes e.text ws
  starts : ∃ x cs, e.text.toList = x :: cs ∧ x ≠ '='
  rooted : e.isRooted = true → ws.head?.map Prod.fst = some .ident
  derives : ∀ ts : List Token, ts.map Token.word = ws → (phraseAt e.tightness e).Derives ts

theorem cons_of_words {literal : Text} (h : ts.map Token.word = (k, literal) :: ws) :
    ∃ t us, ts = t :: us ∧ t.kind = k ∧ t.literal = literal ∧ us.map Token.word = ws := by
  obtain ⟨t, us, rfl, ht, hus⟩ := List.map_eq_cons_iff.mp h
  exact ⟨t, us, rfl, congrArg Prod.fst ht, congrArg Prod.snd ht, hus⟩

theorem singleton_of_words {literal : Text} (h : ts.map Token.word = [(k, literal)]) :
    ∃ t, ts = [t] ∧ t.kind = k ∧ t.literal = literal := by
  obtain ⟨t, us, rfl, hkind, hliteral, hus⟩ := cons_of_words h
  rw [List.map_eq_nil_iff.mp hus]
  exact ⟨t, rfl, hkind, hliteral⟩

theorem starts_append {s s' : Text} (h : ∃ x cs, s.toList = x :: cs ∧ x ≠ '=') :
    ∃ x cs, (s ++ s').toList = x :: cs ∧ x ≠ '=' := by
  obtain ⟨x, cs, hs, hx⟩ := h
  exact ⟨x, cs ++ s'.toList, by rw [String.toList_append, hs, List.cons_append], hx⟩

theorem head?_append_word (h : us.head?.map Prod.fst = some .ident) :
    (us ++ ws).head?.map Prod.fst = some .ident := by
  cases us with
  | nil => cases h
  | cons u us => exact h

namespace Expr

theorem Prints.name {w : Text} (hw : IsIdent w) : (Expr.path w).Prints [(.ident, w)] where
  writes := writes_ident hw
  starts := by
    obtain ⟨x, cs, hs, hx⟩ := hw.first
    refine ⟨x, cs, hs, ?_⟩
    rintro rfl
    exact absurd hx (by decide)
  rooted _ := rfl
  derives ts hts := by
    obtain ⟨t, rfl, hkind, rfl⟩ := singleton_of_words hts
    exact .plain (.name hkind)

theorem Prints.literal {l : Literal} (hplain : l.Plain) (hvalue : 0 ≤ l.value) :
    (Expr.literal l).Prints [(.int, l.text)] where
  writes := Literal.writes_text hplain hvalue
  starts := by
    obtain ⟨x, cs, hs, hx, -⟩ := Literal.text_isNumber hplain hvalue
    refine ⟨x, cs, hs, ?_⟩
    rintro rfl
    exact absurd hx (by decide)
  rooted := nofun
  derives ts hts := by
    obtain ⟨t, rfl, hkind, hliteral⟩ := singleton_of_words hts
    refine .plain (.literal hkind ?_)
    rw [hliteral]
    exact Literal.parse_text hplain hvalue

theorem Prints.yes : (Expr.truth true).Prints [TokenKind.kwTrue.word] where
  writes := writes_keyword (k := .kwTrue) (by decide)
  starts := ⟨'t', _, rfl, by decide⟩
  rooted := nofun
  derives ts hts := by
    obtain ⟨t, rfl, hkind, -⟩ := singleton_of_words hts
    exact .plain (.yes hkind)

theorem Prints.no : (Expr.truth false).Prints [TokenKind.kwFalse.word] where
  writes := writes_keyword (k := .kwFalse) (by decide)
  starts := ⟨'f', _, rfl, by decide⟩
  rooted := nofun
  derives ts hts := by
    obtain ⟨t, rfl, hkind, -⟩ := singleton_of_words hts
    exact .plain (.no hkind)

/-! ### Suffixes -/

theorem text_member (base : Expr) (name : Text) :
    (Expr.member base name).text = base.text ++ "." ++ name := by
  rw [text]

theorem text_select (e : Expr) (name : Text) : (e.select name).text = e.text ++ "." ++ name := by
  cases e with
  | path p => rw [select, text, text]
  | _ => exact text_member _ name

theorem Prints.suffixed (h : e.Prints ws) (htight : e.tightness = 4)
    (hts : ts.map Token.word = ws) : (Phrase.suffixed e).Derives ts := by
  have hderives := h.derives ts hts
  rwa [htight] at hderives

theorem Prints.select (h : e.Prints ws) (htight : e.tightness = 4) {name : Text}
    (hname : IsIdent name) :
    (e.select name).Prints (ws ++ [TokenKind.dot.word, (.ident, name)]) where
  writes := by
    have hdot := writes_append h.writes glues_dot ⟨'.', [], rfl, by decide⟩
    have htext := glues_append hdot (writes_ident hname)
    rw [text_select]
    simpa only [List.append_assoc, List.cons_append, List.nil_append] using htext
  starts := by
    rw [text_select]
    exact starts_append (starts_append h.starts)
  rooted hrooted := by
    refine head?_append_word (h.rooted ?_)
    cases e with
    | path p => rfl
    | _ => exact hrooted
  derives ts hts := by
    obtain ⟨us, vs, rfl, hus, hvs⟩ := List.map_eq_append_iff.mp hts
    obtain ⟨dot, vs, rfl, hdot, -, hvs⟩ := cons_of_words hvs
    obtain ⟨t, rfl, hkind, rfl⟩ := singleton_of_words hvs
    have hderives := (h.suffixed htight hus).member hdot hkind
    have hselect : (e.select t.literal).tightness = 4 := by cases e <;> rfl
    rwa [hselect]

theorem isBound_of_word {t : Token} {n : Int64} (hn : 0 ≤ n.toInt) (hkind : t.kind = .int)
    (hliteral : t.literal = Numeral.word n) : IsBound t n :=
  ⟨hkind, { value := n.toInt }, hliteral ▸ Literal.parse_word hn, rfl⟩

theorem Prints.slice (h : e.Prints ws) (htight : e.tightness = 4) {high low : Int64}
    (hhigh : 0 ≤ high.toInt) (hlow : 0 ≤ low.toInt) :
    (Expr.slice e high low).Prints (ws ++ [TokenKind.lbracket.word, (.int, Numeral.word high),
      TokenKind.colon.word, (.int, Numeral.word low), TokenKind.rbracket.word]) where
  writes := by
    have hopen := writes_append h.writes glues_lbracket ⟨'[', [], rfl, by decide⟩
    have hfirst := glues_append hopen (writes_numeral hhigh)
    have hcolon := writes_append hfirst glues_colon ⟨':', [], rfl, by decide⟩
    have hsecond := glues_append hcolon (writes_numeral hlow)
    have htext := writes_append hsecond glues_rbracket ⟨']', [], rfl, by decide⟩
    rw [text]
    simpa only [List.append_assoc, List.cons_append, List.nil_append] using writes_of_glues htext
  starts := by
    simp only [text, String.append_assoc]
    exact starts_append h.starts
  rooted hrooted := head?_append_word (h.rooted hrooted)
  derives ts hts := by
    obtain ⟨us, vs, rfl, hus, hvs⟩ := List.map_eq_append_iff.mp hts
    obtain ⟨lb, vs, rfl, hlb, -, hvs⟩ := cons_of_words hvs
    obtain ⟨a, vs, rfl, ha, hatext, hvs⟩ := cons_of_words hvs
    obtain ⟨colon, vs, rfl, hcolon, -, hvs⟩ := cons_of_words hvs
    obtain ⟨b, vs, rfl, hb, hbtext, hvs⟩ := cons_of_words hvs
    obtain ⟨rb, rfl, hrb, -⟩ := singleton_of_words hvs
    exact (h.suffixed htight hus).slice hlb (isBound_of_word hhigh ha hatext) hcolon
      (isBound_of_word hlow hb hbtext) hrb

/-! ### Calls -/

/-- The texts of expressions, with commas between them, are cut into the given words. -/
structure ArgsPrint (es : List Expr) (ws : List Word) : Prop where
  writes : Writes (listText es) ws
  derives : ∀ ts : List Token, ts.map Token.word = ws → (Phrase.args es).Derives ts

theorem Prints.anywhere (h : e.Prints ws) (hts : ts.map Token.word = ws) :
    (Phrase.level .or e).Derives ts :=
  derives_of_le (m := 0) (Nat.zero_le _) (h.derives ts hts)

theorem exists_argsPrint {es : List Expr} (h : ∀ e ∈ es, ∃ ws, e.Prints ws) :
    ∃ ws, ArgsPrint es ws := by
  induction es with
  | nil =>
    refine ⟨[], writes_of_glues glues_empty, fun ts hts => ?_⟩
    rw [List.map_eq_nil_iff.mp hts]
    exact .noArgs
  | cons e es ih =>
    rw [List.forall_mem_cons] at h
    obtain ⟨⟨ws, hws⟩, hes⟩ := h
    obtain ⟨us, hus⟩ := ih hes
    cases es with
    | nil => exact ⟨ws, hws.writes, fun ts hts => .lastArg (hws.anywhere hts)⟩
    | cons e' es =>
      refine ⟨ws ++ TokenKind.comma.word :: us, ?_, fun ts hts => ?_⟩
      · have hcomma := writes_append hws.writes glues_comma ⟨',', [' '], rfl, by decide⟩
        have htext := glues_append hcomma hus.writes
        simp only [listText, texts, String.intercalate_cons_cons] at htext ⊢
        simpa only [List.append_assoc, List.cons_append, List.nil_append] using htext
      · obtain ⟨as, bs, rfl, has, hbs⟩ := List.map_eq_append_iff.mp hts
        obtain ⟨comma, bs, rfl, hcomma, -, hbs⟩ := cons_of_words hbs
        exact .moreArgs (hws.anywhere has) hcomma (hus.derives bs hbs)

theorem text_call {p method : Text} {target : Option Text} (h : Callee p target method)
    (es : List Expr) : (Expr.call target method es).text = p ++ "(" ++ listText es ++ ")" := by
  cases h with
  | plain | dotted => rw [text, listText]

theorem Prints.call {p method : Text} {target : Option Text} {es : List Expr}
    (h : (Expr.path p).Prints ws) (hcallee : Callee p target method) (hargs : ArgsPrint es us) :
    (Expr.call target method es).Prints
      (ws ++ TokenKind.lparen.word :: (us ++ [TokenKind.rparen.word])) where
  writes := by
    have hopen := writes_append h.writes glues_lparen ⟨'(', [], rfl, by decide⟩
    have hinner := glues_append hopen hargs.writes
    have htext := writes_of_glues (writes_append hinner glues_rparen ⟨')', [], rfl, by decide⟩)
    rw [text_call hcallee]
    simpa only [List.append_assoc, List.cons_append, List.nil_append, text] using htext
  starts := by
    rw [text_call hcallee]
    simp only [String.append_assoc]
    exact starts_append h.starts
  rooted _ := head?_append_word (h.rooted rfl)
  derives ts hts := by
    obtain ⟨as, bs, rfl, has, hbs⟩ := List.map_eq_append_iff.mp hts
    obtain ⟨lp, bs, rfl, hlp, -, hbs⟩ := cons_of_words hbs
    obtain ⟨cs, ds, rfl, hcs, hds⟩ := List.map_eq_append_iff.mp hbs
    obtain ⟨rp, rfl, hrp, -⟩ := singleton_of_words hds
    exact (h.suffixed rfl has).call hcallee hlp (hargs.derives cs hcs) hrp

/-! ### Operators -/

theorem Prints.negation (h : e.Prints ws) (htight : 3 ≤ e.tightness) :
    (Expr.negation e).Prints (TokenKind.not.word :: ws) where
  writes := by
    rw [text]
    refine lexes_not.append h.writes fun rest _ hhead => ?_
    obtain ⟨x, cs, hs, hx⟩ := h.starts
    rw [hs] at hhead
    exact hx (Option.some.inj hhead)
  starts := by
    rw [text]
    exact starts_append ⟨'!', [], rfl, by decide⟩
  rooted := nofun
  derives ts hts := by
    obtain ⟨t, us, rfl, ht, -, hus⟩ := cons_of_words hts
    exact .negation ht (derives_of_le (m := 3) htight (h.derives us hus))

theorem Prints.binary {left right : Expr} {vs : List Word} (hop : Joins l k op)
    (hl : left.Prints us) (hr : right.Prints vs) (hltight : op.tightness ≤ left.tightness)
    (hrtight : op.tightness < right.tightness) :
    (Expr.binary op left right).Prints (us ++ k.word :: vs) where
  writes := by
    have hspace := writes_append hl.writes glues_space ⟨' ', [], rfl, by decide⟩
    have hoperator := (glues_append hspace (lexes_operator hop)).append glues_space fun _ _ => rfl
    have htext := glues_append hoperator hr.writes
    rw [text]
    simpa only [List.append_assoc, List.cons_append, List.nil_append, List.append_nil] using htext
  starts := by
    simp only [text, String.append_assoc]
    exact starts_append hl.starts
  rooted := nofun
  derives ts hts := by
    obtain ⟨as, bs, rfl, has, hbs⟩ := List.map_eq_append_iff.mp hts
    obtain ⟨t, bs, rfl, ht, -, hbs⟩ := cons_of_words hbs
    have hleft := derives_of_le hltight (hl.derives as has)
    have hright := derives_of_le hrtight (hr.derives bs hbs)
    rw [(hop.phraseAt_eq left).1] at hleft
    rw [(hop.phraseAt_eq right).2] at hright
    show (phraseAt op.tightness _).Derives _
    rw [(hop.phraseAt_eq _).1]
    exact .joined hleft (ht ▸ hop) hright

/-- The text of a type is cut into the given words. -/
structure TypePrints (type : ValueType) (ws : List Word) : Prop where
  writes : Writes type.text ws
  derives : ∀ ts : List Token, ts.map Token.word = ws → DerivesType type ts

theorem Prints.cast (htype : TypePrints type us) (h : e.Prints ws) (htight : 3 ≤ e.tightness) :
    (Expr.cast type e).Prints
      (TokenKind.lparen.word :: (us ++ TokenKind.rparen.word :: ws)) where
  writes := by
    have hopen := glues_append glues_lparen htype.writes
    have hclose := writes_append hopen glues_rparen ⟨')', [], rfl, by decide⟩
    have htext := glues_append hclose h.writes
    rw [text]
    simpa only [List.append_assoc, List.cons_append, List.nil_append] using htext
  starts := by
    simp only [text, String.append_assoc]
    exact starts_append ⟨'(', [], rfl, by decide⟩
  rooted := nofun
  derives ts hts := by
    obtain ⟨lp, as, rfl, hlp, -, has⟩ := cons_of_words hts
    obtain ⟨bs, cs, rfl, hbs, hcs⟩ := List.map_eq_append_iff.mp has
    obtain ⟨rp, cs, rfl, hrp, -, hcs⟩ := cons_of_words hcs
    exact .cast hlp (htype.derives bs hbs) hrp (derives_of_le (m := 3) htight (h.derives cs hcs))

end Expr

/-! ### Types -/

theorem typePrints_truth : Expr.TypePrints .truth [TokenKind.kwBool.word] where
  writes := writes_keyword (k := .kwBool) (by decide)
  derives ts hts := by
    obtain ⟨t, rfl, hkind, -⟩ := singleton_of_words hts
    exact .truth hkind

theorem typePrints_sized {width : Int64} (h : Sized width k type) (hwidth : 0 ≤ width.toInt) :
    Expr.TypePrints type
      [k.word, TokenKind.lt.word, (.int, Numeral.word width), TokenKind.gt.word] where
  writes := by
    have hkeyword : k ∈ TokenKind.keywords := by cases h <;> decide
    have htype : type.text = k.name ++ "<" ++ Numeral.word width ++ ">" := by cases h <;> rfl
    have hopen := writes_append (writes_keyword hkeyword) glues_lt ⟨'<', [], rfl, by decide⟩
    have hinner := glues_append hopen (writes_numeral hwidth)
    have htext := writes_append hinner glues_gt ⟨'>', [], rfl, by decide⟩
    rw [htype]
    simpa only [List.append_assoc, List.cons_append, List.nil_append] using writes_of_glues htext
  derives ts hts := by
    obtain ⟨t, us, rfl, ht, -, hus⟩ := cons_of_words hts
    obtain ⟨lt, us, rfl, hlt, -, hus⟩ := cons_of_words hus
    obtain ⟨w, us, rfl, hw, hliteral, hus⟩ := cons_of_words hus
    obtain ⟨gt, rfl, hgt, -⟩ := singleton_of_words hus
    refine .sized (ht ▸ h) hlt hw ?_ hgt
    rw [hliteral]
    exact Numeral.word?_word width

theorem exists_typePrints (h : DerivesType type ts) (hread : ∀ t ∈ ts, t.IsRead) :
    ∃ ws, Expr.TypePrints type ws := by
  cases h with
  | truth => exact ⟨_, typePrints_truth⟩
  | @sized _ _ w _ _ _ ht _ hw hwidth =>
    have hword := ((hread w (by simp)).int hw).word
    obtain ⟨n, hn, -⟩ := (Numeral.word?_eq_some_iff (fun h => absurd (hword _ h) (by decide))
      fun h => absurd (hword _ h) (by decide)).mp hwidth
    exact ⟨_, typePrints_sized ht (hn ▸ Int.natCast_nonneg n)⟩

/-! ### Expressions of texts -/

theorem IsBound.nonneg {t : Token} {n : Int64} (h : IsBound t n) (hread : t.IsRead) :
    0 ≤ n.toInt := by
  obtain ⟨hkind, l, hparse, hvalue⟩ := h
  rw [← hvalue]
  exact ((Literal.parse_eq_ok_iff (hread.int hkind)).mp hparse).nonneg.1

end Flowline.Source
