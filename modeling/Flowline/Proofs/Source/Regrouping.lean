import Flowline.Proofs.Source.RoundTrip

/-!
# What the text of an expression tells about it

Expressions are printed without parentheses, so trees that are grouped in different ways can have one
text.  `Expr.regroup` is the tree that the text stands for: operators take their operands by how
tightly they bind, marks in front apply to the first operand and marks behind to the last one.  A
literal without a width loses its sign, and octal literals are written in decimal.

An expression that was read has the text of its regrouped tree (`text_regroup`), and this tree is
what its text is read as (`Expr.IsRead.parseExpression_text`).  So two of them have one text exactly
if they are regrouped to one tree, and the text tells an expression, up to the bases of literals,
exactly if it needs no parentheses (`text_tells_iff`).
-/

namespace Flowline.Source

/-! ## Regrouping -/

namespace Expr

/-- An operator between two trees.  The loosest operator comes on top, and the last one of these. -/
def join (op : BinaryOp) (left right : Expr) : Expr :=
  if right.tightness ≤ op.tightness ∧ right.tightness ≤ left.tightness then
    match right with
    | .binary op' l r => .binary op' (join op left l) r
    | _ => .binary op left right
  else if left.tightness < op.tightness then
    match left with
    | .binary op' l r => .binary op' l (join op r right)
    | _ => .binary op left right
  else .binary op left right
termination_by sizeOf left + sizeOf right
decreasing_by
  all_goals
    rw [binary.sizeOf_spec]
    omega

/-- Applies a mark that stands in front: to the first operand of operators. -/
def atFront (mark : Expr → Expr) : Expr → Expr
  | .binary op left right => .binary op (left.atFront mark) right
  | e => mark e

/-- Applies a mark that stands behind: to the last operand, under all marks in front of it. -/
def atEnd (mark : Expr → Expr) : Expr → Expr
  | .binary op left right => .binary op left (right.atEnd mark)
  | .negation e => .negation (e.atEnd mark)
  | .cast type e => .cast type (e.atEnd mark)
  | e => mark e

mutual

/-- The tree that the text of an expression stands for. -/
def regroup : Expr → Expr
  | .literal l => .literal l.asWritten
  | .call target method args => .call target method (regroupAll args)
  | .member base name => base.regroup.atEnd (select name)
  | .binary op left right => join op left.regroup right.regroup
  | .negation e => e.regroup.atFront .negation
  | .slice e high low => e.regroup.atEnd (.slice · high low)
  | .cast type e => e.regroup.atFront (.cast type)
  | e => e

def regroupAll : List Expr → List Expr
  | [] => []
  | e :: es => e.regroup :: regroupAll es

end

/-! ## Texts -/

theorem text_binary (op : BinaryOp) (left right : Expr) :
    (Expr.binary op left right).text = left.text ++ " " ++ op.symbol ++ " " ++ right.text := by
  rw [text]

theorem text_join (op : BinaryOp) (left right : Expr) :
    (join op left right).text = (Expr.binary op left right).text := by
  fun_induction join op left right with
  | case1 left op' l r _ ih | case3 right op' l r _ _ ih =>
    simp only [text_binary, ih, String.append_assoc]
  | _ => rfl

theorem text_atFront {mark : Expr → Expr} {t : Text} (h : ∀ e, (mark e).text = t ++ e.text)
    (e : Expr) : (e.atFront mark).text = t ++ e.text := by
  fun_induction atFront mark e with
  | case1 op left right ih => simp only [text_binary, ih, String.append_assoc]
  | case2 e _ => exact h e

theorem text_atEnd {mark : Expr → Expr} {t : Text} (h : ∀ e, (mark e).text = e.text ++ t)
    (e : Expr) : (e.atEnd mark).text = e.text ++ t := by
  fun_induction atEnd mark e with
  | case1 op left right ih => simp only [text_binary, ih, String.append_assoc]
  | case2 e ih | case3 type e ih => simp only [text, ih, String.append_assoc]
  | case4 e => exact h e

mutual

theorem text_regroup : (e : Expr) → e.regroup.text = e.text
  | .literal l => by
    rw [regroup, text, text]
    exact l.text_asWritten
  | .call none method args | .call (some target) method args =>
    by rw [regroup, text, text, texts_regroupAll args]
  | .member base name => by
    rw [regroup, text_atEnd (t := "." ++ name) fun e => by rw [text_select, String.append_assoc],
      text_regroup base, text, String.append_assoc]
  | .binary op left right => by
    rw [regroup, text_join, text_binary, text_binary, text_regroup left, text_regroup right]
  | .negation e => by
    rw [regroup, text_atFront (t := "!") fun e => by rw [text], text_regroup e, text]
  | .slice e high low => by
    rw [regroup, text_atEnd (t := "[" ++ Numeral.word high ++ ":" ++ Numeral.word low ++ "]")
      fun e => by simp only [text, String.append_assoc], text_regroup e]
    simp only [text, String.append_assoc]
  | .cast type e => by
    rw [regroup, text_atFront (t := "(" ++ type.text ++ ")") fun e => by rw [text],
      text_regroup e, text]
  | .missing | .path _ | .field _ | .localVar _ | .param _ _ | .valid _ | .hit _ _ | .actionRun _
  | .truth _ | .any => rfl

theorem texts_regroupAll : (es : List Expr) → texts (regroupAll es) = texts es
  | [] => by rw [regroupAll]
  | e :: es => by rw [regroupAll, texts, texts, text_regroup e, texts_regroupAll es]

end

/-! ## How tightly regrouped trees bind -/

section

variable {op : BinaryOp} {left right e : Expr} {mark : Expr → Expr}

theorem tightness_lt_three (op : BinaryOp) : op.tightness < 3 := by
  cases op <;> decide

theorem three_le_tightness (h : ∀ op l r, e ≠ .binary op l r) : 3 ≤ e.tightness := by
  cases e with
  | binary op l r => exact absurd rfl (h op l r)
  | negation | cast => exact Nat.le_refl 3
  | _ => exact Nat.le_succ 3

theorem le_tightness_join {n : Nat} (hop : n ≤ op.tightness) (hleft : n ≤ left.tightness)
    (hright : n ≤ right.tightness) : n ≤ (join op left right).tightness := by
  fun_induction join op left right with
  | case1 => exact hright
  | case3 => exact hleft
  | _ => exact hop

/-- Operands that bind tightly enough stay as they are. -/
theorem join_eq_binary (hleft : op.tightness ≤ left.tightness)
    (hright : op.tightness < right.tightness) : join op left right = .binary op left right := by
  unfold join
  rw [if_neg fun h => absurd h.1 (not_le.mpr hright), if_neg (not_lt.mpr hleft)]

theorem printable_join (hleft : left.Printable) (hright : right.Printable) :
    (join op left right).Printable := by
  fun_induction join op left right with
  | case1 left op' l r hle ih =>
    obtain ⟨⟨hltight, hl⟩, hrtight, hr⟩ := hright
    exact ⟨⟨le_tightness_join hle.1 hle.2 hltight, ih hleft hl⟩, hrtight, hr⟩
  | case3 right op' l r hnot hlt ih =>
    obtain ⟨⟨hltight, hl⟩, hrtight, hr⟩ := hleft
    have hop : op'.tightness < op.tightness := hlt
    have hbelow : op'.tightness < right.tightness := by
      by_contra hge
      exact hnot ⟨by omega, not_lt.mp hge⟩
    exact ⟨⟨hltight, hl⟩, le_tightness_join hop hrtight hbelow, ih hr hright⟩
  | case2 left right hle hnone | case4 left right _ hlt hnone =>
    have hop := tightness_lt_three op
    have hthree := three_le_tightness hnone
    omega
  | case5 left right hnot hge =>
    refine ⟨⟨not_lt.mp hge, hleft⟩, ?_, hright⟩
    by_contra hle
    exact hnot ⟨not_lt.mp hle, by omega⟩

/-- What stands under a mark behind it is neither an operator nor a mark in front. -/
theorem tightness_eq_four (hbinary : ∀ op l r, e ≠ .binary op l r) (hnegation : ∀ x, e ≠ .negation x)
    (hcast : ∀ type x, e ≠ .cast type x) : e.tightness = 4 := by
  cases e with
  | binary op l r => exact absurd rfl (hbinary op l r)
  | negation x => exact absurd rfl (hnegation x)
  | cast type x => exact absurd rfl (hcast type x)
  | _ => rfl

theorem atFront_of_tight (h : 3 ≤ e.tightness) : e.atFront mark = mark e := by
  cases e with
  | binary op l r => exact absurd h (not_le.mpr (tightness_lt_three op))
  | _ => rfl

theorem atEnd_of_tight (h : e.tightness = 4) : e.atEnd mark = mark e := by
  cases e with
  | binary op l r =>
    have hop := tightness_lt_three op
    rw [tightness] at h
    omega
  | negation | cast => cases h
  | _ => rfl

theorem printable_atFront (hmark : ∀ x, 3 ≤ x.tightness → x.Printable → (mark x).Printable)
    (htight : ∀ x, (mark x).tightness = 3) (he : e.Printable) :
    (e.atFront mark).Printable ∧ (e.atFront mark).tightness = min 3 e.tightness := by
  fun_induction atFront mark e with
  | case1 op left right ih =>
    obtain ⟨⟨hltight, hl⟩, hrtight, hr⟩ := he
    obtain ⟨hprintable, hmin⟩ := ih hl
    have hop := tightness_lt_three op
    refine ⟨⟨⟨by omega, hprintable⟩, hrtight, hr⟩, ?_⟩
    rw [tightness, tightness]
    omega
  | case2 e hnone =>
    have hthree := three_le_tightness hnone
    exact ⟨hmark e hthree he, by rw [htight]; omega⟩

theorem printable_atEnd
    (hmark : ∀ x, x.tightness = 4 → x.Printable → (mark x).Printable ∧ (mark x).tightness = 4)
    (he : e.Printable) :
    (e.atEnd mark).Printable ∧ (e.atEnd mark).tightness = e.tightness := by
  fun_induction atEnd mark e with
  | case1 op left right ih =>
    obtain ⟨hl, hrtight, hr⟩ := he
    obtain ⟨hprintable, hsame⟩ := ih hr
    exact ⟨⟨hl, hsame ▸ hrtight, hprintable⟩, rfl⟩
  | case2 e ih | case3 type e ih =>
    obtain ⟨hprintable, hsame⟩ := ih he.2
    exact ⟨⟨hsame ▸ he.1, hprintable⟩, rfl⟩
  | case4 e hbinary hnegation hcast =>
    have hfour := tightness_eq_four hbinary hnegation hcast
    rw [hfour]
    exact hmark e hfour he

end

end Expr

/-! ## Regrouped trees can be read -/

theorem Literal.asWritten_of_plain (l : Literal)
    (h : ({ l with radix := .decimal } : Literal).Plain) :
    { l.asWritten with radix := Radix.decimal } = { l with radix := Radix.decimal } := by
  have hsigned : l.asWritten.isSigned = l.isSigned := by
    rcases h.width with hpos | ⟨hzero, hunsigned⟩
    · have hwidth : 0 < l.width := hpos
      simp [asWritten, hwidth]
    · have hnone : l.isSigned = false := hunsigned
      rw [hnone]
      exact Bool.and_eq_false_imp.mpr fun _ => hnone
  rw [Literal.mk.injEq]
  exact ⟨rfl, rfl, rfl, hsigned⟩

namespace Expr

section

variable {op : BinaryOp} {left right e : Expr} {mark : Expr → Expr}

theorem spelled_join (hop : op ≠ .mask) (hleft : left.Spelled) (hright : right.Spelled) :
    (join op left right).Spelled := by
  fun_induction join op left right with
  | case1 left op' l r _ ih => exact ⟨hright.1, ih hleft hright.2.1, hright.2.2⟩
  | case3 right op' l r _ _ ih => exact ⟨hleft.1, hleft.2.1, ih hleft.2.2 hright⟩
  | _ => exact ⟨hop, hleft, hright⟩

theorem spelled_atFront (hmark : ∀ x, x.Spelled → (mark x).Spelled) (he : e.Spelled) :
    (e.atFront mark).Spelled := by
  fun_induction atFront mark e with
  | case1 op left right ih => exact ⟨he.1, ih he.2.1, he.2.2⟩
  | case2 e => exact hmark e he

theorem spelled_atEnd (hmark : ∀ x, x.Spelled → (mark x).Spelled) (he : e.Spelled) :
    (e.atEnd mark).Spelled := by
  fun_induction atEnd mark e with
  | case1 op left right ih => exact ⟨he.1, he.2.1, ih he.2.2⟩
  | case2 e ih => exact ih he
  | case3 type e ih => exact ⟨he.1, ih he.2⟩
  | case4 e => exact hmark e he

end

mutual

theorem spelled_regroup : (e : Expr) → e.Spelled → e.regroup.Spelled
  | .path _, h => h
  | .call _ _ args, h => ⟨h.1, spelledArgs_regroupAll args h.2⟩
  | .member base _, h =>
    spelled_atEnd (fun _ hx => spelled_select hx h.2.1) (spelled_regroup base h.2.2)
  | .literal _, h => h
  | .truth _, h => h
  | .binary _ left right, h =>
    spelled_join h.1 (spelled_regroup left h.2.1) (spelled_regroup right h.2.2)
  | .negation e, h => spelled_atFront (fun _ hx => hx) (spelled_regroup e h)
  | .slice e _ _, h => spelled_atEnd (fun _ hx => ⟨h.1, hx⟩) (spelled_regroup e h.2)
  | .cast _ e, h => spelled_atFront (fun _ hx => ⟨h.1, hx⟩) (spelled_regroup e h.2)
  | .missing, h | .field _, h | .localVar _, h | .param _ _, h | .valid _, h
  | .hit _ _, h | .actionRun _, h | .any, h => h.elim

theorem spelledArgs_regroupAll : (es : List Expr) → SpelledArgs es → SpelledArgs (regroupAll es)
  | [], h => h
  | e :: es, h => ⟨spelled_regroup e h.1, spelledArgs_regroupAll es h.2⟩

end

mutual

theorem printable_regroup : (e : Expr) → e.Spelled → e.regroup.Printable
  | .path _, _ => trivial
  | .call _ _ args, h => printableArgs_regroupAll args h.2
  | .member base name, h => by
    refine (printable_atEnd (fun x htight hx => ?_) (printable_regroup base h.2.2)).1
    cases x with
    | path p => exact ⟨trivial, rfl⟩
    | _ => exact ⟨⟨htight, hx⟩, rfl⟩
  | .literal l, h => l.plain_asWritten h.2
  | .truth _, _ => trivial
  | .binary _ left right, h =>
    printable_join (printable_regroup left h.2.1) (printable_regroup right h.2.2)
  | .negation e, h => by
    have hmark (x : Expr) : 3 ≤ x.tightness → x.Printable → (Expr.negation x).Printable := And.intro
    exact (printable_atFront hmark (fun _ => rfl) (printable_regroup e h)).1
  | .slice e high low, h => by
    have hmark (x : Expr) (htight : x.tightness = 4) (hx : x.Printable) :
        (Expr.slice x high low).Printable ∧ (Expr.slice x high low).tightness = 4 :=
      ⟨⟨htight, hx⟩, rfl⟩
    exact (printable_atEnd hmark (printable_regroup e h.2)).1
  | .cast type e, h => by
    have hmark (x : Expr) : 3 ≤ x.tightness → x.Printable → (Expr.cast type x).Printable := And.intro
    exact (printable_atFront hmark (fun _ => rfl) (printable_regroup e h.2)).1
  | .missing, h | .field _, h | .localVar _, h | .param _ _, h | .valid _, h
  | .hit _ _, h | .actionRun _, h | .any, h => h.elim

theorem printableArgs_regroupAll : (es : List Expr) → SpelledArgs es →
    PrintableArgs (regroupAll es)
  | [], _ => trivial
  | e :: es, h => ⟨printable_regroup e h.1, printableArgs_regroupAll es h.2⟩

end

/-! ## Trees without the bases of literals -/

mutual

/-- An expression without the bases in which its literals were written. -/
def unbased : Expr → Expr
  | .literal l => .literal { l with radix := .decimal }
  | .call target method args => .call target method (unbasedAll args)
  | .member base name => .member base.unbased name
  | .binary op left right => .binary op left.unbased right.unbased
  | .negation e => .negation e.unbased
  | .slice e high low => .slice e.unbased high low
  | .cast type e => .cast type e.unbased
  | e => e

def unbasedAll : List Expr → List Expr
  | [] => []
  | e :: es => e.unbased :: unbasedAll es

end

theorem eq_path_of_unbased {e : Expr} {p : Text} (h : e.unbased = .path p) : e = .path p := by
  cases e with
  | path q => exact h
  | _ => cases h

theorem tightness_unbased (e : Expr) : e.unbased.tightness = e.tightness := by
  cases e <;> rfl

mutual

theorem printable_unbased : (e : Expr) → e.Printable → e.unbased.Printable
  | .literal _, h => ⟨nofun, h.width⟩
  | .call _ _ args, h => printableArgs_unbasedAll args h
  | .member base _, h => ⟨(tightness_unbased base).trans h.1, printable_unbased base h.2⟩
  | .binary op left right, h => by
    refine ⟨⟨?_, printable_unbased left h.1.2⟩, ?_, printable_unbased right h.2.2⟩
    · rw [tightness_unbased]
      exact h.1.1
    · rw [tightness_unbased]
      exact h.2.1
  | .negation e, h => ⟨(tightness_unbased e).symm ▸ h.1, printable_unbased e h.2⟩
  | .slice e _ _, h => ⟨(tightness_unbased e).trans h.1, printable_unbased e h.2⟩
  | .cast _ e, h => ⟨(tightness_unbased e).symm ▸ h.1, printable_unbased e h.2⟩
  | .missing, h | .path _, h | .field _, h | .localVar _, h | .param _ _, h | .valid _, h
  | .hit _ _, h | .actionRun _, h | .truth _, h | .any, h => h

theorem printableArgs_unbasedAll : (es : List Expr) → PrintableArgs es →
    PrintableArgs (unbasedAll es)
  | [], h => h
  | e :: es, h => ⟨printable_unbased e h.1, printableArgs_unbasedAll es h.2⟩

end

mutual

/-- Regrouping leaves an expression as it is if it needs no parentheses. -/
theorem unbased_regroup : (e : Expr) → e.Spelled → e.unbased.Printable →
    e.regroup.unbased = e.unbased
  | .literal l, _, h => congrArg Expr.literal (l.asWritten_of_plain h)
  | .call _ _ args, hs, h => congrArg (Expr.call _ _) (unbasedAll_regroupAll args hs.2 h)
  | .member base name, hs, h => by
    have hbase := unbased_regroup base hs.2.2 h.2
    have htight : base.regroup.tightness = 4 := by
      rw [← tightness_unbased, hbase]
      exact h.1
    have hpath (p : Text) : base.regroup ≠ .path p := by
      intro heq
      rw [heq] at hbase
      exact hs.1 p (eq_path_of_unbased hbase.symm)
    rw [regroup, atEnd_of_tight htight, select_eq_member hpath, unbased, hbase, unbased]
  | .binary op left right, hs, h => by
    have hleft := unbased_regroup left hs.2.1 h.1.2
    have hright := unbased_regroup right hs.2.2 h.2.2
    rw [regroup, join_eq_binary, unbased, hleft, hright, unbased]
    · rw [← tightness_unbased, hleft]
      exact h.1.1
    · rw [← tightness_unbased, hright]
      exact h.2.1
  | .negation e, hs, h => by
    have he := unbased_regroup e hs h.2
    rw [regroup, atFront_of_tight, unbased, he, unbased]
    rw [← tightness_unbased, he]
    exact h.1
  | .slice e high low, hs, h => by
    have he := unbased_regroup e hs.2 h.2
    rw [regroup, atEnd_of_tight, unbased, he, unbased]
    rw [← tightness_unbased, he]
    exact h.1
  | .cast type e, hs, h => by
    have he := unbased_regroup e hs.2 h.2
    rw [regroup, atFront_of_tight, unbased, he, unbased]
    rw [← tightness_unbased, he]
    exact h.1
  | .missing, _, _ | .path _, _, _ | .field _, _, _ | .localVar _, _, _ | .param _ _, _, _
  | .valid _, _, _ | .hit _ _, _, _ | .actionRun _, _, _ | .truth _, _, _ | .any, _, _ => rfl

theorem unbasedAll_regroupAll : (es : List Expr) → SpelledArgs es → PrintableArgs (unbasedAll es) →
    unbasedAll (regroupAll es) = unbasedAll es
  | [], _, _ => rfl
  | e :: es, hs, h => by
    rw [regroupAll, unbasedAll, unbasedAll, unbased_regroup e hs.1 h.1,
      unbasedAll_regroupAll es hs.2 h.2]

end

end Expr

/-! ## Expressions of one text -/

/-- The text is read as the expression, without an error. -/
def Expr.Reads (e : Expr) (input : Text) : Prop :=
  ∃ p, parseExpression input = .ok p ∧ p.errors = [] ∧ p.tree = some e

/-- Some text is read as the expression, without an error. -/
def Expr.IsRead (e : Expr) : Prop := ∃ input, e.Reads input

namespace Expr.IsRead

variable {e e₁ e₂ : Expr}

theorem spelled (h : e.IsRead) : e.Spelled := by
  obtain ⟨input, p, hparse, hquiet, htree⟩ := h
  obtain ⟨e', htree', hderives⟩ := derives_of_parseExpression hparse hquiet
  cases htree.symm.trans htree'
  exact hderives.spelled (isRead_tokensOf input)

/-- The text of an expression is read as the regrouped tree. -/
theorem parseExpression_text (h : e.IsRead) :
    parseExpression e.text = .ok ⟨some e.regroup, []⟩ := by
  obtain ⟨ws, hws⟩ :=
    exists_prints_of_spelled _ (spelled_regroup e h.spelled) (printable_regroup e h.spelled)
  rw [← text_regroup]
  exact hws.parseExpression

theorem regroup (h : e.IsRead) : e.regroup.IsRead := ⟨_, _, h.parseExpression_text, rfl, rfl⟩

theorem text_eq_iff (h₁ : e₁.IsRead) (h₂ : e₂.IsRead) :
    e₁.text = e₂.text ↔ e₁.regroup = e₂.regroup := by
  constructor
  · intro htext
    have hparse := h₁.parseExpression_text
    rw [htext, h₂.parseExpression_text] at hparse
    simpa using hparse.symm
  · intro hregroup
    rw [← text_regroup, hregroup, text_regroup]

theorem unbased_regroup_iff (h : e.IsRead) :
    e.regroup.unbased = e.unbased ↔ e.unbased.Printable := by
  constructor
  · intro heq
    rw [← heq]
    exact printable_unbased _ (printable_regroup e h.spelled)
  · exact unbased_regroup e h.spelled

/-- Among expressions that need no parentheses, the text tells them apart. -/
theorem unbased_eq_of_text_eq (h₁ : e₁.IsRead) (h₂ : e₂.IsRead) (htext : e₁.text = e₂.text)
    (hp₁ : e₁.unbased.Printable) (hp₂ : e₂.unbased.Printable) : e₁.unbased = e₂.unbased := by
  rw [← h₁.unbased_regroup_iff.mpr hp₁, (h₁.text_eq_iff h₂).mp htext,
    h₂.unbased_regroup_iff.mpr hp₂]

end Expr.IsRead

/-- **What printed expressions tell.**  The text of an expression that was read is read as its
regrouped tree, so two expressions have one text exactly if they are regrouped to one tree.  Up to
the bases of literals this is the expression itself exactly if it needs no parentheses and has no
signed literal without a width, and two such expressions with one text are the same.  A text tells
its expression exactly if it is the text of such expressions only. -/
theorem text_tells_iff {e₁ e₂ : Expr} (h₁ : e₁.IsRead) (h₂ : e₂.IsRead) :
    parseExpression e₁.text = .ok ⟨some e₁.regroup, []⟩ ∧
    (e₁.text = e₂.text ↔ e₁.regroup = e₂.regroup) ∧
    (e₁.regroup.unbased = e₁.unbased ↔ e₁.unbased.Printable) ∧
    (e₁.text = e₂.text → e₁.unbased.Printable → e₂.unbased.Printable →
      e₁.unbased = e₂.unbased) ∧
    ((∀ e : Expr, e.IsRead → e.text = e₁.text → e.unbased = e₁.unbased) ↔
      ∀ e : Expr, e.IsRead → e.text = e₁.text → e.unbased.Printable) := by
  refine ⟨h₁.parseExpression_text, h₁.text_eq_iff h₂, h₁.unbased_regroup_iff,
    h₁.unbased_eq_of_text_eq h₂, fun h e he htext => ?_, fun h e he htext => ?_⟩
  · -- the regrouped tree is one of those with the text
    have hregroup := h e.regroup he.regroup ((Expr.text_regroup e).trans htext)
    rw [← he.unbased_regroup_iff, hregroup, h e he htext]
  · exact he.unbased_eq_of_text_eq h₁ htext (h e he htext) (h e₁ h₁ rfl)

/-! ## Trees that share a text -/

theorem exists_reads (input : Text) (test : Expr → Bool)
    (h : ((parseExpression input).toOption.any fun p => p.errors = [] ∧ p.tree.any test) = true) :
    ∃ e : Expr, e.Reads input ∧ test e = true := by
  cases hparse : parseExpression input with
  | error =>
    rw [hparse] at h
    cases h
  | ok p =>
    rw [hparse] at h
    obtain ⟨hquiet, htree⟩ := of_decide_eq_true h
    obtain ⟨e, he, htest⟩ := (Option.any_eq_true _ _).mp htree
    exact ⟨e, ⟨p, hparse, hquiet, he⟩, htest⟩

/-- Two texts whose trees have one text, and only one of them its own grouping and signs. -/
theorem exists_sharing (input₁ input₂ text : Text)
    (h₁ : ((parseExpression input₁).toOption.any fun p => p.errors = [] ∧
      p.tree.any fun e => e.text = text ∧ ¬e.unbased.Printable) = true)
    (h₂ : ((parseExpression input₂).toOption.any fun p => p.errors = [] ∧
      p.tree.any fun e => e.text = text ∧ e.unbased.Printable) = true) :
    ∃ e₁ e₂ : Expr, e₁.Reads input₁ ∧ e₂.Reads input₂ ∧ e₁.text = e₂.text ∧
      ¬e₁.unbased.Printable ∧ e₁.unbased ≠ e₂.unbased := by
  obtain ⟨e₁, hread₁, ht₁⟩ := exists_reads input₁ _ h₁
  obtain ⟨e₂, hread₂, ht₂⟩ := exists_reads input₂ _ h₂
  obtain ⟨htext₁, hp₁⟩ := of_decide_eq_true ht₁
  obtain ⟨htext₂, hp₂⟩ := of_decide_eq_true ht₂
  exact ⟨e₁, e₂, hread₁, hread₂, htext₁.trans htext₂.symm, hp₁, fun heq => hp₁ (heq ▸ hp₂)⟩

/-- A disjunction in parentheses has the text of a tree in which it comes on top.  An octal literal
and a decimal one have one text as well, and there the trees are the same up to the base. -/
theorem text_tells_iff_groupedTexts :
    (∃ e₁ e₂ : Expr, e₁.Reads "a && (b || c)" ∧ e₂.Reads "a && b || c" ∧
      ¬e₁.unbased.Printable ∧ e₁.regroup = e₂.regroup) ∧
    ∃ e₁ e₂ : Expr, e₁.Reads "!x[0o17:0] == 0o17" ∧ e₂.Reads "(!x[15:0]) == (15)" ∧
      e₁.unbased.Printable ∧ e₂.unbased.Printable ∧ e₁.unbased = e₂.unbased := by
  constructor
  · obtain ⟨e₁, e₂, h₁, h₂, htext, hgroup, -⟩ := exists_sharing "a && (b || c)" "a && b || c"
      "a && b || c" (by decide +kernel) (by decide +kernel)
    exact ⟨e₁, e₂, h₁, h₂, hgroup, (text_tells_iff ⟨_, h₁⟩ ⟨_, h₂⟩).2.1.mp htext⟩
  · obtain ⟨e₁, h₁, ht₁⟩ := exists_reads "!x[0o17:0] == 0o17"
      (fun e => e.text = "!x[15:0] == 15" ∧ e.unbased.Printable) (by decide +kernel)
    obtain ⟨e₂, h₂, ht₂⟩ := exists_reads "(!x[15:0]) == (15)"
      (fun e => e.text = "!x[15:0] == 15" ∧ e.unbased.Printable) (by decide +kernel)
    obtain ⟨htext₁, hp₁⟩ := of_decide_eq_true ht₁
    obtain ⟨htext₂, hp₂⟩ := of_decide_eq_true ht₂
    exact ⟨e₁, e₂, h₁, h₂, hp₁, hp₂,
      (text_tells_iff ⟨_, h₁⟩ ⟨_, h₂⟩).2.2.2.1 (htext₁.trans htext₂.symm) hp₁ hp₂⟩

/-- Two conditions that differ in their groups, and two literals that differ in their sign, each
with one text. -/
theorem texts_shared :
    (∃ e₁ e₂ : Expr, e₁.Reads "a && (b || c)" ∧ e₂.Reads "a && b || c" ∧ e₁.text = e₂.text ∧
      e₁.unbased ≠ e₂.unbased) ∧
    ∃ e₁ e₂ : Expr, e₁.Reads "0s5" ∧ e₂.Reads "5" ∧ e₁.text = e₂.text ∧
      e₁.unbased ≠ e₂.unbased := by
  constructor
  · obtain ⟨e₁, e₂, h₁, h₂, htext, -, hne⟩ := exists_sharing "a && (b || c)" "a && b || c"
      "a && b || c" (by decide +kernel) (by decide +kernel)
    exact ⟨e₁, e₂, h₁, h₂, htext, hne⟩
  · obtain ⟨e₁, e₂, h₁, h₂, htext, -, hne⟩ := exists_sharing "0s5" "5" "5" (by decide +kernel)
      (by decide +kernel)
    exact ⟨e₁, e₂, h₁, h₂, htext, hne⟩

end Flowline.Source
