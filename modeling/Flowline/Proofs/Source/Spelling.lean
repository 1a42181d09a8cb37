import Flowline.Proofs.Source.Printing

/-!
# Expressions that can be spelled

What the parser reads is made of names, numbers, types and operators that can be written down
(`Expr.Spelled`).  Whether the operands of an expression are such that it needs no parentheses is
another matter (`Expr.Printable`).  The two together are all that it takes to print an expression and
read it back (`exists_prints_of_spelled`), and being spelled is a property of its parts, whatever way
they are put together.
-/

namespace Flowline.Source

/-! ## Spelled trees -/

/-- Names with dots between them. -/
inductive Dotted : Text → Prop
  | name {w : Text} (h : IsIdent w) : Dotted w
  | more {p w : Text} (h : Dotted p) (hw : IsIdent w) : Dotted (p ++ "." ++ w)

mutual

/-- The names, numbers, types and operators of an expression are such as can be read. -/
def Expr.Spelled : Expr → Prop
  | .path p => Dotted p
  | .call target method args => (∃ p, Callee p target method ∧ Dotted p) ∧ SpelledArgs args
  | .member base name => (∀ p, base ≠ .path p) ∧ IsIdent name ∧ base.Spelled
  | .literal l => 0 ≤ l.value ∧ 0 ≤ l.width.toInt
  | .truth _ => True
  | .binary op left right => op ≠ .mask ∧ left.Spelled ∧ right.Spelled
  | .negation e => e.Spelled
  | .slice e high low => (0 ≤ high.toInt ∧ 0 ≤ low.toInt) ∧ e.Spelled
  | .cast type e => (∃ ws, Expr.TypePrints type ws) ∧ e.Spelled
  | _ => False

def SpelledArgs : List Expr → Prop
  | [] => True
  | e :: es => e.Spelled ∧ SpelledArgs es

end

/-- The trees of a nonterminal are spelled. -/
def Phrase.Spelled : Phrase → Prop
  | .args es => SpelledArgs es
  | .level _ e | .unary e | .suffixed e | .primary e => e.Spelled

theorem Level.spelled_operand {l : Level} {e : Expr} (h : (l.operand e).Spelled) : e.Spelled := by
  cases l <;> exact h

theorem Joins.ne_mask {l : Level} {k : TokenKind} {op : BinaryOp} (h : Joins l k op) :
    op ≠ .mask := by
  cases h <;> decide

theorem Expr.spelled_select {e : Expr} {name : Text} (he : e.Spelled) (hname : IsIdent name) :
    (e.select name).Spelled := by
  cases e with
  | path p => exact .more he hname
  | _ => exact ⟨nofun, hname, he⟩

theorem Expr.select_eq_member {e : Expr} (h : ∀ p, e ≠ .path p) (name : Text) :
    e.select name = .member e name := by
  cases e with
  | path p => exact absurd rfl (h p)
  | _ => rfl

/-- What is derived from tokens of a text is spelled. -/
theorem Phrase.Derives.spelled {x : Phrase} {ts : List Token} (h : x.Derives ts)
    (hread : ∀ t ∈ ts, t.IsRead) : x.Spelled := by
  induction h with
  | operand _ ih => exact Level.spelled_operand (ih hread)
  | joined _ ht _ ihl ihr =>
    rw [List.forall_mem_append, List.forall_mem_cons] at hread
    exact ⟨ht.ne_mask, ihl hread.1, Level.spelled_operand (ihr hread.2.2)⟩
  | negation _ _ ih =>
    rw [List.forall_mem_cons] at hread
    exact ih hread.2
  | cast _ htype _ _ ih =>
    rw [List.forall_mem_cons, List.forall_mem_append, List.forall_mem_cons] at hread
    exact ⟨exists_typePrints htype hread.2.1, ih hread.2.2.2⟩
  | bare _ ih | plain _ ih => exact ih hread
  | @member e dot name ts _ _ hname ih =>
    rw [List.forall_mem_append] at hread
    exact Expr.spelled_select (ih hread.1) ((hread.2 name (by simp)).ident hname)
  | call _ hcallee _ _ _ ih ihargs =>
    rw [List.forall_mem_append, List.forall_mem_cons, List.forall_mem_append] at hread
    exact ⟨⟨_, hcallee, ih hread.1⟩, ihargs hread.2.2.1⟩
  | @slice e high low lb a colon b rb ts _ _ hhigh _ hlow _ ih =>
    rw [List.forall_mem_append] at hread
    exact ⟨⟨hhigh.nonneg (hread.2 a (by simp)), hlow.nonneg (hread.2 b (by simp))⟩, ih hread.1⟩
  | noArgs => trivial
  | lastArg _ ih => exact ⟨ih hread, trivial⟩
  | moreArgs _ _ _ ih ihs =>
    rw [List.forall_mem_append, List.forall_mem_cons] at hread
    exact ⟨ih hread.1, ihs hread.2.2⟩
  | @literal l t ht hl =>
    rw [List.forall_mem_singleton] at hread
    exact ((Literal.parse_eq_ok_iff (hread.int ht)).mp hl).nonneg
  | yes | no => trivial
  | @name t ht =>
    rw [List.forall_mem_singleton] at hread
    exact .name (hread.ident ht)
  | parens _ _ _ ih =>
    rw [List.forall_mem_cons, List.forall_mem_append] at hread
    exact ih hread.2.1

/-! ## Printing -/

namespace Expr

theorem exists_prints_path {p : Text} (h : Dotted p) : ∃ ws, (Expr.path p).Prints ws := by
  induction h with
  | name hw => exact ⟨_, .name hw⟩
  | more _ hw ih =>
    obtain ⟨ws, hws⟩ := ih
    exact ⟨_, hws.select rfl hw⟩

theorem exists_joins {op : BinaryOp} (h : op ≠ .mask) : ∃ l k, Joins l k op := by
  cases op with
  | or => exact ⟨_, _, .or⟩
  | and => exact ⟨_, _, .and⟩
  | eq => exact ⟨_, _, .eq⟩
  | ne => exact ⟨_, _, .ne⟩
  | mask => exact absurd rfl h

mutual

/-- A spelled expression that needs no parentheses can be printed. -/
theorem exists_prints_of_spelled : (e : Expr) → e.Spelled → e.Printable → ∃ ws, e.Prints ws
  | .path _, hs, _ => exists_prints_path hs
  | .call target method args, hs, hp => by
    obtain ⟨⟨p, hcallee, hdotted⟩, hargs⟩ := hs
    obtain ⟨ws, hws⟩ := exists_prints_path hdotted
    obtain ⟨us, hus⟩ := exists_argsPrint (exists_prints_of_spelledArgs args hargs hp)
    exact ⟨_, hws.call hcallee hus⟩
  | .member base name, hs, hp => by
    obtain ⟨hpath, hname, hbase⟩ := hs
    obtain ⟨ws, hws⟩ := exists_prints_of_spelled base hbase hp.2
    exact ⟨_, select_eq_member hpath name ▸ hws.select hp.1 hname⟩
  | .literal l, hs, hp => ⟨_, .literal hp hs.1⟩
  | .truth true, _, _ => ⟨_, .yes⟩
  | .truth false, _, _ => ⟨_, .no⟩
  | .binary op left right, hs, hp => by
    obtain ⟨l, k, hjoins⟩ := exists_joins hs.1
    obtain ⟨us, hus⟩ := exists_prints_of_spelled left hs.2.1 hp.1.2
    obtain ⟨vs, hvs⟩ := exists_prints_of_spelled right hs.2.2 hp.2.2
    exact ⟨_, .binary hjoins hus hvs hp.1.1 hp.2.1⟩
  | .negation e, hs, hp => by
    obtain ⟨ws, hws⟩ := exists_prints_of_spelled e hs hp.2
    exact ⟨_, hws.negation hp.1⟩
  | .slice e high low, hs, hp => by
    obtain ⟨ws, hws⟩ := exists_prints_of_spelled e hs.2 hp.2
    exact ⟨_, hws.slice hp.1 hs.1.1 hs.1.2⟩
  | .cast type e, hs, hp => by
    obtain ⟨us, hus⟩ := hs.1
    obtain ⟨ws, hws⟩ := exists_prints_of_spelled e hs.2 hp.2
    exact ⟨_, hws.cast hus hp.1⟩
  | .missing, hs, _ | .field _, hs, _ | .localVar _, hs, _ | .param _ _, hs, _ | .valid _, hs, _
  | .hit _ _, hs, _ | .actionRun _, hs, _ | .any, hs, _ => hs.elim

theorem exists_prints_of_spelledArgs : (es : List Expr) → SpelledArgs es → PrintableArgs es →
    ∀ e ∈ es, ∃ ws, e.Prints ws
  | [], _, _ => List.forall_mem_nil _
  | e :: es, hs, hp => List.forall_mem_cons.mpr
      ⟨exists_prints_of_spelled e hs.1 hp.1, exists_prints_of_spelledArgs es hs.2 hp.2⟩

end

end Expr

end Flowline.Source
