import Flowline.Proofs.Source.Statements
import Flowline.Source.Parser

/-!
# The grammar of program text

What lists of tokens expressions, keys and statements derive, each with its tree.  Operators of a
level group to the left.  Parentheses leave no trace in a tree, so a path in parentheses is still a
path, and can be called.

Two rules are at choice.  In a key, `_` is the wildcard wherever it comes first, or else it is also
a name like any other (`Keyset`).  An `else` belongs to the nearest `if`, or else to any `if` that
lacks one (`Clause.Derives`).  The second choice only affects trees: what derives under one rule
derives under the other (`Clause.Derives.nearest`).

Nothing here refers to the parser.  What both directions of its correctness need to know of the
grammar is proved from derivations alone: which token something can start with
(`Phrase.Derives.starts`), that its trees are whole, with no operand missing and no name resolved
(`Phrase.Derives.whole`), and that all its tokens are such as the grammar has (`Known`).
-/

namespace Flowline.Source

/-! ## Words -/

/-- A token denotes an operator of a level. -/
inductive Joins : Level → TokenKind → BinaryOp → Prop
  | or : Joins .or .or .or
  | and : Joins .and .and .and
  | eq : Joins .eq .eq .eq
  | ne : Joins .eq .ne .ne

/-- A type with a width. -/
inductive Sized (width : Int64) : TokenKind → ValueType → Prop
  | bit : Sized width .kwBit { width }
  | int : Sized width .kwInt { width, isSigned := true }
  | varbit : Sized width .kwVarbit { width, isVarbit := true }

/-- A type. -/
inductive DerivesType : ValueType → List Token → Prop
  | truth {t : Token} (ht : t.kind = .kwBool) : DerivesType .truth [t]
  | sized {t lt w gt : Token} {width : Int64} {type : ValueType} (ht : Sized width t.kind type)
      (hlt : lt.kind = .lt) (hw : w.kind = .int)
      (hwidth : Numeral.word? w.literal.toList = some width) (hgt : gt.kind = .gt) :
      DerivesType type [t, lt, w, gt]

/-- A bound of a slice: a literal whose value is a machine word. -/
def IsBound (t : Token) (bound : Int64) : Prop :=
  t.kind = .int ∧ ∃ l, Literal.parse t.literal = .ok l ∧ l.value = bound.toInt

/-- What a path calls: behind its last dot stands the name of a method, and before it the target. -/
inductive Callee : Text → Option Text → Text → Prop
  | plain {method : Text} (h : '.' ∉ method.toList) : Callee method none method
  | dotted {target method : Text} (h : '.' ∉ method.toList) :
      Callee (target ++ "." ++ method) (some target) method

/-! ## Expressions -/

/-- A nonterminal for expressions, with the tree that is derived from it. -/
inductive Phrase where
  /-- Operands of a level, and operators of the level between them. -/
  | level (l : Level) (e : Expr)
  | unary (e : Expr)
  /-- An expression with members, calls and slices behind it. -/
  | suffixed (e : Expr)
  | primary (e : Expr)
  | args (es : List Expr)

/-- An operand of a level. -/
def Level.operand : Level → Expr → Phrase
  | .or, e => .level .and e
  | .and, e => .level .eq e
  | .eq, e => .unary e

/-- The tokens that derive from a nonterminal. -/
inductive Phrase.Derives : Phrase → List Token → Prop
  | operand {l : Level} {e : Expr} {ts : List Token} (h : (l.operand e).Derives ts) :
      (level l e).Derives ts
  | joined {l : Level} {left right : Expr} {op : BinaryOp} {t : Token} {ls rs : List Token}
      (hleft : (level l left).Derives ls) (ht : Joins l t.kind op)
      (hright : (l.operand right).Derives rs) :
      (level l (.binary op left right)).Derives (ls ++ t :: rs)
  | negation {e : Expr} {t : Token} {ts : List Token} (ht : t.kind = .not)
      (h : (unary e).Derives ts) : (unary (.negation e)).Derives (t :: ts)
  | cast {type : ValueType} {e : Expr} {lp rp : Token} {us ts : List Token}
      (hlp : lp.kind = .lparen) (htype : DerivesType type us) (hrp : rp.kind = .rparen)
      (h : (unary e).Derives ts) : (unary (.cast type e)).Derives (lp :: (us ++ rp :: ts))
  | bare {e : Expr} {ts : List Token} (h : (suffixed e).Derives ts) : (unary e).Derives ts
  | plain {e : Expr} {ts : List Token} (h : (primary e).Derives ts) : (suffixed e).Derives ts
  | member {e : Expr} {dot name : Token} {ts : List Token} (h : (suffixed e).Derives ts)
      (hdot : dot.kind = .dot) (hname : name.kind = .ident) :
      (suffixed (e.select name.literal)).Derives (ts ++ [dot, name])
  | call {p method : Text} {target : Option Text} {es : List Expr} {lp rp : Token}
      {ts us : List Token} (h : (suffixed (.path p)).Derives ts) (hcallee : Callee p target method)
      (hlp : lp.kind = .lparen) (hargs : (args es).Derives us) (hrp : rp.kind = .rparen) :
      (suffixed (.call target method es)).Derives (ts ++ lp :: (us ++ [rp]))
  | slice {e : Expr} {high low : Int64} {lb h colon l rb : Token} {ts : List Token}
      (he : (suffixed e).Derives ts) (hlb : lb.kind = .lbracket) (hhigh : IsBound h high)
      (hcolon : colon.kind = .colon) (hlow : IsBound l low) (hrb : rb.kind = .rbracket) :
      (suffixed (.slice e high low)).Derives (ts ++ [lb, h, colon, l, rb])
  | noArgs : (args []).Derives []
  | lastArg {e : Expr} {ts : List Token} (h : (level .or e).Derives ts) : (args [e]).Derives ts
  | moreArgs {e : Expr} {es : List Expr} {comma : Token} {ts us : List Token}
      (h : (level .or e).Derives ts) (hcomma : comma.kind = .comma) (hs : (args es).Derives us) :
      (args (e :: es)).Derives (ts ++ comma :: us)
  | literal {l : Literal} {t : Token} (ht : t.kind = .int) (hl : Literal.parse t.literal = .ok l) :
      (primary (.literal l)).Derives [t]
  | yes {t : Token} (ht : t.kind = .kwTrue) : (primary (.truth true)).Derives [t]
  | no {t : Token} (ht : t.kind = .kwFalse) : (primary (.truth false)).Derives [t]
  | name {t : Token} (ht : t.kind = .ident) : (primary (.path t.literal)).Derives [t]
  | parens {e : Expr} {lp rp : Token} {ts : List Token} (hlp : lp.kind = .lparen)
      (h : (level .or e).Derives ts) (hrp : rp.kind = .rparen) :
      (primary e).Derives (lp :: (ts ++ [rp]))

/-! ## Keys -/

/-- The wildcard. -/
def IsWildcard (t : Token) : Prop := t.kind = .ident ∧ t.literal = "_"

/-- The keys of entries.  If `_` is reserved, no value starts with it. -/
inductive Keyset (reserved : Prop) : Expr → List Token → Prop
  | default {t : Token} (ht : t.kind = .kwDefault) : Keyset reserved .any [t]
  | wildcard {t : Token} (ht : IsWildcard t) : Keyset reserved .any [t]
  | value {e : Expr} {ts : List Token} (h : (Phrase.level .or e).Derives ts)
      (hfirst : reserved → ∀ t ∈ ts.head?, ¬IsWildcard t) : Keyset reserved e ts
  | masked {e m : Expr} {t : Token} {ts us : List Token} (h : (Phrase.level .or e).Derives ts)
      (hfirst : reserved → ∀ t ∈ ts.head?, ¬IsWildcard t) (ht : t.kind = .mask)
      (hmask : (Phrase.level .or m).Derives us) :
      Keyset reserved (.binary .mask e m) (ts ++ t :: us)

/-! ## Statements -/

/-- A nonterminal for statements, with the tree that is derived from it. -/
inductive Clause where
  | stmt (s : Stmt)
  | block (ss : List Stmt)
  | stmts (ss : List Stmt)
  | cases (cs : List Case)

/-- A label of a case. -/
inductive IsLabel : Token → Text → Prop
  | name {t : Token} (ht : t.kind = .ident) : IsLabel t t.literal
  | default {t : Token} (ht : t.kind = .kwDefault) : IsLabel t "default"

/-- Whether a statement ends in an `if` that lacks an `else`. -/
def Stmt.isOpen : Stmt → Bool
  | .ifThen _ _ => true
  | .ifElse _ _ els => els.isOpen
  | _ => false

/-- The tokens that derive from a nonterminal.  If `else` belongs to the nearest `if`, the statement
before it ends in no `if` that lacks one. -/
inductive Clause.Derives (nearest : Prop) : Clause → List Token → Prop
  | braces {ss : List Stmt} {lb rb : Token} {ts : List Token} (hlb : lb.kind = .lbrace)
      (h : (stmts ss).Derives nearest ts) (hrb : rb.kind = .rbrace) :
      (block ss).Derives nearest (lb :: (ts ++ [rb]))
  | nested {ss : List Stmt} {ts : List Token} (h : (block ss).Derives nearest ts) :
      (stmt (.block ss)).Derives nearest ts
  | ifThen {c : Expr} {s : Stmt} {kw lp rp : Token} {cs ts : List Token} (hkw : kw.kind = .kwIf)
      (hlp : lp.kind = .lparen) (hc : (Phrase.level .or c).Derives cs) (hrp : rp.kind = .rparen)
      (h : (stmt s).Derives nearest ts) :
      (stmt (.ifThen c s)).Derives nearest (kw :: lp :: (cs ++ rp :: ts))
  | ifElse {c : Expr} {s s' : Stmt} {kw lp rp alt : Token} {cs ts us : List Token}
      (hkw : kw.kind = .kwIf) (hlp : lp.kind = .lparen) (hc : (Phrase.level .or c).Derives cs)
      (hrp : rp.kind = .rparen) (h : (stmt s).Derives nearest ts)
      (hclosed : nearest → s.isOpen = false) (halt : alt.kind = .kwElse)
      (h' : (stmt s').Derives nearest us) :
      (stmt (.ifElse c s s')).Derives nearest (kw :: lp :: (cs ++ rp :: (ts ++ alt :: us)))
  | switch {x : Expr} {cs : List Case} {kw lp rp lb rb : Token} {xs ts : List Token}
      (hkw : kw.kind = .kwSwitch) (hlp : lp.kind = .lparen)
      (hx : (Phrase.level .or x).Derives xs) (hrp : rp.kind = .rparen) (hlb : lb.kind = .lbrace)
      (h : (cases cs).Derives nearest ts) (hrb : rb.kind = .rbrace) :
      (stmt (.switch x cs)).Derives nearest (kw :: lp :: (xs ++ rp :: lb :: (ts ++ [rb])))
  | exit {kw semi : Token} (hkw : kw.kind = .kwExit) (hsemi : semi.kind = .semicolon) :
      (stmt .exit).Derives nearest [kw, semi]
  | ret {kw semi : Token} (hkw : kw.kind = .kwReturn) (hsemi : semi.kind = .semicolon) :
      (stmt .ret).Derives nearest [kw, semi]
  | empty {semi : Token} (hsemi : semi.kind = .semicolon) : (stmt .empty).Derives nearest [semi]
  | assign {left right : Expr} {eq semi : Token} {ls rs : List Token}
      (hfirst : ls.head?.map Token.kind = some .ident) (hl : (Phrase.suffixed left).Derives ls)
      (heq : eq.kind = .assign) (hr : (Phrase.level .or right).Derives rs)
      (hsemi : semi.kind = .semicolon) :
      (stmt (.assign left right)).Derives nearest (ls ++ eq :: (rs ++ [semi]))
  | call {target : Option Text} {method : Text} {es : List Expr} {semi : Token} {ls : List Token}
      (hfirst : ls.head?.map Token.kind = some .ident)
      (hl : (Phrase.suffixed (.call target method es)).Derives ls)
      (hsemi : semi.kind = .semicolon) :
      (stmt (.call target method es)).Derives nearest (ls ++ [semi])
  | nil : (stmts []).Derives nearest []
  | cons {s : Stmt} {ss : List Stmt} {ts us : List Token} (h : (stmt s).Derives nearest ts)
      (hs : (stmts ss).Derives nearest us) : (stmts (s :: ss)).Derives nearest (ts ++ us)
  | noCases : (cases []).Derives nearest []
  | bare {label : Text} {cs : List Case} {t colon : Token} {ts : List Token}
      (ht : IsLabel t label) (hcolon : colon.kind = .colon) (hs : (cases cs).Derives nearest ts) :
      (cases (.bare label :: cs)).Derives nearest (t :: colon :: ts)
  | arm {label : Text} {body : List Stmt} {cs : List Case} {t colon : Token} {ts us : List Token}
      (ht : IsLabel t label) (hcolon : colon.kind = .colon)
      (h : (block body).Derives nearest ts) (hs : (cases cs).Derives nearest us) :
      (cases (.arm label body :: cs)).Derives nearest (t :: colon :: (ts ++ us))

/-! ## Whole trees -/

mutual

/-- An expression as text can give it: no operand is missing, and no name is resolved. -/
def Expr.Whole : Expr → Prop
  | .path _ | .literal _ | .truth _ => True
  | .call _ _ args => WholeArgs args
  | .member base _ => base.Whole
  | .binary _ left right => left.Whole ∧ right.Whole
  | .negation e => e.Whole
  | .slice e _ _ => e.Whole
  | .cast _ e => e.Whole
  | _ => False

def WholeArgs : List Expr → Prop
  | [] => True
  | e :: es => e.Whole ∧ WholeArgs es

end

/-- A call as text can give it.  No table is known yet. -/
def Stmt.WholeCall : Stmt → Prop
  | .call _ _ args => WholeArgs args
  | .apply _ => False
  | _ => True

/-- Statements as text can give them. -/
abbrev WholeStmts : List Stmt → Prop := EachStmt (Stmt.Own Expr.Whole Stmt.WholeCall)

def Phrase.Whole : Phrase → Prop
  | .args es => WholeArgs es
  | .level _ e | .unary e | .suffixed e | .primary e => e.Whole

/-- The statements of a nonterminal and all statements in them are of a kind. -/
def Clause.Each (P : Stmt → Prop) : Clause → Prop
  | .stmt s => s.Each P
  | .block ss | .stmts ss => EachStmt P ss
  | .cases cs => EachCase P cs

variable {ts : List Token} {e : Expr} {x : Clause} {l : Level} {k : TokenKind}

theorem Level.whole_operand (h : (l.operand e).Whole) : e.Whole := by
  cases l <;> exact h

theorem Phrase.Derives.whole {x : Phrase} (h : x.Derives ts) : x.Whole := by
  induction h with
  | operand _ ih => exact Level.whole_operand ih
  | joined _ _ _ ihl ihr => exact ⟨ihl, Level.whole_operand ihr⟩
  | negation _ _ ih | cast _ _ _ _ ih | bare _ ih | plain _ ih => exact ih
  | @member e _ _ _ _ _ _ ih =>
    cases e with
    | path => trivial
    | _ => exact ih
  | call _ _ _ _ _ _ ih | slice _ _ _ _ _ _ ih => exact ih
  | noArgs => trivial
  | lastArg _ ih => exact ⟨ih, trivial⟩
  | moreArgs _ _ _ ih ihs => exact ⟨ih, ihs⟩
  | parens _ _ _ ih => exact ih
  | _ => trivial

/-- A key as text can give it: any value, or a whole expression. -/
def Expr.WholeKey (e : Expr) : Prop := e = .any ∨ e.Whole

theorem Keyset.wholeKey {reserved : Prop} (h : Keyset reserved e ts) : e.WholeKey := by
  cases h with
  | default | wildcard => exact .inl rfl
  | value h => exact .inr h.whole
  | masked h _ _ hm => exact .inr ⟨h.whole, hm.whole⟩

/-- What follows for a statement from its own derivation holds of all statements that are derived. -/
theorem Clause.Derives.each {P : Stmt → Prop} {T : Token → Prop} {nearest : Prop}
    (hP : ∀ {s ts}, (stmt s).Derives nearest ts → (∀ t ∈ ts, T t) → P s)
    (h : x.Derives nearest ts) (hts : ∀ t ∈ ts, T t) : x.Each P := by
  induction h with
  | braces _ _ _ ih =>
    rw [List.forall_mem_cons, List.forall_mem_append] at hts
    exact ih hts.2.1
  | nested h ih => exact ⟨hP (.nested h) hts, ih hts⟩
  | ifThen hkw hlp hc hrp h ih =>
    have hown := hP (.ifThen hkw hlp hc hrp h) hts
    simp only [List.forall_mem_cons, List.forall_mem_append] at hts
    exact ⟨hown, ih hts.2.2.2.2⟩
  | ifElse hkw hlp hc hrp h hclosed halt h' ih ih' =>
    have hown := hP (.ifElse hkw hlp hc hrp h hclosed halt h') hts
    simp only [List.forall_mem_cons, List.forall_mem_append] at hts
    exact ⟨hown, ih hts.2.2.2.2.1, ih' hts.2.2.2.2.2.2⟩
  | switch hkw hlp hx hrp hlb h hrb ih =>
    have hown := hP (.switch hkw hlp hx hrp hlb h hrb) hts
    simp only [List.forall_mem_cons, List.forall_mem_append] at hts
    exact ⟨hown, ih hts.2.2.2.2.2.1⟩
  | exit hkw hsemi => exact hP (.exit hkw hsemi) hts
  | ret hkw hsemi => exact hP (.ret hkw hsemi) hts
  | empty hsemi => exact hP (.empty hsemi) hts
  | assign hfirst hl heq hr hsemi => exact hP (.assign hfirst hl heq hr hsemi) hts
  | call hfirst hl hsemi => exact hP (.call hfirst hl hsemi) hts
  | nil | noCases => trivial
  | cons _ _ ih ihs =>
    rw [List.forall_mem_append] at hts
    exact ⟨ih hts.1, ihs hts.2⟩
  | bare _ _ _ ih =>
    rw [List.forall_mem_cons, List.forall_mem_cons] at hts
    exact ih hts.2.2
  | arm _ _ _ _ ih ihs =>
    simp only [List.forall_mem_cons, List.forall_mem_append] at hts
    exact ⟨ih hts.2.2.1, ihs hts.2.2.2⟩

theorem Clause.Derives.whole {nearest : Prop} (h : x.Derives nearest ts) :
    x.Each (Stmt.Own Expr.Whole Stmt.WholeCall) := by
  refine h.each (T := fun _ => True) (fun h _ => ?_) fun _ _ => trivial
  cases h with
  | ifThen _ _ hc | ifElse _ _ hc | switch _ _ hc => exact hc.whole
  | assign _ hl _ hr _ => exact ⟨hl.whole, hr.whole⟩
  | call _ hl _ => exact hl.whole
  | _ => trivial

/-! ## First tokens -/

/-- The classes of tokens that an expression can start with. -/
def TokenKind.beginsExpr : TokenKind → Bool
  | not | lparen | int | kwTrue | kwFalse | ident => true
  | _ => false

/-- The classes of tokens that a statement can start with. -/
def TokenKind.beginsStmt : TokenKind → Bool
  | lbrace | kwIf | kwSwitch | kwExit | kwReturn | semicolon | ident => true
  | _ => false

/-- How the tokens of a nonterminal start.  A parenthesis in front of an expression with suffixes
has an expression behind it, not a type. -/
def Phrase.Starts : Phrase → List Token → Prop
  | .level _ _, ts | .unary _, ts => ∃ t us, ts = t :: us ∧ t.kind.beginsExpr = true
  | .suffixed _, ts | .primary _, ts => ∃ t us, ts = t :: us ∧ t.kind.beginsExpr = true ∧
      t.kind ≠ .not ∧ (t.kind = .lparen → ∃ t' vs, us = t' :: vs ∧ t'.kind.beginsExpr = true)
  | .args _, _ => True

theorem Phrase.starts_append {e' : Expr} (h : (Phrase.suffixed e).Starts ts) (us : List Token) :
    (Phrase.suffixed e').Starts (ts ++ us) := by
  obtain ⟨t, ts, rfl, ht, hnot, hparen⟩ := h
  refine ⟨t, ts ++ us, rfl, ht, hnot, fun hlp => ?_⟩
  obtain ⟨t', vs, rfl, ht'⟩ := hparen hlp
  exact ⟨t', vs ++ us, rfl, ht'⟩

theorem Phrase.starts_single {t : Token} (e : Expr) (ht : t.kind.beginsExpr = true)
    (hnot : t.kind ≠ .not) (hparen : t.kind ≠ .lparen) : (Phrase.primary e).Starts [t] :=
  ⟨t, [], rfl, ht, hnot, fun h => absurd h hparen⟩

theorem Level.starts_operand (h : (l.operand e).Starts ts) : (Phrase.level l e).Starts ts := by
  cases l <;> exact h

theorem Phrase.Derives.starts {x : Phrase} (h : x.Derives ts) : x.Starts ts := by
  induction h with
  | operand _ ih => exact Level.starts_operand ih
  | joined _ _ _ ih _ =>
    obtain ⟨t, us, rfl, ht⟩ := ih
    exact ⟨t, _, rfl, ht⟩
  | negation ht _ _ => exact ⟨_, _, rfl, by rw [ht]; rfl⟩
  | cast hlp _ _ _ _ => exact ⟨_, _, rfl, by rw [hlp]; rfl⟩
  | bare _ ih =>
    obtain ⟨t, us, rfl, ht, -⟩ := ih
    exact ⟨t, us, rfl, ht⟩
  | plain _ ih => exact ih
  | member _ _ _ ih | call _ _ _ _ _ ih _ | slice _ _ _ _ _ _ ih => exact Phrase.starts_append ih _
  | literal ht _ | yes ht | no ht | name ht =>
    apply Phrase.starts_single <;> simp [ht, TokenKind.beginsExpr]
  | parens hlp _ _ ih =>
    obtain ⟨t, us, rfl, ht⟩ := ih
    exact ⟨_, _, rfl, by rw [hlp]; rfl, by rw [hlp]; nofun, fun _ => ⟨t, _, rfl, ht⟩⟩
  | _ => trivial

theorem cons_of_head (h : ts.head?.map Token.kind = some k) :
    ∃ t us, ts = t :: us ∧ t.kind = k := by
  cases ts with
  | nil => cases h
  | cons t us => exact ⟨t, us, rfl, Option.some.inj h⟩

theorem Clause.Derives.block_starts {nearest : Prop} {ss : List Stmt}
    (h : (Clause.block ss).Derives nearest ts) : ∃ t us, ts = t :: us ∧ t.kind = .lbrace := by
  cases h with
  | braces hlb => exact ⟨_, _, rfl, hlb⟩

theorem Clause.Derives.starts {nearest : Prop} {s : Stmt} (h : (Clause.stmt s).Derives nearest ts) :
    ∃ t us, ts = t :: us ∧ t.kind.beginsStmt = true := by
  cases h with
  | nested h =>
    obtain ⟨t, us, rfl, ht⟩ := h.block_starts
    exact ⟨t, us, rfl, by rw [ht]; rfl⟩
  | ifThen hkw | ifElse hkw | switch hkw | exit hkw | ret hkw => exact ⟨_, _, rfl, by rw [hkw]; rfl⟩
  | empty hsemi => exact ⟨_, _, rfl, by rw [hsemi]; rfl⟩
  | assign hfirst | call hfirst =>
    obtain ⟨t, us, rfl, ht⟩ := cons_of_head hfirst
    exact ⟨t, _, rfl, by rw [ht]; rfl⟩

/-! ## Tokens of the grammar -/

/-- There is no end of input among tokens. -/
def NoEnd (ts : List Token) : Prop := ∀ t ∈ ts, t.kind ≠ .eof

/-- Tokens of the classes that occur in the grammar: there is no end of input among them, no string
and nothing illegal. -/
def Known (ts : List Token) : Prop :=
  ∀ t ∈ ts, t.kind ≠ .eof ∧ t.kind ≠ .string ∧ t.kind ≠ .illegal

theorem Known.noEnd {ts : List Token} (h : Known ts) : NoEnd ts := fun t ht => (h t ht).1

@[simp] theorem known_nil : Known [] := nofun

@[simp] theorem known_cons {t : Token} {ts : List Token} : Known (t :: ts) ↔
    (t.kind ≠ .eof ∧ t.kind ≠ .string ∧ t.kind ≠ .illegal) ∧ Known ts := List.forall_mem_cons

@[simp] theorem known_append {us : List Token} : Known (ts ++ us) ↔ Known ts ∧ Known us :=
  List.forall_mem_append

theorem Sized.known {width : Int64} {type : ValueType} (h : Sized width k type) :
    k ≠ .eof ∧ k ≠ .string ∧ k ≠ .illegal := by
  cases h <;> decide

theorem DerivesType.known {type : ValueType} (h : DerivesType type ts) : Known ts := by
  cases h with
  | truth ht => simp [ht]
  | sized ht hlt hw _ hgt =>
    simp [ht.known, hlt, hw, hgt]

theorem Joins.known {op : BinaryOp} (h : Joins l k op) : k ≠ .eof ∧ k ≠ .string ∧ k ≠ .illegal := by
  cases h <;> decide

theorem Phrase.Derives.known {x : Phrase} (h : x.Derives ts) : Known ts := by
  induction h with
  | operand _ ih => exact ih
  | joined _ ht _ ihl ihr => simp [ihl, ihr, ht.known]
  | negation ht _ ih => simp [ht, ih]
  | cast hlp htype hrp _ ih => simp [hlp, htype.known, hrp, ih]
  | bare _ ih | plain _ ih => exact ih
  | member _ hdot hname ih => simp [ih, hdot, hname]
  | call _ _ hlp _ hrp ih ihargs => simp [ih, hlp, ihargs, hrp]
  | slice _ hlb hhigh hcolon hlow hrb ih => simp [ih, hlb, hhigh.1, hcolon, hlow.1, hrb]
  | noArgs => exact known_nil
  | lastArg _ ih => exact ih
  | moreArgs _ hcomma _ ih ihs => simp [ih, hcomma, ihs]
  | literal ht _ | yes ht | no ht | name ht => simp [ht]
  | parens hlp _ hrp ih => simp [hlp, ih, hrp]

theorem Keyset.known {reserved : Prop} (h : Keyset reserved e ts) : Known ts := by
  cases h with
  | default ht => simp [ht]
  | wildcard ht => simp [ht.1]
  | value h => exact h.known
  | masked h _ ht hmask => simp [h.known, ht, hmask.known]

theorem IsLabel.known {t : Token} {label : Text} (h : IsLabel t label) :
    t.kind ≠ .eof ∧ t.kind ≠ .string ∧ t.kind ≠ .illegal := by
  cases h with
  | name ht | default ht => simp [ht]

theorem Clause.Derives.known {nearest : Prop} (h : x.Derives nearest ts) : Known ts := by
  induction h with
  | braces hlb _ hrb ih => simp [hlb, ih, hrb]
  | nested _ ih => exact ih
  | ifThen hkw hlp hc hrp _ ih => simp [hkw, hlp, hc.known, hrp, ih]
  | ifElse hkw hlp hc hrp _ _ halt _ ih ih' => simp [hkw, hlp, hc.known, hrp, ih, halt, ih']
  | switch hkw hlp hx hrp hlb _ hrb ih => simp [hkw, hlp, hx.known, hrp, hlb, ih, hrb]
  | exit hkw hsemi | ret hkw hsemi => simp [hkw, hsemi]
  | empty hsemi => simp [hsemi]
  | assign _ hl heq hr hsemi => simp [hl.known, heq, hr.known, hsemi]
  | call _ hl hsemi => simp [hl.known, hsemi]
  | nil => exact known_nil
  | cons _ _ ih ihs => simp [ih, ihs]
  | noCases => exact known_nil
  | bare ht hcolon _ ih => simp [ht.known, hcolon, ih]
  | arm ht hcolon _ _ ih ihs => simp [ht.known, hcolon, ih, ihs]

/-! ## The nearest `if` -/

section

variable {nearest : Prop}

/-- An `else` can be put behind a statement that ends in an `if` without one. -/
theorem Clause.Derives.attach {s : Stmt} (h : (Clause.stmt s).Derives nearest ts)
    (hopen : s.isOpen = true) {s' : Stmt} {alt : Token} {us : List Token}
    (halt : alt.kind = .kwElse) (h' : (Clause.stmt s').Derives nearest us) :
    ∃ s'', (Clause.stmt s'').Derives nearest (ts ++ alt :: us) := by
  generalize hx : Clause.stmt s = x at h
  induction h generalizing s with
  | @ifThen c t kw lp rp cs ts hkw hlp hc hrp ht ih =>
    cases hx
    by_cases hclosed : t.isOpen = true
    · obtain ⟨s'', hs''⟩ := ih hclosed rfl
      refine ⟨.ifThen c s'', ?_⟩
      simpa using Clause.Derives.ifThen hkw hlp hc hrp hs''
    · refine ⟨.ifElse c t s', ?_⟩
      have hd := Clause.Derives.ifElse hkw hlp hc hrp ht
        (fun _ => Bool.not_eq_true _ ▸ hclosed) halt h'
      simpa using hd
  | @ifElse c t t' kw lp rp alt' cs ts us' hkw hlp hc hrp ht hclosed halt' ht' _ ih' =>
    cases hx
    have hopen' : t'.isOpen = true := hopen
    obtain ⟨s'', hs''⟩ := ih' hopen' rfl
    refine ⟨.ifElse c t s'', ?_⟩
    simpa using Clause.Derives.ifElse hkw hlp hc hrp ht hclosed halt' hs''
  | _ => cases hx <;> cases hopen

end

/-- What follows a rule also derives where the rule is not asked for. -/
theorem Clause.Derives.imp {nearest nearest' : Prop} (h : x.Derives nearest ts)
    (hrule : nearest' → nearest) : x.Derives nearest' ts := by
  induction h with
  | braces hlb _ hrb ih => exact .braces hlb ih hrb
  | nested _ ih => exact .nested ih
  | ifThen hkw hlp hc hrp _ ih => exact .ifThen hkw hlp hc hrp ih
  | ifElse hkw hlp hc hrp _ hclosed halt _ ih ih' =>
    exact .ifElse hkw hlp hc hrp ih (fun h => hclosed (hrule h)) halt ih'
  | switch hkw hlp hx hrp hlb _ hrb ih => exact .switch hkw hlp hx hrp hlb ih hrb
  | exit hkw hsemi => exact .exit hkw hsemi
  | ret hkw hsemi => exact .ret hkw hsemi
  | empty hsemi => exact .empty hsemi
  | assign hfirst hl heq hr hsemi => exact .assign hfirst hl heq hr hsemi
  | call hfirst hl hsemi => exact .call hfirst hl hsemi
  | nil => exact .nil
  | cons _ _ ih ihs => exact .cons ih ihs
  | noCases => exact .noCases
  | bare ht hcolon _ ih => exact .bare ht hcolon ih
  | arm ht hcolon _ _ ih ihs => exact .arm ht hcolon ih ihs

/-- Tokens derive from a nonterminal with each `else` at the nearest `if`. -/
def Clause.Nearest : Clause → List Token → Prop
  | .stmt _, ts => ∃ s, (Clause.stmt s).Derives True ts
  | .block _, ts => ∃ ss, (Clause.block ss).Derives True ts
  | .stmts _, ts => ∃ ss, (Clause.stmts ss).Derives True ts
  | .cases _, ts => ∃ cs, (Clause.cases cs).Derives True ts

/-- What derives at all, derives with each `else` at the nearest `if`. -/
theorem Clause.Derives.nearest {nearest : Prop} (h : x.Derives nearest ts) : x.Nearest ts := by
  induction h with
  | braces hlb _ hrb ih =>
    obtain ⟨ss, hss⟩ := ih
    exact ⟨ss, .braces hlb hss hrb⟩
  | nested _ ih =>
    obtain ⟨ss, hss⟩ := ih
    exact ⟨.block ss, .nested hss⟩
  | ifThen hkw hlp hc hrp _ ih =>
    obtain ⟨s, hs⟩ := ih
    exact ⟨.ifThen _ s, .ifThen hkw hlp hc hrp hs⟩
  | @ifElse c _ _ kw lp rp alt cs ts us hkw hlp hc hrp _ _ halt _ ih ih' =>
    obtain ⟨s, hs⟩ := ih
    obtain ⟨s', hs'⟩ := ih'
    by_cases hopen : s.isOpen = true
    · -- the `else` moves into the statement before it
      obtain ⟨s'', hs''⟩ := hs.attach hopen halt hs'
      exact ⟨.ifThen c s'', .ifThen hkw hlp hc hrp hs''⟩
    · have hclosed : True → s.isOpen = false := fun _ => Bool.not_eq_true _ ▸ hopen
      exact ⟨.ifElse c s s', .ifElse hkw hlp hc hrp hs hclosed halt hs'⟩
  | switch hkw hlp hx hrp hlb _ hrb ih =>
    obtain ⟨cs, hcs⟩ := ih
    exact ⟨.switch _ cs, .switch hkw hlp hx hrp hlb hcs hrb⟩
  | exit hkw hsemi => exact ⟨.exit, .exit hkw hsemi⟩
  | ret hkw hsemi => exact ⟨.ret, .ret hkw hsemi⟩
  | empty hsemi => exact ⟨.empty, .empty hsemi⟩
  | assign hfirst hl heq hr hsemi => exact ⟨_, .assign hfirst hl heq hr hsemi⟩
  | call hfirst hl hsemi => exact ⟨_, .call hfirst hl hsemi⟩
  | nil => exact ⟨[], .nil⟩
  | cons _ _ ih ihs =>
    obtain ⟨s, hs⟩ := ih
    obtain ⟨ss, hss⟩ := ihs
    exact ⟨s :: ss, .cons hs hss⟩
  | noCases => exact ⟨[], .noCases⟩
  | bare ht hcolon _ ih =>
    obtain ⟨cs, hcs⟩ := ih
    exact ⟨.bare _ :: cs, .bare ht hcolon hcs⟩
  | arm ht hcolon _ _ ih ihs =>
    obtain ⟨body, hbody⟩ := ih
    obtain ⟨cs, hcs⟩ := ihs
    exact ⟨.arm _ body :: cs, .arm ht hcolon hbody hcs⟩

end Flowline.Source
