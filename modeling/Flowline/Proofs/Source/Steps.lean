import Flowline.Proofs.Source.Grammar

/-!
# The steps of the parser

The functions of the parser are sequences of steps.  Where a step reads nothing, what is behind it is
left out (`andThen`), except behind the expressions of statements, which may be missing
(`orMissing`).  No step takes back an error (`GrowsAt`, `StmtGrowsAt`).
-/

namespace Flowline.Source

namespace ParseState

variable (t t' : Token) (ts : List Token) (last : Token) (errs : List Text)

@[simp] theorem kind_cons :
    (⟨t :: ts, last, errs⟩ : ParseState).kind = t.kind := rfl

@[simp] theorem current_cons :
    (⟨t :: ts, last, errs⟩ : ParseState).current = t := rfl

@[simp] theorem advance_cons :
    (⟨t :: ts, last, errs⟩ : ParseState).advance = ⟨ts, last, errs⟩ := rfl

@[simp] theorem peekKind_cons :
    (⟨t :: t' :: ts, last, errs⟩ : ParseState).peekKind = t'.kind := rfl

@[simp] theorem errors_advance (s : ParseState) : s.advance.errors = s.errors := by
  unfold advance
  split <;> rfl

theorem length_errors_fail (s : ParseState) (reason : Text) :
    (s.fail reason).errors.length = s.errors.length + 1 := by
  simp [fail]

end ParseState

/-! ## Sequences -/

section

variable {α β : Type}

@[simp] theorem andThen_some (a : α) (s : ParseState)
    (k : α → ParseState → Option β × ParseState) : andThen (some a, s) k = k a s := rfl

@[simp] theorem orMissing_some (e : Expr) (s : ParseState)
    (k : Expr → ParseState → Option β × ParseState) : orMissing (some e, s) k = k e s := rfl

@[simp] theorem take_cons {k : TokenKind} {t : Token} (h : t.kind = k) (ts : List Token)
    (last : Token) (errs : List Text) :
    take k ⟨t :: ts, last, errs⟩ = (some t, ⟨ts, last, errs⟩) := by
  simp [take, h]

/-! ## Errors stay -/

/-- A step keeps the errors before it. -/
def Grows (s : ParseState) (p : α × ParseState) : Prop := s.errors.length ≤ p.2.errors.length

theorem grows_refl (s : ParseState) (a : α) : Grows s (a, s) := Nat.le_refl _

theorem grows_fail (s : ParseState) (a : α) (reason : Text) : Grows s (a, s.fail reason) := by
  unfold Grows
  rw [ParseState.length_errors_fail]
  exact Nat.le_succ _

theorem Grows.of_advance {s : ParseState} {p : α × ParseState} (h : Grows s.advance p) :
    Grows s p := by
  unfold Grows at h
  rwa [s.errors_advance] at h

theorem Grows.andThen {s : ParseState} {p : Option α × ParseState}
    {k : α → ParseState → Option β × ParseState} (hp : Grows s p) (hk : ∀ a t, Grows t (k a t)) :
    Grows s (andThen p k) := by
  rcases p with ⟨_ | a, t⟩
  · exact hp
  · exact Nat.le_trans hp (hk a t)

theorem Grows.orMissing {s : ParseState} {p : Option Expr × ParseState}
    {k : Expr → ParseState → Option β × ParseState} (hp : Grows s p) (hk : ∀ e t, Grows t (k e t)) :
    Grows s (orMissing p k) :=
  Nat.le_trans hp (hk _ _)

theorem grows_take (k : TokenKind) (s : ParseState) : Grows s (take k s) := by
  unfold take
  split
  · exact (grows_refl _ _).of_advance
  · exact grows_fail _ _ _

end

/-! ## Pieces without nesting -/

section

variable (s : ParseState)

theorem grows_parseType : Grows s (parseType s) := by
  unfold parseType
  split
  · exact (grows_refl _ _).of_advance
  · refine ((grows_take _ _).andThen fun _ t => ?_).of_advance
    split
    · exact grows_fail _ _ _
    · split
      · exact grows_fail _ _ _
      · exact ((grows_take _ _).andThen fun _ t => grows_refl _ _).of_advance

theorem grows_parseBound : Grows s (parseBound s) := by
  unfold parseBound
  split
  · exact grows_fail _ _ _
  · split
    · split
      · exact (grows_refl _ _).of_advance
      · exact grows_fail _ _ _
    · exact grows_fail _ _ _

theorem grows_parseBounds : Grows s (parseBounds s) := by
  exact (grows_parseBound s).andThen fun _ t => (grows_take _ t).andThen fun _ t =>
    (grows_parseBound t).andThen fun _ t => (grows_take _ t).andThen fun _ t => grows_refl _ _

end

/-! ## Expressions -/

/-- A bound on the calls between operands of a level and the token that they start with. -/
def Level.depth : Level → Nat
  | .or => 9
  | .and => 7
  | .eq => 5

/-- No function takes back an error, at some depth of calls. -/
structure GrowsAt (n : Nat) : Prop where
  binary : ∀ l s, Grows s (parseBinary n l s)
  operators : ∀ l e s, Grows s (parseOperators n l e s)
  operand : ∀ l s, Grows s (parseOperand n l s)
  unary : ∀ s, Grows s (parseUnary n s)
  suffixed : ∀ s, Grows s (parsePostfix n s)
  suffixes : ∀ e s, Grows s (parseSuffixes n e s)
  args : ∀ s, Grows s (parseArgs n s)
  primary : ∀ s, Grows s (parsePrimary n s)

section

variable {n : Nat}

theorem GrowsAt.unary_succ (ih : GrowsAt n) (s : ParseState) : Grows s (parseUnary (n + 1) s) := by
  rw [parseUnary]
  split
  · exact ((ih.unary _).andThen fun _ _ => grows_refl _ _).of_advance
  · split
    · exact ((grows_parseType _).andThen fun _ t => (grows_take _ t).andThen fun _ t =>
        (ih.unary t).andThen fun _ _ => grows_refl _ _).of_advance
    · exact ih.suffixed s

theorem GrowsAt.suffixes_succ (ih : GrowsAt n) (e : Expr) (s : ParseState) :
    Grows s (parseSuffixes (n + 1) e s) := by
  rw [parseSuffixes]
  split
  · split
    · exact (grows_fail _ _ _).of_advance
    · exact (ih.suffixes _ _).of_advance.of_advance
  · split
    · split
      · exact ((ih.args _).andThen fun _ t => (grows_take _ t).andThen fun _ t =>
          ih.suffixes _ t).of_advance
      · exact grows_fail _ _ _
    · split
      · exact ((grows_parseBounds _).andThen fun _ t => ih.suffixes _ t).of_advance
      · exact grows_refl _ _

theorem GrowsAt.args_succ (ih : GrowsAt n) (s : ParseState) : Grows s (parseArgs (n + 1) s) := by
  rw [parseArgs]
  split
  · exact grows_refl _ _
  · refine (ih.binary .or s).andThen fun _ t => ?_
    split
    · exact ((ih.args _).andThen fun _ _ => grows_refl _ _).of_advance
    · exact grows_refl _ _

theorem GrowsAt.primary_succ (ih : GrowsAt n) (s : ParseState) :
    Grows s (parsePrimary (n + 1) s) := by
  rw [parsePrimary]
  split
  · split
    · exact (grows_refl _ _).of_advance
    · exact grows_fail _ _ _
  · exact (grows_refl _ _).of_advance
  · exact (grows_refl _ _).of_advance
  · exact (grows_refl _ _).of_advance
  · exact ((ih.binary .or _).andThen fun _ t =>
      (grows_take _ t).andThen fun _ _ => grows_refl _ _).of_advance
  · exact grows_fail _ _ _

theorem growsAt (n : Nat) : GrowsAt n := by
  induction n with
  | zero =>
    refine ⟨?_, ?_, ?_, ?_, ?_, ?_, ?_, ?_⟩ <;> intros <;> exact grows_refl _ _
  | succ n ih =>
    refine ⟨fun l s => ?_, fun l e s => ?_, fun l s => ?_, ih.unary_succ, fun s => ?_,
      ih.suffixes_succ, ih.args_succ, ih.primary_succ⟩
    · rw [parseBinary]
      exact (ih.operand l s).andThen (ih.operators l)
    · rw [parseOperators]
      split
      · exact grows_refl _ _
      · exact ((ih.operand l _).andThen fun _ t => ih.operators l _ t).of_advance
    · cases l
      · exact ih.binary .and s
      · exact ih.binary .eq s
      · exact ih.unary s
    · rw [parsePostfix]
      exact (ih.primary s).andThen ih.suffixes

end

/-! ## Statements -/

section

variable (n : Nat) (s : ParseState)

theorem grows_parseAssignOrCall : Grows s (parseAssignOrCall n s) := by
  unfold parseAssignOrCall
  refine ((growsAt n).suffixed s).andThen fun left t => ?_
  split
  · exact (((growsAt n).binary .or _).orMissing fun _ t =>
      (grows_take _ t).andThen fun _ _ => grows_refl _ _).of_advance
  · split
    · exact (grows_take _ t).andThen fun _ _ => grows_refl _ _
    · exact grows_fail _ _ _

theorem grows_parseHead : Grows s (parseHead n s) := by
  exact (grows_take _ s).andThen fun _ t => ((growsAt n).binary .or t).orMissing fun _ t =>
    (grows_take _ t).andThen fun _ _ => grows_refl _ _

end

/-- No function for statements takes back an error, at some depth of calls. -/
structure StmtGrowsAt (n : Nat) : Prop where
  stmt : ∀ s, Grows s (parseStatement n s)
  block : ∀ s, Grows s (parseBlock n s)
  many : ∀ closing s, Grows s (parseMany n closing s).2
  cases : ∀ s, Grows s (parseCases n s)

section

variable {n : Nat}

theorem StmtGrowsAt.afterThen (ih : StmtGrowsAt n) (cond : Expr) (thn : Stmt) (s : ParseState) :
    Grows s (afterThen (parseStatement n) cond thn s) := by
  unfold Source.afterThen
  split
  · exact ((ih.stmt _).andThen fun _ _ => grows_refl _ _).of_advance
  · exact grows_refl _ _

theorem StmtGrowsAt.afterSubject (ih : StmtGrowsAt n) (subject : Expr) (s : ParseState) :
    Grows s (afterSubject (parseCases n) subject s) := by
  unfold Source.afterSubject
  split
  · exact grows_fail _ _ _
  · exact ((ih.cases _).andThen fun _ t =>
      (grows_take _ t).andThen fun _ _ => grows_refl _ _).of_advance

theorem StmtGrowsAt.afterLabel (ih : StmtGrowsAt n) (label : Text) (s : ParseState) :
    Grows s (afterLabel (parseBlock n) (parseCases n) label s) := by
  unfold Source.afterLabel
  split
  · exact Grows.andThen (ih.block s) fun _ t => (ih.cases t).andThen fun _ _ => grows_refl _ _
  · exact (ih.cases s).andThen fun _ _ => grows_refl _ _

theorem StmtGrowsAt.stmt_succ (ih : StmtGrowsAt n) (s : ParseState) :
    Grows s (parseStatement (n + 1) s) := by
  rw [parseStatement]
  split
  · exact Grows.andThen (ih.block s) fun _ _ => grows_refl _ _
  · exact ((grows_parseHead n _).andThen fun cond t =>
      (ih.stmt t).andThen (ih.afterThen cond)).of_advance
  · exact ((grows_parseHead n _).andThen ih.afterSubject).of_advance
  · exact ((grows_take _ _).andThen fun _ _ => grows_refl _ _).of_advance
  · exact ((grows_take _ _).andThen fun _ _ => grows_refl _ _).of_advance
  · exact (grows_refl _ _).of_advance
  · exact grows_parseAssignOrCall n s
  · unfold Grows
    rw [ParseState.errors_advance]
    exact grows_fail s () _

theorem StmtGrowsAt.block_succ (ih : StmtGrowsAt n) (s : ParseState) :
    Grows s (parseBlock (n + 1) s) := by
  rw [parseBlock]
  have hmany := (ih.many true s.advance).of_advance
  rcases hp : parseMany n true s.advance with ⟨ss, ok, t⟩
  rw [hp] at hmany
  cases ok with
  | true => exact Nat.le_trans hmany (grows_take .rbrace t)
  | false => exact hmany

theorem StmtGrowsAt.many_succ (ih : StmtGrowsAt n) (closing : Bool) (s : ParseState) :
    Grows s (parseMany (n + 1) closing s).2 := by
  rw [parseMany]
  split
  · exact grows_refl _ _
  · have hstmt := ih.stmt s
    rcases hp : parseStatement n s with ⟨stmt, t⟩
    rw [hp] at hstmt
    dsimp only
    split
    · exact hstmt
    · exact Nat.le_trans hstmt (ih.many closing t)

theorem StmtGrowsAt.cases_succ (ih : StmtGrowsAt n) (s : ParseState) :
    Grows s (parseCases (n + 1) s) := by
  rw [parseCases]
  split
  · exact grows_refl _ _
  · split
    · exact ((grows_take _ _).andThen fun _ t => ih.afterLabel _ t).of_advance
    · exact grows_fail _ _ _

theorem stmtGrowsAt (n : Nat) : StmtGrowsAt n := by
  induction n with
  | zero => exact ⟨fun s => grows_refl s _, fun s => grows_refl s _, fun _ s => grows_refl s _,
      fun s => grows_refl s _⟩
  | succ n ih => exact ⟨ih.stmt_succ, ih.block_succ, ih.many_succ, ih.cases_succ⟩

end

end Flowline.Source
