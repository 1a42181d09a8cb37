import Flowline.Source.Stmt

/-!
# Statements, part by part

Trees of statements are read, resolved, walked, lowered and printed, and each time the first thing to
know is that all statements in them are of a kind: no operand is missing, all names are resolved, the
storage is that of the program, no parentheses are needed, no switch has a label twice.  `Stmt.Each`
is this "all", stated once, so that a kind is a property of single statements, and what holds of the
statements in a tree follows from what holds of one.

Most kinds are about the expressions that a statement has itself, its condition, its subject or its
two sides (`Stmt.Own`).  What is asked of a call or of the application of a table is given on its
own, because these two are where the kinds differ.  A call has arguments, and not all of them are
expressions like the others; and a table is applied by a call until its name is resolved, and by a
statement of its own from then on.
-/

namespace Flowline.Source

variable {P : Stmt → Prop} {E : Expr → Prop} {C : Stmt → Prop}

mutual

/-- A statement and all statements in it are of a kind. -/
def Stmt.Each (P : Stmt → Prop) : Stmt → Prop
  | .block ss => P (.block ss) ∧ EachStmt P ss
  | .ifThen cond thn => P (.ifThen cond thn) ∧ thn.Each P
  | .ifElse cond thn els => P (.ifElse cond thn els) ∧ thn.Each P ∧ els.Each P
  | .switch subject cs => P (.switch subject cs) ∧ EachCase P cs
  | .apply t => P (.apply t)
  | .exit => P .exit
  | .ret => P .ret
  | .empty => P .empty
  | .assign left right => P (.assign left right)
  | .call target method args => P (.call target method args)

def EachStmt (P : Stmt → Prop) : List Stmt → Prop
  | [] => True
  | s :: ss => s.Each P ∧ EachStmt P ss

def EachCase (P : Stmt → Prop) : List Case → Prop
  | [] => True
  | .bare _ :: cs => EachCase P cs
  | .arm _ body :: cs => EachStmt P body ∧ EachCase P cs

end

/-- The expressions that a statement has itself are of a kind, or it is another simple statement of
a kind. -/
def Stmt.Own (E : Expr → Prop) (C : Stmt → Prop) : Stmt → Prop
  | .block _ => True
  | .ifThen cond _ | .ifElse cond _ _ => E cond
  | .switch subject _ => E subject
  | .assign left right => E left ∧ E right
  | s => C s

instance [DecidablePred E] [DecidablePred C] : DecidablePred (Stmt.Own E C)
  | .block _ => inferInstanceAs (Decidable True)
  | .ifThen .. | .ifElse .. | .switch .. => inferInstanceAs (Decidable (E _))
  | .assign .. => inferInstanceAs (Decidable (_ ∧ _))
  | .apply _ | .exit | .ret | .empty | .call .. => inferInstanceAs (Decidable (C _))

mutual

instance Stmt.decidableEach [DecidablePred P] : (s : Stmt) → Decidable (s.Each P)
  | .block ss =>
    have := decidableEachStmt ss
    inferInstanceAs (Decidable (_ ∧ _))
  | .ifThen _ thn =>
    have := thn.decidableEach
    inferInstanceAs (Decidable (_ ∧ _))
  | .ifElse _ thn els =>
    have := thn.decidableEach
    have := els.decidableEach
    inferInstanceAs (Decidable (_ ∧ _ ∧ _))
  | .switch _ cs =>
    have := decidableEachCase cs
    inferInstanceAs (Decidable (_ ∧ _))
  | .apply _ | .exit | .ret | .empty | .assign .. | .call .. => inferInstanceAs (Decidable (P _))

instance decidableEachStmt [DecidablePred P] : (ss : List Stmt) → Decidable (EachStmt P ss)
  | [] => inferInstanceAs (Decidable True)
  | s :: ss =>
    have := s.decidableEach
    have := decidableEachStmt ss
    inferInstanceAs (Decidable (_ ∧ _))

instance decidableEachCase [DecidablePred P] : (cs : List Case) → Decidable (EachCase P cs)
  | [] => inferInstanceAs (Decidable True)
  | .bare _ :: cs => decidableEachCase cs
  | .arm _ body :: cs =>
    have := decidableEachStmt body
    have := decidableEachCase cs
    inferInstanceAs (Decidable (_ ∧ _))

end

end Flowline.Source
