import Flowline.Lower.Value

/-!
# Conditions

A condition becomes a match: conjunctions of validity tests, truth values in storage, and
comparisons of storage with a value.  A condition that always holds needs no match.

In front of the match stand the prerequisites of the fields that the condition reads, each once.
-/

namespace Flowline.Lower

open Source (Expr)
open Flowline.Flow (Match)

/-- The prerequisites of the fields that an expression reads, in order, with repetitions. -/
def prereqTexts : Expr → List Text
  | .field f => f.prereq.toList
  | .binary _ left right => prereqTexts left ++ prereqTexts right
  | .negation e => prereqTexts e
  | .slice e _ _ => prereqTexts e
  | .cast _ e => prereqTexts e
  | _ => []

/-- The prerequisites of the fields that an expression reads, each at its first place. -/
def prereqs (e : Expr) : List Match := (prereqTexts e).eraseDups.map .prereq

/-- Both of two matches; what always holds is left out. -/
def both : Option Match → Option Match → Option Match
  | none, right => right
  | left, none => left
  | some left, some right => some (.seq left right)

/-- A comparison of storage with a value. -/
def comparison (e : Expr) (storage other : Expr) : Lowering Match := do
  let l ← value [] storage
  let r ← value [] other
  checkFits r storage.type.width e.text
  pure (.equals l r none)

/-- An equation: one side is storage, and the other is not. -/
def equation (e : Expr) (left right : Expr) : Lowering Match :=
  if left.isStorage && !right.isStorage then comparison e left right
  else if !left.isStorage && right.isStorage then comparison e right left
  else refuse e.text "equality must compare a field with a value"

/-- A truth value in storage. -/
def truthOf (e : Expr) : Lowering Match :=
  if e.type.isBool then do
    let v ← value [] e
    pure (.equals v (.number 1) none)
  else refuse e.text "only boolean values can be used as conditions"

/-- The match of a condition without its prerequisites; none if it always holds. -/
def bareCondition : Expr → Lowering (Option Match)
  | .truth true => pure none
  | .truth false => refuse (Expr.truth false).text "a condition that never holds has no flow"
  | .valid h =>
    match h.protocol with
    | some p => pure (some (.protocol p))
    | none => refuse (Expr.valid h).text ("header " ++ h.name ++ " has no validity match")
  | .binary .and left right => do
    let l ← bareCondition left
    let r ← bareCondition right
    pure (both l r)
  | .binary .eq left right => do
    let m ← equation (.binary .eq left right) left right
    pure (some m)
  | .binary op left right =>
    refuse (Expr.binary op left right).text ("operator " ++ op.symbol ++ " cannot be matched")
  | .field f => some <$> truthOf (.field f)
  | .localVar l => some <$> truthOf (.localVar l)
  | .slice e high low => some <$> truthOf (.slice e high low)
  | .cast type e => some <$> truthOf (.cast type e)
  | e => refuse e.text "cannot be used as a match"

/-- The match of a condition; none if it always holds. -/
def condition (e : Expr) : Lowering (Option Match) := do
  let m ← bareCondition e
  pure (m.bind fun m => Match.all? (prereqs e ++ [m]))

end Flowline.Lower
