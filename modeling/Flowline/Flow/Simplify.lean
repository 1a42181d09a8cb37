import Flowline.Flow.Basic

/-!
# Simplifying flows

Parts of registers become registers, actions that do nothing leave a sequence, and nothing is kept
behind the first transfer to another stage.  One pass rewrites from the leaves up and tells whether
it changed anything; passes are repeated until none does.  Every change makes the tree smaller, so
the size of the tree bounds the number of passes.
-/

namespace Flowline.Flow

/-! ## Values -/

/-- The number of nodes of a value. -/
def Expr.size : Expr → Nat
  | reg _ => 1
  | const _ _ => 1
  | var _ _ => 1
  | slice e _ _ => e.size + 1

/-- One pass over a value: parts of registers become registers. -/
def Expr.fold : Expr → Expr × Bool
  | slice e low high =>
    match e.fold with
    | (.reg r, changed) =>
      match r.slice low high with
      | some s => (.reg s, true)
      | none => (.slice (.reg r) low high, changed)
    | (base, changed) => (.slice base low high, changed)
  | e => (e, false)

/-! ## Matches -/

/-- The number of nodes of a match. -/
def Match.size : Match → Nat
  | equals left _ _ => left.size + 1
  | seq left right => left.size + right.size + 1
  | _ => 1

/-- One pass over a match. -/
def Match.pass : Match → Match × Bool
  | seq left right =>
    let (l, lc) := left.pass
    let (r, rc) := right.pass
    (.seq l r, lc || rc)
  | equals left right mask =>
    let (l, changed) := left.fold
    (.equals l right mask, changed)
  | m => (m, false)

/-- Repeats passes over a match until one changes nothing, at most `n` times. -/
def Match.passes : Nat → Match → Match
  | 0, m => m
  | n + 1, m =>
    match m.pass with
    | (m, true) => passes n m
    | (m, false) => m

/-- The simplified form of a match. -/
def Match.simplify (m : Match) : Match := m.passes m.size

/-! ## Actions -/

/-- The number of nodes of an action. -/
def Action.size : Action → Nat
  | move src dst => src.size + dst.size + 1
  | load _ dst => dst.size + 1
  | output port => port.size + 1
  | seq left right => left.size + right.size + 1
  | clone a => a.size + 1
  | _ => 1

/-- Whether an action ends with the packet at another stage. -/
def Action.terminates : Action → Bool
  | resubmit _ => true
  | seq left right => left.terminates || right.terminates
  | _ => false

/-- Whether an action is the one that does nothing. -/
def Action.isEmpty : Action → Bool
  | empty => true
  | _ => false

/-- One pass over an action.  What stands behind a transfer is dropped, and what does nothing. -/
def Action.pass : Action → Action × Bool
  | seq left right =>
    let (l, lc) := left.pass
    if l.terminates then (l, true)
    else
      let (r, rc) := right.pass
      if l.isEmpty then (r, true)
      else if r.isEmpty then (l, true)
      else (.seq l r, lc || rc)
  | clone a =>
    let (b, changed) := a.pass
    (.clone b, changed)
  | move src dst =>
    let (s, sc) := src.fold
    let (d, dc) := dst.fold
    (.move s d, sc || dc)
  | load src dst =>
    let (d, changed) := dst.fold
    (.load src d, changed)
  | output port =>
    let (p, changed) := port.fold
    (.output p, changed)
  | a => (a, false)

/-- Repeats passes over an action until one changes nothing, at most `n` times. -/
def Action.passes : Nat → Action → Action
  | 0, a => a
  | n + 1, a =>
    match a.pass with
    | (a, true) => passes n a
    | (a, false) => a

/-- The simplified form of an action. -/
def Action.simplify (a : Action) : Action := a.passes a.size

/-- A flow: a match, and the actions of the packets that it holds for. -/
structure Line where
  guard : Match
  action : Action
  deriving DecidableEq, Repr

namespace Line

/-- The flow with both halves simplified. -/
def simplify (f : Line) : Line := ⟨f.guard.simplify, f.action.simplify⟩

/-- A flow in flow syntax. -/
def text (f : Line) : Text := f.guard.text ++ " actions=" ++ f.action.text

end Line

end Flowline.Flow
