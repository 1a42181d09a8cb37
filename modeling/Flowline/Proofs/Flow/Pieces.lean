import Flowline.Proofs.Flow.Contents

/-!
# The pieces of the texts of flows

The text of a match or an action is made of plain pieces and of interpolations, which the rule around
the flow fills in.  `Match.pieces` and `Action.pieces` list them in order, and `render` puts them
together again, so the holes among the pieces are what the compiler itself interpolates.  A dollar
sign in a name of the program is part of a plain piece.

Every hole is a variable of the flow, or one that is moved to the place of a register inside its
base (`Hole`).
-/

namespace Flowline.Flow

open Switch (Register)

/-- A piece of a text: plain, or an interpolation. -/
inductive Piece where
  | plain (t : Text)
  | hole (t : Text)

/-- The text of a piece. -/
def Piece.text : Piece → Text
  | plain t => t
  | hole t => interpolation t

/-- The text that pieces make up. -/
def render (ps : List Piece) : Text := String.join (ps.map Piece.text)

@[simp] theorem render_nil : render [] = "" := rfl

@[simp] theorem render_cons (p : Piece) (ps : List Piece) : render (p :: ps) = p.text ++ render ps :=
  String.join_cons

@[simp] theorem render_append (ps qs : List Piece) : render (ps ++ qs) = render ps ++ render qs := by
  induction ps with
  | nil => simp
  | cons p ps ih => rw [List.cons_append, render_cons, ih, render_cons, String.append_assoc]

/-! ## Values -/

/-- The pieces of a value outside a match. -/
def Expr.pieces : Expr → List Piece
  | reg r => [.plain r.actionText]
  | const value base => [.plain (constText value base)]
  | var name _ => [.hole name]
  | slice e low high =>
    e.pieces ++ [.plain ("[" ++ Numeral.word low ++ ".." ++ Numeral.word high ++ "]")]

theorem Expr.render_pieces (e : Expr) : render e.pieces = e.text := by
  induction e with
  | slice e low high ih =>
    rw [Expr.pieces, render_append, ih]
    simp [Expr.text, Piece.text, String.append_assoc]
  | _ => simp [Expr.pieces, Expr.text, Piece.text]

/-- A variable at the place of a register inside its base. -/
def movedHole (name : Text) (r : Register) : Text :=
  "(" ++ name ++ " as bit<" ++ Numeral.word r.size ++ ">) << " ++ Numeral.word r.low

/-- The pieces of a value moved to the place of a register inside its base. -/
def positionedPieces (v : Expr) (r : Register) : List Piece :=
  if r.low = 0 then v.pieces
  else
    match v with
    | .const value _ => [.plain (shiftedText value r.low)]
    | .var name _ => [.hole (movedHole name r)]
    | v => v.pieces

theorem render_positionedPieces (v : Expr) (r : Register) :
    render (positionedPieces v r) = positioned v r := by
  unfold positionedPieces positioned
  split
  · exact v.render_pieces
  · split <;> simp [Piece.text, movedHole, Expr.render_pieces]

/-! ## Matches -/

/-- The pieces of a comparison. -/
def equalsPieces (left right : Expr) (mask : Option Expr) : List Piece :=
  match left.asRegister with
  | none => left.pieces ++ .plain "=" :: right.pieces
  | some r =>
    .plain (r.baseName ++ "=") :: positionedPieces right r ++
      match mask with
      | some m => .plain "/" :: positionedPieces m r
      | none => if r.field.isNone || !r.isFull then [.plain ("/0x" ++ Numeral.hex r.mask)] else []

theorem render_equalsPieces (left right : Expr) (mask : Option Expr) :
    render (equalsPieces left right mask) = equalsText left right mask := by
  unfold equalsPieces equalsText
  cases left.asRegister with
  | none => simp [Piece.text, Expr.render_pieces, String.append_assoc]
  | some r =>
    cases mask with
    | some m => simp [Piece.text, render_positionedPieces, String.append_assoc]
    | none =>
      dsimp only
      split <;> simp [Piece.text, render_positionedPieces, String.append_assoc]

/-- The pieces of a match. -/
def Match.pieces : Match → List Piece
  | table stage => [.plain ("table=" ++ Numeral.word stage)]
  | equals left right mask => equalsPieces left right mask
  | protocol t => [.plain t]
  | prereq t => [.plain t]
  | priority e => .plain "priority=" :: e.pieces
  | interpolated name => [.hole name]
  | seq left (.interpolated name) => left.pieces ++ [.hole name]
  | seq left right => left.pieces ++ .plain ", " :: right.pieces

theorem Match.render_pieces (m : Match) : render m.pieces = m.text := by
  fun_induction Match.pieces m with
  | case2 left right mask => exact render_equalsPieces left right mask
  | case7 left name ih => simp [Match.text, Piece.text, ih]
  | case8 left right hne ihl ihr => simp [Match.text, Piece.text, ihl, ihr, String.append_assoc]
  | _ => simp [Match.text, Piece.text, Expr.render_pieces]

/-! ## Actions -/

/-- The pieces of actions. -/
def Action.pieces : Action → List Piece
  | empty => []
  | explicit t => [.plain t]
  | move src dst => .plain "move(" :: src.pieces ++ .plain "->" :: dst.pieces ++ [.plain ")"]
  | load src dst => .plain "load(" :: src.pieces ++ .plain "->" :: dst.pieces ++ [.plain ")"]
  | seq left right =>
    if left.text = "" then right.pieces
    else if right.text = "" then left.pieces
    else left.pieces ++ .plain ", " :: right.pieces
  | drop => [.plain "drop"]
  | clone a => .plain "clone(" :: a.pieces ++ [.plain ")"]
  | output port => .plain "output(" :: port.pieces ++ [.plain ")"]
  | resubmit stage => [.plain ("resubmit(," ++ Numeral.word stage ++ ")")]
  | var name => [.hole name]

theorem Action.render_pieces (a : Action) : render a.pieces = a.text := by
  induction a with
  | seq left right ihl ihr =>
    show render (if left.text = "" then right.pieces else if right.text = "" then left.pieces
        else left.pieces ++ .plain ", " :: right.pieces) =
      if left.text = "" then right.text else if right.text = "" then left.text
        else left.text ++ ", " ++ right.text
    split
    · exact ihr
    · split
      · exact ihl
      · simp [Piece.text, ihl, ihr, String.append_assoc]
  | clone a ih => simp [Action.pieces, Action.text, Piece.text, ih, String.append_assoc]
  | _ => simp [Action.pieces, Action.text, Piece.text, Expr.render_pieces, String.append_assoc]

/-- The pieces of a flow. -/
def Line.pieces (f : Line) : List Piece := f.guard.pieces ++ .plain " actions=" :: f.action.pieces

theorem Line.render_pieces (f : Line) : render f.pieces = f.text := by
  simp [Line.pieces, Line.text, Piece.text, Match.render_pieces, Action.render_pieces,
    String.append_assoc]

/-! ## Holes -/

/-- What the pieces interpolate. -/
def holes (ps : List Piece) : List Text :=
  ps.flatMap fun
    | .plain _ => []
    | .hole t => [t]

@[simp] theorem holes_nil : holes [] = [] := rfl

@[simp] theorem holes_plain (t : Text) (ps : List Piece) : holes (.plain t :: ps) = holes ps := rfl

@[simp] theorem holes_hole (t : Text) (ps : List Piece) :
    holes (.hole t :: ps) = t :: holes ps := rfl

@[simp] theorem holes_append (ps qs : List Piece) : holes (ps ++ qs) = holes ps ++ holes qs :=
  List.flatMap_append

theorem holes_flatMap {α : Type} (xs : List α) (f : α → List Piece) :
    holes (xs.flatMap f) = xs.flatMap fun x => holes (f x) :=
  List.flatMap_assoc

/-- A hole for one of some variables: as it is, or moved to the place of a register. -/
inductive Hole (names : List Text) : Text → Prop
  | bare {name : Text} (h : name ∈ names) : Hole names name
  | moved {name : Text} (h : name ∈ names) (r : Register) : Hole names (movedHole name r)

theorem Hole.mono {names names' : List Text} (hsub : names ⊆ names') {t : Text}
    (h : Hole names t) : Hole names' t := by
  cases h with
  | bare h => exact .bare (hsub h)
  | moved h r => exact .moved (hsub h) r

theorem Expr.holes_pieces (e : Expr) : holes e.pieces = e.vars := by
  induction e with
  | slice e low high ih => simp [Expr.pieces, Expr.vars, ih]
  | _ => rfl

theorem hole_of_mem_positioned {v : Expr} {r : Register} {t : Text}
    (h : t ∈ holes (positionedPieces v r)) : Hole v.vars t := by
  unfold positionedPieces at h
  split at h
  · exact .bare (v.holes_pieces ▸ h)
  · split at h
    · cases h
    · next name width =>
      cases List.mem_singleton.mp h
      exact .moved List.mem_cons_self r
    · exact .bare (Expr.holes_pieces _ ▸ h)

theorem hole_of_mem_equals {left right : Expr} {mask : Option Expr} {t : Text}
    (h : t ∈ holes (equalsPieces left right mask)) : Hole (Match.equals left right mask).vars t := by
  have hright : right.vars ⊆ (Match.equals left right mask).vars :=
    fun x hx => by simp [Match.vars, hx]
  unfold equalsPieces at h
  split at h
  · rw [holes_append, holes_plain, Expr.holes_pieces, Expr.holes_pieces, List.mem_append] at h
    exact h.elim (fun h => .bare (by simp [Match.vars, h])) fun h => .bare (hright h)
  · next r _ =>
    rw [List.cons_append, holes_plain, holes_append, List.mem_append] at h
    rcases h with h | h
    · exact (hole_of_mem_positioned h).mono hright
    · split at h
      · next m =>
        exact (hole_of_mem_positioned h).mono fun x hx => by simp [Match.vars, hx]
      · split at h <;> cases h

theorem Match.hole_of_mem {m : Match} {t : Text} (h : t ∈ holes m.pieces) : Hole m.vars t := by
  fun_induction Match.pieces m with
  | case2 left right mask => exact hole_of_mem_equals h
  | case5 e =>
    rw [holes_plain, Expr.holes_pieces] at h
    exact .bare h
  | case6 name => exact .bare h
  | case7 left name ih =>
    rcases List.mem_append.mp (holes_append _ _ ▸ h) with h | h
    · exact (ih h).mono (List.subset_append_left _ _)
    · exact .bare (List.mem_append_right _ h)
  | case8 left right hne ihl ihr =>
    rcases List.mem_append.mp (holes_append _ _ ▸ h) with h | h
    · exact (ihl h).mono (List.subset_append_left _ _)
    · exact (ihr h).mono (List.subset_append_right _ _)
  | _ => cases h

theorem Action.mem_vars_of_mem_holes {a : Action} {t : Text} (h : t ∈ holes a.pieces) :
    t ∈ a.vars := by
  induction a with
  | seq left right ihl ihr =>
    rw [Action.pieces] at h
    rw [Action.vars, List.mem_append]
    split at h
    · exact Or.inr (ihr h)
    · split at h
      · exact Or.inl (ihl h)
      · rw [holes_append, holes_plain, List.mem_append] at h
        exact h.imp ihl ihr
  | move src dst | load src dst => simpa [Action.pieces, Action.vars, Expr.holes_pieces] using h
  | clone a ih => exact ih (by simpa [Action.pieces] using h)
  | output port => simpa [Action.pieces, Action.vars, Expr.holes_pieces] using h
  | var name => exact h
  | _ => cases h

end Flowline.Flow
