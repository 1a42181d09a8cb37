import Flowline.Proofs.Flow.Folding
import Flowline.Proofs.Flow.Pieces

/-!
# Separators

The text of a match lists its conditions with a comma between each two of them.  An interpolation
has no comma in front: what it stands for brings its own commas, one in front of each condition
(`listed`), or is nothing at all.

`instantiate?` puts texts in the places of interpolations, one after the other.  Where each of them
lists conditions, the whole text does (`Chosen.instantiate?_eq`), whatever is left out and wherever
the interpolations stand.
-/

namespace Flowline.Flow

/-! ## Conditions -/

/-- Texts with a comma in front of each. -/
def listed (ts : List Text) : Text := String.join (ts.map (", " ++ ·))

@[simp] theorem listed_nil : listed [] = "" := rfl

@[simp] theorem listed_cons (t : Text) (ts : List Text) :
    listed (t :: ts) = ", " ++ t ++ listed ts := by
  rw [listed, List.map_cons, String.join_cons]
  rfl

@[simp] theorem listed_append (ts us : List Text) : listed (ts ++ us) = listed ts ++ listed us := by
  rw [listed, List.map_append, String.join_append]
  rfl

theorem intercalate_cons (t : Text) (ts : List Text) :
    ", ".intercalate (t :: ts) = t ++ listed ts := by
  induction ts generalizing t with
  | nil => simp
  | cons u ts ih => rw [String.intercalate_cons_cons, ih, listed_cons, String.append_assoc,
      String.append_assoc]

namespace Match

/-- The conditions of a match, from left to right. -/
def conditions : Match → List Match
  | seq left right => left.conditions ++ right.conditions
  | m => [m]

theorem conditions_foldl (m : Match) (ms : List Match) :
    (ms.foldl .seq m).conditions = m.conditions ++ ms.flatMap conditions :=
  foldl_eq_flatMap (fun _ _ => rfl) m ms

theorem conditions_all? {ms : List Match} {m : Match} (h : all? ms = some m) :
    m.conditions = ms.flatMap conditions :=
  all?_eq_flatMap (fun _ _ => rfl) h

theorem conditions_ne_nil (m : Match) : m.conditions ≠ [] := by
  induction m with
  | seq left right ihl _ => exact List.append_ne_nil_of_left_ne_nil ihl _
  | _ => exact List.cons_ne_nil _ _

theorem simplify_foldl (m : Match) (ms : List Match) :
    (ms.foldl .seq m).simplify = (ms.map simplify).foldl .seq m.simplify := by
  induction ms generalizing m with
  | nil => rfl
  | cons x ms ih =>
    have hseq : (seq m x).simplify = seq m.simplify x.simplify := by
      rw [simplify_eq_pass, simplify_eq_pass m, simplify_eq_pass x]
      rfl
    rw [List.foldl_cons, ih, hseq, List.map_cons, List.foldl_cons]

/-- Simplifying works on each condition. -/
theorem conditions_simplify (m : Match) : m.simplify.conditions = m.conditions.map simplify := by
  have hmap : simplify = fun x => x.pass.1 := funext simplify_eq_pass
  rw [hmap]
  induction m with
  | seq left right ihl ihr =>
    show left.pass.1.conditions ++ right.pass.1.conditions = _
    rw [conditions, List.map_append]
    exact congrArg₂ _ ihl ihr
  | _ => rfl

/-- A match that interpolates no other one. -/
def Written (m : Match) : Prop := ∀ name, m ≠ .interpolated name

theorem listed_conditions {m : Match} (h : ∀ c ∈ m.conditions, c.Written) :
    listed (m.conditions.map text) = ", " ++ m.text := by
  induction m with
  | seq left right ihl ihr =>
    rw [conditions, List.forall_mem_append] at h
    have htext : (seq left right).text = left.text ++ ", " ++ right.text := by
      cases right with
      | interpolated name => exact absurd rfl (h.2 _ List.mem_cons_self name)
      | _ => rfl
    rw [conditions, List.map_append, listed_append, ihl h.1, ihr h.2, htext]
    simp only [String.append_assoc]
  | _ => simp [conditions]

/-- **The conditions of a match** stand in its text with commas between them. -/
theorem text_eq_intercalate {m : Match} (h : ∀ c ∈ m.conditions, c.Written) :
    m.text = ", ".intercalate (m.conditions.map text) := by
  have hlisted := listed_conditions h
  obtain ⟨c, cs, hcs⟩ := List.exists_cons_of_ne_nil m.conditions_ne_nil
  rw [hcs, List.map_cons, listed_cons, String.append_assoc, String.append_right_inj] at hlisted
  rw [hcs, List.map_cons, intercalate_cons, hlisted]

/-! ## Sequences -/

/-- The pieces of a match behind other ones. -/
def joined : Match → List Piece
  | interpolated name => [.hole name]
  | m => .plain ", " :: m.pieces

theorem pieces_foldl (m : Match) (ms : List Match) :
    (ms.foldl .seq m).pieces = m.pieces ++ ms.flatMap joined :=
  foldl_eq_flatMap (fun _ x => by cases x <;> rfl) m ms

theorem joined_of_written {m : Match} (h : m.Written) : m.joined = .plain ", " :: m.pieces := by
  cases m with
  | interpolated name => exact absurd rfl (h name)
  | _ => rfl

end Match

/-! ## Texts in the places of interpolations -/

/-- The text of pieces with texts in the places of interpolations.  These are looked for in order,
and the others stay as they are; nothing is to be left over. -/
def instantiate? : List (Text × Text) → List Piece → Option Text
  | [], ps => some (render ps)
  | _ :: _, [] => none
  | q :: qs, .plain t :: ps => (instantiate? (q :: qs) ps).map (t ++ ·)
  | q :: qs, .hole t :: ps =>
    if t = q.1 then (instantiate? qs ps).map (q.2 ++ ·)
    else (instantiate? (q :: qs) ps).map (interpolation t ++ ·)

section

variable {qs : List (Text × Text)} {ps rest : List Piece}

/-- Pieces without the interpolations that are looked for are kept. -/
theorem instantiate?_append (h : ∀ q ∈ qs, q.1 ∉ holes ps) :
    instantiate? qs (ps ++ rest) = (instantiate? qs rest).map (render ps ++ ·) := by
  cases qs with
  | nil => rw [instantiate?, instantiate?, render_append, Option.map_some]
  | cons q qs =>
    induction ps with
    | nil => simp
    | cons x ps ih =>
      have happend : ∀ t : Text, (fun u => t ++ u) ∘ (fun u => render ps ++ u) =
          fun u => t ++ render ps ++ u := fun t => funext fun u => (String.append_assoc).symm
      cases x with
      | plain t =>
        rw [List.cons_append, instantiate?, ih h, Option.map_map, happend, render_cons]
        rfl
      | hole t =>
        have hne : t ≠ q.1 := fun heq => h q List.mem_cons_self (heq ▸ List.mem_cons_self)
        have hrest : ∀ q' ∈ q :: qs, q'.1 ∉ holes ps :=
          fun q' hq' hmem => h q' hq' (List.mem_cons_of_mem _ hmem)
        rw [List.cons_append, instantiate?, if_neg hne, ih hrest, Option.map_map, happend,
          render_cons]
        rfl

theorem instantiate?_hole (name text : Text) :
    instantiate? ((name, text) :: qs) (.hole name :: rest) =
      (instantiate? qs rest).map (text ++ ·) := by
  rw [instantiate?, if_pos rfl]

end

/-- Conditions of a sequence, the texts that are put in the places of its interpolations, and the
conditions that this leaves. -/
inductive Chosen : List Match → List (Text × Text) → List Match → Prop
  | nil : Chosen [] [] []
  | keep {m : Match} {ms cs : List Match} {qs : List (Text × Text)} (hm : m.Written)
      (hfree : ∀ q ∈ qs, q.1 ∉ holes m.pieces) (h : Chosen ms qs cs) :
      Chosen (m :: ms) qs (m :: cs)
  | replace {name : Text} {ms cs own : List Match} {qs : List (Text × Text)}
      (h : Chosen ms qs cs) :
      Chosen (.interpolated name :: ms) ((name, listed (own.map Match.text)) :: qs) (own ++ cs)

namespace Chosen

variable {ms cs own : List Match} {qs : List (Text × Text)}

theorem keep_all (hown : ∀ m ∈ own, m.Written ∧ ∀ q ∈ qs, q.1 ∉ holes m.pieces)
    (h : Chosen ms qs cs) : Chosen (own ++ ms) qs (own ++ cs) := by
  induction own with
  | nil => exact h
  | cons m own ih =>
    rw [List.forall_mem_cons] at hown
    exact .keep hown.1.1 hown.1.2 (ih hown.2)

/-- **Nothing but conditions**, each with a comma in front. -/
theorem instantiate?_eq (h : Chosen ms qs cs) :
    instantiate? qs (ms.flatMap Match.joined) = some (listed (cs.map Match.text)) := by
  induction h with
  | nil => rfl
  | @keep m ms cs qs hm hfree _ ih =>
    have hplain : ∀ q ∈ qs, q.1 ∉ holes (.plain ", " :: m.pieces) := hfree
    rw [List.flatMap_cons, Match.joined_of_written hm, instantiate?_append hplain, ih,
      Option.map_some, render_cons, m.render_pieces, List.map_cons, listed_cons]
    rfl
  | @replace name ms cs own qs _ ih =>
    rw [List.flatMap_cons]
    show instantiate? _ (.hole name :: ms.flatMap Match.joined) = _
    rw [instantiate?_hole, ih, Option.map_some, List.map_append, listed_append]

end Chosen

end Flowline.Flow
