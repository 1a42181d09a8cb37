import Flowline.Source.Lexer

/-!
# Offsets, lines and columns

A cursor carries the text still to be read and a line and a column, but not how much of the text
lies behind it.  `Cursor.IsAt` ties a cursor to an offset of the whole text: what it has still to
read starts there, and its line and column are those of the offset, counted from the text alone
(`lineAt`, `columnAt`).  A cursor on a newline is ahead of the count, because a newline is column
0 of the line that it starts; no token stands on a newline.

Offsets go on past the end of the text, as columns do.
-/

namespace Flowline.Source

/-! ## Lines and columns of an offset -/

/-- The line of an offset: one more than there are newlines before it. -/
def lineAt (cs : List Char) (o : Nat) : Nat := (cs.take o).count '\n' + 1

/-- The offset at which the line of an offset starts: right behind the last newline before it. -/
def lineStart (cs : List Char) (o : Nat) : Nat :=
  ((cs.take o).reverse.dropWhile (· ≠ '\n')).length

/-- The column of an offset: its distance from the newline before it, and one more than the offset
on the first line. -/
def columnAt (cs : List Char) (o : Nat) : Nat := o + 1 - lineStart cs o

section

variable {cs : List Char} {o : Nat}

theorem lineStart_le (cs : List Char) (o : Nat) : lineStart cs o ≤ o := by
  have hdrop := ((cs.take o).reverse.dropWhile_sublist (· ≠ '\n')).length_le
  rw [List.length_reverse] at hdrop
  exact Nat.le_trans hdrop (List.length_take_le o cs)

theorem lineAt_succ (h : cs[o]? ≠ some '\n') : lineAt cs (o + 1) = lineAt cs o := by
  rw [lineAt, lineAt, List.take_add_one]
  cases hc : cs[o]? with
  | none => simp
  | some c =>
    have hne : c ≠ '\n' := fun e => h (e ▸ hc)
    simp [hne]

theorem lineAt_succ_newline (h : cs[o]? = some '\n') : lineAt cs (o + 1) = lineAt cs o + 1 := by
  rw [lineAt, lineAt, List.take_add_one, h]
  simp

theorem columnAt_succ (h : cs[o]? ≠ some '\n') : columnAt cs (o + 1) = columnAt cs o + 1 := by
  have hstart : lineStart cs (o + 1) = lineStart cs o := by
    rw [lineStart, lineStart, List.take_add_one]
    cases hc : cs[o]? with
    | none => simp
    | some c =>
      have hne : c ≠ '\n' := fun e => h (e ▸ hc)
      simp [hne]
  have hle := lineStart_le cs o
  rw [columnAt, columnAt, hstart]
  omega

theorem columnAt_succ_newline (h : cs[o]? = some '\n') : columnAt cs (o + 1) = 1 := by
  have ho : o < cs.length := (List.getElem?_eq_some_iff.1 h).1
  have hstart : lineStart cs (o + 1) = o + 1 := by
    rw [lineStart, List.take_add_one, h]
    simp [Nat.le_of_lt ho]
  rw [columnAt, hstart]
  omega

end

/-! ## Cursors at an offset -/

namespace Cursor

@[simp] theorem arrive_rest (rest : List Char) (l k : Nat) : (arrive rest l k).rest = rest := by
  unfold arrive
  split <;> rfl

theorem mk_arrive (rest : List Char) (l k : Nat) :
    (⟨rest, (arrive rest l k).line, (arrive rest l k).column⟩ : Cursor) = arrive rest l k := by
  unfold arrive
  split <;> rfl

theorem advanceBy_succ (n : Nat) (c : Cursor) : c.advanceBy (n + 1) = c.advance.advanceBy n := rfl

/-- A cursor is at an offset of a text. -/
structure IsAt (cs : List Char) (o : Nat) (c : Cursor) : Prop where
  rest_eq : c.rest = cs.drop o
  on_newline : cs[o]? = some '\n' → c.line = lineAt cs o + 1 ∧ c.column = 0
  off_newline : cs[o]? ≠ some '\n' → c.line = lineAt cs o ∧ c.column = columnAt cs o

section

variable {cs : List Char} {o : Nat} {c : Cursor}

theorem isAt_arrive {l k : Nat} (hline : l = lineAt cs o) (hcolumn : k + 1 = columnAt cs o) :
    IsAt cs o (arrive (cs.drop o) l k) where
  rest_eq := arrive_rest _ l k
  on_newline h := by
    rw [arrive, List.head?_drop, if_pos h]
    exact ⟨congrArg (· + 1) hline, rfl⟩
  off_newline h := by
    rw [arrive, List.head?_drop, if_neg h]
    exact ⟨hline, hcolumn⟩

theorem isAt_start (cs : List Char) : IsAt cs 0 (start cs) := by
  have hline : 1 = lineAt cs 0 := rfl
  exact isAt_arrive hline rfl

theorem IsAt.advance (h : IsAt cs o c) : IsAt cs (o + 1) c.advance := by
  have htail : c.rest.tail = cs.drop (o + 1) := by rw [h.rest_eq, List.tail_drop]
  rw [Cursor.advance, htail]
  by_cases hn : cs[o]? = some '\n'
  · obtain ⟨hline, hcolumn⟩ := h.on_newline hn
    refine isAt_arrive ?_ ?_
    · rw [hline, lineAt_succ_newline hn]
    · rw [hcolumn, columnAt_succ_newline hn]
  · obtain ⟨hline, hcolumn⟩ := h.off_newline hn
    refine isAt_arrive ?_ ?_
    · rw [hline, lineAt_succ hn]
    · rw [hcolumn, columnAt_succ hn]

theorem IsAt.advanceBy (h : IsAt cs o c) (n : Nat) : IsAt cs (o + n) (c.advanceBy n) := by
  induction n generalizing o c with
  | zero => exact h
  | succ n ih =>
    rw [advanceBy_succ, show o + (n + 1) = o + 1 + n by omega]
    exact ih h.advance

/-- The text between an offset and one further on is what a cursor there has next. -/
theorem IsAt.extract_eq (h : IsAt cs o c) (n : Nat) :
    cs.extract o (o + n) = c.rest.take n := by
  rw [List.extract_eq_take_drop, h.rest_eq, Nat.add_sub_cancel_left]

theorem IsAt.drop_eq (h : IsAt cs o c) (n : Nat) : cs.drop (o + n) = c.rest.drop n := by
  rw [h.rest_eq, List.drop_drop]

theorem IsAt.length_rest (h : IsAt cs o c) : c.rest.length = cs.length - o := by
  rw [h.rest_eq, List.length_drop]

theorem IsAt.head? (h : IsAt cs o c) : c.rest.head? = cs[o]? := by
  rw [h.rest_eq, List.head?_drop]

end

end Cursor

end Flowline.Source
