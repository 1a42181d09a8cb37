import Flowline.Proofs.Source.Spelling

/-!
# Texts of one line

Numbers, types and words have no line breaks in them, so the text of an expression that was read
from program text is one line (`oneLine_of_spelled`).
-/

namespace Flowline

/-- A text without a line break. -/
def OneLine (t : Text) : Prop := '\n' ∉ t.toList

instance (t : Text) : Decidable (OneLine t) := inferInstanceAs (Decidable ('\n' ∉ t.toList))

@[simp] theorem oneLine_append {s t : Text} : OneLine (s ++ t) ↔ OneLine s ∧ OneLine t := by
  simp [OneLine]

theorem oneLine_list {ts : List Text} (h : ∀ t ∈ ts, OneLine t) :
    OneLine (", ".intercalate ts) := by
  induction ts with
  | nil => exact (by decide : OneLine "")
  | cons t ts ih =>
    obtain ⟨ht, hts⟩ := List.forall_mem_cons.mp h
    cases ts with
    | nil => rwa [String.intercalate_singleton]
    | cons u us =>
      rw [String.intercalate_cons_cons, oneLine_append, oneLine_append]
      exact ⟨⟨ht, by decide⟩, ih hts⟩

/-! ## Numbers -/

namespace Numeral

theorem oneLine_toDigits {base : Nat} (hbase : 1 < base) (hmax : base ≤ 16) (n : Nat) :
    OneLine (String.ofList (Nat.toDigits base n)) := by
  rw [OneLine, String.toList_ofList]
  exact notMem_toDigits hbase hmax (by decide)

@[simp] theorem oneLine_repr (n : Nat) : OneLine n.repr :=
  oneLine_toDigits (by decide) (by decide) n

@[simp] theorem oneLine_hex (n : Nat) : OneLine (hex n) :=
  oneLine_toDigits (by decide) (by decide) n

@[simp] theorem oneLine_binary (n : Nat) : OneLine (binary n) :=
  oneLine_toDigits (by decide) (by decide) n

@[simp] theorem oneLine_decimal (n : Int) : OneLine (decimal n) := by
  cases n with
  | ofNat m => exact oneLine_toDigits (by decide) (by decide) m
  | negSucc m =>
    rw [OneLine, toList_decimal_negSucc, List.mem_cons]
    rintro (h | h)
    · exact absurd h (by decide)
    · exact notMem_toDigits (by decide) (by decide) (by decide) h

@[simp] theorem oneLine_word (n : Int64) : OneLine (word n) := oneLine_decimal n.toInt

end Numeral

@[simp] theorem ValueType.oneLine_text (t : ValueType) : OneLine t.text := by
  unfold text
  split_ifs <;> simp +decide

namespace Source

@[simp] theorem Literal.oneLine_text (l : Literal) : OneLine l.text := by
  have hsigned {numeral : Nat → Text} (h : ∀ n, OneLine (numeral n)) :
      OneLine (signed numeral l.value) := by
    unfold signed
    split_ifs <;> simp +decide [h]
  have hdigits : OneLine l.digits := by
    unfold digits
    split
    · simp +decide [hsigned Numeral.oneLine_hex]
    · simp +decide [hsigned Numeral.oneLine_binary]
    · exact Numeral.oneLine_decimal _
    · exact Numeral.oneLine_decimal _
  unfold text
  split_ifs <;> simp +decide [hdigits]

/-! ## Expressions -/

theorem IsWord.oneLine {w : Text} (h : IsWord w) : OneLine w := fun hmem =>
  absurd (h.all _ hmem) (by decide)

theorem Dotted.oneLine {p : Text} (h : Dotted p) : OneLine p := by
  induction h with
  | name hw => exact hw.oneLine
  | more _ hw ih => simp +decide [ih, hw.oneLine]

mutual

/-- What is read from program text is written on one line. -/
theorem oneLine_of_spelled : (e : Expr) → e.Spelled → OneLine e.text
  | .path _, h => by
    rw [Expr.text]
    exact Dotted.oneLine h
  | .call _ _ args, ⟨⟨_, hcallee, hp⟩, hargs⟩ => by
    rw [Expr.text_call hcallee, Expr.listText]
    simp +decide [hp.oneLine, oneLine_list (oneLine_of_spelledArgs args hargs)]
  | .member base _, h => by
    rw [Expr.text]
    simp +decide [oneLine_of_spelled base h.2.2, h.2.1.oneLine]
  | .literal _, _ => by simp [Expr.text]
  | .truth true, _ | .truth false, _ => by
    rw [Expr.text]
    decide
  | .binary op left right, h => by
    have hop : OneLine op.symbol := by cases op <;> decide
    rw [Expr.text]
    simp +decide [oneLine_of_spelled left h.2.1, oneLine_of_spelled right h.2.2, hop]
  | .negation e, h => by
    rw [Expr.text]
    simp +decide [oneLine_of_spelled e h]
  | .slice e _ _, h | .cast _ e, h => by
    rw [Expr.text]
    simp +decide [oneLine_of_spelled e h.2]
  | .missing, h | .field _, h | .localVar _, h | .param _ _, h | .valid _, h | .hit _ _, h
  | .actionRun _, h | .any, h => h.elim

theorem oneLine_of_spelledArgs : (es : List Expr) → SpelledArgs es →
    ∀ t ∈ Expr.texts es, OneLine t
  | [], _ => List.forall_mem_nil _
  | e :: es, h => by
    rw [Expr.texts]
    exact List.forall_mem_cons.mpr ⟨oneLine_of_spelled e h.1, oneLine_of_spelledArgs es h.2⟩

end

end Source

end Flowline
