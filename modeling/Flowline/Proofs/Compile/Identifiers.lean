import Flowline.Compile.Declarations
import Flowline.Proofs.Flow.Pieces
import Flowline.Proofs.Text.Numerals

/-!
# Identifiers in interpolations

An interpolation is an expression, and its variables are read off its text: they are the identifiers
in it, but for those of functions that are called, for numerals and for the words of a cast
(`variablesIn`, `callsIn`).

Names that the compiler makes up are single identifiers, whatever the names in the program are
(`isName`).  Moved to the place of a register inside its base, an expression has the same variables
and calls (`variablesIn_movedHole`).
-/

namespace Flowline.Compile

open Flowline.Flow (movedHole)
open Pipeline (Key)
open Switch (Register)

/-! ## Variables and calls -/

/-- The stretches of identifier characters of a text, each with whether an opening parenthesis
stands behind it.  Some may be empty; `word` is what the first one begins with. -/
def wordsFrom (word : List Char) : List Char → List (List Char × Bool)
  | [] => [(word, false)]
  | c :: cs =>
    if isIdentifierChar c then wordsFrom (word ++ [c]) cs
    else (word, c == '(') :: wordsFrom [] cs

/-- The words of a cast. -/
def castWords : List (List Char) := [['a', 's'], ['b', 'i', 't']]

/-- Whether a stretch is the name of a variable. -/
def isVariableWord (q : List Char × Bool) : Bool :=
  !q.2 && !(q.1.head?.all Char.isDigit) && !castWords.contains q.1

/-- The variables of an expression. -/
def variablesIn (t : Text) : List Text :=
  ((wordsFrom [] t.toList).filter isVariableWord).map fun q => String.ofList q.1

/-- The functions that an expression calls. -/
def callsIn (t : Text) : List Text :=
  ((wordsFrom [] t.toList).filter fun q => q.2 && !q.1.isEmpty).map fun q => String.ofList q.1

example : variablesIn "(prefix_mask_8(k_x_plen) as bit<32>) << 4" = ["k_x_plen"] := by decide

example : callsIn "(prefix_mask_8(k_x_plen) as bit<32>) << 4" = ["prefix_mask_8"] := by decide

theorem wordsFrom_identifier {cs : List Char} (h : ∀ c ∈ cs, isIdentifierChar c = true)
    (word rest : List Char) : wordsFrom word (cs ++ rest) = wordsFrom (word ++ cs) rest := by
  induction cs generalizing word with
  | nil => rw [List.nil_append, List.append_nil]
  | cons c cs ih =>
    rw [List.forall_mem_cons] at h
    rw [List.cons_append, wordsFrom, if_pos h.1, ih h.2, List.append_assoc, List.singleton_append]

theorem wordsFrom_append {c : Char} (hc : isIdentifierChar c = false) (hcall : c ≠ '(')
    (word cs rest : List Char) :
    wordsFrom word (cs ++ c :: rest) = wordsFrom word cs ++ wordsFrom [] rest := by
  induction cs generalizing word with
  | nil =>
    have hflag : (c == '(') = false := beq_eq_false_iff_ne.mpr hcall
    show wordsFrom word (c :: rest) = (word, false) :: wordsFrom [] rest
    rw [wordsFrom, if_neg (by simp [hc]), hflag]
  | cons d cs ih =>
    rw [List.cons_append, wordsFrom, wordsFrom]
    split
    · exact ih _
    · rw [ih, List.cons_append]

/-! ## Names -/

/-- A text that is a single identifier. -/
def isName (t : Text) : Bool := t.toList.all isIdentifierChar && isVariableWord (t.toList, false)

theorem words_of_isName {t : Text} (h : isName t = true) :
    wordsFrom [] t.toList = [(t.toList, false)] := by
  have hall := List.all_eq_true.mp (Bool.and_eq_true_iff.mp h).1
  have hwords := wordsFrom_identifier hall [] []
  rwa [List.append_nil, List.nil_append] at hwords

theorem variablesIn_name {t : Text} (h : isName t = true) : variablesIn t = [t] ∧ callsIn t = [] := by
  have hvariable := (Bool.and_eq_true_iff.mp h).2
  rw [variablesIn, callsIn, words_of_isName h]
  simp [hvariable, String.ofList_toList]

theorem variablesIn_call {f v : Text} (hf : isName f = true) (hv : isName v = true) :
    variablesIn (f ++ "(" ++ v ++ ")") = [v] ∧ callsIn (f ++ "(" ++ v ++ ")") = [f] := by
  have hwords : wordsFrom [] (f ++ "(" ++ v ++ ")").toList =
      [(f.toList, true), (v.toList, false), ([], false)] := by
    have hcs := List.all_eq_true.mp (Bool.and_eq_true_iff.mp hf).1
    have hds := List.all_eq_true.mp (Bool.and_eq_true_iff.mp hv).1
    have hlist : (f ++ "(" ++ v ++ ")").toList = f.toList ++ '(' :: (v.toList ++ [')']) := by
      simp [String.toList_append]
    rw [hlist, wordsFrom_identifier hcs]
    show (f.toList, true) :: wordsFrom [] (v.toList ++ [')']) = _
    rw [wordsFrom_identifier hds]
    rfl
  have hvariable := (Bool.and_eq_true_iff.mp hv).2
  have hnonempty : f.toList ≠ [] := by
    intro hnil
    have hvar := (Bool.and_eq_true_iff.mp hf).2
    rw [hnil] at hvar
    cases hvar
  rw [variablesIn, callsIn, hwords]
  constructor
  · rw [List.filter_cons_of_neg (by simp [isVariableWord]), List.filter_cons_of_pos hvariable,
      List.filter_cons_of_neg (by simp [isVariableWord]), List.filter_nil, List.map_singleton,
      String.ofList_toList]
  · simp [hnonempty, String.ofList_toList]

theorem words_digits (n : Nat) : wordsFrom [] (Nat.toDigits 10 n) = [(Nat.toDigits 10 n, false)] ∧
    isVariableWord (Nat.toDigits 10 n, false) = false := by
  have hdigit : ∀ c ∈ Nat.toDigits 10 n, c.isDigit = true :=
    fun c hc => Nat.isDigit_of_mem_toDigits (by decide) (by decide) hc
  have hidentifier : ∀ c ∈ Nat.toDigits 10 n, isIdentifierChar c = true := by
    intro c hc
    simp [isIdentifierChar, Char.isAlphanum, hdigit c hc]
  constructor
  · have hwords := wordsFrom_identifier hidentifier [] []
    rwa [List.append_nil, List.nil_append] at hwords
  · cases hdigits : Nat.toDigits 10 n with
    | nil => rfl
    | cons c cs =>
      have hc : c.isDigit = true := hdigit c (by simp [hdigits])
      simp [isVariableWord, hc]

theorem words_numeral (n : Int64) :
    ∀ q ∈ wordsFrom [] (Numeral.word n).toList, isVariableWord q = false ∧ q.2 = false := by
  unfold Numeral.word
  cases n.toInt with
  | ofNat m =>
    have hlist : (toString (Int.ofNat m)).toList = Nat.toDigits 10 m := String.toList_ofList
    rw [hlist, (words_digits m).1]
    exact List.forall_mem_singleton.mpr ⟨(words_digits m).2, rfl⟩
  | negSucc m =>
    rw [← Numeral.decimal, Numeral.toList_decimal_negSucc]
    show ∀ q ∈ ([], false) :: wordsFrom [] (Nat.toDigits 10 (m + 1)), _
    rw [(words_digits _).1]
    exact List.forall_mem_cons.mpr ⟨⟨rfl, rfl⟩,
      List.forall_mem_singleton.mpr ⟨(words_digits _).2, rfl⟩⟩

/-- Moving a variable to the place of a register adds no variables and no calls. -/
theorem variablesIn_movedHole (t : Text) (r : Register) :
    variablesIn (movedHole t r) = variablesIn t ∧ callsIn (movedHole t r) = callsIn t := by
  have hwords : ∃ before after, wordsFrom [] (movedHole t r).toList =
      before ++ (wordsFrom [] t.toList ++ after) ∧
        ∀ q ∈ before ++ after, isVariableWord q = false ∧ (q.2 && !q.1.isEmpty) = false := by
    have hlist : (movedHole t r).toList =
        '(' :: (t.toList ++ ' ' :: (['a', 's', ' ', 'b', 'i', 't'] ++
        '<' :: ((Numeral.word r.size).toList ++
          '>' :: ')' :: ' ' :: '<' :: '<' :: ' ' :: (Numeral.word r.low).toList))) := by
      simp [movedHole, String.toList_append]
    refine ⟨[([], true)], [(['a', 's'], false), (['b', 'i', 't'], false)] ++
      (wordsFrom [] (Numeral.word r.size).toList ++ (List.replicate 5 ([], false) ++
        wordsFrom [] (Numeral.word r.low).toList)), ?_, ?_⟩
    · rw [hlist]
      show ([], true) :: wordsFrom [] _ = ([], true) :: _
      rw [wordsFrom_append (by decide) (by decide), wordsFrom_append (by decide) (by decide),
        wordsFrom_append (by decide) (by decide)]
      rfl
    · have hnumeral : ∀ n, ∀ q ∈ wordsFrom [] (Numeral.word n).toList,
          isVariableWord q = false ∧ (q.2 && !q.1.isEmpty) = false := by
        intro n q hq
        obtain ⟨hvariable, hcall⟩ := words_numeral n q hq
        exact ⟨hvariable, by rw [hcall]; rfl⟩
      simp only [List.forall_mem_append]
      exact ⟨by decide, by decide, hnumeral _, by decide, hnumeral _⟩
  obtain ⟨before, after, heq, hothers⟩ := hwords
  have hfilter : ∀ (P : List Char × Bool → Bool), (∀ q ∈ before ++ after, P q = false) →
      (wordsFrom [] (movedHole t r).toList).filter P = (wordsFrom [] t.toList).filter P := by
    intro P hP
    rw [List.forall_mem_append] at hP
    have hbefore : before.filter P = [] := List.filter_eq_nil_iff.mpr (by simpa using hP.1)
    have hafter : after.filter P = [] := List.filter_eq_nil_iff.mpr (by simpa using hP.2)
    rw [heq, List.filter_append, List.filter_append, hbefore, hafter, List.nil_append,
      List.append_nil]
  constructor
  · rw [variablesIn, hfilter _ fun q hq => (hothers q hq).1, variablesIn]
  · rw [callsIn, hfilter _ fun q hq => (hothers q hq).2, callsIn]

/-! ## Names that are made up -/

/-- A name with an underscore in it may go on with any identifier. -/
theorem isName_append {a b : Text} (ha : isName a = true) (hmark : '_' ∈ a.toList)
    (hb : ∀ c ∈ b.toList, isIdentifierChar c = true) : isName (a ++ b) = true := by
  obtain ⟨hall, hvariable⟩ := Bool.and_eq_true_iff.mp ha
  obtain ⟨c, cs, hlist⟩ := List.exists_cons_of_ne_nil (List.ne_nil_of_mem hmark)
  have hcast : (a.toList ++ b.toList) ∉ castWords := by
    intro hmem
    have hnone : ∀ w ∈ castWords, '_' ∉ w := by decide
    exact hnone _ hmem (List.mem_append_left _ hmark)
  have hhead : (a.toList ++ b.toList).head? = a.toList.head? := by
    rw [hlist]
    rfl
  simp only [isVariableWord, Bool.and_eq_true] at hvariable
  rw [isName, String.toList_append, List.all_append, hall, List.all_eq_true.mpr hb, isVariableWord,
    hhead, hvariable.1.2, List.contains_eq_mem, decide_eq_false hcast]
  rfl

theorem isIdentifierChar_of_mem {t : Text} {c : Char} (h : c ∈ (identifier t).toList) :
    isIdentifierChar c = true := by
  rw [identifier, String.toList_ofList] at h
  obtain ⟨g, -, rfl⟩ := List.mem_map.mp h
  unfold identifierChar
  split
  · split
    · assumption
    · rfl
  · rfl

theorem isName_marked {mark : Text} (hmark : isName mark = true) (hline : '_' ∈ mark.toList)
    (name : Text) : isName (mark ++ identifier name) = true :=
  isName_append hmark hline fun _ => isIdentifierChar_of_mem

theorem isName_paramVar (p : Param) : isName (paramVar p) = true :=
  isName_marked (by decide) (by decide) _

theorem isName_keyVar (k : Key) : isName (keyVar k) = true :=
  isName_marked (by decide) (by decide) _

theorem isName_keyVar_append (k : Key) {ending : Text}
    (h : ending.toList.all isIdentifierChar = true) : isName (keyVar k ++ ending) = true := by
  refine isName_append (isName_keyVar k) ?_ (List.all_eq_true.mp h)
  rw [keyVar, String.toList_append]
  exact List.mem_append_left _ (by decide)

theorem maskCall_eq (w : Int64) (k : Key) : prefixMaskName w ++ "(" ++ keyVar k ++ "_plen)" =
    prefixMaskName w ++ "(" ++ (keyVar k ++ "_plen") ++ ")" := by
  simp only [String.append_assoc]
  rfl

/-- The function that makes masks of a width that can be shifted by. -/
theorem isName_prefixMaskName {w : Int64} (hw : 0 ≤ w.toInt) : isName (prefixMaskName w) = true := by
  refine isName_append (by decide) (by decide) fun c hc => ?_
  obtain ⟨n, hn⟩ := Int.eq_ofNat_of_zero_le hw
  have hlist : (Numeral.word w).toList = Nat.toDigits 10 n := by
    rw [Numeral.word, hn]
    exact String.toList_ofList
  rw [hlist] at hc
  simp [isIdentifierChar, Char.isAlphanum,
    Nat.isDigit_of_mem_toDigits (by decide) (by decide) hc]

end Flowline.Compile
