import Flowline.Text.Numeral
import Mathlib.Data.Nat.Digits.Defs

/-!
# Numerals are read back

What is written in a base up to sixteen is read in that base as the same number
(`natural?_toDigits`), so different numbers have different numerals.  Reading succeeds exactly on
digits of the base, and gives their positional value (`natural?_eq_some_iff`).
-/

namespace Flowline.Numeral

variable {base d n : Nat} {cs : List Char} {c : Char}

theorem digitValue?_digitChar (hd : d < 16) : digitValue? (Nat.digitChar d) = some d := by
  have hall : ∀ d : Fin 16, digitValue? (Nat.digitChar d) = some d.val := by decide
  exact hall ⟨d, hd⟩

/-- One more digit behind a numeral. -/
theorem continueFrom_concat {acc : Nat} (hd : d < base) (hbase : base ≤ 16)
    (h : continueFrom base acc cs = some n) :
    continueFrom base acc (cs ++ [Nat.digitChar d]) = some (n * base + d) := by
  induction cs generalizing acc with
  | nil =>
    cases h
    simp only [List.nil_append, continueFrom, digitValue?_digitChar (Nat.lt_of_lt_of_le hd hbase),
      if_pos hd]
  | cons c cs ih =>
    rw [List.cons_append, continueFrom]
    rw [continueFrom] at h
    cases hc : digitValue? c with
    | none =>
      rw [hc] at h
      cases h
    | some e =>
      rw [hc] at h
      by_cases he : e < base
      · simp only [if_pos he] at h ⊢
        exact ih h
      · simp only [if_neg he] at h
        cases h

theorem continueFrom_toDigits (hbase : 1 < base) (hmax : base ≤ 16) (n : Nat) :
    continueFrom base 0 (Nat.toDigits base n) = some n := by
  induction n using Nat.strongRecOn with
  | ind n ih =>
    rcases Nat.lt_or_ge n base with hlt | hge
    · have hread : continueFrom base 0 ([] ++ [Nat.digitChar n]) = some (0 * base + n) :=
        continueFrom_concat hlt hmax rfl
      rwa [Nat.zero_mul, Nat.zero_add, List.nil_append, ← Nat.toDigits_of_lt_base hlt] at hread
    · have hsmaller : n / base < n := Nat.div_lt_self (by omega) hbase
      have hread := continueFrom_concat (Nat.mod_lt n (by omega)) hmax (ih _ hsmaller)
      rwa [← Nat.toDigits_of_base_le hbase hge, Nat.div_add_mod'] at hread

theorem natural?_toDigits (hbase : 1 < base) (hmax : base ≤ 16) (n : Nat) :
    natural? base (Nat.toDigits base n) = some n := by
  have hread := continueFrom_toDigits hbase hmax n
  obtain ⟨c, cs, hcs⟩ := List.exists_cons_of_ne_nil (Nat.toDigits_ne_nil (n := n) (b := base))
  rw [hcs] at hread ⊢
  exact hread

theorem exists_of_mem_toDigits (hbase : 1 < base) (h : c ∈ Nat.toDigits base n) :
    ∃ d < base, c = Nat.digitChar d := by
  induction n using Nat.strongRecOn with
  | ind n ih =>
    rcases Nat.lt_or_ge n base with hlt | hge
    · rw [Nat.toDigits_of_lt_base hlt, List.mem_singleton] at h
      exact ⟨n, hlt, h⟩
    · rw [Nat.toDigits_of_base_le hbase hge, List.mem_append, List.mem_singleton] at h
      rcases h with h | h
      · exact ih _ (Nat.div_lt_self (by omega) hbase) h
      · exact ⟨n % base, Nat.mod_lt n (by omega), h⟩

theorem notMem_toDigits (hbase : 1 < base) (hmax : base ≤ 16)
    (hc : ∀ d : Fin 16, c ≠ Nat.digitChar d) : c ∉ Nat.toDigits base n := by
  intro hmem
  obtain ⟨d, hd, rfl⟩ := exists_of_mem_toDigits hbase hmem
  exact hc ⟨d, Nat.lt_of_lt_of_le hd hmax⟩ rfl

/-- A numeral has no sign. -/
theorem integer?_toDigits (hbase : 1 < base) (hmax : base ≤ 16) (n : Nat) :
    integer? base (Nat.toDigits base n) = some (n : Int) := by
  unfold integer?
  split
  · next heq => exact absurd (heq ▸ List.mem_cons_self) (notMem_toDigits hbase hmax (by decide))
  · next heq => exact absurd (heq ▸ List.mem_cons_self) (notMem_toDigits hbase hmax (by decide))
  · rw [natural?_toDigits hbase hmax]
    rfl

@[simp] theorem toList_hex (n : Nat) : (hex n).toList = Nat.toDigits 16 n := String.toList_ofList

/-! ## What a numeral denotes -/

/-- A character is a digit of a base, of either case, with a value. -/
def IsDigit (base : Nat) (c : Char) (d : Nat) : Prop := d < base ∧ c.toLower = Nat.digitChar d

/-- Characters are digits of a base, at least one, and a number is their positional value. -/
def Denotes (base : Nat) (cs : List Char) (n : Nat) : Prop :=
  ∃ ds, List.Forall₂ (IsDigit base) cs ds ∧ ds ≠ [] ∧ n = Nat.ofDigits base ds.reverse

/-- Digits are ASCII characters. -/
theorem toNat_lt_of_digitValue? (h : digitValue? c = some d) : c.toNat < 128 := by
  by_contra hc
  have hle (x : Char) (hx : x.toNat < 128) : ¬c ≤ x := fun h =>
    hc (Nat.lt_of_le_of_lt (Char.le_def.mp h) hx)
  simp [digitValue?, hle] at h

theorem digitValue?_eq_some_iff (hd : d < 16) :
    digitValue? c = some d ↔ c.toLower = Nat.digitChar d := by
  have hall : ∀ n < 128, ∀ d < 16, digitValue? (Char.ofNat n) = some d ↔
      (Char.ofNat n).toLower = Nat.digitChar d := by decide +kernel
  by_cases hc : c.toNat < 128
  · have h := hall c.toNat hc d hd
    rwa [Char.ofNat_toNat] at h
  · -- beyond ASCII no letter changes its case
    have hlower : c.toLower = c :=
      dif_neg fun h => hc (Nat.lt_of_le_of_lt (Char.le_def.mp h.2) (by decide))
    have hdigit : ∀ d < 16, (Nat.digitChar d).toNat < 128 := by decide
    refine iff_of_false (fun h => hc (toNat_lt_of_digitValue? h)) fun h => hc ?_
    rw [← hlower, h]
    exact hdigit d hd

theorem continueFrom_eq_some_iff (hmax : base ≤ 16) {acc : Nat} :
    continueFrom base acc cs = some n ↔
      ∃ ds, List.Forall₂ (IsDigit base) cs ds ∧
        n = acc * base ^ ds.length + Nat.ofDigits base ds.reverse := by
  induction cs generalizing acc with
  | nil =>
    constructor
    · rintro ⟨⟩
      exact ⟨[], .nil, by simp⟩
    · rintro ⟨_, ⟨⟩, rfl⟩
      simp [continueFrom]
  | cons c cs ih =>
    have hvalue (d : Nat) (ds : List Nat) :
        acc * base ^ (d :: ds).length + Nat.ofDigits base (d :: ds).reverse =
          (acc * base + d) * base ^ ds.length + Nat.ofDigits base ds.reverse := by
      rw [List.length_cons, List.reverse_cons, Nat.ofDigits_append, Nat.ofDigits_singleton,
        List.length_reverse]
      ring
    rw [continueFrom]
    constructor
    · intro h
      split at h
      · next d hc =>
        split at h
        · next hd =>
          obtain ⟨ds, hds, rfl⟩ := ih.mp h
          have hdigit := (digitValue?_eq_some_iff (Nat.lt_of_lt_of_le hd hmax)).mp hc
          exact ⟨d :: ds, .cons ⟨hd, hdigit⟩ hds, (hvalue d ds).symm⟩
        · cases h
      · cases h
    · rintro ⟨_, ⟨⟩ | ⟨hc, hds⟩, rfl⟩
      simp only [(digitValue?_eq_some_iff (Nat.lt_of_lt_of_le hc.1 hmax)).mpr hc.2, if_pos hc.1]
      exact ih.mpr ⟨_, hds, hvalue _ _⟩

theorem Denotes.ne_nil (h : Denotes base cs n) : cs ≠ [] := by
  obtain ⟨ds, hds, hne, -⟩ := h
  rintro rfl
  cases hds
  exact hne rfl

theorem natural?_eq_some_iff (hmax : base ≤ 16) :
    natural? base cs = some n ↔ Denotes base cs n := by
  cases cs with
  | nil => exact iff_of_false nofun fun h => h.ne_nil rfl
  | cons c cs =>
    rw [natural?, continueFrom_eq_some_iff hmax]
    refine exists_congr fun ds => and_congr_right fun hds => ?_
    rw [Nat.zero_mul, Nat.zero_add, iff_and_self]
    rintro - rfl
    cases hds

theorem denotes_toDigits (hbase : 1 < base) (hmax : base ≤ 16) (n : Nat) :
    Denotes base (Nat.toDigits base n) n :=
  (natural?_eq_some_iff hmax).mp (natural?_toDigits hbase hmax n)

/-- Without a sign in front, an integer is a natural number. -/
theorem integer?_eq_some_iff (hmax : base ≤ 16) {v : Int} (hminus : '-' ∉ cs) (hplus : '+' ∉ cs) :
    integer? base cs = some v ↔ ∃ n : Nat, v = n ∧ Denotes base cs n := by
  unfold integer?
  split
  · exact absurd List.mem_cons_self hminus
  · exact absurd List.mem_cons_self hplus
  · simp [Option.bind_eq_some_iff, natural?_eq_some_iff hmax, and_comm, eq_comm (a := v)]

/-! ## Decimal numerals -/

@[simp] theorem toList_decimal (n : Nat) : (decimal n).toList = Nat.toDigits 10 n := Nat.toList_repr

theorem toList_decimal_negSucc (n : Nat) :
    (decimal (Int.negSucc n)).toList = '-' :: Nat.toDigits 10 (n + 1) := by
  show ("-" ++ Nat.repr (n + 1)).toList = _
  simp [Nat.repr]

theorem toList_word {n : Int64} (hn : 0 ≤ n.toInt) :
    (word n).toList = Nat.toDigits 10 n.toInt.toNat := by
  obtain ⟨m, hm⟩ := Int.eq_ofNat_of_zero_le hn
  rw [word, hm]
  exact Nat.toList_repr

theorem isDigit_of_mem_toDigits (h : c ∈ Nat.toDigits 10 n) : c.isDigit = true :=
  Nat.isDigit_of_mem_toDigits (by decide) (by decide) h

/-- Reading undoes writing, also with a sign. -/
theorem integer?_decimal (n : Int) : integer? 10 (decimal n).toList = some n := by
  cases n with
  | ofNat m =>
    have hlist : (decimal (Int.ofNat m)).toList = Nat.toDigits 10 m := toList_decimal m
    rw [hlist]
    exact integer?_toDigits (by decide) (by decide) m
  | negSucc m =>
    rw [toList_decimal_negSucc, integer?, natural?_toDigits (by decide) (by decide)]
    rfl

theorem word?_word (n : Int64) : word? (word n).toList = some n := by
  have hread : integer? 10 (word n).toList = some n.toInt := integer?_decimal n.toInt
  have hword : isWord n.toInt = true := by
    rw [isWord, Bool.and_eq_true, decide_eq_true_eq, decide_eq_true_eq]
    exact ⟨Int64.le_toInt n, Int64.toInt_lt n⟩
  rw [word?, hread, Option.bind_some, if_pos hword, Int64.ofInt_toInt]

theorem word?_eq_some_iff {w : Int64} (hminus : '-' ∉ cs) (hplus : '+' ∉ cs) :
    word? cs = some w ↔ ∃ n : Nat, w.toInt = n ∧ Denotes 10 cs n := by
  rw [word?, Option.bind_eq_some_iff]
  simp only [integer?_eq_some_iff (show 10 ≤ 16 by decide) hminus hplus]
  constructor
  · rintro ⟨_, ⟨n, rfl, hn⟩, h⟩
    split at h
    · next hword =>
      cases h
      rw [isWord, Bool.and_eq_true, decide_eq_true_eq, decide_eq_true_eq] at hword
      exact ⟨n, Int64.toInt_ofInt_of_le hword.1 hword.2, hn⟩
    · cases h
  · rintro ⟨n, hw, hn⟩
    refine ⟨n, ⟨n, rfl, hn⟩, ?_⟩
    rw [if_pos ?_, ← hw, Int64.ofInt_toInt]
    rw [isWord, Bool.and_eq_true, decide_eq_true_eq, decide_eq_true_eq, ← hw]
    exact ⟨Int64.le_toInt w, Int64.toInt_lt w⟩

theorem word_inj {m n : Int64} : word m = word n ↔ m = n := by
  refine ⟨fun h => ?_, fun h => h ▸ rfl⟩
  have hread : integer? 10 (word m).toList = integer? 10 (word n).toList := by rw [h]
  rw [word, word] at hread
  have hm := integer?_decimal m.toInt
  have hn := integer?_decimal n.toInt
  rw [decimal] at hm hn
  rw [hm, hn, Option.some.injEq] at hread
  exact Int64.toInt_inj.mp hread

end Flowline.Numeral
