import Flowline.Proofs.Compile.Calls
import Flowline.Proofs.Pipeline.Accepting

/-!
# Who shares a register

A register belongs to a name.  So two declarations have registers of their own if and only if their
names differ, and then each register is as wide as its declaration (`exclusive_iff`).

Fields of an accepted program have names of their own.  Locals need not: a control may declare one
name twice, both controls may have one name, and the name of a control may be that of a group of
fields.  The later declaration then has the register of the first, whatever its width is.
-/

namespace Flowline.Compile

open Lower
open Pipeline
open Switch (Allocator Register Target)
open Switch.Allocator (Request)

/-! ## Declarations -/

/-- A declaration of storage: the name that owns its register, and its width. -/
structure Storage where
  name : Text
  width : Int64

/-- The storage of a field. -/
def Storage.ofField (f : Field) : Storage := ⟨f.name, f.type.width⟩

/-- The storage of a local. -/
def Storage.ofLocal (l : Local) : Storage := ⟨l.fullName, l.type.width⟩

/-- The declarations of a program that may have a register: fields that are in no packet field and
in no reserved register, and locals. -/
def storageOf (p : Program) : List Storage :=
  (p.fields.filter ownsRegister).map .ofField ++ p.locals.map .ofLocal

/-- A declaration has a register when a program is compiled. -/
def Houses (p : Program) (t : Target) (d : Storage) (r : Register) : Prop :=
  (finalRegisters p t).lookup d.name = some r

/-- No two declarations share a bit, and each register is as wide as its declaration. -/
structure Exclusive (p : Program) (t : Target) : Prop where
  disjoint : (storageOf p).Pairwise fun d d' => ∀ r r', Houses p t d r → Houses p t d' r' →
    (t.bits r).Disjoint (t.bits r')
  covers : ∀ d ∈ storageOf p, ∀ r, Houses p t d r → r.Covers d.width

/-- Locals have names of their own. -/
structure Apart (p : Program) : Prop where
  locals : (p.locals.map (·.fullName)).Nodup
  fields : ∀ f ∈ p.fields, ownsRegister f = true → ∀ l ∈ p.locals, f.name ≠ l.fullName

instance (p : Program) : Decidable (Apart p) :=
  decidable_of_iff ((p.locals.map (·.fullName)).Nodup ∧
      ∀ f ∈ p.fields, ownsRegister f = true → ∀ l ∈ p.locals, f.name ≠ l.fullName)
    ⟨fun h => ⟨h.1, h.2⟩, fun h => ⟨h.locals, h.fields⟩⟩

section

variable {p : Program} {t : Target}

/-! ## Names -/

theorem dotted_fullName (l : Local) : '.' ∈ l.fullName.toList := by
  simp [Local.fullName]

theorem dotted_of_mem_storageOf (hp : Loaded p) {d : Storage} (hd : d ∈ storageOf p) :
    '.' ∈ d.name.toList := by
  rcases List.mem_append.mp hd with hd | hd
  · obtain ⟨f, hf, rfl⟩ := List.mem_map.mp hd
    exact hp.dotted f (List.mem_filter.mp hf).1
  · obtain ⟨l, -, rfl⟩ := List.mem_map.mp hd
    exact dotted_fullName l

/-- A call that is for no reserved name is for a declaration. -/
theorem Stored.exists_storage {q : Request} (h : Stored p q) (hdot : '.' ∈ q.name.toList) :
    ∃ d ∈ storageOf p, d.name = q.name ∧ d.width = q.declared := by
  cases h with
  | output | group => exact absurd hdot (by decide)
  | @field f hf howns =>
    have hmem := List.mem_map_of_mem (f := Storage.ofField) (List.mem_filter.mpr ⟨hf, howns⟩)
    exact ⟨_, List.mem_append_left _ hmem, rfl, rfl⟩
  | @ofLocal l hl =>
    exact ⟨_, List.mem_append_right _ (List.mem_map_of_mem hl), rfl, rfl⟩

theorem Stored.name_ne_empty {q : Request} (hp : Loaded p) (h : Stored p q) : q.name ≠ "" := by
  have hdotted : ∀ name : Text, '.' ∈ name.toList → name ≠ "" := by
    rintro _ hdot rfl
    cases hdot
  cases h with
  | output | group => decide
  | field hf _ => exact hdotted _ (hp.dotted _ hf)
  | ofLocal _ => exact hdotted _ (dotted_fullName _)

/-- Fields have names of their own, so it is enough that locals have. -/
theorem Apart.nodup (hp : Loaded p) (h : Apart p) : ((storageOf p).map (·.name)).Nodup := by
  rw [storageOf, List.map_append, List.map_map, List.map_map]
  refine List.Nodup.append ?_ h.locals ?_
  · exact hp.distinct.sublist (List.filter_sublist.map _)
  · intro name hfield hlocal
    obtain ⟨f, hf, rfl⟩ := List.mem_map.mp hfield
    obtain ⟨l, hl, heq⟩ := List.mem_map.mp hlocal
    obtain ⟨hmem, howns⟩ := List.mem_filter.mp hf
    exact h.fields f hmem howns l hl heq.symm

/-! ## Registers -/

/-- Declarations of one name have one register, so they share its bits. -/
theorem ne_name_of_disjoint (hp : Loaded p) (d d' : Storage) {r : Register}
    (hr : Houses p t d' r)
    (h : ∀ r r', Houses p t d r → Houses p t d' r' → (t.bits r).Disjoint (t.bits r')) :
    d.name ≠ d'.name := by
  intro hname
  obtain ⟨hledger, htarget⟩ := ledger_finalRegisters hp t
  have hr' : Houses p t d r := by rwa [Houses, hname]
  have hself := h r r hr' hr
  rw [← htarget] at hself
  exact hledger.bits_ne_nil hr (List.eq_nil_iff_forall_not_mem.mpr fun b hb => hself hb hb)

/-- Registers are exclusive exactly where locals have names of their own. -/
theorem exclusive_iff (hp : Loaded p) (hhoused : Housed p (finalRegisters p t)) :
    Exclusive p t ↔ Apart p := by
  obtain ⟨hledger, htarget⟩ := ledger_finalRegisters hp t
  constructor
  · intro h
    obtain ⟨-, hlocals, hcross⟩ := List.pairwise_append.mp h.disjoint
    refine ⟨List.pairwise_map.mpr ?_, fun f hf howns l hl => ?_⟩
    · refine (List.pairwise_map.mp hlocals).imp_of_mem fun {l l'} _ hl' hdisjoint => ?_
      obtain ⟨r, hr⟩ := hhoused.locals l' hl'
      exact ne_name_of_disjoint hp (.ofLocal l) (.ofLocal l') hr hdisjoint
    · obtain ⟨r, hr⟩ := hhoused.locals l hl
      exact ne_name_of_disjoint hp (.ofField f) (.ofLocal l) hr
        (hcross _ (List.mem_map_of_mem (List.mem_filter.mpr ⟨hf, howns⟩)) _
          (List.mem_map_of_mem hl))
  · intro h
    have hnodup := h.nodup hp
    refine ⟨?_, fun d hd r hr => ?_⟩
    · refine (List.pairwise_map.mp hnodup).imp fun {d d'} hne r r' hr hr' => ?_
      have hdisjoint := hledger.disjoint_of_lookup hne hr hr'
      rwa [htarget] at hdisjoint
    · -- the register answers a call for this name, and no other declaration makes one
      obtain ⟨q, hq, hanswers⟩ := hledger.answers _ (Allocator.mem_owners_of_lookup hr)
      have hname : d.name = q.name := hanswers.name_eq
      obtain ⟨d', hd', hname', hwidth⟩ :=
        hq.exists_storage (hname ▸ dotted_of_mem_storageOf hp hd)
      have hsame : d' = d := List.inj_on_of_nodup_map hnodup hd' hd (hname'.trans hname.symm)
      rw [← hsame, hwidth]
      exact hanswers.covers

/-! ## Compiled programs -/

/-- Metadata and locals of a compiled program have registers. -/
theorem housed_of_ok {o : Output} (h : (compile p t).result = .ok o) :
    Housed p (finalRegisters p t) := by
  obtain ⟨inControl, outControl, d, b, -, -, hafter, hnone, -, -, hregisters⟩ := draft_of_ok h
  have hemits : Emits (draft p inControl outControl) fun b _ _ => Housed p b.allocator :=
    (emits_allocateStorage p).bind fun ports =>
      (emits_draftFrom inControl outControl ports).mono fun _ _ _ _ _ hstorage => hstorage.2.1
  have hquiet : (after (draft p inControl outControl) { allocator := .fresh t }).2.problems = [] :=
    by rw [hafter, hnone]
  obtain ⟨-, fs, -, hhoused⟩ := hemits.runs { allocator := .fresh t } hquiet
  rw [hafter] at hhoused
  rw [← hregisters]
  exact hhoused b (Later.refl b)

end

/-- **Registers are exclusive exactly where locals have names of their own.**  In every program that
is accepted and compiled, metadata and locals have registers.  No two declarations share a bit of
theirs, and each register is as wide as its declaration, if and only if no two locals have one name
and none has the name of a field with a register. -/
theorem registers_exclusive_iff {d : Description.Program} {p : Program} {t : Target} {o : Output}
    (hload : ofDescription d = .ok p) (hcompile : (compile p t).result = .ok o) :
    Housed p (finalRegisters p t) ∧ (Exclusive p t ↔ Apart p) :=
  have hhoused := housed_of_ok hcompile
  ⟨hhoused, exclusive_iff (loaded_of_ofDescription hload) hhoused⟩

/-- Whether a description is accepted and compiled, and its program passes a test. -/
def passes (d : Description.Program) (test : Program → Bool) : Bool :=
  accepts d fun p => (compile p {}).result.isOk && test p

theorem exists_of_passes (d : Description.Program) (test : Program → Bool)
    (h : passes d test = true) :
    ∃ p o, ofDescription d = .ok p ∧ (compile p {}).result = .ok o ∧ test p = true := by
  obtain ⟨p, hload, h⟩ := exists_of_accepts d _ h
  rw [Bool.and_eq_true] at h
  obtain ⟨o, ho⟩ := exists_eq_ok_of_isOk h.1
  exact ⟨p, o, hload, ho, h.2⟩

/-- Storage of one name in the metadata and in both controls. -/
def sampleDescription : Description.Program where
  metadata := [{ name := "x", width := 8 }]
  ingress := some { idleControl with locals := [{ name := "x", width := 16 }] }
  egress := some { idleControl with locals := [{ name := "x", width := 1 }] }

theorem registers_exclusive_iff_sampleDescription :
    ∃ p o, ofDescription sampleDescription = .ok p ∧ (compile p {}).result = .ok o ∧
      Exclusive p {} := by
  obtain ⟨p, o, hload, hcompile, htest⟩ := exists_of_passes sampleDescription
    (fun p => decide (Apart p)) (by decide +kernel)
  exact ⟨p, o, hload, hcompile,
    (registers_exclusive_iff hload hcompile).2.mpr (of_decide_eq_true htest)⟩

/-- A control that declares a local twice, with different widths. -/
def sharedDescription : Description.Program where
  ingress := some { idleControl with
    locals := [{ name := "x", width := 8 }, { name := "x", width := 16 }] }
  egress := some idleControl

/-- Both locals have the register of the first. -/
theorem not_exclusive_sharedDescription :
    ∃ p o, ofDescription sharedDescription = .ok p ∧ (compile p {}).result = .ok o ∧
      ¬Exclusive p {} := by
  obtain ⟨p, o, hload, hcompile, htest⟩ := exists_of_passes sharedDescription
    (fun p => decide (¬Apart p)) (by decide +kernel)
  refine ⟨p, o, hload, hcompile, fun h => of_decide_eq_true htest ?_⟩
  exact (exclusive_iff (loaded_of_ofDescription hload) (housed_of_ok hcompile)).mp h

end Flowline.Compile
