import Flowline.Proofs.Compile.FirstMatch

/-!
# Constant entries and the default

The flow of the default holds of every packet at its stage, so it is only left to the packets that no
entry matches if it has a lower priority than all entries.

Entries without a priority get one by their position, and these are all above the default.  A
priority that an entry was given is taken as it is, and nothing compares it with that of the
default.  So the entries outrank the default exactly where every priority that was given is above it
(`entries_outrank_default_iff`); one that is below never runs against the default.
-/

namespace Flowline.Compile

open ControlFlow (Graph Vertex graphOf)
open Lower
open Pipeline (Control Entry Program Table)
open Switch (Allocator Target)

/-- An entry is above the default: it has no priority of its own, or one that is higher. -/
def AboveDefault (e : Entry) : Prop := e.priority = 0 ∨ lowPriority < e.priority.toInt

instance (e : Entry) : Decidable (AboveDefault e) := inferInstanceAs (Decidable (_ ∨ _))

/-- The position of an entry gives it a priority above the default. -/
theorem lt_entryPriority_iff {x : Table} {i : Nat} {e : Entry} (hi : i < x.entries.length) :
    lowPriority < entryPriority x i e ↔ AboveDefault e := by
  unfold entryPriority AboveDefault
  by_cases hzero : e.priority = 0
  · rw [if_pos hzero]
    have hpositive : (0 : Int) < x.entries.length - i := by omega
    constructor
    · exact fun _ => .inl hzero
    · exact fun _ => by omega
  · rw [if_neg hzero, or_iff_right hzero]

/-- The flows of a stage with constant entries, with their priorities. -/
structure Ranked (a : Allocator) (o : Output) (g : Graph) (v : Vertex) (x : Table)
    (facts : List StageFlow) (default : StageFlow) : Prop where
  /-- There are no other flows. -/
  flows : o.flowsAt v.id = facts ++ [default]
  /-- Each entry has one fact, in order. -/
  entries : List.Forall₂ (fun e f => IsEntryFact a x g v e f ∧ f.priority = entryPriority x e.2 e.1)
    x.entries.zipIdx facts
  /-- The last flow is that of the default. -/
  comment : default.comment = "table " ++ x.fullName ++ " default"
  priority : default.priority = lowPriority
  /-- The default holds of every packet at the stage. -/
  always : ∀ row s, default.flow.guard.Admits a.target row v.id s
  /-- Where the registers of the keys are as wide as the keys, the fact of an entry holds of the
  packets that the entry matches. -/
  admits_iff : (∀ k ∈ x.keys, KeyCovered (Layout.of a) k) → ∀ (i : Nat) e f,
    x.entries[i]? = some e → facts[i]? = some f → ∀ row s,
      f.flow.guard.Admits a.target row v.id s ↔ EntryMatches (Layout.of a) s x e

variable {p : Program} {t : Target} {o : Output} {g : Graph} {v : Vertex} {x : Table}

/-- Wherever a table with constant entries is applied, its flows have the priorities of its entries,
and the default has the lowest there is by position. -/
theorem exists_ranked (h : (compile p t).result = .ok o) (hat : TableAt p o g v x)
    (hconst : x.hasConstEntries = true) :
    ∃ facts default, Ranked (finalRegisters p t) o g v x facts default := by
  obtain ⟨b, facts, last, hb, hflows⟩ := exists_constantFlows h hat hconst
  rw [← hb]
  refine ⟨facts, last, hflows.flows, ?_, hflows.isDefault.comment_eq, hflows.isDefault.priority_eq,
    hflows.isDefault.admits _, ?_⟩
  · exact hflows.entries.imp fun _ _ hf => ⟨isEntryFact_of_entryFlow hf, priority_entryFlow hf⟩
  · intro hcovered i e f he hf row s
    exact hflows.admits_iff hcovered (List.mem_of_getElem? hf) he (hflows.entryFlow he hf) row s

namespace Ranked

variable {a : Allocator} {facts : List StageFlow} {default : StageFlow}

/-- All facts are above the default if and only if all entries are. -/
theorem outranks_iff (h : Ranked a o g v x facts default) :
    (∀ f ∈ facts, default.priority < f.priority) ↔ ∀ e ∈ x.entries, AboveDefault e := by
  rw [h.priority]
  constructor
  · intro habove e he
    obtain ⟨i, hi, rfl⟩ := List.getElem_of_mem he
    have hmem : (x.entries[i], i) ∈ x.entries.zipIdx := by
      rw [List.mem_zipIdx_iff_getElem?]
      exact List.getElem?_eq_getElem hi
    obtain ⟨f, hf, -, hpriority⟩ := exists_of_mem_left h.entries hmem
    have hlt := habove f hf
    rwa [hpriority, lt_entryPriority_iff hi] at hlt
  · intro habove f hf
    obtain ⟨⟨e, i⟩, he, -, hpriority⟩ := exists_of_mem_right h.entries hf
    rw [List.mem_zipIdx_iff_getElem?] at he
    obtain ⟨hi, -⟩ := List.getElem?_eq_some_iff.mp he
    rw [hpriority, lt_entryPriority_iff hi]
    exact habove e (List.mem_of_getElem? he)

/-- The default is not taken by a packet of which a fact above it holds. -/
theorem not_takes_default (h : Ranked a o g v x facts default) {row : Flow.Row}
    {s : Switch.Situation} {f : StageFlow} (hf : f ∈ facts)
    (hadmits : f.flow.guard.Admits a.target row v.id s) (habove : default.priority < f.priority) :
    ¬Takes a.target (o.flowsAt v.id) row v.id s default := by
  intro htakes
  have hmem : f ∈ o.flowsAt v.id := by
    rw [h.flows]
    exact List.mem_append_left _ hf
  have hne : f ≠ default := by
    rintro rfl
    exact lt_irrefl _ habove
  exact lt_asymm habove (htakes.highest f hmem hadmits hne)

/-- The default is taken by a packet of which only facts below it hold. -/
theorem takes_default (h : Ranked a o g v x facts default) {row : Flow.Row} {s : Switch.Situation}
    (hbelow : ∀ f ∈ facts, f.flow.guard.Admits a.target row v.id s → f.priority < lowPriority) :
    Takes a.target (o.flowsAt v.id) row v.id s default := by
  rw [h.flows]
  refine ⟨List.mem_append_right _ List.mem_cons_self, h.always row s, fun f hf hadmits hne => ?_⟩
  rcases List.mem_append.mp hf with hf | hf
  · rw [h.priority]
    exact hbelow f hf hadmits
  · exact absurd (List.mem_singleton.mp hf) hne

end Ranked

theorem target_finalRegisters (h : (compile p t).result = .ok o) :
    (finalRegisters p t).target = t := by
  obtain ⟨inControl, outControl, ports, b, hb⟩ := compiled_of_ok h
  rw [← hb.registers, hb.target]

/-- **Entries outrank the default exactly where their priorities do.**  Wherever a table with
constant entries is applied, its entries have facts and its default has a flow that holds of every
packet.  All facts have higher priorities than the default if and only if every entry was given
either none or one above that of the default; then a packet that some entry matches never takes the
default.  Where all entries that match were given priorities below it, the packet takes the default
in their place. -/
theorem entries_outrank_default_iff (h : (compile p t).result = .ok o) (hat : TableAt p o g v x)
    (hconst : x.hasConstEntries = true) :
    ∃ facts default, Ranked (finalRegisters p t) o g v x facts default ∧
      ((∀ f ∈ facts, default.priority < f.priority) ↔ ∀ e ∈ x.entries, AboveDefault e) ∧
      ((∀ e ∈ x.entries, AboveDefault e) → ∀ row s,
        (∃ f ∈ facts, f.flow.guard.Admits t row v.id s) →
          ¬Takes t (o.flowsAt v.id) row v.id s default) ∧
      ∀ row s, (∀ f ∈ facts, f.flow.guard.Admits t row v.id s → f.priority < lowPriority) →
        Takes t (o.flowsAt v.id) row v.id s default := by
  obtain ⟨facts, default, hranked⟩ := exists_ranked h hat hconst
  have htarget := target_finalRegisters h
  refine ⟨facts, default, hranked, hranked.outranks_iff, ?_, ?_⟩
  · rintro habove row s ⟨f, hf, hadmits⟩
    have hlt := hranked.outranks_iff.mpr habove f hf
    rw [← htarget] at hadmits ⊢
    exact hranked.not_takes_default hf hadmits hlt
  · intro row s hbelow
    rw [← htarget] at hbelow ⊢
    exact hranked.takes_default hbelow

/-- Entries without priorities, under a mask and with a key that is left open. -/
theorem entries_outrank_default_iff_sampleAcl :
    ∃ o g v, (compile sampleProgram {}).result = .ok o ∧ TableAt sampleProgram o g v sampleAcl ∧
      sampleAcl.hasConstEntries = true ∧ ∃ facts default,
        Ranked (finalRegisters sampleProgram {}) o g v sampleAcl facts default ∧
          ∀ f ∈ facts, default.priority < f.priority := by
  obtain ⟨o, ho⟩ := compile_sampleProgram
  obtain ⟨v, hv⟩ := exists_tableAt_ingress ho (c := sampleIngress) (x := sampleAcl) rfl rfl
    (by decide +kernel)
  obtain ⟨facts, default, hranked, hiff, -⟩ := entries_outrank_default_iff ho hv rfl
  exact ⟨o, _, v, ho, hv, rfl, facts, default, hranked, hiff.mpr (by decide)⟩

/-! ## A priority that is too low -/

section

open Pipeline (Action)

/-- The action of an entry, and that of the default. -/
def idle (name : Text) : Action :=
  { control := "ingress", name := name, params := [], body := [] }

/-- A table with one entry, which matches every packet and has the priority of the default. -/
def evenTable : Table where
  control := "ingress"
  name := "t"
  keys := [⟨"x", .field { name := "meta.x", type := { width := 8 } }, .ternary⟩]
  actions := [⟨idle "a", false, false⟩, ⟨idle "b", false, false⟩]
  default? := some ⟨idle "b", [], true⟩
  entries := [⟨[.any], idle "a", [], 1⟩]
  hasConstEntries := true

def evenControl : Control where
  name := "ingress"
  params := []
  locals := []
  actions := [idle "a", idle "b"]
  tables := [evenTable]
  body := [.apply ⟨"ingress", "t"⟩]

/-- A program that applies this table. -/
def evenProgram : Program where
  headers := []
  metadata := [{ name := "meta.x", type := { width := 8 } }]
  standard := []
  ingress := some evenControl
  egress := some
    { name := "egress", params := [], locals := [], actions := [], tables := [], body := [] }

end

/-- The entry and the default have the same priority, and neither comes before the other. -/
theorem not_outranks_default_evenTable :
    ∃ o g v facts default, (compile evenProgram {}).result = .ok o ∧
      TableAt evenProgram o g v evenTable ∧ evenTable.hasConstEntries = true ∧
      Ranked (finalRegisters evenProgram {}) o g v evenTable facts default ∧
      ¬∀ f ∈ facts, default.priority < f.priority := by
  obtain ⟨o, ho⟩ : ∃ o, (compile evenProgram {}).result = .ok o :=
    exists_eq_ok_of_isOk (by decide +kernel)
  obtain ⟨v, hv⟩ := exists_tableAt_ingress ho (c := evenControl) (x := evenTable) rfl rfl
    (by decide +kernel)
  obtain ⟨facts, default, hranked⟩ := exists_ranked ho hv rfl
  refine ⟨o, _, v, facts, default, ho, hv, rfl, hranked, fun habove => ?_⟩
  exact absurd (hranked.outranks_iff.mp habove) (by decide)

end Flowline.Compile
