import Flowline.Proofs.Compile.Stages
import Flowline.Proofs.Flow.Matching
import Flowline.Proofs.Lower.Conditions

/-!
# Constant entries run in order

A table with constant entries has a flow for each of them, and one for its default action.  Of the
flows that hold of a packet the one with the highest priority is taken, and that is the flow of the
first entry that matches (`first_entry_runs`).

What it means that an entry matches is said without flows (`EntryMatches`): the numbers in the
registers of the keys are compared with those of the entry.  Two things lie between this and the
texts of the flows.  Values and masks are moved to the place of a register inside its base, and only
keys that are looked at bring their prerequisites.

The proof has three layers.  `ensures_entryKey` is about one key: its match holds of a packet exactly
when the key matches.  `admits_entryFlow` is about one entry, whose flow holds when all keys match.
The last is about priorities, which fall with the position of an entry, so that facts are ordered as
entries are and the default comes behind (`ConstantFlows.nodup_priorities`).

A table is looked at wherever it is applied, at a stage that packets can come to.  It must have
entries, a default that is fixed and no priorities of its own: entries that bring priorities are
ordered by these.  The numbers are those of registers.  They are the values of the keys where storage
has its size (`keyNumber_eq_evaluate`), which names that are declared twice can spoil.
-/

namespace Flowline.Compile

open Flowline.Flow (Match Row)
open ControlFlow (Graph Vertex)
open Lower
open Pipeline (Entry Key Program Table)
open Source (Expr)
open Switch (Allocator Limits Register Situation Target)

/-! ## Entries that match -/

/-- The number in the register of a key. -/
def keyNumber (L : Layout) (s : Situation) (k : Key) : Nat :=
  (L.register k.expr).elim 0 fun r => s.memory.read (r.places L.target)

/-- The number of a constant. -/
def constNumber (L : Layout) (s : Situation) (e : Expr) : Int := evaluate .zero L (fun _ => 0) s e

/-- The prerequisites of all fields of a key hold. -/
def KeyReady (s : Situation) (k : Key) : Prop :=
  ∀ f ∈ fieldsRead k.expr, ∀ text ∈ f.prereq, s.texts text = true

/-- Whether a key is as an entry says.  A wildcard does not look at the key; under a mask, only the
bits that are set in it count. -/
def KeyMatches (L : Layout) (s : Situation) (k : Key) : Expr → Prop
  | .any => True
  | .binary .mask value mask =>
    KeyReady s k ∧ keyNumber L s k &&& (constNumber L s mask).toNat =
      (constNumber L s value).toNat &&& (constNumber L s mask).toNat
  | value => KeyReady s k ∧ (keyNumber L s k : Int) = constNumber L s value

/-- Whether all keys are as an entry says. -/
def EntryMatches (L : Layout) (s : Situation) (t : Table) (e : Entry) : Prop :=
  List.Forall₂ (KeyMatches L s) t.keys e.keys

/-! ## Flows that are taken -/

/-- The priority of a flow; without one it is the middle of the range. -/
def StageFlow.priority (f : StageFlow) : Int :=
  match f.flow.guard.priorities with
  | .const n _ :: _ => n
  | _ => 32768

/-- Of some flows, the one that a packet at a stage takes: it holds of the packet, and all others
that do have lower priorities. -/
structure Takes (t : Target) (fs : List StageFlow) (row : Row) (stage : Int64) (s : Situation)
    (f : StageFlow) : Prop where
  mem : f ∈ fs
  admits : f.flow.guard.Admits t row stage s
  highest : ∀ f' ∈ fs, f'.flow.guard.Admits t row stage s → f' ≠ f → f'.priority < f.priority

theorem Takes.unique {t : Target} {fs : List StageFlow} {row : Row} {stage : Int64}
    {s : Situation} {f f' : StageFlow} (hf : Takes t fs row stage s f)
    (hf' : Takes t fs row stage s f') : f = f' := by
  by_contra hne
  exact lt_asymm (hf.highest f' hf'.mem hf'.admits (Ne.symm hne))
    (hf'.highest f hf.mem hf.admits hne)

/-! ## Comparisons -/

section

variable {t : Target} {row : Row} {stage : Int64} {s : Situation} {left : Flow.Expr} {r : Register}
  {w : Int64} {n m : Int} {base base' : Int64} {limits : Limits}

theorem lt_two_pow_of_bitLength (hn : 0 ≤ n) (hfits : (bitLength n : Int) ≤ w.toInt) :
    n.toNat < 2 ^ w.toInt.toNat := by
  have hlt := lt_modulus_of_bitLength hn hfits
  unfold modulus at hlt
  rw [Int.toNat_lt hn]
  exact_mod_cast hlt

theorem admits_equals (hleft : left.asRegister = some r) (hr : r.Covers w) (hn : 0 ≤ n)
    (hfits : (bitLength n : Int) ≤ w.toInt)
    (htext : (Match.equals left (.const n base) none).hasText limits = true) :
    (Match.equals left (.const n base) none).Admits t row stage s ↔
      (s.memory.read (r.places t) : Int) = n := by
  simp only [Match.hasText, hleft, Bool.and_eq_true] at htext
  have hmask : (r.field.isNone || !r.isFull) = true → r.hasMask limits = true := by
    intro hpart
    rw [if_pos hpart] at htext
    exact htext.2
  have hlow : 0 ≤ r.low.toInt := by
    by_cases hpart : (r.field.isNone || !r.isFull) = true
    · exact (Register.bounds_of_hasMask (hmask hpart)).1
    · rw [Bool.not_eq_true, Bool.or_eq_false_iff, Bool.not_eq_eq_eq_not, Bool.not_false,
        Register.isFull, Bool.and_eq_true, decide_eq_true_eq] at hpart
      rw [hpart.2.1, Int64.toInt_zero]
  have hagrees := Register.agrees_whole t s.memory hr hlow hmask (lt_two_pow_of_bitLength hn hfits)
  simp only [Match.Admits, hleft, Option.mem_some_iff, exists_eq_left', Flow.Expr.Fits, true_and,
    Option.map_none, Flow.Expr.valueIn, hagrees, Option.not_mem_none, IsEmpty.forall_iff,
    implies_true]
  omega

theorem admits_equals_masked (hleft : left.asRegister = some r) (hr : r.Covers w) (hm : 0 ≤ m)
    (hfits : (bitLength m : Int) ≤ w.toInt)
    (htext : (Match.equals left (.const n base) (some (.const m base'))).hasText limits = true) :
    (Match.equals left (.const n base) (some (.const m base'))).Admits t row stage s ↔
      s.memory.read (r.places t) &&& m.toNat = n.toNat &&& m.toNat := by
  simp only [Match.hasText, hleft, Bool.and_eq_true, Flow.canPosition, Bool.or_eq_true,
    decide_eq_true_eq] at htext
  simp only [Match.Admits, hleft, Option.mem_some_iff, exists_eq_left', Flow.Expr.Fits, true_and,
    Option.map_some, Flow.Expr.valueIn, forall_eq', Register.compared]
  -- an empty mask can be moved anywhere, and then nothing is compared
  by_cases hzero : m = 0
  · rw [hzero]
    simp [Register.Agrees, Register.shifted]
  · have hlow : 0 ≤ r.low.toInt := by
      rcases htext.2 with (hlow | hvalue) | hshift
      · rw [hlow, Int64.toInt_zero]
      · exact absurd hvalue hzero
      · exact (Switch.Limits.canShift_iff.mp hshift).1
    exact Register.agrees_masked t s.memory hr hlow (lt_two_pow_of_bitLength hm hfits)

end

theorem admits_prereqs {t : Target} {row : Row} {stage : Int64} {s : Situation} (k : Key) :
    (∀ x ∈ prereqs k.expr, x.Admits t row stage s) ↔ KeyReady s k := by
  rw [KeyReady, ← holds_prereqs (t := t)]
  simp only [prereqs, List.forall_mem_map, Match.Admits, Match.Holds]

/-! ## Keys -/

/-- The match of a key of an entry, with its prerequisites, holds when the key is as the entry
says. -/
theorem ensures_entryKey (limits : Limits) (k : Key) (key : Expr) :
    Ensures (entryKey k key) fun L m => ∀ r, L.register k.expr = some r →
      r.Covers k.expr.type.width → (∀ x ∈ m, x.hasText limits = true) → ∀ row stage s,
        (∀ x ∈ m, (∀ y ∈ prereqs k.expr, y.Admits L.target row stage s) ∧
          x.Admits L.target row stage s) ↔ KeyMatches L s k key := by
  refine (ensures_value_register k.expr).bind fun left => ?_
  split
  · exact ensures_pure fun L _ _ _ _ _ _ _ _ => by simp [KeyMatches]
  · refine (ensures_fittingConst _ _ _ _).bind fun v => ?_
    refine (ensures_fittingConst _ _ _ _).bind fun m => ?_
    refine ensures_pure fun L hm hv hleft r hr hcovers htext row stage s => ?_
    obtain ⟨n, base, rfl, -, hn, hvalue⟩ := hv
    obtain ⟨m, base', rfl, hfits, hm, hmask⟩ := hm
    rw [hr] at hleft
    simp only [Option.mem_some_iff, forall_eq'] at htext ⊢
    rw [admits_prereqs, admits_equals_masked hleft hcovers hm hfits htext, KeyMatches, keyNumber,
      constNumber, constNumber, hvalue s, hmask s, hr]
    rfl
  · next hany hbinary =>
    refine (ensures_fittingConst _ _ _ _).bind fun v => ?_
    refine ensures_pure fun L hv hleft r hr hcovers htext row stage s => ?_
    obtain ⟨n, base, rfl, hfits, hn, hvalue⟩ := hv
    rw [hr] at hleft
    simp only [Option.mem_some_iff, forall_eq'] at htext ⊢
    rw [admits_prereqs, admits_equals hleft hcovers hn hfits htext]
    have hmatches : KeyMatches L s k key ↔
        KeyReady s k ∧ (keyNumber L s k : Int) = constNumber L s key := by
      unfold KeyMatches
      split
      · exact absurd rfl hany
      · exact absurd rfl (hbinary _ _)
      · exact Iff.rfl
    rw [hmatches, keyNumber, constNumber, hvalue s, hr]
    rfl

/-- The register of a key has the width of the key. -/
def KeyCovered (L : Layout) (k : Key) : Prop :=
  ∀ r ∈ L.register k.expr, r.Covers k.expr.type.width

/-- The register of a key is that of its value. -/
theorem exists_gives_value {a : Allocator} {k : Key} {r : Register}
    (h : Gives a (keyRegister k) r) :
    ∃ v, Gives a (value [] k.expr) v ∧ v.asRegister = some r := by
  obtain ⟨a₀, a', hyields, hgrows⟩ := h
  simp only [keyRegister, yields_bind] at hyields
  obtain ⟨v, c, hv, hr⟩ := hyields
  split at hr
  · next r' hregister =>
    obtain ⟨rfl, rfl⟩ := yields_pure.mp hr
    exact ⟨v, ⟨a₀, _, hv, hgrows⟩, hregister⟩
  · exact absurd hr not_yields_throw

section

variable {b : State} {t : Table} {k : Key}

theorem register_of_right (hright : Right b t) (hk : k ∈ t.keys) :
    ∃ r, (Layout.of b.allocator).register k.expr = some r := by
  obtain ⟨r, hr⟩ := (hright.keys k hk).2
  obtain ⟨v, hv, hregister⟩ := exists_gives_value hr
  exact ⟨r, ((ensures_value_register k.expr).of_gives hv).symm.trans hregister⟩

/-- Where storage has its size, the number in the register of a key is that of the key. -/
theorem keyNumber_eq_evaluate (hright : Right b t) (hk : k ∈ t.keys) {args : Text → Int}
    (hsized : (Layout.of b.allocator).Sized args k.expr) (s : Situation) :
    (keyNumber (Layout.of b.allocator) s k : Int) =
      evaluate .zero (Layout.of b.allocator) args s k.expr := by
  obtain ⟨r, hr⟩ := (hright.keys k hk).2
  obtain ⟨v, hv, hregister⟩ := exists_gives_value hr
  have hlayout := ((ensures_value_register k.expr).of_gives hv).symm.trans hregister
  have hdenotes := (ensures_value (binds_nil args) k.expr).of_gives hv hsized
  cases hdenotes with
  | constant => cases hregister
  | storage hstorage hregister' hcovers hplaces =>
    cases hregister.symm.trans hregister'
    rw [evaluate_storage s hstorage, keyNumber, hlayout, ← hplaces]
    rfl

end

/-- The matches of all keys of an entry, with the prerequisites of those that are looked at, hold
when the keys are as the entry says. -/
theorem admits_keys {limits : Limits} {b : State} {qs : List (Key × Expr)}
    {ms : List (Option Match)} (hms : KeysOf b qs ms) {L : Layout} (hL : L = Layout.of b.allocator)
    (hqs : ∀ q ∈ qs, KeyCovered L q.1 ∧ ∃ r, L.register q.1.expr = some r)
    (htext : ∀ x ∈ ms.filterMap id, x.hasText limits = true) (row : Row) (stage : Int64)
    (s : Situation) :
    ((∀ y ∈ usedPrereqs qs ms, y.Admits L.target row stage s) ∧
      ∀ x ∈ ms.filterMap id, x.Admits L.target row stage s) ↔
        ∀ q ∈ qs, KeyMatches L s q.1 q.2 := by
  induction hms with
  | nil => simp [usedPrereqs]
  | @cons q m qs ms hq _ ih =>
    rw [List.forall_mem_cons] at hqs
    obtain ⟨⟨hcovered, r, hr⟩, hqs⟩ := hqs
    subst hL
    have hkey := (ensures_entryKey limits q.1 q.2).of_gives hq r hr (hcovered r hr)
    rw [List.forall_mem_cons]
    cases m with
    | none =>
      rw [← hkey nofun row stage s, ← ih hqs htext]
      simp [usedPrereqs]
    | some m =>
      have hguards : (some m :: ms).filterMap id = m :: ms.filterMap id := rfl
      rw [hguards, List.forall_mem_cons] at htext ⊢
      have hcons : usedPrereqs (q :: qs) (some m :: ms) = prereqs q.1.expr ++ usedPrereqs qs ms :=
        rfl
      rw [hcons, List.forall_mem_append, ← hkey (by simpa using htext.1) row stage s,
        ← ih hqs htext.2]
      simp only [Option.mem_some_iff, forall_eq']
      tauto

/-! ## Entries -/

/-- A flow is the fact of an entry: it depends on nothing and runs the action of the entry. -/
structure IsEntryFact (a : Allocator) (t : Table) (g : Graph) (v : Vertex) (e : Entry × Nat)
    (f : StageFlow) : Prop where
  comment : f.comment = "table " ++ t.fullName ++ " entry " ++ toString (e.2 + 1)
  bindings : f.bindings = []
  action : ∃ act, Gives a (constAction e.1 g (g.afterHit v e.1.action.name)) act ∧
    f.flow.action = act.simplify

/-- A flow is the fact of the default: it depends on nothing and runs the default action. -/
structure IsDefaultFact (a : Allocator) (t : Table) (g : Graph) (v : Vertex) (f : StageFlow) :
    Prop where
  comment : f.comment = "table " ++ t.fullName ++ " default"
  bindings : f.bindings = []
  action : ∃ act, Gives a (fixedDefault t g v) act ∧ f.flow.action = act.simplify

theorem priority_flowOf {comment : Text} {stage : Int64} {n : Int} {ms : List Match}
    {act : Flow.Action} {bindings : List Binding} (h : ∀ m ∈ ms, m.priorities = []) :
    (flowOf comment (stageGuard stage (.number n) ms) act bindings).priority = n := by
  have hguard : (flowOf comment (stageGuard stage (.number n) ms) act
      bindings).flow.guard.priorities = [.number n] := by
    show (stageGuard stage (.number n) ms).simplify.priorities = _
    rw [Match.priorities_simplify, stageGuard, Match.priorities_foldl,
      List.flatMap_eq_nil_iff.mpr h]
    rfl
  rw [StageFlow.priority, hguard]
  rfl

theorem admits_flowOf {t : Target} {row : Row} {stage stage' : Int64} {s : Situation}
    {comment : Text} {e : Flow.Expr} {ms : List Match} {act : Flow.Action}
    {bindings : List Binding} :
    (flowOf comment (stageGuard stage e ms) act bindings).flow.guard.Admits t row stage' s ↔
      stage' = stage ∧ ∀ x ∈ ms, x.Admits t row stage' s := by
  show (stageGuard stage e ms).simplify.Admits t row stage' s ↔ _
  rw [Match.admits_simplify, stageGuard, Match.admits_foldl, Match.Admits, Match.Admits,
    Match.Admits, and_true]

section

variable {b : State} {t : Table} {g : Graph} {v : Vertex} {e : Entry × Nat} {f : StageFlow}

theorem isEntryFact_of_entryFlow (hf : EntryFlow b t g v e f) :
    IsEntryFact b.allocator t g v e f := by
  obtain ⟨ms, act, -, hact, rfl⟩ := hf
  exact ⟨rfl, rfl, act, hact, rfl⟩

theorem priority_entryFlow (hf : EntryFlow b t g v e f) : f.priority = entryPriority t e.2 e.1 := by
  obtain ⟨ms, act, hms, -, rfl⟩ := hf
  exact priority_flowOf fun m hm => (bare_of_mem_keys hms hm).priorities

theorem length_keys (hright : Right b t) {i : Nat} {e : Entry} (he : t.entries[i]? = some e) :
    e.keys.length = t.keys.length := by
  have hchecked := hright.entries (e, i) (List.mem_zipIdx_iff_getElem?.mpr he)
  simp only [checkEntry, List.append_eq_nil_iff, ite_eq_right_iff, List.cons_ne_nil, imp_false,
    not_not] at hchecked
  exact hchecked.1.2

/-- The flow of an entry holds at its stage when the entry matches. -/
theorem admits_entryFlow {limits : Limits} (hf : EntryFlow b t g v e f) (hright : Right b t)
    (hcovered : ∀ k ∈ t.keys, KeyCovered (Layout.of b.allocator) k)
    (hlength : e.1.keys.length = t.keys.length) (htext : f.hasText limits = true) (row : Row)
    (s : Situation) :
    f.flow.guard.Admits b.allocator.target row v.id s ↔
      EntryMatches (Layout.of b.allocator) s t e.1 := by
  obtain ⟨ms, act, hms, -, rfl⟩ := hf
  have hqs : ∀ q ∈ t.keys.zip e.1.keys, KeyCovered (Layout.of b.allocator) q.1 ∧
      ∃ r, (Layout.of b.allocator).register q.1.expr = some r := by
    intro q hq
    have hk : q.1 ∈ t.keys := (List.of_mem_zip (a := q.1) (b := q.2) hq).1
    exact ⟨hcovered _ hk, register_of_right hright hk⟩
  have hguards : ∀ x ∈ ms.filterMap id, x.hasText limits = true := by
    have hguard := (Bool.and_eq_true_iff.mp htext).1
    simp only [flowOf, Flow.Line.simplify, Match.hasText_simplify, stageGuard,
      Match.hasText_foldl] at hguard
    intro x hx
    exact hguard.2 x (List.mem_append_right _ hx)
  have hkeys := admits_keys hms rfl hqs hguards row v.id s
  rw [admits_flowOf, EntryMatches, List.forall₂_iff_zip, List.forall_mem_append]
  simp only [List.mem_eraseDups, true_and, hlength]
  rw [← Prod.forall']
  exact hkeys

end

/-! ## The first entry that matches -/

section

variable {b : State} {x : Table} {g : Graph} {v : Vertex} {f : StageFlow}

/-- Earlier entries have higher priorities. -/
theorem priority_fact (hpriorities : ∀ e ∈ x.entries, e.priority = 0) {i : Nat} {e : Entry}
    (he : x.entries[i]? = some e) (hf : EntryFlow b x g v (e, i) f) :
    i < x.entries.length ∧ f.priority = x.entries.length - i + lowPriority := by
  obtain ⟨hi, -⟩ := List.getElem?_eq_some_iff.mp he
  refine ⟨hi, ?_⟩
  rw [priority_entryFlow hf, entryPriority, if_pos (hpriorities e (List.mem_of_getElem? he))]

theorem DefaultFlow.comment_eq (h : DefaultFlow b x g v f) :
    f.comment = "table " ++ x.fullName ++ " default" := by
  cases h <;> rfl

theorem DefaultFlow.priority_eq (h : DefaultFlow b x g v f) : f.priority = lowPriority := by
  cases h <;> exact priority_flowOf nofun

theorem DefaultFlow.admits (h : DefaultFlow b x g v f) (t : Target) (row : Row) (s : Situation) :
    f.flow.guard.Admits t row v.id s := by
  cases h <;> exact admits_flowOf.mpr ⟨rfl, nofun⟩

theorem DefaultFlow.isDefaultFact (h : DefaultFlow b x g v f) (hconst : hasConstDefault x = true) :
    IsDefaultFact b.allocator x g v f := by
  cases h with
  | fixed _ hact => exact ⟨rfl, rfl, _, hact, rfl⟩
  | chosen hchosen => cases hconst.symm.trans hchosen

end

/-- The flows of a stage with constant entries: a fact for each entry, and that of the default. -/
structure ConstantFlows (b : State) (o : Output) (g : Graph) (v : Vertex) (x : Table)
    (facts : List StageFlow) (default : StageFlow) : Prop where
  right : Right b x
  flows : o.flowsAt v.id = facts ++ [default]
  entries : List.Forall₂ (EntryFlow b x g v) x.entries.zipIdx facts
  isDefault : DefaultFlow b x g v default
  texts : ∀ f ∈ facts, f.hasText b.allocator.target.limits = true

section

variable {p : Program} {t : Target} {o : Output} {g : Graph} {v : Vertex} {x : Table}

theorem exists_constantFlows (h : (compile p t).result = .ok o) (hat : TableAt p o g v x)
    (hconst : x.hasConstEntries = true) :
    ∃ b facts default, b.allocator = finalRegisters p t ∧
      ConstantFlows b o g v x facts default := by
  obtain ⟨inControl, outControl, ports, b, hb⟩ := compiled_of_ok h
  have htables := hb.tableFlows hat
  have htext : ∀ f ∈ o.flowsAt v.id, f.hasText b.allocator.target.limits = true := fun f hf => by
    rw [hb.target]
    exact hb.texts f (List.mem_of_mem_filter hf)
  generalize hfs : o.flowsAt v.id = fs at htables
  obtain @⟨rules, facts, last, hrules, hfacts, hlast⟩ := htables
  have hnone : rules = [] := by
    rwa [isParametric, hconst] at hrules
  rw [if_pos hconst] at hfacts
  rw [hnone, List.nil_append] at hfs
  rw [hfs, List.forall_mem_append] at htext
  exact ⟨b, facts, last, hb.registers, hb.tables x (hb.mem_of_tableAt hat), hfs, hfacts, hlast,
    htext.1⟩

namespace ConstantFlows

variable {b : State} {facts : List StageFlow} {default : StageFlow}
  (h : ConstantFlows b o g v x facts default) {i : Nat} {e : Entry} {f : StageFlow} {row : Row}
  {s : Situation}

include h

theorem entryFlow (he : x.entries[i]? = some e) (hf : facts[i]? = some f) :
    EntryFlow b x g v (e, i) f := by
  obtain ⟨hi, he⟩ := List.getElem?_eq_some_iff.mp he
  obtain ⟨hi', hf⟩ := List.getElem?_eq_some_iff.mp hf
  have hflow := h.entries.get (by simpa using hi) hi'
  simpa [he, hf] using hflow

theorem exists_of_mem (hf : f ∈ facts) :
    ∃ i e, x.entries[i]? = some e ∧ EntryFlow b x g v (e, i) f := by
  obtain ⟨⟨e, i⟩, he, hflow⟩ := exists_of_mem_right h.entries hf
  exact ⟨i, e, List.mem_zipIdx_iff_getElem?.mp he, hflow⟩

theorem entryFlow_getElem (hi : i < facts.length) :
    ∃ e, x.entries[i]? = some e ∧ EntryFlow b x g v (e, i) facts[i] := by
  have hlength : i < x.entries.length := by
    rwa [← List.length_zipIdx, h.entries.length_eq]
  have he : x.entries[i]? = some x.entries[i] := List.getElem?_eq_getElem hlength
  exact ⟨_, he, h.entryFlow he (List.getElem?_eq_getElem hi)⟩

variable (hpriorities : ∀ e ∈ x.entries, e.priority = 0)

include hpriorities in
theorem nodup_priorities : ((facts ++ [default]).map StageFlow.priority).Nodup := by
  have hlow : lowPriority = 1 := rfl
  rw [List.map_append, List.map_singleton, h.isDefault.priority_eq]
  refine List.Nodup.append ?_ (List.nodup_singleton _) ?_
  · refine List.pairwise_map.mpr (List.pairwise_iff_getElem.mpr fun i j hi hj hlt heq => ?_)
    obtain ⟨e, he, hflow⟩ := h.entryFlow_getElem hi
    obtain ⟨e', he', hflow'⟩ := h.entryFlow_getElem hj
    obtain ⟨-, hpriority⟩ := priority_fact hpriorities he hflow
    obtain ⟨-, hpriority'⟩ := priority_fact hpriorities he' hflow'
    rw [hpriority, hpriority'] at heq
    omega
  · intro n hn hlast
    obtain ⟨f, hf, rfl⟩ := List.mem_map.mp hn
    obtain ⟨i, e, he, hflow⟩ := h.exists_of_mem hf
    obtain ⟨hi, hpriority⟩ := priority_fact hpriorities he hflow
    rw [List.mem_singleton, hpriority] at hlast
    omega

variable (hcovered : ∀ k ∈ x.keys, KeyCovered (Layout.of b.allocator) k)

include hcovered

/-- The fact of an entry holds of the packets that the entry matches. -/
theorem admits_iff (hf : f ∈ facts) (he : x.entries[i]? = some e)
    (hflow : EntryFlow b x g v (e, i) f) (row : Row) (s : Situation) :
    f.flow.guard.Admits b.allocator.target row v.id s ↔
      EntryMatches (Layout.of b.allocator) s x e :=
  admits_entryFlow hflow h.right hcovered (length_keys h.right he) (h.texts f hf) row s

include hpriorities in
/-- The fact of the first entry that matches has the highest priority of all facts that hold. -/
theorem takes_first (he : x.entries[i]? = some e) (hf : facts[i]? = some f)
    (hmatches : EntryMatches (Layout.of b.allocator) s x e)
    (hearlier : ∀ j < i, ∀ e', x.entries[j]? = some e' →
      ¬EntryMatches (Layout.of b.allocator) s x e') :
    Takes b.allocator.target (o.flowsAt v.id) row v.id s f := by
  have hlow : lowPriority = 1 := rfl
  have hmem := List.mem_of_getElem? hf
  have hflow := h.entryFlow he hf
  obtain ⟨hi, hpriority⟩ := priority_fact hpriorities he hflow
  rw [h.flows]
  refine ⟨List.mem_append_left _ hmem, (h.admits_iff hcovered hmem he hflow row s).mpr hmatches, ?_⟩
  intro f' hf' hadmits' hne
  rcases List.mem_append.mp hf' with hf' | hf'
  · obtain ⟨j, hj, rfl⟩ := List.getElem_of_mem hf'
    obtain ⟨e', he', hflow'⟩ := h.entryFlow_getElem hj
    have hle : i ≤ j := by
      by_contra hlt
      exact hearlier j (by omega) _ he' ((h.admits_iff hcovered hf' he' hflow' row s).mp hadmits')
    have hij : i ≠ j := by
      rintro rfl
      exact hne (Option.some.inj ((List.getElem?_eq_getElem hj).symm.trans hf))
    rw [hpriority, (priority_fact hpriorities he' hflow').2]
    omega
  · rw [List.mem_singleton.mp hf', h.isDefault.priority_eq, hpriority]
    omega

/-- Where no entry matches, only the default holds. -/
theorem takes_default (hnone : ∀ e ∈ x.entries, ¬EntryMatches (Layout.of b.allocator) s x e) :
    Takes b.allocator.target (o.flowsAt v.id) row v.id s default := by
  rw [h.flows]
  refine ⟨List.mem_append_right _ List.mem_cons_self, h.isDefault.admits _ row s, ?_⟩
  intro f hf hf' hne
  rcases List.mem_append.mp hf with hf | hf
  · obtain ⟨i, e, he, hflow⟩ := h.exists_of_mem hf
    exact absurd ((h.admits_iff hcovered hf he hflow row s).mp hf')
      (hnone e (List.mem_of_getElem? he))
  · exact absurd (List.mem_singleton.mp hf) hne

end ConstantFlows

end

/-- Every flow of a stage with constant entries is the fact of an entry or of the default, and a
packet takes the fact of the first entry that matches. -/
structure RunsInOrder (a : Allocator) (o : Output) (g : Graph) (v : Vertex) (x : Table)
    (facts : List StageFlow) (default : StageFlow) : Prop where
  /-- There are no other flows. -/
  flows : o.flowsAt v.id = facts ++ [default]
  /-- Each entry has one fact, in order. -/
  entries : List.Forall₂ (IsEntryFact a x g v) x.entries.zipIdx facts
  isDefault : IsDefaultFact a x g v default
  /-- No two facts have the same priority. -/
  distinct : ((facts ++ [default]).map StageFlow.priority).Nodup
  /-- The fact of the first entry that matches is taken. -/
  first : ∀ s row (i : Nat) e f, x.entries[i]? = some e → facts[i]? = some f →
    EntryMatches (Layout.of a) s x e →
    (∀ j < i, ∀ e', x.entries[j]? = some e' → ¬EntryMatches (Layout.of a) s x e') →
      Takes a.target (o.flowsAt v.id) row v.id s f
  /-- The default is taken if no entry matches. -/
  otherwise : ∀ s row, (∀ e ∈ x.entries, ¬EntryMatches (Layout.of a) s x e) →
    Takes a.target (o.flowsAt v.id) row v.id s default
  /-- What is compared is the value of the key, wherever storage has its size. -/
  numbers : ∀ k ∈ x.keys, ∀ args, (Layout.of a).Sized args k.expr → ∀ s,
    (keyNumber (Layout.of a) s k : Int) = evaluate .zero (Layout.of a) args s k.expr

/-- **Constant tables run the first entry that matches.**  Wherever a table with constant entries, a
fixed default and no priorities of its own is applied, each entry and the default have one fact, and
of those that hold of a packet the one with the highest priority belongs to the first entry that
matches, or to the default if none does. -/
theorem first_entry_runs {p : Program} {t : Target} {o : Output}
    (h : (compile p t).result = .ok o) {g : Graph} {v : Vertex} {x : Table}
    (hat : TableAt p o g v x) (hconst : x.hasConstEntries = true)
    (hpriorities : ∀ e ∈ x.entries, e.priority = 0) (hdefault : hasConstDefault x = true)
    (hcovered : ∀ k ∈ x.keys, KeyCovered (Layout.of (finalRegisters p t)) k) :
    ∃ facts default, RunsInOrder (finalRegisters p t) o g v x facts default := by
  obtain ⟨b, facts, last, hb, hflows⟩ := exists_constantFlows h hat hconst
  rw [← hb] at hcovered ⊢
  exact ⟨facts, last, hflows.flows, hflows.entries.imp fun _ _ => isEntryFact_of_entryFlow,
    hflows.isDefault.isDefaultFact hdefault, hflows.nodup_priorities hpriorities,
    fun s row i e f => hflows.takes_first hpriorities hcovered,
    fun s row => hflows.takes_default hcovered,
    fun k hk args hsized s => keyNumber_eq_evaluate hflows.right hk hsized s⟩

/-- A key under a mask, one that is left open, and a packet field with a prerequisite. -/
theorem first_entry_runs_sampleAcl :
    ∃ o g v, (compile sampleProgram {}).result = .ok o ∧ TableAt sampleProgram o g v sampleAcl ∧
      sampleAcl.hasConstEntries = true ∧ (∀ e ∈ sampleAcl.entries, e.priority = 0) ∧
      hasConstDefault sampleAcl = true ∧
      (∀ k ∈ sampleAcl.keys, KeyCovered (Layout.of (finalRegisters sampleProgram {})) k) ∧
      ∃ facts default,
        RunsInOrder (finalRegisters sampleProgram {}) o g v sampleAcl facts default := by
  obtain ⟨o, ho⟩ := compile_sampleProgram
  obtain ⟨v, hat⟩ := exists_tableAt_ingress ho (c := sampleIngress) (x := sampleAcl) rfl rfl
    (by decide +kernel)
  have hpriorities : ∀ e ∈ sampleAcl.entries, e.priority = 0 := by decide
  have hkind : KeyCovered (Layout.of (finalRegisters sampleProgram {}))
      ⟨"kind", .field sampleKind, .ternary⟩ := by
    unfold KeyCovered
    decide +kernel
  have haddress : KeyCovered (Layout.of (finalRegisters sampleProgram {}))
      ⟨"dst", .field sampleAddress, .exact⟩ := by
    unfold KeyCovered
    decide +kernel
  have hcovered : ∀ k ∈ sampleAcl.keys, KeyCovered (Layout.of (finalRegisters sampleProgram {})) k :=
    List.forall_mem_cons.mpr ⟨hkind, List.forall_mem_cons.mpr ⟨haddress, nofun⟩⟩
  exact ⟨o, o.ingress, v, ho, hat, rfl, hpriorities, rfl, hcovered,
    first_entry_runs ho hat rfl hpriorities rfl hcovered⟩

end Flowline.Compile
