import Flowline.Proofs.Compile.Success
import Flowline.Proofs.ControlFlow.Roles
import Flowline.Proofs.Pipeline.Loading
import Flowline.Proofs.Switch.Ledger

/-!
# What a compilation asks of the register file

A compilation changes the register file by lowerings only, so by calls for registers, and these
calls are for the reserved names and for storage that the program declares (`Stored`).  That is so
of every step, whatever it reports (`Calls`), and therefore of the register file at the end.

What is asked for depends on what the trees of the program name.  A lowering asks for registers of
the storage in its expressions (`Asks`, `Uses`), so there is a lemma `calls_…` for each function that
emits, under the condition that the trees it is handed use storage of a kind.  For a program that was
loaded the kind is known: resolution puts no other storage into a tree (`controlUses_of_loaded`).
-/

namespace Flowline.Compile

open ControlFlow (Graph Vertex graphOf)
open Lower
open Pipeline
open Source (Expr)
open Switch (Allocator Target)
open Switch.Allocator (Request)

variable {α β : Type} {S : Request → Prop}

/-- A step changes the register file by calls of a kind. -/
def Calls (S : Request → Prop) (x : Emit α) : Prop :=
  ∀ s, ∃ qs, (∀ q ∈ qs, S q) ∧ (after x s).2.allocator = s.allocator.serve qs

theorem calls_of_eq {x : Emit α} (h : ∀ s, (after x s).2.allocator = s.allocator) : Calls S x :=
  fun s => ⟨[], nofun, h s⟩

theorem calls_pure (v : α) : Calls S (pure v) := calls_of_eq fun _ => rfl

theorem calls_get : Calls S get := calls_of_eq fun _ => rfl

theorem calls_report (r : Report) : Calls S (report r) := calls_of_eq fun _ => rfl

theorem calls_note (line : Text) : Calls S (note line) := calls_of_eq fun _ => rfl

theorem calls_emitAll (fs : List StageFlow) : Calls S (emitAll fs) := calls_of_eq fun _ => rfl

theorem calls_emit (comment : Text) (guard : Flow.Match) (action : Flow.Action)
    (bindings : List Binding) : Calls S (emit comment guard action bindings) := calls_emitAll _

theorem calls_emitFact (comment : Text) (guard : Flow.Match) (action : Flow.Action) :
    Calls S (emitFact comment guard action) := calls_emit _ _ _ _

theorem calls_usePrefixMask (width : Int64) : Calls S (usePrefixMask width) :=
  calls_of_eq fun _ => rfl

variable {p : Program} {m : Lowering α} {e : Expr} {f : α → Emit β} {vs : List α} {k : Key}
  {c : Control}

namespace Calls

variable {x : Emit α}

/-- The second step may rely on what is known of the result of the first. -/
theorem bind_of {P : α → Prop} (hx : Calls S x) (hP : ∀ s, P (after x s).1)
    (hf : ∀ v, P v → Calls S (f v)) : Calls S (x >>= f) := by
  intro s
  obtain ⟨qs, hqs, hx⟩ := hx s
  obtain ⟨rs, hrs, hf⟩ := hf (after x s).1 (hP s) (after x s).2
  refine ⟨qs ++ rs, List.forall_mem_append.mpr ⟨hqs, hrs⟩, ?_⟩
  rw [after_bind, hf, hx, Allocator.serve, Allocator.serve, Allocator.serve, List.foldl_append]

theorem bind (hx : Calls S x) (hf : ∀ v, Calls S (f v)) : Calls S (x >>= f) :=
  hx.bind_of (P := fun _ => True) (fun _ => trivial) fun v _ => hf v

theorem bind_if {c : Prop} [Decidable c] {x : Emit PUnit} {f : PUnit → Emit β} (hx : Calls S x)
    (hf : Calls S (f ⟨⟩)) : Calls S (if c then x >>= f else f ⟨⟩) := by
  split
  · exact hx.bind fun _ => hf
  · exact hf

theorem forM {f : α → Emit PUnit} (hf : ∀ v ∈ vs, Calls S (f v)) : Calls S (vs.forM f) := by
  induction vs with
  | nil => exact calls_pure _
  | cons v vs ih =>
    rw [List.forall_mem_cons] at hf
    exact hf.1.bind fun _ => ih hf.2

theorem mapM (hf : ∀ v ∈ vs, Calls S (f v)) : Calls S (vs.mapM f) := by
  induction vs with
  | nil => exact calls_pure _
  | cons v vs ih =>
    rw [List.forall_mem_cons] at hf
    rw [List.mapM_cons]
    exact hf.1.bind fun _ => (ih hf.2).bind fun _ => calls_pure _

end Calls

/-! ## Lowerings -/

theorem calls_lower (hm : Asks S m) : Calls S (lower m) := by
  intro s
  obtain ⟨qs, hqs, hm⟩ := hm s.allocator
  exact ⟨qs, hqs, hm⟩

theorem calls_lower? (hm : Asks S m) : Calls S (lower? m) := by
  refine (calls_lower hm).bind fun r => ?_
  split
  · exact calls_pure _
  · exact (calls_report _).bind fun _ => calls_pure _

theorem calls_refusal (hm : Asks S m) : Calls S (refusal m) := by
  refine (calls_lower hm).bind fun r => ?_
  split <;> exact calls_pure _

theorem calls_checkAll {check : α → Emit Report} (h : ∀ v ∈ vs, Calls S (check v)) :
    Calls S (checkAll check vs) := by
  induction vs with
  | nil => exact calls_pure _
  | cons v vs ih =>
    rw [List.forall_mem_cons] at h
    exact h.1.bind fun _ => (ih h.2).bind fun _ => calls_pure _

/-! ## Actions -/

section

variable {g : Graph} {v : Vertex}

theorem asks_runAction (sub : Substitution) {a : Pipeline.Action} (h : StmtsUse S a.body)
    (next : Vertex) : Asks S (runAction sub g a next) :=
  (asks_body sub _ h).bind fun _ => asks_pure _

theorem asks_fittingConst (what rule : Text) (width : Int64) (h : Uses S e) :
    Asks S (fittingConst what rule width e) := by
  refine (asks_value [] h).bind fun v => ?_
  split
  · split
    · exact asks_refuse _ _
    · exact asks_pure _
  · exact asks_refuse _ _

theorem asks_constArgsOf (ps : List Param) {es : List Expr} (h : ∀ e ∈ es, Uses S e) :
    Asks S (constArgsOf ps es) := by
  induction ps generalizing es with
  | nil => exact asks_pure _
  | cons p ps ih =>
    cases es with
    | nil => exact asks_pure _
    | cons e es =>
      rw [List.forall_mem_cons] at h
      refine ((asks_fittingConst _ _ _ h.1).bind fun _ => asks_pure _).bind fun _ => ?_
      exact (ih h.2).bind fun _ => asks_pure _

theorem asks_constArgs (a : Pipeline.Action) {args : List Expr} (h : ∀ e ∈ args, Uses S e) :
    Asks S (constArgs a args) := by
  unfold constArgs
  split
  · exact asks_throw _
  · exact asks_constArgsOf a.params h

theorem asks_actionCases (typeName : Text) (next : Pipeline.Action → Vertex)
    {as : List Pipeline.Action} (h : ∀ a ∈ as, StmtsUse S a.body) :
    Asks S (actionCases typeName g next as) := by
  induction as with
  | nil => exact asks_pure _
  | cons a as ih =>
    rw [List.forall_mem_cons] at h
    exact (asks_runAction _ h.1 _).bind fun _ => (ih h.2).bind fun _ => asks_pure _

/-! ## Tables -/

theorem calls_checkKey (h : Uses S k.expr) : Calls S (checkKey k) := by
  unfold checkKey
  split
  · exact calls_pure _
  · split
    · exact calls_pure _
    · refine calls_refusal ((asks_value [] h).bind fun v => ?_)
      split
      · exact asks_pure _
      · exact asks_refuse _ _

theorem calls_emitKey (h : Uses S k.expr) : Calls S (emitKey k) := by
  refine (calls_lower? (asks_value [] h)).bind fun r => ?_
  cases r with
  | none => exact calls_pure _
  | some left =>
    exact Calls.bind_if (calls_usePrefixMask _) (Calls.bind_if (calls_report _) (calls_pure _))

theorem calls_emitKeys {ks : List Key} (h : ∀ k ∈ ks, Uses S k.expr) : Calls S (emitKeys ks) := by
  induction ks with
  | nil => exact calls_pure _
  | cons k ks ih =>
    rw [List.forall_mem_cons] at h
    refine (calls_emitKey h.1).bind fun r => ?_
    cases r with
    | none => exact calls_pure _
    | some km => exact (ih h.2).bind fun _ => calls_pure _

theorem asks_entryKey (hk : Uses S k.expr) (he : Uses S e) : Asks S (entryKey k e) := by
  refine (asks_value [] hk).bind fun left => ?_
  dsimp only
  split
  · exact asks_pure _
  · refine (asks_fittingConst _ _ _ he.1).bind fun _ => ?_
    exact (asks_fittingConst _ _ _ he.2).bind fun _ => asks_pure _
  · exact (asks_fittingConst _ _ _ he).bind fun _ => asks_pure _

theorem calls_entryKeys {ks : List (Key × Expr)} (h : ∀ k ∈ ks, Uses S k.1.expr ∧ Uses S k.2) :
    Calls S (entryKeys ks) := by
  induction ks with
  | nil => exact calls_pure _
  | cons k ks ih =>
    rw [List.forall_mem_cons] at h
    refine (calls_lower? (asks_entryKey h.1.1 h.1.2)).bind fun m => (ih h.2).bind fun r => ?_
    obtain ⟨ok, prereqs, guards⟩ := r
    cases m with
    | none => exact calls_pure _
    | some m => cases m <;> exact calls_pure _

/-! ### A table of a control whose actions use storage of a kind -/

variable {as : List Pipeline.Action} (has : ∀ a ∈ as, StmtsUse S a.body) {t : Table}
  (ht : TableUses S as t)

include has ht

theorem uses_of_mem_entryActions : ∀ a ∈ entryActions t, StmtsUse S a.body := by
  intro a ha
  obtain ⟨r, hr, rfl⟩ := List.mem_map.mp ha
  exact has _ (ht.actions r (List.mem_filter.mp hr).1)

theorem uses_of_mem_defaultActions : ∀ a ∈ defaultActions t, StmtsUse S a.body := by
  intro a ha
  obtain ⟨r, hr, rfl⟩ := List.mem_map.mp ha
  exact has _ (ht.actions r (List.mem_filter.mp hr).1)

theorem calls_checkTable : Calls S (checkTable t) := by
  refine (calls_checkAll fun k hk => calls_checkKey (ht.keys k hk)).bind fun _ => ?_
  refine (calls_checkAll fun r hr => ?_).bind fun _ => calls_pure _
  exact (calls_refusal (asks_body _ _ (has _ (ht.actions r hr)))).bind fun _ => calls_pure _

theorem calls_checked : Calls S (checked t) :=
  (calls_checkTable has ht).bind fun _ => (calls_report _).bind fun _ => calls_pure _

theorem asks_entryAction : Asks S (entryAction t g v) := by
  have hactions := uses_of_mem_entryActions has ht
  unfold entryAction
  dsimp only
  split
  · next a _ _ heq =>
    rw [heq] at hactions
    exact (asks_runAction _ (hactions a List.mem_cons_self) _).bind fun _ => asks_pure _
  · next as _ =>
    exact (asks_actionCases _ _ hactions).bind fun _ => asks_pure _

theorem calls_emitEntryRule : Calls S (emitEntryRule t g v) := by
  refine (calls_emitKeys ht.keys).bind fun r => ?_
  cases r with
  | none => exact calls_pure _
  | some kms =>
    refine (calls_lower? (asks_entryAction has ht)).bind fun r => ?_
    cases r with
    | none => exact calls_pure _
    | some r => exact calls_emit _ _ _ _

theorem calls_emitEntry (i : Nat) {e : Entry} (he : e ∈ t.entries) :
    Calls S (emitEntry t g v i e) := by
  obtain ⟨haction, hkeys, hargs⟩ := ht.entries e he
  have hzip : ∀ k ∈ t.keys.zip e.keys, Uses S k.1.expr ∧ Uses S k.2 := fun k hk =>
    ⟨ht.keys _ (List.of_mem_zip hk).1, hkeys _ (List.of_mem_zip hk).2⟩
  refine (calls_entryKeys hzip).bind fun r => ?_
  obtain ⟨ok, prereqs, guards⟩ := r
  have haction : Asks S (constAction e g (g.afterHit v e.action.name)) :=
    (asks_constArgs _ hargs).bind fun _ => asks_runAction _ (has _ haction) _
  refine (calls_lower? haction).bind fun r => ?_
  cases r with
  | none => exact calls_pure _
  | some act =>
    dsimp only
    split
    · exact calls_emitFact _ _ _
    · exact calls_pure _

theorem calls_emitEntries (i : Nat) {es : List Entry} (hes : es ⊆ t.entries) :
    Calls S (emitEntries t g v i es) := by
  induction es generalizing i with
  | nil => exact calls_pure _
  | cons e es ih =>
    rw [List.cons_subset] at hes
    exact (calls_emitEntry has ht i hes.1).bind fun _ => ih (i + 1) hes.2

theorem calls_emitDefault : Calls S (emitDefault t g v) := by
  unfold emitDefault
  dsimp only
  split
  · have hfixed : Asks S (fixedDefault t g v) := by
      unfold fixedDefault
      split
      · exact asks_pure _
      · next d hd =>
        obtain ⟨haction, hargs⟩ := ht.default d hd
        exact (asks_constArgs _ hargs).bind fun _ => asks_runAction _ (has _ haction) _
    refine (calls_lower? hfixed).bind fun r => ?_
    cases r with
    | none => exact calls_pure _
    | some act => exact calls_emitFact _ _ _
  · have hcases := asks_actionCases (g := g) (defaultTypeName t) (fun a => g.afterMiss v a.name)
      (uses_of_mem_defaultActions has ht)
    refine (calls_lower? hcases).bind fun r => ?_
    cases r with
    | none => exact calls_pure _
    | some cases => exact calls_emit _ _ _ _

theorem calls_emitTable : Calls S (emitTable t g v) :=
  Calls.bind_if (calls_emitEntryRule has ht)
    (Calls.bind_if (calls_emitEntries has ht 0 (List.Subset.refl _)) (calls_emitDefault has ht))

omit ht

/-! ## Stages -/

omit has in
theorem calls_emitCond (h : Uses S e) : Calls S (emitCond e g v) := by
  refine (calls_lower? (asks_condition h)).bind fun r => ?_
  cases r with
  | none => exact calls_pure _
  | some m => exact (calls_emitFact _ _ _).bind fun _ => calls_emitFact _ _ _

variable {tables : List Checked} (htables : ∀ c ∈ tables, TableUses S as c.table)

include htables

theorem calls_emitStage (hv : v.role.Uses S) : Calls S (emitStage tables g v) := by
  unfold emitStage
  split
  · exact Calls.forM fun e _ => calls_emitFact _ _ _
  · next e heq =>
    rw [heq] at hv
    exact calls_emitCond hv
  · next name _ =>
    split
    · next c hc =>
      obtain ⟨n, -, hfind⟩ := Option.bind_eq_some_iff.mp hc
      split
      · exact calls_emitTable has (htables c (List.mem_of_find?_eq_some hfind))
      · exact calls_pure _
    · exact calls_report _

theorem calls_emitGraph (hg : ∀ v ∈ g.reachable, v.role.Uses S)
    (exitFlows : Vertex → List StageFlow) : Calls S (emitGraph tables g exitFlows) := by
  refine calls_get.bind fun _ => (Calls.forM fun v hv => ?_).bind fun _ =>
    calls_get.bind fun _ => calls_note _
  split
  · exact calls_emitAll _
  · exact calls_emitStage has htables (hg v hv)

end

/-! ## Programs -/

theorem calls_reserve (owner : Text) (h : S ⟨owner, 16, 16, false⟩) : Calls S (reserve owner) :=
  (calls_lower? (asks_allocate (q := ⟨owner, 16, 16, false⟩) h)).bind fun _ => calls_pure _

theorem calls_discard (hm : Asks S m) : Calls S (discard (lower? m)) :=
  (calls_lower? hm).bind fun _ => calls_pure _

theorem calls_buildGraph (c : Control) (first : Int64) : Calls S (buildGraph c first) := by
  unfold buildGraph
  split
  · exact (calls_report _).bind fun _ => calls_pure _
  · refine (calls_note _).bind fun _ => ?_
    split
    · exact calls_pure _
    · exact (calls_report _).bind fun _ => calls_pure _

/-- No graph is built but that of the control. -/
theorem after_buildGraph (c : Control) (first : Int64) (s : State) :
    ∀ g ∈ (after (buildGraph c first) s).1.1, g = graphOf c first := by
  unfold buildGraph
  rcases hbuild : ControlFlow.build c first with ⟨r | g, next⟩
  · nofun
  · have hg : g = graphOf c first := ControlFlow.build_eq_ok (by rw [hbuild])
    dsimp only
    rw [after_bind]
    split
    · rintro _ ⟨⟩
      exact hg
    · nofun

theorem calls_bind_buildGraph {first : Int64} {f : Option Graph × Int64 → Emit β}
    (hf : ∀ r, (∀ g ∈ r.1, g = graphOf c first) → Calls S (f r)) :
    Calls S (buildGraph c first >>= f) :=
  (calls_buildGraph c first).bind_of (after_buildGraph c first) hf

theorem after_mapM_checked (ts : List Table) (s : State) :
    ∀ c ∈ (after (ts.mapM checked) s).1, c.table ∈ ts := by
  induction ts generalizing s with
  | nil => nofun
  | cons t ts ih =>
    rw [List.mapM_cons]
    simp only [after_bind, after_pure]
    refine List.forall_mem_cons.mpr ⟨List.mem_cons_self, fun c hc => ?_⟩
    exact List.mem_cons_of_mem _ (ih _ c hc)

theorem calls_bind_checked (hc : ControlUses S c) {f : List Checked → Emit β}
    (hf : ∀ cs, (∀ x ∈ cs, x.table ∈ c.tables) → Calls S (f cs)) :
    Calls S (c.tables.mapM checked >>= f) :=
  Calls.bind_of (Calls.mapM fun t ht => calls_checked hc.actions (hc.tables t ht))
    (after_mapM_checked c.tables) hf

theorem calls_draftFrom {inControl outControl : Control} (hin : ControlUses S inControl)
    (hout : ControlUses S outControl) (ports : Ports) :
    Calls S (draftFrom inControl outControl ports) := by
  refine calls_bind_buildGraph fun r hingress => ?_
  obtain ⟨ingress, multicast⟩ := r
  refine calls_bind_buildGraph fun r hegress => ?_
  obtain ⟨egress, next⟩ := r
  cases ingress with
  | none => exact calls_pure _
  | some ingress =>
    cases egress with
    | none => exact calls_pure _
    | some egress =>
      cases hingress _ rfl
      cases hegress _ rfl
      refine calls_get.bind fun s => (calls_report _).bind fun _ => ?_
      refine calls_bind_checked hin fun inTables hinTables => ?_
      refine calls_bind_checked hout fun outTables houtTables => ?_
      refine Calls.bind ?_ fun _ => calls_pure _
      refine (calls_emitAll _).bind fun _ => ?_
      refine (calls_emitGraph hin.actions (fun c hc => hin.tables _ (hinTables c hc))
        (fun v hv => ControlFlow.uses_of_mem_reachable hin.body hv) _).bind fun _ => ?_
      refine (calls_emitAll _).bind fun _ => ?_
      exact calls_emitGraph hout.actions (fun c hc => hout.tables _ (houtTables c hc))
        (fun v hv => ControlFlow.uses_of_mem_reachable hout.body hv) _

/-- The calls for reserved names and for the storage of a program. -/
inductive Stored (p : Program) : Request → Prop
  | output : Stored p ⟨outputPort, 16, 16, false⟩
  | group : Stored p ⟨multicastGroup, 16, 16, false⟩
  | field {f : Field} (hf : f ∈ p.fields) (howns : ownsRegister f = true) :
      Stored p (fieldRequest f)
  | ofLocal {l : Local} (hl : l ∈ p.locals) : Stored p (localRequest l)

theorem ownsRegister_eq_true {f : Field} :
    ownsRegister f = true ↔ f.packet = none ∧ f.builtin = .none := by
  simp [ownsRegister]

theorem calls_allocateStorage (p : Program) : Calls (Stored p) (allocateStorage p) := by
  rw [allocateStorage]
  refine (calls_reserve _ .output).bind fun _ => (calls_reserve _ .group).bind fun _ => ?_
  refine (Calls.forM fun f hf => calls_discard (asks_fieldRegister fun _ _ => ?_)).bind fun _ => ?_
  · obtain ⟨hmem, howns⟩ := List.mem_filter.mp hf
    exact .field (List.mem_append_left _ (List.mem_append_right _ hmem)) howns
  · refine (Calls.forM fun l hl => calls_discard (asks_localRegister (.ofLocal hl))).bind fun _ => ?_
    exact calls_get.bind fun _ => calls_pure _

/-- The trees of a loaded program use its own storage. -/
theorem controlUses_of_loaded (hp : Loaded p) (hc : c ∈ p.controls) : ControlUses (Stored p) c := by
  refine (hp.controls c hc).uses _ (fun f hf hbuiltin hpacket => ?_) fun l hl => ?_
  · exact .field hf (ownsRegister_eq_true.mpr ⟨hpacket, hbuiltin⟩)
  · exact .ofLocal (List.mem_flatMap.mpr ⟨c, hc, hl⟩)

/-- A register file on the way of a compilation: it has served calls for reserved names and for the
storage of the program, and nothing else. -/
def Reached (p : Program) (t : Target) (a : Allocator) : Prop :=
  ∃ qs, (∀ q ∈ qs, Stored p q) ∧ a = (Allocator.fresh t).serve qs

theorem Reached.ledger {t : Target} {a : Allocator} (h : Reached p t a) :
    Allocator.Ledger (Stored p) a := by
  obtain ⟨qs, hqs, rfl⟩ := h
  exact (Allocator.ledger_fresh t).serve hqs

theorem Reached.target_eq {t : Target} {a : Allocator} (h : Reached p t a) : a.target = t := by
  obtain ⟨qs, -, rfl⟩ := h
  exact Allocator.target_serve _ qs

/-- Compilations end with such a register file. -/
theorem reached_finalRegisters (hp : Loaded p) (t : Target) : Reached p t (finalRegisters p t) := by
  unfold finalRegisters
  split
  · next inControl outControl hin hout =>
    have hcalls : Calls (Stored p) (draft p inControl outControl) := by
      refine (calls_allocateStorage p).bind fun ports => calls_draftFrom ?_ ?_ ports
      · exact controlUses_of_loaded hp (by simp [Program.controls, hin])
      · exact controlUses_of_loaded hp (by simp [Program.controls, hout])
    obtain ⟨qs, hqs, hserve⟩ := hcalls { allocator := .fresh t }
    refine ⟨qs, hqs, ?_⟩
    rw [after_compileControls, ← hserve]
    split <;> next heq => rw [heq]
  · exact ⟨[], List.forall_mem_nil _, rfl⟩

theorem ledger_finalRegisters (hp : Loaded p) (t : Target) :
    Allocator.Ledger (Stored p) (finalRegisters p t) ∧ (finalRegisters p t).target = t :=
  ⟨(reached_finalRegisters hp t).ledger, (reached_finalRegisters hp t).target_eq⟩

end Flowline.Compile
