import Flowline.Proofs.Pipeline.Scoping

/-!
# What a loaded program is made of

`Loaded` collects what is known of a program that was accepted: fields have names of their own,
which start with the name of their group, locals belong to their control, tables run actions of
their control, and trees use the storage of the program only.

Two locals of a control may have one name, and so may two tables, and both controls.
-/

namespace Flowline.Pipeline

open Lower (StmtsUse Uses fieldRequest localRequest)
open Source (Expr Stmt)
open Switch.Allocator (Request)

variable {S : Request → Prop}

/-! ## Storage -/

/-- A table runs actions of its control, and its trees use storage of a kind. -/
structure TableUses (S : Request → Prop) (inControl : List Action) (t : Table) : Prop where
  keys : ∀ k ∈ t.keys, Uses S k.expr
  actions : ∀ r ∈ t.actions, r.action ∈ inControl
  default : ∀ d ∈ t.default?, d.action ∈ inControl ∧ ∀ e ∈ d.args, Uses S e
  entries : ∀ e ∈ t.entries,
    e.action ∈ inControl ∧ (∀ x ∈ e.keys, Uses S x) ∧ ∀ x ∈ e.args, Uses S x

/-- The trees of a control use storage of a kind. -/
structure ControlUses (S : Request → Prop) (c : Control) : Prop where
  actions : ∀ a ∈ c.actions, StmtsUse S a.body
  tables : ∀ t ∈ c.tables, TableUses S c.actions t
  body : StmtsUse S c.body

section

variable {s : Scope}

theorem ExprOf.uses {source : Text} {e : Expr} (h : ExprOf s source e) (hs : s.Serves S) :
    Uses S e := by
  obtain ⟨tree, -, hdenotes⟩ := h.parsed
  exact hdenotes.uses hs

theorem BodyOf.uses {source : Text} {body : List Stmt} (h : BodyOf s source body)
    (hs : s.Serves S) : StmtsUse S body := by
  obtain ⟨tree, hparse, hdenote⟩ := h.parsed
  exact hdenote.uses hs (wholeStmts_of_parse hparse)

theorem uses_of_exprsOf {sources : List Text} {es : List Expr}
    (h : List.Forall₂ (ExprOf s) sources es) (hs : s.Serves S) : ∀ e ∈ es, Uses S e :=
  forall_of_forall₂ (fun _ _ h => h.uses hs) h

theorem TableOf.uses {d : Description.Table} {t : Table} {inControl : List Action}
    (h : TableOf s d t) (hs : s.Serves S) (hruns : TableRuns inControl t) :
    TableUses S inControl t where
  keys := forall_of_forall₂ (fun _ _ h => h.uses hs) h.keys
  actions := hruns.actions
  default b hb := by
    have hdefault := h.default
    rw [Option.mem_def.mp hb] at hdefault
    generalize d.defaultAction = a at hdefault
    cases hdefault with
    | some hrel => exact ⟨hruns.default b hb, uses_of_exprsOf hrel.2 hs⟩
  entries e he := by
    have hargs : ∀ e ∈ t.entries, ∀ x ∈ e.args, Uses S x :=
      forall_of_forall₂ (fun _ _ h => uses_of_exprsOf h.2 hs) h.entries
    obtain ⟨haction, hkeys⟩ := hruns.entries e he
    refine ⟨haction, fun x hx => ?_, hargs e he⟩
    obtain ⟨ts, hkey⟩ := hkeys x hx
    exact uses_of_wholeKey hkey.wholeKey

end

/-! ## Programs -/

/-- A control of a program with the given fields: its trees use these and its own locals. -/
structure LoadedControl (fields : List Field) (c : Control) : Prop where
  locals : ∀ l ∈ c.locals, l.control = c.name
  uses : ∀ S : Request → Prop,
    (∀ f ∈ fields, f.builtin = .none → f.packet = none → S (fieldRequest f)) →
    (∀ l ∈ c.locals, S (localRequest l)) → ControlUses S c

theorem ControlOf.loaded {fields : List Field} {headers : List Header} {role : Text}
    {d : Description.Control} {c : Control} (h : ControlOf fields headers role d c)
    (hsound : c.Sound fields) : LoadedControl fields c where
  locals l hl := by
    rw [h.locals] at hl
    obtain ⟨f, -, rfl⟩ := List.mem_map.mp hl
    rfl
  uses S hfields hlocals := by
    have hs : (c.scope fields headers).Serves S := ⟨hfields, hlocals⟩
    have htables : ∀ t ∈ c.tables, TableRuns c.actions t → TableUses S c.actions t :=
      forall_of_forall₂ (fun _ _ h => h.uses hs) h.tables
    refine ⟨?_, fun t ht => htables t ht (hsound.runs t ht), h.body.uses ⟨hfields, hlocals⟩⟩
    exact forall_of_forall₂ (fun _ _ h => h.body.uses ⟨hfields, hlocals⟩) h.actions

/-- What is known of a program that was accepted. -/
structure Loaded (p : Program) : Prop where
  distinct : (p.fields.map (·.name)).Nodup
  dotted : ∀ f ∈ p.fields, '.' ∈ f.name.toList
  controls : ∀ c ∈ p.controls, LoadedControl p.fields c

/-- The group of a field is set off by a dot. -/
theorem dotted_of_mem_fieldNames {d : Description.Program} {name : Text}
    (h : name ∈ fieldNames d) : '.' ∈ name.toList := by
  have hgroup {group rest : Text} (h : '.' ∈ group.toList) : '.' ∈ (group ++ rest).toList := by
    rw [String.toList_append]
    exact List.mem_append_left _ h
  simp only [fieldNames, List.mem_append, List.mem_flatMap, List.mem_map] at h
  rcases h with (⟨h, -, f, -, rfl⟩ | ⟨f, -, rfl⟩) | ⟨f, -, rfl⟩
  · exact hgroup (hgroup (hgroup (by decide)))
  · exact hgroup (by decide)
  · exact hgroup (by decide)

/-- What is known of the program of a description. -/
theorem loaded_of_ofDescription {d : Description.Program} {p : Program}
    (h : ofDescription d = .ok p) : Loaded p := by
  obtain ⟨hp, hdistinct, hsound⟩ := holds_of_ofDescription loads_resolve h
  obtain ⟨inDesc, inControl, -, hin, hinOf⟩ := hp.ingress
  obtain ⟨outDesc, outControl, -, hout, houtOf⟩ := hp.egress
  refine ⟨hdistinct, fun f hf => ?_, ?_⟩
  · refine dotted_of_mem_fieldNames (d := d) ?_
    rw [← hp.fields]
    exact List.mem_map_of_mem hf
  · simp only [Program.controls, hin, hout, Option.toList_some, List.forall_mem_append,
      List.forall_mem_singleton] at hsound ⊢
    exact ⟨hinOf.loaded hsound.1, houtOf.loaded hsound.2⟩

end Flowline.Pipeline
