import Flowline.Proofs.Compile.Filling
import Flowline.Proofs.Compile.Ownership

/-!
# When declared names differ

The output declares types and relations, constructors and functions.  Their names are made from
those of tables, actions and registers, and two of them can come out the same.  Here it is said
exactly when (`Unambiguous`): between two actions of one table, between two tables, or between two
names that own registers.  Names that every program declares, masks of prefix lengths, and the names
that are declared for one table never meet.

A relation has a type of its own name, so relations and types share one space of names.
-/

namespace Flowline.Ddlog

/-- The types that are declared, by themselves or with a relation. -/
def Decl.typeNames : Decl → List Text
  | .typedef name _ => [name]
  | .relation r => [r.name]
  | _ => []

/-- The constructors of a type. -/
def Ty.constructors : Ty → List Text
  | .ctor v => [v.name]
  | .sum vs => vs.map Variant.name
  | _ => []

/-- The constructors that are declared. -/
def Decl.constructorNames : Decl → List Text
  | .typedef _ type => type.constructors
  | _ => []

/-- The functions that are declared. -/
def Decl.functionNames : Decl → List Text
  | .function f => [f.name]
  | _ => []

/-- No two types, constructors or functions have one name. -/
structure Distinct (ds : Program) : Prop where
  types : (ds.flatMap Decl.typeNames).Nodup
  constructors : (ds.flatMap Decl.constructorNames).Nodup
  functions : (ds.flatMap Decl.functionNames).Nodup

end Flowline.Ddlog

namespace Flowline.Compile

open Ddlog (Decl Distinct)
open Pipeline (Control Loaded Program Table idleControl ofDescription)
open Switch (Allocator Register Target)

/-! ## Names of tables -/

/-- What stands behind the name of a table in the types and relations that are declared for it. -/
def typeEndings (x : Table) : List Text :=
  (if isParametric x then (if needsActions x then ["Action"] else []) ++ [""] else []) ++
    (if hasConstDefault x then [] else ["DefaultActionType", "DefaultAction"])

/-- The actions that are chosen from in a table, each time with what stands behind the name of the
table in the type of the choice. -/
def choices (x : Table) : List (Text × List Pipeline.Action) :=
  (if isParametric x then (if needsActions x then [("Action", entryActions x)] else []) else []) ++
    (if hasConstDefault x then [] else [("DefaultActionType", defaultActions x)])

/-- What stands behind the name of a table in the constructors that are declared for it. -/
def constructorEndings (x : Table) : List Text :=
  (choices x).flatMap fun c => c.2.map fun a => c.1 ++ "_" ++ identifier a.name

/-- The name of a table goes on where that of another one ends, and a name that is declared for the
first is declared for the second. -/
def Overlaps (endings : Table → List Text) (x y : Table) : Prop :=
  ∃ more, relationName x = relationName y ++ more ∧ ∃ e ∈ endings x, more ++ e ∈ endings y

/-- No name is declared for both of two tables. -/
def Clear (endings : Table → List Text) (x y : Table) : Prop :=
  ¬Overlaps endings x y ∧ ¬Overlaps endings y x

section

variable {endings : Table → List Text} {x y : Table}

theorem append_injective (a : Text) : Function.Injective (a ++ · : Text → Text) :=
  fun _ _ h => (String.append_right_inj a).mp h

/-- Two texts are equal where one of them goes on where the other ends. -/
theorem append_eq_append_iff {a b e f : Text} : a ++ e = b ++ f ↔
    (∃ more, a = b ++ more ∧ f = more ++ e) ∨ ∃ more, b = a ++ more ∧ e = more ++ f := by
  constructor
  · intro h
    have hlist := congrArg String.toList h
    rw [String.toList_append, String.toList_append, List.append_eq_append_iff] at hlist
    rcases hlist with ⟨cs, hb, he⟩ | ⟨cs, ha, hf⟩
    · refine Or.inr ⟨String.ofList cs, ?_, ?_⟩ <;> simp [← String.toList_inj, *]
    · refine Or.inl ⟨String.ofList cs, ?_, ?_⟩ <;> simp [← String.toList_inj, *]
  · rintro (⟨more, rfl, rfl⟩ | ⟨more, rfl, rfl⟩) <;> rw [String.append_assoc]

theorem clear_iff : Clear endings x y ↔
    ∀ e ∈ endings x, ∀ f ∈ endings y, relationName x ++ e ≠ relationName y ++ f := by
  constructor
  · intro h e he f hf heq
    rcases append_eq_append_iff.mp heq with ⟨more, hname, rfl⟩ | ⟨more, hname, rfl⟩
    · exact h.1 ⟨more, hname, e, he, hf⟩
    · exact h.2 ⟨more, hname, f, hf, he⟩
  · refine fun h => ⟨?_, ?_⟩
    · rintro ⟨more, hname, e, he, hf⟩
      exact h e he _ hf (by rw [hname, String.append_assoc])
    · rintro ⟨more, hname, f, hf, he⟩
      exact h _ he f hf (by rw [hname, String.append_assoc])

instance : Decidable (Clear endings x y) := decidable_of_iff _ clear_iff.symm

/-- Names that are declared for tables differ, if those of each table do and no two tables meet. -/
theorem nodup_names_iff (ts : List Table) :
    (ts.flatMap fun x => (endings x).map (relationName x ++ ·)).Nodup ↔
      (∀ x ∈ ts, (endings x).Nodup) ∧ ts.Pairwise (Clear endings) := by
  rw [List.nodup_flatMap]
  refine and_congr ?_ (List.Pairwise.iff fun x y => ?_)
  · exact forall₂_congr fun x _ => List.nodup_map_iff (append_injective _)
  · rw [clear_iff]
    show List.Disjoint ((endings x).map (relationName x ++ ·)) ((endings y).map _) ↔ _
    constructor
    · intro h e he f hf heq
      have hx : relationName x ++ e ∈ (endings x).map (relationName x ++ ·) :=
        List.mem_map.mpr ⟨e, he, rfl⟩
      have hy : relationName x ++ e ∈ (endings y).map (relationName y ++ ·) :=
        List.mem_map.mpr ⟨f, hf, heq.symm⟩
      exact h hx hy
    · intro h name hx hy
      obtain ⟨e, he, rfl⟩ := List.mem_map.mp hx
      obtain ⟨f, hf, heq⟩ := List.mem_map.mp hy
      exact h e he f hf heq.symm

end

/-! ## Declarations of a table -/

section

variable (x : Table)

theorem defaultTypeName_eq : defaultTypeName x = relationName x ++ "DefaultActionType" := by
  rw [defaultTypeName, defaultRelationName, String.append_assoc]
  rfl

theorem typeNames_tableDecls :
    (tableDecls x).flatMap Decl.typeNames = (typeEndings x).map (relationName x ++ ·) := by
  unfold tableDecls typeEndings
  rw [List.flatMap_append, List.map_append]
  congr 1
  · split
    · split <;> simp [Decl.typeNames, actionType, entryRelation, actionTypeName]
    · rfl
  · split
    · rfl
    · simp [Decl.typeNames, actionType, defaultRelation, defaultRelationName, defaultTypeName_eq]

theorem constructorNames_actionType (ending : Text) (as : List Pipeline.Action) :
    (actionType (relationName x ++ ending) as).constructorNames =
      (as.map fun a => ending ++ "_" ++ identifier a.name).map (relationName x ++ ·) := by
  simp [actionType, Decl.constructorNames, Ddlog.Ty.constructors, variant, Ddlog.Variant.name,
    constructorName, String.append_assoc]

theorem constructorNames_tableDecls :
    (tableDecls x).flatMap Decl.constructorNames =
      (constructorEndings x).map (relationName x ++ ·) := by
  unfold tableDecls constructorEndings choices
  rw [List.flatMap_append, List.flatMap_append, List.map_append]
  congr 1
  · split
    · split
      · simp only [List.singleton_append, List.flatMap_cons, List.flatMap_nil, List.append_nil]
        rw [actionTypeName, constructorNames_actionType]
        exact List.append_nil _
      · rfl
    · rfl
  · split
    · rfl
    · simp only [List.flatMap_cons, List.flatMap_nil, List.append_nil]
      rw [defaultTypeName_eq, constructorNames_actionType]
      exact List.append_nil _

theorem functionNames_tableDecls : (tableDecls x).flatMap Decl.functionNames = [] := by
  unfold tableDecls
  rw [List.flatMap_append]
  split <;> split <;> try split
  all_goals rfl

theorem nodup_typeEndings : (typeEndings x).Nodup := by
  unfold typeEndings
  split <;> split <;> try split
  all_goals decide

/-- Constructors of different choices of one table differ in their first letter. -/
theorem pairwise_choices : (choices x).Pairwise fun c d =>
    (c.2.map fun a => c.1 ++ "_" ++ identifier a.name).Disjoint
      (d.2.map fun a => d.1 ++ "_" ++ identifier a.name) := by
  have hfirst : ∀ as bs : List Pipeline.Action,
      (as.map fun a => "Action" ++ "_" ++ identifier a.name).Disjoint
        (bs.map fun a => "DefaultActionType" ++ "_" ++ identifier a.name) := by
    intro as bs name has hbs
    obtain ⟨a, -, rfl⟩ := List.mem_map.mp has
    obtain ⟨b, -, heq⟩ := List.mem_map.mp hbs
    have hhead := congrArg (fun t : Text => t.toList.head?) heq
    simp [String.toList_append] at hhead
  unfold choices
  refine List.pairwise_append.mpr ⟨?_, ?_, ?_⟩
  · split
    · split
      · exact List.pairwise_singleton _ _
      · exact .nil
    · exact .nil
  · split
    · exact .nil
    · exact List.pairwise_singleton _ _
  · intro c hc d hd
    split at hc
    · split at hc
      · split at hd
        · cases hd
        · cases List.mem_singleton.mp hc
          cases List.mem_singleton.mp hd
          exact hfirst _ _
      · cases hc
    · cases hc

/-- The constructors of one table differ, if the actions of each choice do. -/
theorem nodup_constructorEndings_iff :
    (constructorEndings x).Nodup ↔
      ∀ c ∈ choices x, (c.2.map fun a => identifier a.name).Nodup := by
  rw [constructorEndings, List.nodup_flatMap]
  refine (and_iff_left (pairwise_choices x)).trans (forall₂_congr fun c _ => ?_)
  have hmap : (c.2.map fun a => c.1 ++ "_" ++ identifier a.name) =
      (c.2.map fun a => identifier a.name).map (c.1 ++ "_" ++ ·) := by
    rw [List.map_map]
    rfl
  rw [hmap]
  exact List.nodup_map_iff (append_injective _)

theorem underscore_mem (ending : Text) : '_' ∈ (relationName x ++ ending).toList := by
  simp [relationName, String.toList_append]

end

/-! ## Functions -/

theorem nodup_eraseDups {α : Type} [BEq α] [LawfulBEq α] (ws : List α) : ws.eraseDups.Nodup := by
  match ws with
  | [] => simp
  | w :: ws =>
    rw [List.eraseDups_cons, List.nodup_cons]
    exact ⟨by simp [List.mem_eraseDups], nodup_eraseDups _⟩
termination_by ws.length
decreasing_by exact Nat.lt_succ_of_le (List.length_filter_le _ _)

theorem nodup_prefixMaskHelpers (ws : List Int64) :
    ((prefixMaskHelpers ws).flatMap Decl.functionNames).Nodup := by
  have hnames : (prefixMaskHelpers ws).flatMap Decl.functionNames =
      (ws.eraseDups.mergeSort fun a b => a ≤ b).map prefixMaskName := by
    rw [prefixMaskHelpers, List.flatMap_map, List.map_eq_flatMap]
    rfl
  rw [hnames]
  refine List.Nodup.map (fun _ _ h => prefixMaskName_inj.mp h) ?_
  exact (List.mergeSort_perm _ _).nodup_iff.mpr (nodup_eraseDups ws)

/-- Names of registers and masks of prefix lengths differ in their first letter. -/
theorem disjoint_helpers (rs : List Register) (ws : List Int64) :
    ((registerHelpers rs).flatMap Decl.functionNames).Disjoint
      ((prefixMaskHelpers ws).flatMap Decl.functionNames) := by
  intro name hregister hmask
  obtain ⟨d, hd, hname⟩ := List.mem_flatMap.mp hregister
  obtain ⟨r, -, rfl⟩ := List.mem_map.mp hd
  obtain ⟨e, he, hname'⟩ := List.mem_flatMap.mp hmask
  obtain ⟨w, -, rfl⟩ := List.mem_map.mp he
  cases List.mem_singleton.mp hname
  have hhead := congrArg (fun t : Text => t.toList.head?) (List.mem_singleton.mp hname')
  simp [helperName, prefixMaskName, String.toList_append] at hhead

/-- Names of registers differ where the identifiers of their owners do. -/
theorem nodup_registerHelpers_iff {p : Program} (hp : Loaded p) (t : Target) :
    ((registerHelpers (finalRegisters p t).allocated).flatMap Decl.functionNames).Nodup ↔
      ((finalRegisters p t).owners.map fun o => identifier o.1).Nodup := by
  have howner : ∀ o ∈ (finalRegisters p t).owners, o.2.owner = o.1 ∧ o.1 ≠ "" := by
    intro o ho
    obtain ⟨q, hq, hanswers⟩ := (ledger_finalRegisters hp t).1.answers o ho
    refine ⟨hanswers.owner_eq.trans hanswers.name_eq.symm, ?_⟩
    rw [hanswers.name_eq]
    exact hq.name_ne_empty hp
  have hnames : (registerHelpers (finalRegisters p t).allocated).flatMap Decl.functionNames =
      ((finalRegisters p t).owners.map fun o => identifier o.1).map ("r_" ++ ·) := by
    have hkept : ∀ r ∈ (finalRegisters p t).allocated, (r.owner != "") = true := by
      intro r hr
      obtain ⟨o, ho, rfl⟩ := List.mem_map.mp hr
      rw [(howner o ho).1]
      exact bne_iff_ne.mpr (howner o ho).2
    rw [registerHelpers, List.filter_eq_self.mpr hkept, Allocator.allocated, List.flatMap_map,
      List.flatMap_map, List.map_map, List.map_eq_flatMap]
    refine List.flatMap_congr fun o ho => ?_
    show [helperName o.2.owner] = ["r_" ++ identifier o.1]
    rw [(howner o ho).1, helperName]
  rw [hnames]
  exact List.nodup_map_iff (append_injective _)

/-! ## Programs -/

/-- The tables of both controls, in the order of their declaration. -/
def tablesOf (p : Program) : List Table := p.controls.flatMap (·.tables)

/-- No two declared names come out the same. -/
structure Unambiguous (p : Program) (t : Target) : Prop where
  /-- Actions that are chosen from have identifiers of their own. -/
  actions : ∀ x ∈ tablesOf p, ∀ c ∈ choices x, (c.2.map fun a => identifier a.name).Nodup
  types : (tablesOf p).Pairwise (Clear typeEndings)
  constructors : (tablesOf p).Pairwise (Clear constructorEndings)
  /-- Names that own registers have identifiers of their own. -/
  registers : ((finalRegisters p t).owners.map fun o => identifier o.1).Nodup

theorem unambiguous_iff {p : Program} {t : Target} : Unambiguous p t ↔
    (∀ x ∈ tablesOf p, ∀ c ∈ choices x, (c.2.map fun a => identifier a.name).Nodup) ∧
      (tablesOf p).Pairwise (Clear typeEndings) ∧ (tablesOf p).Pairwise (Clear constructorEndings) ∧
      ((finalRegisters p t).owners.map fun o => identifier o.1).Nodup := by
  constructor
  · exact fun h => ⟨h.actions, h.types, h.constructors, h.registers⟩
  · rintro ⟨hactions, htypes, hconstructors, hregisters⟩
    exact ⟨hactions, htypes, hconstructors, hregisters⟩

instance (p : Program) (t : Target) : Decidable (Unambiguous p t) :=
  decidable_of_iff _ unambiguous_iff.symm

theorem nodup_typeNames_iff (ts : List Table) :
    ((builtinDecls ++ ts.flatMap tableDecls).flatMap Decl.typeNames).Nodup ↔
      ts.Pairwise (Clear typeEndings) := by
  have hnames : (ts.flatMap tableDecls).flatMap Decl.typeNames =
      ts.flatMap fun x => (typeEndings x).map (relationName x ++ ·) := by
    rw [List.flatMap_assoc]
    exact List.flatMap_congr fun x _ => typeNames_tableDecls x
  rw [List.flatMap_append, hnames, List.nodup_append', nodup_names_iff]
  have hbuiltin : (builtinDecls.flatMap Decl.typeNames).Nodup := by decide
  have hapart : (builtinDecls.flatMap Decl.typeNames).Disjoint
      (ts.flatMap fun x => (typeEndings x).map (relationName x ++ ·)) := by
    intro name hname hmem
    obtain ⟨x, -, hx⟩ := List.mem_flatMap.mp hmem
    obtain ⟨e, -, rfl⟩ := List.mem_map.mp hx
    have hnone : ∀ name ∈ builtinDecls.flatMap Decl.typeNames, '_' ∉ name.toList := by decide
    exact hnone _ hname (underscore_mem x e)
  exact ⟨fun h => h.2.1.2, fun h => ⟨hbuiltin, ⟨fun x _ => nodup_typeEndings x, h⟩, hapart⟩⟩

theorem nodup_constructorNames_iff (ts : List Table) :
    ((builtinDecls ++ ts.flatMap tableDecls).flatMap Decl.constructorNames).Nodup ↔
      (∀ x ∈ ts, ∀ c ∈ choices x, (c.2.map fun a => identifier a.name).Nodup) ∧
        ts.Pairwise (Clear constructorEndings) := by
  have hnames : (builtinDecls ++ ts.flatMap tableDecls).flatMap Decl.constructorNames =
      ts.flatMap fun x => (constructorEndings x).map (relationName x ++ ·) := by
    rw [List.flatMap_append, List.flatMap_assoc]
    exact List.flatMap_congr fun x _ => constructorNames_tableDecls x
  rw [hnames, nodup_names_iff]
  exact and_congr_left fun _ => forall₂_congr fun x _ => nodup_constructorEndings_iff x

/-- Declarations that declare no name of a kind add none. -/
theorem flatMap_eq_nil {names : Decl → List Text} {ds : List Decl} (h : ∀ d ∈ ds, names d = []) :
    ds.flatMap names = [] := List.flatMap_eq_nil_iff.mpr h

section

variable {p : Program} {t : Target} {o : Output} {inControl outControl : Control} {ports : Ports}
  {b : State} (h : Compiled p t o inControl outControl ports b)

include h

theorem Compiled.exists_function {d : Decl} (hd : d ∈ o.helpers) : ∃ f, d = .function f := by
  rw [h.helpers] at hd
  rcases List.mem_append.mp hd with hd | hd
  · obtain ⟨r, -, rfl⟩ := List.mem_map.mp hd
    exact ⟨_, rfl⟩
  · obtain ⟨w, -, rfl⟩ := List.mem_map.mp hd
    exact ⟨_, rfl⟩

theorem Compiled.tablesOf_eq : tablesOf p = inControl.tables ++ outControl.tables := by
  simp [tablesOf, Program.controls, h.ingress, h.egress]

/-- Names of a kind that neither functions nor rules declare. -/
theorem Compiled.flatMap_program {names : Decl → List Text}
    (hfunction : ∀ f, names (.function f) = []) (hrule : ∀ r, names (.rule r) = []) :
    o.program.flatMap names = (builtinDecls ++ (tablesOf p).flatMap tableDecls).flatMap names := by
  have hhelpers : o.helpers.flatMap names = [] := flatMap_eq_nil fun d hd => by
    obtain ⟨f, rfl⟩ := h.exists_function hd
    exact hfunction f
  have hflows : o.flowDecls.flatMap names = [] := flatMap_eq_nil fun d hd => by
    obtain ⟨f, -, rfl⟩ := List.mem_map.mp hd
    exact hrule _
  rw [Output.program, List.flatMap_append, List.flatMap_append, hhelpers, hflows, List.append_nil,
    List.nil_append, h.declarations, h.tablesOf_eq]

theorem Compiled.functionNames_program :
    o.program.flatMap Decl.functionNames =
      (registerHelpers (finalRegisters p t).allocated).flatMap Decl.functionNames ++
        (prefixMaskHelpers b.prefixWidths).flatMap Decl.functionNames := by
  have hdeclarations : o.declarations.flatMap Decl.functionNames = [] := by
    rw [h.declarations, List.flatMap_append, List.flatMap_assoc]
    exact List.flatMap_eq_nil_iff.mpr fun x _ => functionNames_tableDecls x
  have hflows : o.flowDecls.flatMap Decl.functionNames = [] := flatMap_eq_nil fun d hd => by
    obtain ⟨f, -, rfl⟩ := List.mem_map.mp hd
    rfl
  rw [Output.program, List.flatMap_append, List.flatMap_append, hdeclarations, hflows,
    List.append_nil, List.append_nil, h.helpers, List.flatMap_append, h.registers]

theorem Compiled.nodup_functionNames_iff (hp : Loaded p) :
    (o.program.flatMap Decl.functionNames).Nodup ↔
      ((finalRegisters p t).owners.map fun o => identifier o.1).Nodup := by
  rw [h.functionNames_program, List.nodup_append', nodup_registerHelpers_iff hp t]
  exact and_iff_left ⟨nodup_prefixMaskHelpers _, disjoint_helpers _ _⟩

theorem Compiled.distinct_iff (hp : Loaded p) : Distinct o.program ↔ Unambiguous p t := by
  have htypes := nodup_typeNames_iff (tablesOf p)
  rw [← h.flatMap_program (fun _ => rfl) fun _ => rfl] at htypes
  have hconstructors := nodup_constructorNames_iff (tablesOf p)
  rw [← h.flatMap_program (fun _ => rfl) fun _ => rfl] at hconstructors
  have hfunctions := h.nodup_functionNames_iff hp
  constructor
  · intro hdistinct
    obtain ⟨hactions, hclear⟩ := hconstructors.mp hdistinct.constructors
    exact ⟨hactions, htypes.mp hdistinct.types, hclear, hfunctions.mp hdistinct.functions⟩
  · intro hclear
    exact ⟨htypes.mpr hclear.types, hconstructors.mpr ⟨hclear.actions, hclear.constructors⟩,
      hfunctions.mpr hclear.registers⟩

end

/-- **Declared names differ exactly where nothing clashes.**  For every program that is accepted and
compiled, all types and relations of the output, all its constructors and all its functions have
names of their own if and only if the actions of each choice have identifiers of their own, no two
tables meet in the name of a type, a relation or a constructor, and the names that own registers have
identifiers of their own. -/
theorem names_distinct_iff {d : Description.Program} {p : Program} {t : Target} {o : Output}
    (hload : ofDescription d = .ok p) (hcompile : (compile p t).result = .ok o) :
    Distinct o.program ↔ Unambiguous p t := by
  obtain ⟨inControl, outControl, ports, b, h⟩ := compiled_of_ok hcompile
  exact h.distinct_iff (Pipeline.loaded_of_ofDescription hload)

/-- A control with two tables, each with a default action of the control plane's choice. -/
def tablesDescription (first second : Text) : Description.Program where
  ingress := some { idleControl with
    actions := [{ name := "a" }]
    tables := [first, second].map fun name =>
      { name, actions := [{ name := "a" }], defaultAction := some { name := "a" } } }
  egress := some idleControl

theorem names_distinct_iff_tablesDescription :
    ∃ p o, ofDescription (tablesDescription "t" "u") = .ok p ∧ (compile p {}).result = .ok o ∧
      Distinct o.program := by
  obtain ⟨p, o, hload, hcompile, htest⟩ := exists_of_passes (tablesDescription "t" "u")
    (fun p => decide (Unambiguous p {})) (by decide +kernel)
  exact ⟨p, o, hload, hcompile,
    (names_distinct_iff hload hcompile).mpr (of_decide_eq_true htest)⟩

/-- Tables of one name in one control have one relation. -/
theorem not_distinct_tablesDescription :
    ∃ p o, ofDescription (tablesDescription "t" "t") = .ok p ∧ (compile p {}).result = .ok o ∧
      ¬Distinct o.program := by
  obtain ⟨p, o, hload, hcompile, htest⟩ := exists_of_passes (tablesDescription "t" "t")
    (fun p => decide (¬Unambiguous p {})) (by decide +kernel)
  obtain ⟨inControl, outControl, ports, b, h⟩ := compiled_of_ok hcompile
  refine ⟨p, o, hload, hcompile, fun hdistinct => of_decide_eq_true htest ?_⟩
  exact (h.distinct_iff (Pipeline.loaded_of_ofDescription hload)).mp hdistinct

end Flowline.Compile
