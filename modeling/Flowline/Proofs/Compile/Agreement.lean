import Flowline.Proofs.Compile.Scope

/-!
# Declarations and rules agree

What is declared for a table is decided in one place, and the rules over its relations are made in
another.  Here both are compared: the atom of a rule has an argument for each column, of the shape of
the column, and the choice of an action has a case for each constructor of the type of actions
(`RuleAgrees`).  This holds wherever a table is applied (`agrees_of_compile`).

A declaration is looked up by its name, and a name says nothing if another declaration has it too.  So
the relation of a rule is not only declared, it is the only one of its name among those of the table
(`relation_of_mem`, `typedef_of_mem`).  A table without a relation has facts in its place.
-/

namespace Flowline.Compile

open Ddlog (Case Column Decl Relation Rule Term Ty Variant)
open ControlFlow (Graph Vertex)
open Lower
open Pipeline (Control Key Program Table)
open Switch (Target)

/-! ## Shapes -/

/-- An argument of an atom fits a column.  A column of pairs has a pair of variables, and any other
column has one variable; they bear the name of the column. -/
inductive ArgFits : Ddlog.Expr → Column → Prop
  | single {name : Text} {type : Ty} (h : ∀ types, type ≠ .tuple types) :
      ArgFits (.var name) (.mk name type)
  | pair {name : Text} {first second : Ty} {ending : Text} (h : ending = "_mask" ∨ ending = "_plen") :
      ArgFits (.tuple [.var (name ++ "_value"), .var (name ++ ending)])
        (.mk name (.tuple [first, second]))

/-- A case of a choice fits a constructor: it has its name, and a variable for each field. -/
inductive CaseFits : Case → Variant → Prop
  | mk {name : Text} {vars : List Text} {fields : List Column} {result : Ddlog.Expr}
      (h : vars.length = fields.length) :
      CaseFits (.mk (.ctor name (vars.map .var)) result) (.mk name fields)

/-- The choice of an action in a body agrees with the type of actions that is declared.  Without a
column for the action there is neither. -/
inductive ChoiceAgrees (decls : List Decl) (typeName : Text) (columns : List Column)
    (body : List Term) : Prop
  | chosen {variants : List Variant} {cases : List Case}
      (hcolumn : .mk "action" (.named typeName) ∈ columns)
      (htype : .typedef typeName (.sum variants) ∈ decls)
      (hunique : ∀ type, .typedef typeName type ∈ decls → type = .sum variants)
      (hbody : .assign "actions" (.choose (.var "action") cases) ∈ body)
      (hcases : List.Forall₂ CaseFits cases variants)
  | only (hcolumn : ∀ type, .mk "action" type ∉ columns)
      (htype : ∀ type, .typedef typeName type ∉ decls)
      (hbody : ∀ name cases, .assign name (.choose (.var "action") cases) ∉ body)

/-- A rule over a relation agrees with the declarations of the relation and of its actions. -/
inductive RuleAgrees (decls : List Decl) (relation typeName : Text) (r : Rule) : Prop
  | mk {args : List Ddlog.Expr} {body : List Term} {columns : List Column}
      (hbody : r.body = .atom ⟨relation, args⟩ :: body)
      (hrelation : .relation ⟨.input, relation, columns⟩ ∈ decls)
      (hunique : ∀ q, .relation q ∈ decls → q.name = relation → q.columns = columns)
      (hargs : List.Forall₂ ArgFits args columns)
      (hchoice : ChoiceAgrees decls typeName columns body)

/-- Where a table is applied, its rules agree with its declarations, and flows without a relation are
facts. -/
inductive TableAgrees (o : Output) (v : Vertex) (x : Table) : Prop
  | mk {rules facts : List StageFlow} {default : StageFlow}
      (hdecls : ∀ d ∈ tableDecls x, d ∈ o.declarations)
      (hflows : o.flowsAt v.id = rules ++ (facts ++ [default]))
      (hrules : if isParametric x then
          ∃ f, rules = [f] ∧ RuleAgrees (tableDecls x) (relationName x) (actionTypeName x) f.rule
        else rules = [] ∧ ∀ q, .relation q ∈ tableDecls x → q.name ≠ relationName x)
      (hfacts : ∀ f ∈ facts, f.rule.body = [])
      (hdefault : if hasConstDefault x then
          default.rule.body = [] ∧ ∀ q, .relation q ∈ tableDecls x → q.name ≠ defaultRelationName x
        else RuleAgrees (tableDecls x) (defaultRelationName x) (defaultTypeName x) default.rule)

/-! ## Names -/

theorem relationName_ne (x : Table) : relationName x ≠ defaultRelationName x := by
  intro h
  have hlength := congrArg String.length h
  rw [defaultRelationName, String.length_append] at hlength
  exact absurd hlength (by simp)

theorem actionTypeName_ne (x : Table) : actionTypeName x ≠ defaultTypeName x := by
  intro h
  have hlength := congrArg String.length h
  rw [actionTypeName, defaultTypeName, defaultRelationName, String.length_append,
    String.length_append, String.length_append] at hlength
  have haction : "Action".length = 6 := rfl
  have hdefault : "DefaultAction".length = 13 := rfl
  omega

theorem keyVar_ne_action (k : Key) : keyVar k ≠ "action" := by
  intro h
  have hlist := congrArg String.toList h
  rw [keyVar, String.toList_append] at hlist
  exact absurd hlist (by simp)

/-! ## What is declared -/

section

variable {x : Table}

theorem relation_of_mem {q : Relation} (h : .relation q ∈ tableDecls x) :
    (isParametric x = true ∧ q = entryRelation x) ∨
      (hasConstDefault x = false ∧ q = defaultRelation x) := by
  unfold tableDecls at h
  rcases List.mem_append.mp h with h | h
  · split at h
    · next hparam =>
      rcases List.mem_append.mp h with h | h
      · split at h
        · cases List.mem_singleton.mp h
        · cases h
      · cases List.mem_singleton.mp h
        exact Or.inl ⟨hparam, rfl⟩
    · cases h
  · split at h
    · cases h
    · next hconst =>
      rcases List.mem_cons.mp h with h | h
      · cases h
      · cases List.mem_singleton.mp h
        exact Or.inr ⟨Bool.not_eq_true _ ▸ hconst, rfl⟩

theorem typedef_of_mem {name : Text} {type : Ty} (h : .typedef name type ∈ tableDecls x) :
    (needsActions x = true ∧ name = actionTypeName x ∧
        type = .sum ((entryActions x).map (variant (actionTypeName x)))) ∨
      (name = defaultTypeName x ∧
        type = .sum ((defaultActions x).map (variant (defaultTypeName x)))) := by
  unfold tableDecls at h
  rcases List.mem_append.mp h with h | h
  · split at h
    · rcases List.mem_append.mp h with h | h
      · split at h
        · next hneeds =>
          have heq := Decl.typedef.inj (List.mem_singleton.mp h)
          exact Or.inl ⟨hneeds, heq⟩
        · cases h
      · cases List.mem_singleton.mp h
    · cases h
  · split at h
    · cases h
    · rcases List.mem_cons.mp h with h | h
      · exact Or.inr (Decl.typedef.inj h)
      · cases List.mem_singleton.mp h

end

/-! ## Arguments and cases -/

theorem valueTy_ne_tuple (t : ValueType) (types : List Ty) : valueTy t ≠ .tuple types := by
  unfold valueTy
  split <;> exact nofun

theorem argFits_of_keyForm {k : Key} {left : Flow.Expr} {km : KeyMatch} (h : KeyForm k left km) :
    ArgFits km.pattern.expr (.mk (keyVar k) (keyTy k)) := by
  cases h with
  | truth hkind hbool | exact hkind hbool =>
    refine .single fun types => ?_
    rw [keyTy, hkind]
    exact valueTy_ne_tuple _ _
  | ternary hkind =>
    have hty : keyTy k = .tuple [valueTy k.expr.type, valueTy k.expr.type] := by rw [keyTy, hkind]
    rw [hty]
    exact .pair (Or.inl rfl)
  | lpm hkind =>
    have hty : keyTy k = .tuple [valueTy k.expr.type, .bits 32] := by rw [keyTy, hkind]
    rw [hty]
    exact .pair (Or.inr rfl)
  | optional hkind =>
    refine .single fun types => ?_
    rw [keyTy, hkind]
    exact nofun

theorem caseFits_of_caseOf {typeName : Text} {g : Graph} {next : Pipeline.Action → Vertex}
    {as : List Pipeline.Action} {cases : List ActionCase}
    (h : List.Forall₂ (CaseOf typeName g next) as cases) :
    List.Forall₂ CaseFits (cases.map ActionCase.expr) (as.map (variant typeName)) := by
  induction h with
  | nil => exact .nil
  | @cons a c as cases hc _ ih =>
    refine .cons ?_ ih
    rw [ActionCase.expr, variant, hc.constructor_eq, hc.vars_eq]
    exact .mk (by simp)

theorem argFits_keys {b : State} {ks : List Key} {kms : List KeyMatch}
    (h : List.Forall₂ (KeyOf b) ks kms) :
    List.Forall₂ ArgFits ((kms.map KeyMatch.pattern).map Pattern.expr)
      (ks.map fun k => .mk (keyVar k) (keyTy k)) := by
  induction h with
  | nil => exact .nil
  | cons hk _ ih =>
    obtain ⟨left, -, hform, -⟩ := hk
    exact .cons (argFits_of_keyForm hform) ih

/-- The arguments of the atom of a rule fit the columns of the relation. -/
theorem argFits_entryRow {b : State} {x : Table} {kms : List KeyMatch}
    (h : List.Forall₂ (KeyOf b) x.keys kms) :
    List.Forall₂ ArgFits ((kms.map KeyMatch.pattern ++
        (if allExact x then [] else [Pattern.var "priority"]) ++
        (if needsActions x then [Pattern.var "action"] else [])).map Pattern.expr)
      (entryColumns x) := by
  rw [entryColumns, List.map_append, List.map_append]
  refine List.rel_append (List.rel_append (argFits_keys h) ?_) ?_
  · split
    · exact .nil
    · exact .cons (.single nofun) .nil
  · split
    · exact .cons (.single nofun) .nil
    · exact .nil

/-! ## Rules of tables -/

/-- What keys bring to a body chooses no action. -/
theorem not_choice_of_keyForm {k : Key} {left : Flow.Expr} {km : KeyMatch} (h : KeyForm k left km)
    {y : Binding} (hy : y ∈ km.bindings) (name : Text) (cases : List Case) :
    y.term ≠ .assign name (.choose (.var "action") cases) := by
  intro hterm
  cases h with
  | truth =>
    cases List.mem_singleton.mp hy
    cases hterm
  | optional =>
    cases List.mem_singleton.mp hy
    simp only [Binding.term, Term.assign.injEq, Ddlog.Expr.choose.injEq, Ddlog.Expr.var.injEq]
      at hterm
    exact keyVar_ne_action k hterm.2.1
  | _ => cases hy

section

variable {b : State} {x : Table} {g : Graph} {v : Vertex} {f : StageFlow}

theorem agrees_ruleFlow (hparam : isParametric x = true) (hf : RuleFlow b x g v f) :
    RuleAgrees (tableDecls x) (relationName x) (actionTypeName x) f.rule := by
  obtain ⟨kms, act, chosen, hkms, hact, rfl⟩ := hf
  have hrelation : .relation (entryRelation x) ∈ tableDecls x := by
    simp [tableDecls, hparam]
  have hunique : ∀ q, .relation q ∈ tableDecls x → q.name = relationName x →
      q.columns = entryColumns x := by
    intro q hq hname
    rcases relation_of_mem hq with ⟨-, rfl⟩ | ⟨-, rfl⟩
    · rfl
    · exact absurd hname.symm (relationName_ne x)
  refine .mk rfl hrelation hunique (argFits_entryRow hkms) ?_
  cases hact with
  | only hneeds has hact =>
    refine .only ?_ ?_ ?_
    · intro type htype
      simp only [entryColumns, hneeds, List.mem_append, List.mem_map, Column.mk.injEq] at htype
      rcases htype with (⟨k, -, hname, -⟩ | htype) | htype
      · exact keyVar_ne_action k hname
      · split at htype
        · cases htype
        · simp at htype
      · cases htype
    · intro type htype
      rcases typedef_of_mem htype with ⟨hneeds', -⟩ | ⟨hname, -⟩
      · rw [hneeds] at hneeds'
        cases hneeds'
      · exact actionTypeName_ne x hname
    · intro name cases hmem
      rcases List.mem_append.mp hmem with hmem | hmem
      · obtain ⟨y, hy, hterm⟩ := List.mem_map.mp hmem
        have hy : y ∈ kms.flatMap KeyMatch.bindings := by
          simpa using hy
        obtain ⟨km, hkm, hy⟩ := List.mem_flatMap.mp hy
        obtain ⟨k, -, left, -, hform, -⟩ := exists_of_mem_right hkms hkm
        exact not_choice_of_keyForm hform hy name cases hterm
      · cases List.mem_singleton.mp hmem
  | @choice cases hneeds hcases =>
    refine .chosen ?_ ?_ ?_ ?_ (caseFits_of_caseOf hcases)
    · simp [entryColumns, hneeds]
    · simp [tableDecls, hparam, hneeds, actionType]
    · intro type htype
      rcases typedef_of_mem htype with ⟨-, -, rfl⟩ | ⟨hname, -⟩
      · rfl
      · exact absurd hname (actionTypeName_ne x)
    · refine List.mem_append_left _ (List.mem_map.mpr ⟨.choice cases, ?_, rfl⟩)
      exact List.mem_append_right _ List.mem_cons_self

theorem agrees_defaultFlow (hconst : hasConstDefault x = false) (hf : DefaultFlow b x g v f) :
    RuleAgrees (tableDecls x) (defaultRelationName x) (defaultTypeName x) f.rule := by
  cases hf with
  | fixed hconst' =>
    rw [hconst] at hconst'
    cases hconst'
  | @chosen cases _ hcases =>
    have hrelation : .relation (defaultRelation x) ∈ tableDecls x := by
      simp [tableDecls, hconst]
    have hunique : ∀ q, .relation q ∈ tableDecls x → q.name = defaultRelationName x →
        q.columns = [.mk "action" (.named (defaultTypeName x))] := by
      intro q hq hname
      rcases relation_of_mem hq with ⟨-, rfl⟩ | ⟨-, rfl⟩
      · exact absurd hname (relationName_ne x)
      · rfl
    refine .mk rfl hrelation hunique (.cons (.single nofun) .nil) ?_
    refine .chosen List.mem_cons_self ?_ ?_ List.mem_cons_self (caseFits_of_caseOf hcases)
    · simp [tableDecls, hconst, actionType]
    · intro type htype
      rcases typedef_of_mem htype with ⟨-, hname, -⟩ | ⟨-, rfl⟩
      · exact absurd hname.symm (actionTypeName_ne x)
      · rfl

/-- The flows of a table agree with its declarations. -/
theorem agrees_tableFlows {o : Output} (hdecls : ∀ d ∈ tableDecls x, d ∈ o.declarations)
    (h : TableFlows b x g v (o.flowsAt v.id)) : TableAgrees o v x := by
  generalize hfs : o.flowsAt v.id = fs at h
  obtain @⟨rules, facts, default, hrules, hfacts, hdefault⟩ := h
  refine .mk hdecls hfs ?_ ?_ ?_
  · split at hrules
    · next hparam =>
      rw [if_pos hparam]
      obtain ⟨f, rfl, hf⟩ := hrules
      exact ⟨f, rfl, agrees_ruleFlow hparam hf⟩
    · next hparam =>
      rw [if_neg hparam]
      refine ⟨hrules, fun q hq hname => ?_⟩
      rcases relation_of_mem hq with ⟨hparam', -⟩ | ⟨-, rfl⟩
      · exact hparam hparam'
      · exact relationName_ne x hname.symm
  · intro f hf
    split at hfacts
    · obtain ⟨e, -, he⟩ := exists_of_mem_right hfacts hf
      obtain ⟨ms, act, -, -, rfl⟩ := he
      rfl
    · rw [hfacts] at hf
      cases hf
  · split
    · next hconst =>
      refine ⟨?_, fun q hq hname => ?_⟩
      · cases hdefault with
        | fixed => rfl
        | chosen hconst' =>
          rw [hconst] at hconst'
          cases hconst'
      · rcases relation_of_mem hq with ⟨-, rfl⟩ | ⟨hconst', -⟩
        · exact relationName_ne x hname
        · rw [hconst] at hconst'
          cases hconst'
    · next hconst => exact agrees_defaultFlow (Bool.not_eq_true _ ▸ hconst) hdefault

end

/-! ## The whole -/

/-- Declarations and rules of a compiled program agree. -/
structure Output.Agrees (o : Output) (p : Program) : Prop where
  /-- Wherever a table is applied, its rules agree with its declarations. -/
  tables : ∀ g v x, TableAt p o g v x → TableAgrees o v x
  /-- No rule names a variable that it does not bind before. -/
  terms : ∀ f ∈ o.flows, f.rule.Scoped
  /-- Nor does it interpolate one into a literal. -/
  literals : ∀ f ∈ o.flows, f.Closed
  /-- Every function that a rule calls is a helper of the program. -/
  masks : ∀ f ∈ o.flows, ∀ name ∈ f.calls,
    ∃ w, name = prefixMaskName w ∧ prefixMaskHelper w ∈ o.helpers

/-- **Declarations and rules agree.**  Whenever a program compiles, the rules of its tables fit the
relations and the types of actions that are declared for them, wherever a table is applied; every
variable is bound before it is used; and every function that is called is among the helpers. -/
theorem agrees_of_compile {p : Program} {t : Target} {o : Output}
    (h : (compile p t).result = .ok o) : o.Agrees p := by
  obtain ⟨inControl, outControl, ports, b, hb⟩ := compiled_of_ok h
  refine ⟨fun g v x hat => ?_, fun f hf => (hb.sound_of_mem f hf).closed.scoped,
    fun f hf => (hb.sound_of_mem f hf).closed, fun f hf name hname => ?_⟩
  · refine agrees_tableFlows (fun d hd => ?_) (hb.tableFlows hat)
    rw [hb.declarations]
    exact List.mem_append_right _ (List.mem_flatMap.mpr ⟨x, hb.mem_of_tableAt hat, hd⟩)
  · obtain ⟨w, hw, rfl⟩ := (hb.sound_of_mem f hf).calls name hname
    refine ⟨w, rfl, ?_⟩
    rw [hb.helpers]
    refine List.mem_append_right _ (List.mem_map_of_mem ?_)
    exact List.mem_mergeSort.mpr (List.mem_eraseDups.mpr hw)

/-- A table with keys of all kinds, two actions, one of them with a parameter, and a default action
that can be replaced. -/
theorem agrees_of_compile_sampleProgram :
    ∃ o v, (compile sampleProgram {}).result = .ok o ∧
      TableAt sampleProgram o o.ingress v sampleRoute ∧ o.Agrees sampleProgram := by
  obtain ⟨o, ho⟩ := compile_sampleProgram
  obtain ⟨v, hat⟩ := exists_tableAt_ingress ho (c := sampleIngress) (x := sampleRoute) rfl rfl
    (by decide +kernel)
  exact ⟨o, v, ho, hat, agrees_of_compile ho⟩

end Flowline.Compile
