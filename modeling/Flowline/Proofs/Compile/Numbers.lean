import Flowline.Proofs.Compile.Typing

/-!
# Numbers in the texts of flows

A literal of a rule interpolates texts that the rule has computed before, and numbers.  Which numbers
these are is fixed by the rows that the rule reads (`Rows`): the priority and the parts of the keys
of a table, the parameters of the actions that the table chooses from, or the group and the port of a
member of a multicast group.  A rule reads the rows of the table at its own stage (`Rows.ReadBy`).

A number is told by what it stands for (`Number`) and not by its variable.  Keys of one table can
share a variable: the prefix length of a key `x` and the value of a key `x_plen` are both `k_x_plen`.
Then the rule binds it twice, and it has both types.  So the types are proved for all numbers of the
rows and not for one number behind each variable (`StageFlow.NumberedBy`), and a variable has one type
only where the rule binds none twice.

The type of a number is bits without a sign, and one at least, with two exceptions that the program
makes itself.  The column of a key has the sign of the key, and a key or a parameter that is declared
with fewer bits has as many (`Number.Odd`).
-/

namespace Flowline.Ddlog

/-- Whether an expression is a text: a literal, a choice between literals, or texts that are
joined. -/
def Expr.isText : Expr → Bool
  | .str _ => true
  | .choose _ cases =>
    cases.all fun
      | .mk _ (.str _) => true
      | _ => false
  | .apply _ method _ => method == "join"
  | _ => false

end Flowline.Ddlog

namespace Flowline.Compile

open Ddlog (Decl Distinct PatternTypes Ty casesPatterns)
open Flowline.Flow (Hole Match Piece holes)
open ControlFlow (Graph Vertex)
open Lower
open Pipeline (Control Key Program Table)
open Switch (Target)

/-! ## Literals -/

/-- The literals of a term, each with the case around it: the variable that is matched, and the
pattern. -/
def Binding.literals : Binding → List (Option (Text × Ddlog.Expr) × List Piece)
  | optional _ source value m => [(some (source, .ctor "Some" [.var value]), m.pieces)]
  | choice cases =>
    cases.map fun c => (some ("action", .ctor c.constructor (c.vars.map .var)), c.action.pieces)
  | actionText _ a => [(none, a.pieces)]
  | _ => []

/-- The literals of the rule of a flow. -/
def StageFlow.literals (f : StageFlow) : List (Option (Text × Ddlog.Expr) × List Piece) :=
  f.bindings.flatMap Binding.literals ++ [(none, f.flow.pieces)]

variable {p : Program} {ds : Ddlog.Program} {f : StageFlow} {y : Table} {x : Text}
  {cases : List ActionCase}

theorem mem_casesPatterns {c : ActionCase} (hc : c ∈ cases) :
    .ctor c.constructor (c.vars.map .var) ∈ casesPatterns (cases.map ActionCase.expr) := by
  induction cases with
  | nil => cases hc
  | cons d cases ih =>
    rw [List.map_cons, ActionCase.expr, casesPatterns]
    rcases List.mem_cons.mp hc with rfl | hc
    · exact List.mem_cons_self
    · exact List.mem_cons_of_mem _ (List.mem_append_right _ (ih hc))

theorem Binding.mem_patterns_of_literals {y : Binding} {l : Option (Text × Ddlog.Expr) × List Piece}
    (hl : l ∈ y.literals) : ∀ q ∈ l.1, q.2 ∈ y.term.patterns := by
  cases y with
  | optional name source value m =>
    cases List.mem_singleton.mp hl
    rintro _ ⟨⟩
    exact List.mem_cons_self
  | choice cases =>
    obtain ⟨c, hc, rfl⟩ := List.mem_map.mp hl
    rintro _ ⟨⟩
    exact mem_casesPatterns hc
  | actionText name a =>
    cases List.mem_singleton.mp hl
    exact nofun
  | _ => cases hl

/-- The pattern around a literal is one of the rule. -/
theorem StageFlow.mem_patterns_of_literals {l : Option (Text × Ddlog.Expr) × List Piece}
    (hl : l ∈ f.literals) : ∀ q ∈ l.1, q.2 ∈ f.rule.body.flatMap Ddlog.Term.patterns := by
  intro q hq
  rcases List.mem_append.mp hl with hl | hl
  · obtain ⟨y, hy, hl⟩ := List.mem_flatMap.mp hl
    exact f.mem_patterns_rule.mpr ⟨y, hy, Binding.mem_patterns_of_literals hl q hq⟩
  · cases List.mem_singleton.mp hl
    cases hq

theorem StageFlow.mem_body {y : Binding} (hy : y ∈ f.bindings) :
    y.term ∈ f.rule.body := by
  have hne : ¬f.bindings.isEmpty = true := by
    rw [List.isEmpty_iff]
    exact List.ne_nil_of_mem hy
  rw [StageFlow.rule, if_neg hne]
  exact List.mem_append_left _ (List.mem_map_of_mem hy)

/-- The variables of an interpolation are those of the variable of the flow that it is made of. -/
theorem exists_of_hole {names : List Text} {t : Text} (h : Hole names t) (hx : x ∈ variablesIn t) :
    ∃ name ∈ names, x ∈ variablesIn name := by
  cases h with
  | bare hname => exact ⟨t, hname, hx⟩
  | @moved name hname r =>
    rw [(variablesIn_movedHole name r).1] at hx
    exact ⟨name, hname, hx⟩

/-! ## Numbers -/

/-- A number that rules interpolate, by what it stands for. -/
inductive Number where
  | value (k : Key)
  | mask (k : Key)
  | prefixLength (k : Key)
  | flag (k : Key)
  | param (q : Param)
  | priority
  | group
  | port

namespace Number

/-- The variable of a number. -/
def name : Number → Text
  | value k =>
    match k.kind with
    | .exact => keyVar k
    | .optional => "v_" ++ identifier k.name
    | _ => keyVar k ++ "_value"
  | mask k => keyVar k ++ "_mask"
  | prefixLength k => keyVar k ++ "_plen"
  | flag k => "b_" ++ identifier k.name
  | param q => paramVar q
  | priority => "priority"
  | group => "mcast_id"
  | port => "port"

/-- The text of a number in a match: its variable, or the mask that is made of a prefix length. -/
def hole : Number → Text
  | prefixLength k => prefixMaskName k.expr.type.width ++ "(" ++ keyVar k ++ "_plen)"
  | n => n.name

/-- The type of a number.  Values and masks are declared as their key is, with its sign, and
parameters as they are, without theirs.  All others have a type of their own. -/
def type : Number → Ty
  | value k | mask k => .bit k.expr.type.width k.expr.type.isSigned
  | param q => .bits q.type.width
  | prefixLength _ | priority => .bits 32
  | flag _ => .bits 1
  | group | port => .bits 16

/-- The program itself declares the number with a sign, or with less than one bit. -/
def Odd : Number → Prop
  | value k | mask k => k.expr.type.isSigned = true ∨ ¬1 ≤ k.expr.type.width
  | param q => ¬1 ≤ q.type.width
  | _ => False

/-- The prefix length of a key is counted in a width that is not negative. -/
def Countable : Number → Prop
  | prefixLength k => 0 ≤ k.expr.type.width.toInt
  | _ => True

theorem isName_name (n : Number) : isName n.name = true := by
  have hmark {m : Text} (hm : isName m = true) (hline : '_' ∈ m.toList) (k : Key) :
      isName (m ++ identifier k.name) = true := isName_marked hm hline _
  cases n with
  | value k =>
    rw [name]
    split
    · exact isName_keyVar k
    · exact hmark (by decide) (by decide) k
    · exact isName_keyVar_append k (by decide)
  | mask k | prefixLength k => exact isName_keyVar_append k (by decide)
  | flag k => exact hmark (by decide) (by decide) k
  | param q => exact isName_paramVar q
  | priority | group | port => decide

theorem variablesIn_hole {n : Number} (h : n.Countable) : variablesIn n.hole = [n.name] := by
  cases n with
  | prefixLength k =>
    rw [hole, maskCall_eq]
    exact (variablesIn_call (isName_prefixMaskName h) (isName_name (.prefixLength k))).1
  | _ => exact (variablesIn_name (isName_name _)).1

theorem unsigned_iff (n : Number) : (∃ width, 1 ≤ width ∧ n.type = .bits width) ↔ ¬n.Odd := by
  have hbit (width : Int64) (isSigned : Bool) :
      (∃ w, 1 ≤ w ∧ Ty.bit width isSigned = .bits w) ↔ 1 ≤ width ∧ isSigned = false := by
    constructor
    · rintro ⟨_, hw, ⟨⟩⟩
      exact ⟨hw, rfl⟩
    · rintro ⟨hw, rfl⟩
      exact ⟨width, hw, rfl⟩
  cases n with
  | value k | mask k =>
    rw [type, hbit, Odd, not_or, not_not, Bool.not_eq_true]
    exact and_comm
  | param q =>
    rw [Odd, not_not]
    exact (hbit _ _).trans (and_iff_left rfl)
  | _ => exact iff_of_true ⟨_, by decide, rfl⟩ not_false

end Number

/-- The numbers of a key in the text of a flow.  The value of an optional key stands in a text of its
own. -/
def keyNumbers (k : Key) : List Number :=
  match k.kind with
  | .exact => if k.expr.type.isBool then [.flag k] else [.value k]
  | .ternary => [.value k, .mask k]
  | .lpm => [.value k, .prefixLength k]
  | _ => []

theorem eq_of_prefixLength_mem {k k' : Key} (h : .prefixLength k' ∈ keyNumbers k) :
    k.kind = .lpm ∧ k' = k := by
  unfold keyNumbers at h
  split at h
  · split at h <;> simp at h
  · simp at h
  · next hkind =>
    simp only [List.mem_cons, reduceCtorEq, Number.prefixLength.injEq, List.not_mem_nil, or_false,
      false_or] at h
    exact ⟨hkind, h⟩
  · cases h

/-- The rows that a rule reads: none, the entries or the default action of a table, or the members of
multicast groups. -/
inductive Rows where
  | none
  | entries (y : Table)
  | defaults (y : Table)
  | groups

namespace Rows

/-- The actions that rows choose from, with the type of the choice. -/
def choice? : Rows → Option (Text × List Pipeline.Action)
  | entries y => if needsActions y then some (actionTypeName y, entryActions y) else Option.none
  | defaults y => some (defaultTypeName y, defaultActions y)
  | _ => Option.none

/-- A flow of a program reads rows: those of the table at its stage, by their relation. -/
inductive ReadBy (p : Program) (o : Output) (f : StageFlow) : Rows → Prop
  | none (h : f.bindings = []) : ReadBy p o f none
  | entries {g : Graph} {v : Vertex} {y : Table} {patterns : List Pattern} (hat : TableAt p o g v y)
      (hf : f ∈ o.flowsAt v.id) (hrow : .row (relationName y) patterns ∈ f.bindings) :
      ReadBy p o f (entries y)
  | defaults {g : Graph} {v : Vertex} {y : Table} {patterns : List Pattern} (hat : TableAt p o g v y)
      (hf : f ∈ o.flowsAt v.id) (hrow : .row (defaultRelationName y) patterns ∈ f.bindings) :
      ReadBy p o f (defaults y)
  | groups {patterns : List Pattern} (hrow : .row multicastRelation patterns ∈ f.bindings) :
      ReadBy p o f groups

/-- The numbers of a literal of a rule that reads rows, by the case around the literal. -/
inductive Shows : Rows → Option (Text × Ddlog.Expr) → Number → Prop
  | priority {y : Table} (h : allExact y = false) : Shows (entries y) Option.none .priority
  | key {y : Table} {k : Key} {n : Number} (hk : k ∈ y.keys) (hn : n ∈ keyNumbers k) :
      Shows (entries y) Option.none n
  | optional {y : Table} {k : Key} (hk : k ∈ y.keys) (hkind : k.kind = .optional) :
      Shows (entries y) (some (keyVar k, .ctor "Some" [.var ("v_" ++ identifier k.name)])) (.value k)
  | param {rows : Rows} {typeName : Text} {as : List Pipeline.Action} {a : Pipeline.Action}
      {q : Param} (hchoice : rows.choice? = some (typeName, as)) (ha : a ∈ as) (hq : q ∈ a.params) :
      Shows rows (some ("action", .ctor (constructorName typeName a)
        (a.params.map fun q => .var (paramVar q)))) (.param q)
  | group : Shows groups Option.none .group
  | port : Shows groups Option.none .port

end Rows

/-- A variable of a literal is a text that the rule has computed, or a number of its rows. -/
def Numbered (rows : Rows) (f : StageFlow) (around : Option (Text × Ddlog.Expr)) (x : Text) : Prop :=
  (∃ e, .assign x e ∈ f.rule.body ∧ e.isText = true) ∨ ∃ n, rows.Shows around n ∧ n.name = x

/-- All variables of a literal are texts or numbers. -/
def LiteralNumbered (rows : Rows) (f : StageFlow) (l : Option (Text × Ddlog.Expr) × List Piece) :
    Prop :=
  ∀ t ∈ holes l.2, ∀ x ∈ variablesIn t, Numbered rows f l.1 x

section

variable {rows : Rows} {around : Option (Text × Ddlog.Expr)}

theorem numbered_text {y : Binding} (hy : y ∈ f.bindings) {e : Ddlog.Expr}
    (hterm : y.term = .assign x e) (he : e.isText = true) : Numbered rows f around x :=
  Or.inl ⟨e, hterm ▸ StageFlow.mem_body hy, he⟩

theorem isText_choice (cases : List ActionCase) :
    (Ddlog.Expr.choose (.var "action") (cases.map ActionCase.expr)).isText = true := by
  show (cases.map ActionCase.expr).all _ = true
  rw [List.all_map, List.all_eq_true]
  exact fun _ _ => rfl

theorem numbered_hole {n : Number} (hn : rows.Shows around n) (hcount : n.Countable) :
    ∀ x ∈ variablesIn n.hole, Numbered rows f around x := by
  rw [Number.variablesIn_hole hcount, List.forall_mem_singleton]
  exact Or.inr ⟨n, hn, rfl⟩

theorem numbered_match {m : Match}
    (h : ∀ name ∈ m.vars, ∀ x ∈ variablesIn name, Numbered rows f around x) :
    LiteralNumbered rows f (around, m.pieces) := by
  intro t ht x hx
  obtain ⟨name, hname, hx⟩ := exists_of_hole (Match.hole_of_mem ht) hx
  exact h name hname x hx

theorem numbered_action {a : Flow.Action}
    (h : ∀ name ∈ a.vars, ∀ x ∈ variablesIn name, Numbered rows f around x) :
    LiteralNumbered rows f (around, a.pieces) :=
  fun t ht x hx => h t (Flow.Action.mem_vars_of_mem_holes ht) x hx

/-- The text of a flow has the variables of its match and of its action. -/
theorem numbered_flow {comment : Text} {guard : Match} {act : Flow.Action} {B : List Binding}
    {J : List Int64} {N : List Text}
    (hguard : ∀ name ∈ guard.vars, ∀ x ∈ variablesIn name,
      Numbered rows (flowOf comment guard act B) none x)
    (hact : act.Within J N)
    (hnames : ∀ name ∈ N, ∀ x ∈ variablesIn name, Numbered rows (flowOf comment guard act B) none x) :
    LiteralNumbered rows (flowOf comment guard act B)
      (none, (flowOf comment guard act B).flow.pieces) := by
  intro t ht
  rcases List.mem_append.mp (holes_flowOf .. ▸ ht) with ht | ht
  · exact numbered_match (m := guard.simplify)
      (fun name hname => hguard name (Match.vars_simplify guard ▸ hname)) t ht
  · exact numbered_action (a := act.simplify)
      (fun name hname => hnames name (hact.simplify.vars hname)) t ht

/-- The action that was chosen is a text. -/
theorem numbered_actions (h : .choice cases ∈ f.bindings) :
    ∀ name ∈ ["actions"], ∀ x ∈ variablesIn name, Numbered rows f none x := by
  rw [List.forall_mem_singleton, (variablesIn_name (by decide)).1, List.forall_mem_singleton]
  exact numbered_text h rfl (isText_choice cases)

/-- The action of a case has the parameters of the action that is chosen. -/
theorem numbered_choice {typeName : Text} {as : List Pipeline.Action} {g : Graph}
    {next : Pipeline.Action → Vertex} (hchoice : rows.choice? = some (typeName, as))
    (hcases : List.Forall₂ (CaseOf typeName g next) as cases) :
    ∀ l ∈ (Binding.choice cases).literals, LiteralNumbered rows f l := by
  intro l hl
  obtain ⟨c, hc, rfl⟩ := List.mem_map.mp hl
  obtain ⟨a, ha, hcase⟩ := exists_of_mem_right hcases hc
  refine numbered_action fun name hname => ?_
  have hname := hcase.within.vars hname
  rw [hcase.vars_eq] at hname ⊢
  obtain ⟨q, hq, rfl⟩ := List.mem_map.mp hname
  rw [hcase.constructor_eq, List.map_map]
  exact numbered_hole (n := .param q) (.param hchoice ha hq) trivial

/-- The parameters of an action are fields of the constructor. -/
theorem typesIn_param {typeName : Text} {as : List Pipeline.Action}
    (htype : actionType typeName as ∈ ds) (haction : f.rule.Types ds "action" (.named typeName))
    {a : Pipeline.Action} (ha : a ∈ as) {q : Param} (hq : q ∈ a.params) :
    f.rule.TypesIn ds (some ("action", .ctor (constructorName typeName a)
      (a.params.map fun q => .var (paramVar q)))) (paramVar q) (.bits q.type.width) := by
  have hfield : (Ddlog.Expr.var (paramVar q), paramColumn q) ∈
      (a.params.map fun q => Ddlog.Expr.var (paramVar q)).zip (a.params.map paramColumn) := by
    rw [List.zip_map']
    exact List.mem_map_of_mem hq
  exact Or.inr ⟨_, rfl, _, haction, .field htype (List.mem_map_of_mem ha) hfield .var⟩

end

/-! ## Keys -/

theorem valueTy_of_not_bool {t : ValueType} (h : t.isBool = false) :
    valueTy t = .bit t.width t.isSigned := by
  rw [valueTy, if_neg (by simp [h])]

section

variable {k : Key} {left : Flow.Expr} {km : KeyMatch}

theorem patternTypes_first (x z : Text) (first second : Ty) :
    PatternTypes ds (Pattern.pair x z).expr (.tuple [first, second]) x first :=
  .tuple (List.mem_cons_self) .var

theorem patternTypes_second (x z : Text) (first second : Ty) :
    PatternTypes ds (Pattern.pair x z).expr (.tuple [first, second]) z second :=
  .tuple (List.mem_cons_of_mem _ List.mem_cons_self) .var

/-- The match of a key has the numbers of the key, or it is a text that a binding makes of the value
of an optional key. -/
theorem KeyForm.vars_guard (h : KeyForm k left km) (hleft : left.vars = []) :
    (km.guard.vars = (keyNumbers k).map Number.hole ∧ ∀ z ∈ km.bindings, z.literals = []) ∨
      k.kind = .optional ∧ km.guard.vars = ["m_" ++ identifier k.name] ∧
        ∃ m, m.vars = [(Number.value k).hole] ∧ km.bindings =
          [.optional ("m_" ++ identifier k.name) (keyVar k) ("v_" ++ identifier k.name) m] := by
  cases h with
  | truth hkind hbool =>
    refine Or.inl ⟨?_, List.forall_mem_singleton.mpr rfl⟩
    simp [vars_equals hleft, keyNumbers, hkind, hbool, Number.hole, Number.name]
  | exact hkind hbool =>
    refine Or.inl ⟨?_, List.forall_mem_nil _⟩
    simp [vars_equals hleft, keyNumbers, hkind, hbool, Number.hole, Number.name]
  | ternary hkind | lpm hkind =>
    refine Or.inl ⟨?_, List.forall_mem_nil _⟩
    simp [vars_equals hleft, keyNumbers, hkind, Number.hole, Number.name, Flow.Expr.vars]
  | optional hkind hm =>
    refine Or.inr ⟨hkind, rfl, _, ?_, rfl⟩
    show _ = [(Number.value k).name]
    rw [vars_optional hleft hm, Number.name, hkind]

/-- What a rule has for an element of a key is texts and numbers of the key. -/
theorem KeyForm.numbered (h : KeyForm k left km) (hk : k ∈ y.keys) (hleft : left.vars = [])
    (hlpm : k.kind = .lpm → 0 ≤ k.expr.type.width.toInt)
    (hbindings : ∀ z ∈ km.bindings, z ∈ f.bindings) :
    (∀ name ∈ km.guard.vars, ∀ x ∈ variablesIn name, Numbered (.entries y) f none x) ∧
      ∀ z ∈ km.bindings, ∀ l ∈ z.literals, LiteralNumbered (.entries y) f l := by
  rcases h.vars_guard hleft with ⟨hvars, hnone⟩ | ⟨hkind, hvars, m, hm, hbinding⟩
  · refine ⟨fun name hname => ?_, fun z hz l hl => ?_⟩
    · rw [hvars] at hname
      obtain ⟨n, hn, rfl⟩ := List.mem_map.mp hname
      refine numbered_hole (.key hk hn) ?_
      cases n with
      | prefixLength k' =>
        obtain ⟨hkind, rfl⟩ := eq_of_prefixLength_mem hn
        exact hlpm hkind
      | _ => trivial
    · rw [hnone z hz] at hl
      cases hl
  · rw [hbinding, List.forall_mem_singleton] at hbindings
    rw [hvars, hbinding, List.forall_mem_singleton, List.forall_mem_singleton,
      (variablesIn_name (isName_marked (by decide) (by decide) _)).1, List.forall_mem_singleton]
    refine ⟨numbered_text hbindings rfl rfl, List.forall_mem_singleton.mpr (numbered_match ?_)⟩
    rw [hm, List.forall_mem_singleton]
    exact numbered_hole (.optional hk hkind) trivial

/-- The numbers of a key have the types of the parts of its column; a flag has that of the numerals
that it is set to. -/
theorem KeyForm.types (h : KeyForm k left km)
    (htruth : k.expr.type.isBool = true → k.kind = .exact)
    (hbindings : ∀ z ∈ km.bindings, z ∈ f.bindings)
    (htypes : ∀ x type, PatternTypes ds km.pattern.expr (keyTy k) x type → f.rule.Types ds x type) :
    (∀ n ∈ keyNumbers k, f.rule.Types ds n.name n.type) ∧
      (k.kind = .optional → f.rule.Types ds (keyVar k) (.option (Number.value k).type)) := by
  have hvalue : k.kind ≠ .exact → valueTy k.expr.type = (Number.value k).type := fun hkind =>
    valueTy_of_not_bool (Bool.eq_false_iff.mpr fun hbool => hkind (htruth hbool))
  cases h with
  | truth hkind hbool =>
    refine ⟨?_, by simp [hkind]⟩
    have hflag := StageFlow.mem_body (hbindings _ List.mem_cons_self)
    simp only [keyNumbers, hkind, hbool, if_true, List.forall_mem_singleton]
    exact .numeral (w := 1) hflag rfl rfl
  | exact hkind hbool =>
    refine ⟨?_, by simp [hkind]⟩
    have hty : keyTy k = (Number.value k).type := by
      rw [keyTy, hkind]
      exact valueTy_of_not_bool hbool
    simp only [keyNumbers, hkind, hbool, Bool.false_eq_true, if_false, List.forall_mem_singleton,
      Number.name]
    exact htypes _ _ (hty ▸ .var)
  | ternary hkind =>
    refine ⟨?_, by simp [hkind]⟩
    have hty : keyTy k = .tuple [(Number.value k).type, (Number.mask k).type] := by
      rw [keyTy, hkind, hvalue (by simp [hkind])]
      rfl
    simp only [keyNumbers, hkind, List.forall_mem_cons, Number.name]
    exact ⟨htypes _ _ (hty ▸ patternTypes_first _ _ _ _),
      htypes _ _ (hty ▸ patternTypes_second _ _ _ _), List.forall_mem_nil _⟩
  | lpm hkind =>
    refine ⟨?_, by simp [hkind]⟩
    have hty : keyTy k = .tuple [(Number.value k).type, (Number.prefixLength k).type] := by
      rw [keyTy, hkind, hvalue (by simp [hkind])]
      rfl
    simp only [keyNumbers, hkind, List.forall_mem_cons, Number.name]
    exact ⟨htypes _ _ (hty ▸ patternTypes_first _ _ _ _),
      htypes _ _ (hty ▸ patternTypes_second _ _ _ _), List.forall_mem_nil _⟩
  | optional hkind =>
    have hty : keyTy k = .option (Number.value k).type := by
      rw [keyTy, hkind, hvalue (by simp [hkind])]
    exact ⟨by simp [keyNumbers, hkind], fun _ => htypes _ _ (hty ▸ .var)⟩

end

/-! ## Rules of tables -/

/-- The arguments of the atom of a rule, each with its column. -/
def rowColumns (y : Table) (kms : List KeyMatch) : List (Ddlog.Expr × Ddlog.Column) :=
  (kms.map fun km => km.pattern.expr).zip (y.keys.map fun k => .mk (keyVar k) (keyTy k)) ++
    (if allExact y then [] else [(.var "priority", .mk "priority" (.bits 32))]) ++
    (if needsActions y then [(.var "action", .mk "action" (.named (actionTypeName y)))] else [])

theorem zip_entryRow {kms : List KeyMatch} (h : kms.length = y.keys.length) :
    ((kms.map KeyMatch.pattern ++ (if allExact y then [] else [Pattern.var "priority"]) ++
      (if needsActions y then [Pattern.var "action"] else [])).map Pattern.expr).zip
        (entryColumns y) = rowColumns y kms := by
  have hkeys : ((kms.map KeyMatch.pattern).map Pattern.expr).length =
      (y.keys.map fun k => Ddlog.Column.mk (keyVar k) (keyTy k)).length := by simpa using h
  have hpriority : ((if allExact y then [] else [Pattern.var "priority"]).map Pattern.expr).zip
      (if allExact y then [] else [Ddlog.Column.mk "priority" (.bits 32)]) =
        if allExact y then [] else [(.var "priority", .mk "priority" (.bits 32))] := by
    split <;> rfl
  have hlength : ((if allExact y then [] else [Pattern.var "priority"]).map Pattern.expr).length =
      (if allExact y then [] else [Ddlog.Column.mk "priority" (.bits 32)]).length := by
    split <;> rfl
  have haction : ((if needsActions y then [Pattern.var "action"] else []).map Pattern.expr).zip
      (if needsActions y then [Ddlog.Column.mk "action" (.named (actionTypeName y))] else []) =
        if needsActions y then [(.var "action", .mk "action" (.named (actionTypeName y)))]
        else [] := by
    split <;> rfl
  rw [entryColumns, List.map_append, List.map_append, List.zip_append, List.zip_append hkeys,
    hpriority, haction, List.map_map]
  · rfl
  · rw [List.length_append, List.length_append, hkeys, hlength]

section

variable {b : State} {g : Graph} {v : Vertex} {kms : List KeyMatch}

/-- A row gives types to its variables by the columns of the relation. -/
theorem types_row {relation : Text} {patterns : List Pattern}
    (hrow : .row relation patterns ∈ f.bindings) {q : Ddlog.Relation} (hq : .relation q ∈ ds)
    (hname : q.name = relation) {e : Ddlog.Expr} {c : Ddlog.Column}
    (h : (e, c) ∈ (patterns.map Pattern.expr).zip q.columns) {type : Ty}
    (hx : PatternTypes ds e c.type x type) : f.rule.Types ds x type :=
  .column (StageFlow.mem_body hrow) hq hname h hx

theorem types_rowColumns (hrelation : .relation (entryRelation y) ∈ ds)
    (hrow : entryRow y kms ∈ f.bindings) (hlength : kms.length = y.keys.length)
    {q : Ddlog.Expr × Ddlog.Column} (hq : q ∈ rowColumns y kms) {type : Ty}
    (hx : PatternTypes ds q.1 q.2.type x type) : f.rule.Types ds x type := by
  rw [← zip_entryRow hlength] at hq
  exact types_row hrow hrelation rfl hq hx

/-- The numbers of a rule over the rows of a table have their types. -/
theorem typesIn_entries (hds : ∀ d ∈ tableDecls y, d ∈ ds)
    (htruths : ∀ k ∈ y.keys, k.expr.type.isBool = true → k.kind = .exact)
    (hparam : isParametric y = true) (hrow : entryRow y kms ∈ f.bindings)
    (hkms : List.Forall₂ (KeyOf b) y.keys kms)
    (hbindings : ∀ km ∈ kms, ∀ z ∈ km.bindings, z ∈ f.bindings)
    {around : Option (Text × Ddlog.Expr)} {n : Number} (h : (Rows.entries y).Shows around n) :
    f.rule.TypesIn ds around n.name n.type := by
  have hcolumn : ∀ q ∈ rowColumns y kms, ∀ {x : Text} {type : Ty},
      PatternTypes ds q.1 q.2.type x type → f.rule.Types ds x type :=
    fun q hq _ _ => types_rowColumns (hds _ (by simp [tableDecls, hparam])) hrow
      hkms.length_eq.symm hq
  have hkey : ∀ k ∈ y.keys, (∀ n ∈ keyNumbers k, f.rule.Types ds n.name n.type) ∧
      (k.kind = .optional → f.rule.Types ds (keyVar k) (.option (Number.value k).type)) := by
    intro k hk
    have hzip : (kms.zip y.keys).map Prod.snd = y.keys := List.map_snd_zip hkms.length_eq.le
    rw [← hzip] at hk
    obtain ⟨⟨km, k⟩, hmem, rfl⟩ := List.mem_map.mp hk
    obtain ⟨left, -, hform, -⟩ := (List.forall₂_iff_zip.mp hkms.flip).2 hmem
    obtain ⟨hkm, hk⟩ := List.of_mem_zip hmem
    refine hform.types (htruths k hk) (hbindings km hkm) fun x type hx => ?_
    refine hcolumn (km.pattern.expr, .mk (keyVar k) (keyTy k)) (List.mem_append_left _
      (List.mem_append_left _ ?_)) hx
    rw [List.zip_map]
    exact List.mem_map_of_mem hmem
  cases h with
  | priority hexact =>
    refine Or.inl (hcolumn (.var "priority", .mk "priority" (.bits 32)) ?_ .var)
    simp [rowColumns, hexact]
  | key hk hn => exact Or.inl ((hkey _ hk).1 n hn)
  | @optional _ k hk hkind =>
    have hname : (Number.value k).name = "v_" ++ identifier k.name := by simp [Number.name, hkind]
    exact hname ▸ Or.inr ⟨_, rfl, _, (hkey k hk).2 hkind, .some .var⟩
  | @param _ typeName as a q hchoice ha hq =>
    obtain ⟨hneeds, heq⟩ := Option.ite_none_right_eq_some.mp hchoice
    obtain ⟨rfl, rfl⟩ := Prod.mk.inj (Option.some.inj heq)
    refine typesIn_param (hds _ (by simp [tableDecls, hparam, hneeds])) ?_ ha hq
    refine hcolumn (.var "action", .mk "action" (.named (actionTypeName y))) ?_ .var
    simp [rowColumns, hneeds]

/-- The rule over the rows of a table interpolates texts and numbers of these. -/
theorem numbered_ruleFlow (hwidths : ∀ w ∈ b.prefixWidths, 0 ≤ w.toInt)
    (hf : RuleFlow b y g v f) : ∀ l ∈ f.literals, LiteralNumbered (.entries y) f l := by
  obtain ⟨kms, act, chosen, hkms, hact, rfl⟩ := hf
  set f := flowOf ("table " ++ y.fullName) (entryGuard y v kms) act
    (entryRow y kms :: kms.flatMap (·.bindings) ++ chosen) with hf
  have hkeys : ∀ km ∈ kms,
      (∀ name ∈ km.guard.vars, ∀ x ∈ variablesIn name, Numbered (.entries y) f none x) ∧
        ∀ z ∈ km.bindings, ∀ l ∈ z.literals, LiteralNumbered (.entries y) f l := by
    intro km hkm
    obtain ⟨k, hk, left, hgives, hform, hlpm⟩ := exists_of_mem_right hkms hkm
    refine hform.numbered hk ((ensures_value_nil k.expr).of_gives hgives)
      (fun hkind => hwidths _ (hlpm hkind)) fun z hz => ?_
    exact List.mem_append_left _ (List.mem_cons_of_mem _ (List.mem_flatMap.mpr ⟨km, hkm, hz⟩))
  have hprereqs : ∀ km ∈ kms, ∀ m ∈ km.prereqs, m.vars = [] := by
    intro km hkm
    obtain ⟨k, -, hk⟩ := exists_of_mem_right hkms hkm
    exact (hk.sound hwidths).prereqs
  have hguard : ∀ name ∈ (entryGuard y v kms).vars, ∀ x ∈ variablesIn name,
      Numbered (.entries y) f none x := by
    intro name hname
    rcases mem_vars_entryGuard hprereqs hname with ⟨hexact, rfl⟩ | ⟨km, hkm, hname⟩
    · exact numbered_hole (n := .priority) (.priority hexact) trivial
    · exact (hkeys km hkm).1 name hname
  have hbody : ∀ z ∈ entryRow y kms :: kms.flatMap (·.bindings), ∀ l ∈ z.literals,
      LiteralNumbered (.entries y) f l := by
    refine List.forall_mem_cons.mpr ⟨List.forall_mem_nil _, fun z hz => ?_⟩
    obtain ⟨km, hkm, hz⟩ := List.mem_flatMap.mp hz
    exact (hkeys km hkm).2 z hz
  intro l hl
  rcases List.mem_append.mp hl with hl | hl
  · obtain ⟨z, hz, hl⟩ := List.mem_flatMap.mp hl
    rcases List.mem_append.mp hz with hz | hchosen
    · exact hbody z hz l hl
    · cases hact with
      | only => cases hchosen
      | choice hneeds hcases =>
        cases List.mem_singleton.mp hchosen
        have hchoice : (Rows.entries y).choice? = some (actionTypeName y, entryActions y) :=
          if_pos hneeds
        exact numbered_choice hchoice hcases l hl
  · cases List.mem_singleton.mp hl
    cases hact with
    | only hneeds has hact => exact numbered_flow hguard hact (List.forall_mem_nil _)
    | choice hneeds hcases =>
      exact numbered_flow hguard within_actions
        (numbered_actions (List.mem_append_right _ List.mem_cons_self))

end

/-! ## Programs -/

/-- All literals of a flow interpolate texts that its rule has computed, and numbers of rows that it
reads, which have their types. -/
structure StageFlow.NumberedBy (p : Program) (o : Output) (f : StageFlow) (rows : Rows) : Prop where
  readBy : rows.ReadBy p o f
  literals : ∀ l ∈ f.literals, LiteralNumbered rows f l
  types : ∀ around n, rows.Shows around n → f.rule.TypesIn o.program around n.name n.type

namespace Compiled

variable {t : Target} {o : Output} {inControl outControl : Control} {ports : Ports} {b : State}
  (h : Compiled p t o inControl outControl ports b)

include h

theorem mem_program {d : Decl} (hd : d ∈ builtinDecls ∨ ∃ y ∈ tablesOf p, d ∈ tableDecls y) :
    d ∈ o.program := by
  refine List.mem_append_left _ (List.mem_append_right _ ?_)
  rwa [h.declarations, List.mem_append, List.mem_flatMap, ← h.tablesOf_eq]

theorem numbered_fact (hf : f ∈ o.flows) (hnil : f.bindings = []) : f.NumberedBy p o .none where
  readBy := .none hnil
  literals l hl t ht x hx := by
    rw [StageFlow.literals, hnil] at hl
    cases List.mem_singleton.mp hl
    have hscope := (h.sound_of_mem f hf).closed.head t ht x hx
    rw [hnil] at hscope
    cases hscope
  types _ _ hshows := by
    cases hshows with
    | param hchoice => cases hchoice

/-- The rule that copies packets interpolates groups and ports. -/
theorem numbered_groupFlow :
    (groupFlow ports o.stages).NumberedBy p o .groups := by
  set f := groupFlow ports o.stages with hf
  have hrow : .row multicastRelation [.var "mcast_id", .var "port"] ∈ f.bindings :=
    List.mem_cons_self
  have hcolumn : ∀ x ∈ ["mcast_id", "port"], f.rule.Types o.program x (.bits 16) := by
    intro x hx
    refine types_row hrow (h.mem_program (Or.inl List.mem_cons_self)) rfl
      (c := Ddlog.Column.mk x (.bits 16)) (e := .var x) ?_ .var
    rcases List.mem_pair.mp hx with rfl | rfl
    · exact List.mem_cons_self
    · exact List.mem_cons_of_mem _ List.mem_cons_self
  refine ⟨.groups hrow, ?_, fun around n hshows => ?_⟩
  · refine List.forall_mem_append.mpr ⟨?_, List.forall_mem_singleton.mpr ?_⟩
    · refine List.forall_mem_singleton.mpr (numbered_action fun name hname => ?_)
      cases List.mem_singleton.mp (show name ∈ ["port"] from hname)
      exact numbered_hole .port trivial
    · refine numbered_flow (fun name hname => ?_) within_actions ?_
      · cases List.mem_singleton.mp (show name ∈ ["mcast_id"] from hname)
        exact numbered_hole .group trivial
      · rw [List.forall_mem_singleton, (variablesIn_name (by decide)).1, List.forall_mem_singleton]
        have hjoined : Binding.joined "actions" "clone_action" "mcast_id" ∈ f.bindings := by
          simp [hf, groupFlow, flowOf]
        exact numbered_text hjoined rfl rfl
  · cases hshows with
    | group => exact Or.inl (hcolumn _ (by simp [Number.name]))
    | port => exact Or.inl (hcolumn _ (by simp [Number.name]))
    | param hchoice => cases hchoice

/-- All literals interpolate texts and numbers. -/
theorem exists_numberedBy (hf : f ∈ o.flows) : ∃ rows, f.NumberedBy p o rows := by
  rcases h.fact_or_rule hf with hnil | rfl | ⟨g, v, y, hat, hmem⟩
  · exact ⟨.none, h.numbered_fact hf hnil⟩
  · exact ⟨.groups, h.numbered_groupFlow⟩
  have htable := h.mem_of_tableAt hat
  have hds : ∀ d ∈ tableDecls y, d ∈ o.program :=
    fun d hd => h.mem_program (Or.inr ⟨y, h.tablesOf_eq ▸ htable, hd⟩)
  rcases (h.tableFlows hat).fact_or_rule hmem with hnil | ⟨hparam, hrule⟩ | hdefault
  · exact ⟨.none, h.numbered_fact hf hnil⟩
  · have hliterals := numbered_ruleFlow h.widths_nonneg hrule
    obtain ⟨kms, act, chosen, hkms, hact, rfl⟩ := hrule
    refine ⟨.entries y, .entries hat hmem List.mem_cons_self, hliterals, fun around n => ?_⟩
    refine typesIn_entries hds (h.tables y htable).truths hparam List.mem_cons_self hkms ?_
    intro km hkm z hz
    exact List.mem_append_left _ (List.mem_cons_of_mem _ (List.mem_flatMap.mpr ⟨km, hkm, hz⟩))
  · cases hdefault with
    | fixed => exact ⟨.none, h.numbered_fact hf rfl⟩
    | @chosen cases hconst hcases =>
      refine ⟨.defaults y, .defaults hat hmem List.mem_cons_self, ?_, fun around n hshows => ?_⟩
      · refine List.forall_mem_append.mpr ⟨?_, List.forall_mem_singleton.mpr ?_⟩
        · intro l hl
          rw [flowOf, List.flatMap_cons, List.flatMap_singleton] at hl
          exact numbered_choice rfl hcases l hl
        · refine numbered_flow ?_ within_actions
            (numbered_actions (List.mem_cons_of_mem _ List.mem_cons_self))
          rw [vars_stageGuard _ _ (List.forall_mem_nil _)]
          exact List.forall_mem_nil _
      · cases hshows with
        | param hchoice ha hq =>
          obtain ⟨rfl, rfl⟩ := Prod.mk.inj (Option.some.inj hchoice)
          refine typesIn_param (hds _ (by simp [tableDecls, hconst])) ?_ ha hq
          exact types_row List.mem_cons_self (q := defaultRelation y)
            (hds _ (by simp [tableDecls, hconst])) rfl List.mem_cons_self .var

end Compiled

/-- **Numbers in flows have no sign.**  Whenever a program compiles, every variable that a literal of
a rule interpolates is a text that the rule has computed, or a number of the rows that the rule reads,
of the table at its stage or of multicast groups.  All of these numbers are bound, by a column, by a
field of a constructor or by an assignment, with the type that `Number.type` says.  They are bits
without a sign, and one at least, except exactly for values and masks of a key that the program
declares with a sign or with no bit, and for parameters that it declares with no bit.  If no name is
declared twice and the rule binds no variable twice, they have no other type. -/
theorem numbers_unsigned {p : Program} {t : Target} {o : Output}
    (hcompile : (compile p t).result = .ok o) :
    ∀ f ∈ o.flows, ∃ rows : Rows, rows.ReadBy p o f ∧ ∀ l ∈ f.literals,
      (∀ hole ∈ holes l.2, ∀ x ∈ variablesIn hole,
        (∃ e, .assign x e ∈ f.rule.body ∧ e.isText = true) ∨
          ∃ n, rows.Shows l.1 n ∧ n.name = x) ∧
      ∀ n, rows.Shows l.1 n →
        f.rule.TypesIn o.program l.1 n.name n.type ∧
        ((∃ width, 1 ≤ width ∧ n.type = .bits width) ↔ ¬n.Odd) ∧
        (Distinct o.program → f.rule.Fresh →
          ∀ type, f.rule.TypesIn o.program l.1 n.name type → type = n.type) := by
  obtain ⟨inControl, outControl, ports, b, h⟩ := compiled_of_ok hcompile
  intro f hf
  obtain ⟨rows, hrows⟩ := h.exists_numberedBy hf
  refine ⟨rows, hrows.readBy, fun l hl => ⟨hrows.literals l hl, fun n hn => ?_⟩⟩
  have htypes := hrows.types l.1 n hn
  exact ⟨htypes, n.unsigned_iff, fun hds hr type htype =>
    htype.unique hds hr (StageFlow.mem_patterns_of_literals hl) htypes⟩

/-- Whether a literal of a rule interpolates a variable. -/
def StageFlow.interpolates (f : StageFlow) (x : Text) : Bool :=
  f.literals.any fun l => (holes l.2).any fun hole => (variablesIn hole).contains x

theorem StageFlow.exists_of_interpolates (h : f.interpolates x = true) :
    ∃ l ∈ f.literals, ∃ hole ∈ holes l.2, x ∈ variablesIn hole := by
  obtain ⟨l, hl, h⟩ := List.any_eq_true.mp h
  obtain ⟨hole, hhole, h⟩ := List.any_eq_true.mp h
  exact ⟨l, hl, hole, hhole, List.contains_iff_mem.mp h⟩

/-- Whether a program compiles, and a flow of the output passes a test. -/
def anyFlow (p : Program) (test : StageFlow → Bool) : Bool :=
  match (compile p {}).result with
  | .ok o => o.flows.any test
  | .error _ => false

theorem exists_of_anyFlow (p : Program) (test : StageFlow → Bool) (h : anyFlow p test = true) :
    ∃ o, (compile p {}).result = .ok o ∧ ∃ f ∈ o.flows, test f = true := by
  unfold anyFlow at h
  split at h
  · next o ho => exact ⟨o, ho, List.any_eq_true.mp h⟩
  · cases h

/-- Whether a term of a rule assigns to a variable. -/
def assignsTo (x : Text) : Ddlog.Term → Bool
  | .assign y _ => y == x
  | _ => false

/-- The mask of a key is a number of its table. -/
theorem numbers_unsigned_sampleProgram :
    ∃ o f l hole rows n, (compile sampleProgram {}).result = .ok o ∧ f ∈ o.flows ∧
      l ∈ f.literals ∧ hole ∈ holes l.2 ∧ "k_kind_mask" ∈ variablesIn hole ∧
      Rows.ReadBy sampleProgram o f rows ∧ rows.Shows l.1 n ∧ n.name = "k_kind_mask" ∧
      f.rule.TypesIn o.program l.1 "k_kind_mask" n.type := by
  obtain ⟨o, ho, f, hf, htest⟩ := exists_of_anyFlow sampleProgram
    (fun f => f.interpolates "k_kind_mask" && !f.rule.body.any (assignsTo "k_kind_mask"))
    (by decide +kernel)
  rw [Bool.and_eq_true, Bool.not_eq_true', List.any_eq_false] at htest
  obtain ⟨l, hl, hole, hhole, hx⟩ := StageFlow.exists_of_interpolates htest.1
  obtain ⟨rows, hrows, hliterals⟩ := numbers_unsigned ho f hf
  obtain ⟨hfilled, htypes⟩ := hliterals l hl
  rcases hfilled hole hhole "k_kind_mask" hx with ⟨e, he, -⟩ | ⟨n, hn, hname⟩
  · exact absurd (beq_self_eq_true _) (htest.2 _ he)
  · exact ⟨o, f, l, hole, rows, n, ho, hf, hl, hhole, hx, hrows, hn, hname, hname ▸ (htypes n hn).1⟩

/-- A field with a sign. -/
def signedField : Field := { name := "meta.x", type := { width := 8, isSigned := true } }

/-- A table that matches this field. -/
def signedTable : Table where
  control := "ingress"
  name := "t"
  keys := [⟨"x", .field signedField, .exact⟩]
  actions := [⟨{ control := "ingress", name := "a", params := [], body := [] }, false, false⟩]

/-- A program that applies this table. -/
def signedProgram : Program where
  headers := []
  metadata := [signedField]
  standard := []
  ingress := some
    { name := "ingress", params := [], locals := [], actions := signedTable.actions.map (·.action),
      tables := [signedTable], body := [.apply ⟨"ingress", "t"⟩] }
  egress := some
    { name := "egress", params := [], locals := [], actions := [], tables := [], body := [] }

/-- The column of the key has a sign, and the flow interpolates it. -/
theorem signed_number_signedProgram :
    ∃ o f l hole, (compile signedProgram {}).result = .ok o ∧ f ∈ o.flows ∧ l ∈ f.literals ∧
      hole ∈ holes l.2 ∧ "k_x" ∈ variablesIn hole ∧
      f.rule.TypesIn o.program l.1 "k_x" (.bit 8 true) := by
  obtain ⟨o, ho, f, hf, htest⟩ := exists_of_anyFlow signedProgram
    (fun f => f.interpolates "k_x" && f.bindings.contains (.row "Ingress_t" [.var "k_x"]))
    (by decide +kernel)
  obtain ⟨inControl, outControl, ports, b, h⟩ := compiled_of_ok ho
  obtain ⟨hx, hrow⟩ := Bool.and_eq_true_iff.mp htest
  obtain ⟨l, hl, hole, hhole, hx⟩ := StageFlow.exists_of_interpolates hx
  have hrelation : .relation (entryRelation signedTable) ∈ o.program :=
    h.mem_program (Or.inr ⟨signedTable, List.mem_cons_self,
      by simp [tableDecls, show isParametric signedTable = true from rfl]⟩)
  have hname : relationName signedTable = "Ingress_t" := by decide +kernel
  have hkey : keyVar ⟨"x", .field signedField, .exact⟩ = "k_x" := by decide +kernel
  have hcolumn : (Ddlog.Expr.var "k_x", Ddlog.Column.mk "k_x" (.bit 8 true)) ∈
      ([Pattern.var "k_x"].map Pattern.expr).zip (entryRelation signedTable).columns := by
    show _ ∈ [(Ddlog.Expr.var "k_x", Ddlog.Column.mk (keyVar ⟨"x", .field signedField, .exact⟩) _)]
    rw [hkey]
    exact List.mem_cons_self
  refine ⟨o, f, l, hole, ho, hf, hl, hhole, hx, Or.inl ?_⟩
  exact types_row (List.contains_iff_mem.mp hrow) hrelation hname hcolumn .var

end Flowline.Compile
