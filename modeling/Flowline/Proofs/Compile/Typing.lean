import Flowline.Proofs.Compile.Capture

/-!
# Types of the variables of rules

A variable of a rule has the type of what binds it: the column of a relation that an atom matches,
a part of such a column, or the numerals of an assignment.  The pattern of a case gives types to its
variables by the type that is declared for its subject.

A rule may bind a variable twice, and a program may declare a name twice; then there can be several
types.  Where neither happens there is only one (`Rule.TypesIn.unique`).
-/

namespace Flowline.Ddlog

/-! ## Patterns -/

/-- The types that a pattern gives to its variables when it is matched against a value of a type. -/
inductive PatternTypes (ds : Program) : Expr → Ty → Text → Ty → Prop
  | var {x : Text} {type : Ty} : PatternTypes ds (.var x) type x type
  | tuple {es : List Expr} {types : List Ty} {e : Expr} {t : Ty} {x : Text} {type : Ty}
      (h : (e, t) ∈ es.zip types) (hx : PatternTypes ds e t x type) :
      PatternTypes ds (.tuple es) (.tuple types) x type
  | some {e : Expr} {t : Ty} {x : Text} {type : Ty} (hx : PatternTypes ds e t x type) :
      PatternTypes ds (.ctor "Some" [e]) (.option t) x type
  /-- A constructor, by the fields that are declared for it. -/
  | field {typeName name : Text} {vs : List Variant} {fields : List Column} {args : List Expr}
      {e : Expr} {c : Column} {x : Text} {type : Ty} (htype : .typedef typeName (.sum vs) ∈ ds)
      (hv : .mk name fields ∈ vs) (h : (e, c) ∈ args.zip fields)
      (hx : PatternTypes ds e c.type x type) :
      PatternTypes ds (.ctor name args) (.named typeName) x type

theorem mem_listFree {es : List Expr} {e : Expr} (he : e ∈ es) {x : Text} (hx : x ∈ e.free) :
    x ∈ listFree es := by
  induction es with
  | nil => cases he
  | cons d es ih =>
    rw [listFree, List.mem_append]
    rcases List.mem_cons.mp he with rfl | he
    · exact Or.inl hx
    · exact Or.inr (ih he)

variable {ds : Program} {x : Text} {type type' : Ty}

theorem PatternTypes.mem_free {e : Expr} {t : Ty} (h : PatternTypes ds e t x type) : x ∈ e.free := by
  induction h with
  | var => exact List.mem_singleton.mpr rfl
  | tuple h _ ih => exact mem_listFree (List.of_mem_zip h).1 ih
  | some _ ih => exact mem_listFree List.mem_cons_self ih
  | field _ _ h _ ih => exact mem_listFree (List.of_mem_zip h).1 ih

/-! ## One type -/

/-- Lists without a common member, one behind the other, are told apart by any member. -/
theorem eq_of_nodup_flatMap {α β : Type} {f : α → List β} {l : List α} (h : (l.flatMap f).Nodup)
    {a b : α} (ha : a ∈ l) (hb : b ∈ l) {y : β} (hya : y ∈ f a) (hyb : y ∈ f b) : a = b := by
  by_contra hne
  have hsymm : Std.Symm (Function.onFun List.Disjoint f) := ⟨fun _ _ hdisjoint => hdisjoint.symm⟩
  exact (List.nodup_flatMap.mp h).2.forall ha hb hne hya hyb

/-- Different patterns of a list have different variables, so that a variable belongs to one place. -/
theorem eq_of_mem_zip {β : Type} {es : List Expr} {bs : List β} (hnodup : (listFree es).Nodup)
    {e e' : Expr} {c c' : β} (h : (e, c) ∈ es.zip bs) (h' : (e', c') ∈ es.zip bs)
    (hx : x ∈ e.free) (hx' : x ∈ e'.free) : (e, c) = (e', c') ∧ e.free.Nodup := by
  induction es generalizing bs with
  | nil => cases h
  | cons d es ih =>
    cases bs with
    | nil => cases h
    | cons b bs =>
      rw [listFree, List.nodup_append'] at hnodup
      rw [List.zip_cons_cons, List.mem_cons] at h h'
      rcases h with h | h
      · cases h
        rcases h' with h' | h'
        · cases h'
          exact ⟨rfl, hnodup.1⟩
        · exact absurd (mem_listFree (List.of_mem_zip h').1 hx') (hnodup.2.2 hx)
      · rcases h' with h' | h'
        · cases h'
          exact absurd (mem_listFree (List.of_mem_zip h).1 hx) (hnodup.2.2 hx')
        · exact ih hnodup.2.1 h h'

section

variable (hds : Distinct ds)

include hds

theorem Distinct.eq_of_typedef {name : Text} (h : .typedef name type ∈ ds)
    (h' : .typedef name type' ∈ ds) : type = type' := by
  have heq := eq_of_nodup_flatMap hds.types h h' (List.mem_singleton.mpr rfl)
    (List.mem_singleton.mpr rfl)
  exact (Decl.typedef.inj heq).2

theorem Distinct.eq_of_relation {q q' : Relation} (h : .relation q ∈ ds) (h' : .relation q' ∈ ds)
    (hname : q.name = q'.name) : q = q' := by
  have heq := eq_of_nodup_flatMap hds.types h h' (List.mem_singleton.mpr rfl)
    (List.mem_singleton.mpr hname)
  exact Decl.relation.inj heq

theorem Distinct.eq_of_variant {typeName name : Text} {vs : List Variant}
    (htype : .typedef typeName (.sum vs) ∈ ds) {fields fields' : List Column}
    (h : .mk name fields ∈ vs) (h' : .mk name fields' ∈ vs) : fields = fields' := by
  have hnames : (vs.map Variant.name).Nodup :=
    (List.nodup_flatMap.mp hds.constructors).1 (.typedef typeName (.sum vs)) htype
  have heq := List.inj_on_of_nodup_map hnames h h' rfl
  exact (Variant.mk.inj heq).2

/-- A pattern without repeated variables gives each of them one type. -/
theorem PatternTypes.unique {e : Expr} {t : Ty} (hnodup : e.free.Nodup)
    (h : PatternTypes ds e t x type) (h' : PatternTypes ds e t x type') : type = type' := by
  induction h with
  | var =>
    cases h'
    rfl
  | tuple h hx ih =>
    cases h' with
    | tuple h' hx' =>
      obtain ⟨heq, hfree⟩ := eq_of_mem_zip hnodup h h' hx.mem_free hx'.mem_free
      cases heq
      exact ih hfree hx'
  | @some e t x type hx ih =>
    cases h' with
    | some hx' =>
      refine ih ?_ hx'
      have hfree : listFree [e] = e.free := List.append_nil _
      exact hfree ▸ hnodup
  | field htype hv h hx ih =>
    cases h' with
    | field htype' hv' h' hx' =>
      cases hds.eq_of_typedef htype htype'
      cases hds.eq_of_variant htype hv hv'
      obtain ⟨heq, hfree⟩ := eq_of_mem_zip hnodup h h' hx.mem_free hx'.mem_free
      cases heq
      exact ih hfree hx'

end

/-! ## Rules -/

/-- The types of the variables that the body of a rule binds. -/
inductive Rule.Types (ds : Program) (r : Rule) : Text → Ty → Prop
  /-- A variable of an argument, by the column of the relation. -/
  | column {a : Atom} {q : Relation} {e : Expr} {c : Column} {x : Text} {type : Ty}
      (ha : .atom a ∈ r.body) (hq : .relation q ∈ ds) (hname : q.name = a.relation)
      (h : (e, c) ∈ a.args.zip q.columns) (hx : PatternTypes ds e c.type x type) :
      Rule.Types ds r x type
  /-- A variable that is assigned one of two numerals. -/
  | numeral {x thn els : Text} {cond : Expr} {w m n : Nat}
      (h : .assign x (.ifElse cond (.int thn) (.int els)) ∈ r.body)
      (hthn : numeral? thn = some (.bits w m)) (hels : numeral? els = some (.bits w n)) :
      Rule.Types ds r x (.bits (Int64.ofNat w))

/-- The types of variables in a literal of a rule.  Around it there may be a case, with the variable
that is matched and the pattern. -/
def Rule.TypesIn (ds : Program) (r : Rule) (around : Option (Text × Expr)) (x : Text) (type : Ty) :
    Prop :=
  r.Types ds x type ∨ ∃ q ∈ around, ∃ t, r.Types ds q.1 t ∧ PatternTypes ds q.2 t x type

theorem Rule.Types.exists_term {r : Rule} (h : r.Types ds x type) :
    ∃ t ∈ r.body, x ∈ t.binds := by
  cases h with
  | column ha hq hname h hx => exact ⟨_, ha, mem_listFree (List.of_mem_zip h).1 hx.mem_free⟩
  | numeral h => exact ⟨_, h, List.mem_singleton.mpr rfl⟩

theorem Rule.Types.mem_binds {r : Rule} (h : r.Types ds x type) : x ∈ r.binds := by
  obtain ⟨t, ht, hx⟩ := h.exists_term
  exact List.mem_flatMap.mpr ⟨t, ht, hx⟩

section

variable (hds : Distinct ds) {r : Rule} (hr : r.Fresh)

include hds hr

/-- A rule that binds no variable twice gives each of them one type. -/
theorem Rule.Types.unique (h : r.Types ds x type) (h' : r.Types ds x type') : type = type' := by
  cases h with
  | @column a q e c _ _ ha hq hname h hx =>
    have hmem : x ∈ (Term.atom a).binds := mem_listFree (List.of_mem_zip h).1 hx.mem_free
    cases h' with
    | @column a' q' e' c' _ _ ha' hq' hname' h' hx' =>
      have hmem' : x ∈ (Term.atom a').binds := mem_listFree (List.of_mem_zip h').1 hx'.mem_free
      cases eq_of_nodup_flatMap hr.terms ha ha' hmem hmem'
      cases hds.eq_of_relation hq hq' (hname.trans hname'.symm)
      have hnodup : (listFree a.args).Nodup := (List.nodup_flatMap.mp hr.terms).1 (.atom a) ha
      obtain ⟨heq, hfree⟩ := eq_of_mem_zip hnodup h h' hx.mem_free hx'.mem_free
      cases heq
      exact hx.unique hds hfree hx'
    | numeral h' =>
      cases eq_of_nodup_flatMap hr.terms ha h' hmem (List.mem_singleton.mpr rfl)
  | numeral h hthn =>
    cases h' with
    | @column a' q' e' c' _ _ ha' hq' hname' h' hx' =>
      have hmem' : x ∈ (Term.atom a').binds := mem_listFree (List.of_mem_zip h').1 hx'.mem_free
      cases eq_of_nodup_flatMap hr.terms h ha' (List.mem_singleton.mpr rfl) hmem'
    | numeral h' hthn' =>
      cases eq_of_nodup_flatMap hr.terms h h' (List.mem_singleton.mpr rfl)
        (List.mem_singleton.mpr rfl)
      cases hthn.symm.trans hthn'
      rfl

/-- **One type.**  Where no name is declared twice and no variable is bound twice, a variable in a
literal has at most one type. -/
theorem Rule.TypesIn.unique {around : Option (Text × Expr)}
    (haround : ∀ q ∈ around, q.2 ∈ r.body.flatMap Term.patterns) (h : r.TypesIn ds around x type)
    (h' : r.TypesIn ds around x type') : type = type' := by
  rcases h with h | ⟨q, hq, t, ht, hx⟩
  · rcases h' with h' | ⟨q, hq, t, ht, hx⟩
    · exact h.unique hds hr h'
    · exact absurd h.mem_binds ((hr.patterns _ (haround q hq)).2 hx.mem_free)
  · rcases h' with h' | ⟨q', hq', t', ht', hx'⟩
    · exact absurd h'.mem_binds ((hr.patterns _ (haround q hq)).2 hx.mem_free)
    · cases Option.mem_unique hq hq'
      cases ht.unique hds hr ht'
      exact hx.unique hds (hr.patterns _ (haround q hq)).1 hx'

end

end Flowline.Ddlog
