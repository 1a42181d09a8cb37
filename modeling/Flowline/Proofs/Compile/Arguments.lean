import Flowline.Proofs.Compile.Operands
import Flowline.Proofs.Lower.Arguments

/-!
# Arguments of actions

The constant arguments of an action are checked against the widths of its parameters, and then each
constant that is loaded is checked against the storage that it is loaded into.  Variables are not
checked at all.  So an action whose body is lowered with variables may be refused with arguments that
its parameters have room for, and it is so exactly if some variable is wider than what it is loaded
into, or some part of a parameter cannot be cut out of a constant (`arguments_fit_iff`).

In one direction the arguments are given, and what a body asks of them is read off its assignments
one by one (`exists_body_iff`).  In the other they are chosen: the largest number of a parameter has
all its bits (`largest`), so it is admitted only where the whole parameter fits.  Parts of parameters
are only cut.  They are moved between equal widths, and have no more bits than that.
-/

namespace Flowline.Compile

open Flow.Action (isStore)
open Lower
open Pipeline
open Source (Expr Stmt)
open Switch (Allocator Limits)

/-! ## Substitutions -/

/-- The first of its name is at the head of a list, and is looked up there, or it is in the tail. -/
theorem lookup_cons_of_find {p q : Param} {ps : List Param} (v : Flow.Expr) (sub : Substitution)
    (h : (p :: ps).find? (fun p => p.name == q.name) = some q) :
    p = q ∧ List.lookup q.name ((p.name, v) :: sub) = some v ∨
      ps.find? (fun p => p.name == q.name) = some q ∧
        List.lookup q.name ((p.name, v) :: sub) = sub.lookup q.name := by
  rw [List.find?_cons] at h
  rw [List.lookup_cons]
  cases hname : p.name == q.name with
  | true =>
    rw [hname] at h
    cases h
    rw [hname]
    exact .inl ⟨rfl, rfl⟩
  | false =>
    rw [hname] at h
    rw [BEq.comm, hname]
    exact .inr ⟨h, rfl⟩

theorem lookup_map_of_find {f : Param → Flow.Expr} {params : List Param} {q : Param}
    (h : params.find? (fun p => p.name == q.name) = some q) :
    (params.map fun p => (p.name, f p)).lookup q.name = some (f q) := by
  induction params with
  | nil => cases h
  | cons p ps ih =>
    rw [List.map_cons]
    rcases lookup_cons_of_find (f p) (ps.map fun p => (p.name, f p)) h with
      ⟨rfl, hlookup⟩ | ⟨hps, hlookup⟩
    · exact hlookup
    · exact hlookup.trans (ih hps)

theorem ensures_constArgsOf_fits {ps : List Param} {es : List Expr}
    (hlength : es.length = ps.length) :
    Ensures (constArgsOf ps es) fun _ sub => ∀ q,
      ps.find? (fun p => p.name == q.name) = some q →
        ∃ n base, sub.lookup q.name = some (.const n base) ∧ 0 ≤ n ∧
          (bitLength n : Int) ≤ q.type.width.toInt := by
  match ps, es with
  | [], _ => exact ensures_pure fun _ _ => nofun
  | _ :: _, [] => cases hlength
  | p :: ps, e :: es =>
    refine (ensures_constArg p e).bind fun r => ?_
    refine (ensures_constArgsOf_fits (Nat.succ.inj hlength)).bind fun sub => ensures_pure ?_
    rintro _ hsub ⟨n, base, rfl, hn, hfits⟩ q hq
    rcases lookup_cons_of_find (.const n base) sub hq with ⟨rfl, hlookup⟩ | ⟨hps, hlookup⟩
    · exact ⟨n, base, hlookup, hn, hfits⟩
    · rw [hlookup]
      exact hsub q hps

section

variable {act : Action} {q : Param}

theorem lookup_paramVars (hq : act.params.find? (fun p => p.name == q.name) = some q) :
    (paramVars act).lookup q.name = some (.var (paramVar q) q.type.width) :=
  lookup_map_of_find hq

/-- Arguments are constants that their parameters have room for. -/
theorem instantiates_of_constArgs {args : List Expr} {sub : Substitution} {b b' : Allocator}
    (h : Yields (constArgs act args) b sub b')
    (hq : act.params.find? (fun p => p.name == q.name) = some q) :
    Instantiates (paramVars act) sub q := by
  unfold constArgs at h
  split at h
  · exact absurd h not_yields_throw
  · next hlength =>
    exact ⟨⟨_, lookup_paramVars hq⟩,
      (ensures_constArgsOf_fits (not_ne_iff.mp hlength)).holds h (Grows.refl _) q hq⟩

end

/-! ## The widest arguments -/

/-- The largest number that a parameter has room for. -/
def largest (p : Param) : Int := 2 ^ p.type.width.toInt.toNat - 1

theorem bitLength_largest {p : Param} (h : 0 ≤ p.type.width.toInt) :
    (bitLength (largest p) : Int) = p.type.width.toInt := by
  rw [largest, bitLength_ones, Int.toNat_of_nonneg h]

theorem yields_constArg_largest {p : Param} (h : 0 ≤ p.type.width.toInt) (b : Allocator) :
    Yields (constArg p (.literal { value := largest p })) b (p.name, .const (largest p) 10) b := by
  have hpos : (0 : Int) < 2 ^ p.type.width.toInt.toNat := by positivity
  have hnonneg : ¬largest p < 0 := by
    rw [largest]
    omega
  have hvalue : Yields (value [] (.literal { value := largest p })) b (.const (largest p) 10) b := by
    rw [value, constant, if_neg hnonneg, if_neg fun hwidth => Int64.lt_irrefl hwidth.1]
    exact yields_pure.mpr ⟨rfl, rfl⟩
  refine yields_bind.mpr ⟨_, _, yields_bind.mpr ⟨_, _, hvalue, ?_⟩, yields_pure.mpr ⟨rfl, rfl⟩⟩
  dsimp only
  rw [if_neg (by rw [bitLength_largest h]; exact lt_irrefl _)]
  exact yields_pure.mpr ⟨rfl, rfl⟩

theorem yields_constArgsOf_largest {ps : List Param} (h : ∀ p ∈ ps, 0 ≤ p.type.width.toInt)
    (b : Allocator) :
    Yields (constArgsOf ps (ps.map fun p => .literal { value := largest p })) b
      (ps.map fun p => (p.name, .const (largest p) 10)) b := by
  induction ps with
  | nil => exact yields_pure.mpr ⟨rfl, rfl⟩
  | cons p ps ih =>
    rw [List.forall_mem_cons] at h
    refine yields_bind.mpr ⟨_, _, yields_constArg_largest h.1 b, ?_⟩
    exact yields_bind.mpr ⟨_, _, ih h.2, yields_pure.mpr ⟨rfl, rfl⟩⟩

theorem yields_constArgs_largest {act : Action} (h : ∀ p ∈ act.params, 0 ≤ p.type.width.toInt)
    (b : Allocator) :
    Yields (constArgs act (act.params.map fun p => .literal { value := largest p })) b
      (act.params.map fun p => (p.name, .const (largest p) 10)) b := by
  rw [constArgs, if_neg (by simp)]
  exact yields_constArgsOf_largest h b

/-! ## Loads of variables -/

/-- A whole parameter fits the storage that it is assigned to; a width of zero means any. -/
def WholeFits (left right : Expr) : Prop :=
  ∀ q, paramOf? right = some q → isWholeParam right = true →
    left.type.width = 0 ∨ q.type.width.toInt ≤ left.type.width.toInt

/-- If an assignment became the load of a variable, then the variable fits what it is assigned to; a
width of zero means any. -/
def LoadFits (s : Stmt) (x : Flow.Action) : Prop :=
  ∀ left right name width dst, s = .assign left right → x = .load (.var name width) dst →
    left.type.width = 0 ∨ width.toInt ≤ left.type.width.toInt

theorem find_of_names {fields : List Field} {locals : List Local} {params : List Param} {q : Param}
    {e : Expr} (h : Names fields locals params e) (hq : paramOf? e = some q) :
    params.find? (fun p => p.name == q.name) = some q := by
  cases e with
  | param _ _ =>
    cases hq
    exact h
  | slice e _ _ | cast _ e => exact find_of_names (e := e) h hq
  | _ => cases hq

section

variable {act : Action} {fields : List Field} {locals : List Local} {L : Layout}

theorem variableOf?_paramVars {q : Param} {e : Expr} (h : Names fields locals act.params e)
    (hq : paramOf? e = some q) :
    variableOf? (paramVars act) e = some (paramVar q, q.type.width) := by
  rw [variableOf?, hq, Option.bind_some, lookup_paramVars (find_of_names h hq)]

/-- What is loaded from a variable is a whole parameter. -/
theorem loadFits_assign_iff {left right : Expr} {x : Flow.Action}
    (h : Assigned L (paramVars act) left right x) (hright : Names fields locals act.params right) :
    LoadFits (.assign left right) x ↔ WholeFits left right := by
  obtain ⟨src, dst, -, hreads, -, hx⟩ := h.exists_operands
  constructor
  · intro hfits q hq hwhole
    have hvar := variableOf?_paramVars hright hq
    cases hreads with
    | storage he _ =>
      rw [paramOf?_of_isStorage he] at hq
      cases hq
    | constant _ hnone =>
      rw [hvar] at hnone
      cases hnone
    | whole _ hsome _ =>
      cases hvar.symm.trans hsome
      rcases hx with ⟨-, rfl⟩ | ⟨hmoved, -⟩
      · exact hfits left right _ _ dst rfl rfl
      · cases hmoved
    | part _ hpart =>
      rw [hpart.2] at hwhole
      cases hwhole
  · intro hfits left' right' name width dst' hassign hload
    cases hassign
    subst hload
    rcases hx with ⟨-, heq⟩ | ⟨-, -, heq⟩
    · cases heq
      cases hreads with
      | storage _ hv | part _ _ hv => cases hv
      | whole _ hsome hwhole =>
        obtain ⟨q, hq, -⟩ := Option.bind_eq_some_iff.mp hsome
        cases (variableOf?_paramVars hright hq).symm.trans hsome
        exact hfits q hq hwhole
    · cases heq

theorem forall₂_loadFits_iff {steps : List Stmt} {stores : List Flow.Action}
    (h : List.Forall₂ (Becomes L (paramVars act)) steps stores)
    (hnames : ∀ left right, .assign left right ∈ steps → Names fields locals act.params right) :
    List.Forall₂ LoadFits steps stores ↔
      ∀ left right, .assign left right ∈ steps → WholeFits left right := by
  induction h with
  | nil => exact ⟨fun _ _ _ => nofun, fun _ => .nil⟩
  | @cons s x ss xs hs _ ih =>
    have hrest := ih fun left right hmem => hnames left right (List.mem_cons_of_mem _ hmem)
    rw [List.forall₂_cons, hrest]
    constructor
    · rintro ⟨hfits, hall⟩ left right hmem
      rcases List.mem_cons.mp hmem with rfl | hmem
      · exact (loadFits_assign_iff hs (hnames left right List.mem_cons_self)).mp hfits
      · exact hall left right hmem
    · intro hall
      refine ⟨?_, fun left right hmem => hall left right (List.mem_cons_of_mem _ hmem)⟩
      intro left right name width dst hassign hload
      subst hassign
      exact (loadFits_assign_iff hs (hnames left right List.mem_cons_self)).mpr
        (hall left right List.mem_cons_self) left right name width dst rfl hload

end

/-! ## Bodies -/

section

variable {act : Action} {fields : List Field} {locals : List Local} {args : List Expr}
  {sub : Substitution} {a a' b b' : Allocator} {left right : Expr} {l : Limits}

theorem find_of_mem_steps (hnames : act.Names fields locals) {q : Param}
    (hmem : .assign left right ∈ stepsIn act.body) (hq : paramOf? right = some q) :
    act.params.find? (fun p => p.name == q.name) = some q :=
  find_of_names (hnames left right hmem).2 hq

/-- A body that is lowered with variables is lowered with the arguments that it admits. -/
theorem exists_body_iff (hnames : act.Names fields locals) {exitStage : Int64} {flow : Flow.Action}
    (h : Yields (body (paramVars act) exitStage act.body) a flow a')
    (hargs : Yields (constArgs act args) b sub b') :
    (∃ flow' a'', Yields (body sub exitStage act.body) a flow' a'') ↔
      AdmitsAll a.target.limits sub (stepsIn act.body) := by
  have hinst : InstantiatesAll (paramVars act) sub (stepsIn act.body) :=
    fun _ _ hmem _ hq => instantiates_of_constArgs hargs (find_of_mem_steps hnames hmem hq)
  have htracks := tracks_body (l := a.target.limits) StandsFor.vars.plain exitStage hinst
  constructor
  · rintro ⟨flow', a'', h'⟩
    exact (htracks.only rfl h h').1
  · intro hadmits
    obtain ⟨flow', h', -⟩ := htracks.succeeds rfl h hadmits
    exact ⟨flow', a', h'⟩

/-- The largest arguments are admitted only if their parameters fit. -/
theorem wholeFits_of_largest (hnames : act.Names fields locals)
    (hwidths : ∀ q ∈ act.params, 0 ≤ q.type.width.toInt)
    (hadmits : AdmitsAll l (act.params.map fun p => (p.name, .const (largest p) 10))
      (stepsIn act.body))
    (hmem : .assign left right ∈ stepsIn act.body) :
    WholeFits left right ∧ ((paramOf? right).isSome = true → CanCut l right) := by
  refine ⟨fun q hq hwhole => ?_, fun hsome => ?_⟩
  · have hfind := find_of_mem_steps hnames hmem hq
    have hfits := (hadmits left right hmem q _ _ hq (lookup_map_of_find hfind)).2 hwhole
    rwa [Fits, bitLength_largest (hwidths q (List.mem_of_find?_eq_some hfind))] at hfits
  · obtain ⟨q, hq⟩ := Option.isSome_iff_exists.mp hsome
    have hfind := find_of_mem_steps hnames hmem hq
    exact (hadmits left right hmem q _ _ hq (lookup_map_of_find hfind)).1

/-- If a parameter fits, then so does every argument for it. -/
theorem admits_of_wholeFits (hnames : act.Names fields locals)
    (hargs : Yields (constArgs act args) b sub b') (hmem : .assign left right ∈ stepsIn act.body)
    (hfits : WholeFits left right)
    (hcut : (paramOf? right).isSome = true → CanCut l right) : Admits l sub left right := by
  intro q n base hq hconst
  refine ⟨hcut (Option.isSome_of_eq_some hq), fun hwhole => ?_⟩
  obtain ⟨n', base', hconst', -, hbits⟩ :=
    (instantiates_of_constArgs hargs (find_of_mem_steps hnames hmem hq)).exists_const
  cases hconst.symm.trans hconst'
  rcases hfits q hq hwhole with hzero | hle
  · exact .inl hzero
  · exact .inr (hbits.trans hle)

end

/-- **Variables that are loaded need not fit, and arguments do.**  Let the body of an action of an
accepted program be lowered with variables for its parameters.  With given constant arguments it is
lowered if and only if each assignment that is reached admits them: what is cut of an argument can be
cut, and an argument that is loaded as a whole fits the storage.  If no parameter has a negative
width, then the body is lowered with all arguments if and only if every variable that is loaded fits
the storage that it is loaded into, and all cuts of parameters are possible. -/
theorem arguments_fit_iff {d : Description.Program} {p : Program} (hload : ofDescription d = .ok p)
    {c : Control} (hc : c ∈ p.controls) {act : Action} (hact : act ∈ c.actions) {exitStage : Int64}
    {flow : Flow.Action} {a a' : Allocator}
    (h : Yields (body (paramVars act) exitStage act.body) a flow a') :
    (∀ args sub b b', Yields (constArgs act args) b sub b' →
      ((∃ flow' a'', Yields (body sub exitStage act.body) a flow' a'') ↔
        AdmitsAll a.target.limits sub (stepsIn act.body))) ∧
    ((∀ q ∈ act.params, 0 ≤ q.type.width.toInt) →
      ((∀ args sub b b', Yields (constArgs act args) b sub b' →
          ∃ flow' a'', Yields (body sub exitStage act.body) a flow' a'') ↔
        List.Forall₂ LoadFits (stepsIn act.body) (flow.leaves.filter isStore) ∧
          ∀ left right, .assign left right ∈ stepsIn act.body → (paramOf? right).isSome = true →
            CanCut a.target.limits right)) := by
  have hnames := names_of_ofDescription hload hc hact
  refine ⟨fun args sub b b' hargs => exists_body_iff hnames h hargs, fun hwidths => ?_⟩
  obtain ⟨stores, hsteps, hstores, hdoing⟩ :=
    (ensures_body_laid (lays_becomes StandsFor.vars.plain) exitStage act.body).holds h
      (Grows.refl _)
  rw [filter_isStore_laid hstores hdoing,
    forall₂_loadFits_iff hsteps fun left right hmem => (hnames left right hmem).2]
  constructor
  · intro hall
    have hargs := yields_constArgs_largest hwidths a
    have hadmits := (exists_body_iff hnames h hargs).mp (hall _ _ _ _ hargs)
    exact ⟨fun left right hmem => (wholeFits_of_largest hnames hwidths hadmits hmem).1,
      fun left right hmem => (wholeFits_of_largest hnames hwidths hadmits hmem).2⟩
  · rintro ⟨hfits, hcuts⟩ args sub b b' hargs
    refine (exists_body_iff hnames h hargs).mpr fun left right hmem => ?_
    exact admits_of_wholeFits hnames hargs hmem (hfits left right hmem) (hcuts left right hmem)

/-! ## A wide parameter -/

/-- A program with an action that sets a metadata field of eight bits to a parameter of sixteen. -/
def wideDescription : Description.Program where
  metadata := [{ name := "x", width := 8 }]
  ingress := some { idleControl with
    actions := [{ name := "a", params := [{ name := "q", width := 16 }], body := "m.x=q;" }] }
  egress := some idleControl

/-- The flow of the action: a load of sixteen bits into eight. -/
def wideFlow : Flow.Action :=
  .load (.var "p_q" 16)
    (.reg { number := 0, bundle := 1, size := 32, low := 0, high := 7, owner := "meta.x" })

/-- The parameter stands for a number. -/
def wideArgs (n : Int) : Substitution := [("q", .const n 10)]

/-- Two numbers of up to sixteen bits. -/
def wideNumbers : List Int := [255, 65535]

/-- The action has a flow with a variable, and with the number 255, but not with 65535. -/
structure IsWide (act : Action) : Prop where
  flow : ∃ a', Yields (body (paramVars act) 0 act.body) (.fresh {}) wideFlow a'
  args : ∀ n ∈ wideNumbers, ∃ b', Yields (constArgs act [.literal { value := n }]) (.fresh {})
    (wideArgs n) b'
  narrow : ∃ flow a', Yields (body (wideArgs 255) 0 act.body) (.fresh {}) flow a'
  wide : ∀ flow a', ¬Yields (body (wideArgs 65535) 0 act.body) (.fresh {}) flow a'

theorem exists_wideDescription :
    ∃ p c act, ofDescription wideDescription = .ok p ∧ c ∈ p.controls ∧ act ∈ c.actions ∧
      IsWide act := by
  obtain ⟨p, c, act, hload, hc, hact, htest⟩ := exists_action_of_accepts wideDescription
    (fun act => decide
      (result? (body (paramVars act) 0 act.body) (.fresh {}) = some wideFlow ∧
      (∀ n ∈ wideNumbers,
        result? (constArgs act [.literal { value := n }]) (.fresh {}) = some (wideArgs n)) ∧
      (result? (body (wideArgs 255) 0 act.body) (.fresh {})).isSome = true ∧
      result? (body (wideArgs 65535) 0 act.body) (.fresh {}) = none)) (by decide +kernel)
  obtain ⟨hflow, hargs, hnarrow, hwide⟩ := of_decide_eq_true htest
  obtain ⟨flow, hflow'⟩ := Option.isSome_iff_exists.mp hnarrow
  refine ⟨p, c, act, hload, hc, hact, exists_yields_of_result? hflow,
    fun n hn => exists_yields_of_result? (hargs n hn), ⟨flow, exists_yields_of_result? hflow'⟩, ?_⟩
  intro flow a' hyields
  cases hwide.symm.trans hyields.result?

/-- The action admits the number 255, and not 65535. -/
theorem arguments_fit_iff_wideDescription :
    ∃ p c act a', ofDescription wideDescription = .ok p ∧ c ∈ p.controls ∧ act ∈ c.actions ∧
      Yields (body (paramVars act) 0 act.body) (.fresh {}) wideFlow a' ∧
      AdmitsAll {} (wideArgs 255) (stepsIn act.body) ∧
      ¬AdmitsAll {} (wideArgs 65535) (stepsIn act.body) := by
  obtain ⟨p, c, act, hload, hc, hact, hwide⟩ := exists_wideDescription
  obtain ⟨a', hflow⟩ := hwide.flow
  obtain ⟨b, hnarrow⟩ := hwide.args 255 (by decide)
  obtain ⟨b', hlarge⟩ := hwide.args 65535 (by decide)
  obtain ⟨hgiven, -⟩ := arguments_fit_iff hload hc hact hflow
  refine ⟨p, c, act, a', hload, hc, hact, hflow, ?_, fun hadmits => ?_⟩
  · exact (hgiven _ _ _ _ hnarrow).mp hwide.narrow
  · obtain ⟨flow', a'', hyields⟩ := (hgiven _ _ _ _ hlarge).mpr hadmits
    exact hwide.wide flow' a'' hyields

/-- The body is lowered with a variable, and refused with an argument that the parameter has room
for. -/
theorem argument_refused_wideDescription :
    ∃ p c act a' b', ofDescription wideDescription = .ok p ∧ c ∈ p.controls ∧ act ∈ c.actions ∧
      Yields (body (paramVars act) 0 act.body) (.fresh {}) wideFlow a' ∧
      Yields (constArgs act [.literal { value := 65535 }]) (.fresh {}) (wideArgs 65535) b' ∧
      ∀ flow a'', ¬Yields (body (wideArgs 65535) 0 act.body) (.fresh {}) flow a'' := by
  obtain ⟨p, c, act, hload, hc, hact, hwide⟩ := exists_wideDescription
  obtain ⟨a', hflow⟩ := hwide.flow
  obtain ⟨b', hargs⟩ := hwide.args 65535 (by decide)
  exact ⟨p, c, act, a', b', hload, hc, hact, hflow, hargs, hwide.wide⟩

end Flowline.Compile
