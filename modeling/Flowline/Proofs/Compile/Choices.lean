import Flowline.Proofs.Compile.Capture
import Flowline.Proofs.Compile.Validation
import Flowline.Proofs.Flow.Separators

/-!
# Texts of rules with optional keys

A row need not have a value for an optional key.  The rule then has two cases for what the key adds
to the match, and interpolates the one that the row chooses.  `StageFlow.guardText?` is the text of
the match with the cases in their places.

Whatever is chosen, this text is that of the stage and the priority, followed by conditions, each
with one comma in front: the prerequisites of the keys that every row has a value for, each once, and
then what the keys compare, in their order.  An optional key brings its own prerequisites, or is
absent.

The commas are the point.  A key that is absent leaves no comma behind, because its text has its own
in front; and there is always something in front of it, the priority.  A condition with an empty text
would still leave two commas side by side, which only a prerequisite that is declared empty can do.

Cases are put in by the name of their variable.  Other interpolations must stay as they are, and they
do because the variables of texts have a mark of their own (`mark_ne_of_mem_vars`).
-/

namespace Flowline.Compile

open Flowline.Flow (Chosen Hole Match holes instantiate? listed movedHole)
open ControlFlow (Graph Vertex)
open Lower
open Pipeline (Key Table)
open Switch (Allocator Register)

/-! ## Cases -/

/-- Whether a binding has a case for rows without a value. -/
def Binding.isOptional : Binding → Bool
  | .optional .. => true
  | _ => false

/-- The variable of a binding with two cases, and the text of one of them, as its term has it. -/
def Binding.case? (present : Bool) (x : Binding) : Option (Text × Text) :=
  match x.term with
  | .assign name (.choose _ [.mk _ (.str value), .mk _ (.str nothing)]) =>
    some (name, if present then value else nothing)
  | _ => none

/-- The cases of the bindings that have one for rows without a value. -/
def chosenCases (xs : List Binding) (present : List Bool) : List (Text × Text) :=
  ((xs.filter Binding.isOptional).zip present).filterMap fun q => q.1.case? q.2

/-- The text of the match of a rule, for rows that have or lack values of the optional keys. -/
def StageFlow.guardText? (f : StageFlow) (present : List Bool) : Option Text :=
  instantiate? (chosenCases f.bindings present) f.flow.guard.pieces

variable {xs : List Binding} {name : Text} {v : Vertex}

theorem chosenCases_append {ys : List Binding} (hxs : ∀ x ∈ xs, x.isOptional = false)
    (present : List Bool) : chosenCases (xs ++ ys) present = chosenCases ys present := by
  have hnil : xs.filter Binding.isOptional = [] :=
    List.filter_eq_nil_iff.mpr fun x hx => Bool.not_eq_true _ ▸ hxs x hx
  rw [chosenCases, List.filter_append, hnil, List.nil_append]
  rfl

theorem chosenCases_append_right {ys : List Binding} (hys : ∀ y ∈ ys, y.isOptional = false)
    (present : List Bool) : chosenCases (xs ++ ys) present = chosenCases xs present := by
  have hnil : ys.filter Binding.isOptional = [] :=
    List.filter_eq_nil_iff.mpr fun y hy => Bool.not_eq_true _ ▸ hys y hy
  rw [chosenCases, List.filter_append, hnil, List.append_nil]
  rfl

theorem chosenCases_optional (name source value : Text) (m : Match) (xs : List Binding) (here : Bool)
    (present : List Bool) :
    chosenCases (.optional name source value m :: xs) (here :: present) =
      (name, if here then ", " ++ m.text else "") :: chosenCases xs present := rfl

/-! ## Conditions -/

/-- A key of a table with the value that it is matched against. -/
structure LoweredKey where
  key : Key
  left : Flow.Expr

namespace LoweredKey

/-- What a key compares, with the variables of a row. -/
def comparison (q : LoweredKey) : Match :=
  let var (name : Text) : Flow.Expr := .var name q.key.expr.type.width
  match q.key.kind with
  | .exact =>
    .equals q.left
      (var (if q.key.expr.type.isBool then "b_" ++ identifier q.key.name else keyVar q.key)) none
  | .ternary =>
    .equals q.left (var (keyVar q.key ++ "_value")) (some (var (keyVar q.key ++ "_mask")))
  | .lpm =>
    .equals q.left (var (keyVar q.key ++ "_value"))
      (some (var (prefixMaskName q.key.expr.type.width ++ "(" ++ keyVar q.key ++ "_plen)")))
  | .optional | .range => .equals q.left (var ("v_" ++ identifier q.key.name)) none

/-- The conditions of a key.  Those of an optional key stand in a text of their own, which is not
simplified, with its prerequisites. -/
def conditions (q : LoweredKey) (present : Bool) : List Match :=
  if q.key.kind = .optional then
    if present then prereqs q.key.expr ++ [q.comparison] else []
  else [q.comparison.simplify]

end LoweredKey

/-- The keys of a table, each with whether a row has a value for it. -/
abbrev RowKeys := List (LoweredKey × Bool)

/-- Which of the optional keys have a value. -/
def RowKeys.present (row : RowKeys) : List Bool :=
  (row.filter fun q => q.1.key.kind = .optional).map Prod.snd

/-- The keys that every row has a value for. -/
def givenKeys (qs : List LoweredKey) : List Source.Expr :=
  (qs.filter fun q => q.key.kind ≠ .optional).map fun q => q.key.expr

/-- The conditions of the flow of a row behind its stage and its priority: the prerequisites of the
keys that every row has a value for, each once, and then the keys. -/
def RowKeys.conditions (row : RowKeys) : List Match :=
  ((givenKeys (row.map Prod.fst)).flatMap prereqs).eraseDups ++
    row.flatMap fun q => q.1.conditions q.2

/-- The keys of a table with the values that they were lowered to. -/
structure KeysLowered (a : Allocator) (t : Table) (qs : List LoweredKey) : Prop where
  keys : qs.map LoweredKey.key = t.keys
  gives : ∀ q ∈ qs, Gives a (value [] q.key.expr) q.left

/-! ## Keys of a rule -/

/-- The match of a key has the form that its kind asks for. -/
theorem KeyForm.of_not_optional {q : LoweredKey} {km : KeyMatch} (h : KeyForm q.key q.left km)
    (hkind : q.key.kind ≠ .optional) :
    km.guard = q.comparison ∧ km.prereqs = prereqs q.key.expr ∧
      ∀ x ∈ km.bindings, x.isOptional = false := by
  unfold LoweredKey.comparison
  cases h with
  | truth hexact hbool =>
    rw [hexact, hbool]
    exact ⟨rfl, rfl, List.forall_mem_singleton.mpr rfl⟩
  | exact hexact hbool =>
    rw [hexact, hbool]
    exact ⟨rfl, rfl, List.forall_mem_nil _⟩
  | ternary hternary =>
    rw [hternary]
    exact ⟨rfl, rfl, List.forall_mem_nil _⟩
  | lpm hlpm =>
    rw [hlpm]
    exact ⟨rfl, rfl, List.forall_mem_nil _⟩
  | optional hoptional => exact absurd hoptional hkind

theorem KeyForm.of_optional {q : LoweredKey} {km : KeyMatch} (h : KeyForm q.key q.left km)
    (hkind : q.key.kind = .optional) :
    ∃ m, Match.all? (prereqs q.key.expr ++ [q.comparison]) = some m ∧
      km = ⟨.var (keyVar q.key), [.optional ("m_" ++ identifier q.key.name) (keyVar q.key)
          ("v_" ++ identifier q.key.name) m], .interpolated ("m_" ++ identifier q.key.name), []⟩ := by
  unfold LoweredKey.comparison
  cases h with
  | optional _ hm =>
    rw [hkind]
    exact ⟨_, hm, rfl⟩
  | truth hexact | exact hexact => exact absurd (hkind.symm.trans hexact) (by decide)
  | ternary hternary => exact absurd (hkind.symm.trans hternary) (by decide)
  | lpm hlpm => exact absurd (hkind.symm.trans hlpm) (by decide)

/-! ## Names -/

theorem mark_movedHole (name : Text) (r : Register) : mark (movedHole name r) ≠ "m_".toList := by
  intro h
  have hhead := congrArg List.head? h
  rw [mark, movedHole] at hhead
  simp [String.toList_append] at hhead

theorem mark_keyVar_append (k : Key) (t : Text) : mark (keyVar k ++ t) = "k_".toList := by
  rw [keyVar, String.append_assoc]
  exact mark_append rfl _

theorem mark_prefixMaskName_append (width : Int64) (t : Text) :
    mark (prefixMaskName width ++ t) = "pr".toList := by
  have hfront : "prefix_mask_" = "pr" ++ "efix_mask_" := rfl
  rw [prefixMaskName, hfront, String.append_assoc, String.append_assoc]
  exact mark_append rfl _

section

variable {q : LoweredKey}

theorem exists_comparison_eq (q : LoweredKey) :
    ∃ right mask, q.comparison = .equals q.left right mask := by
  unfold LoweredKey.comparison
  cases q.key.kind <;> exact ⟨_, _, rfl⟩

/-- The variables of what a key compares bear other marks than the texts of optional keys. -/
theorem mark_ne_of_mem_vars (hleft : q.left.vars = []) (h : name ∈ q.comparison.vars) :
    mark name ≠ "m_".toList := by
  have hmarks : ∀ {m : List Char}, mark name = m → m ≠ "m_".toList → mark name ≠ "m_".toList :=
    fun heq hne => heq ▸ hne
  unfold LoweredKey.comparison at h
  dsimp only at h
  split at h
  all_goals simp only [Match.vars, hleft, Flow.Expr.vars, List.nil_append, Option.elim,
    List.append_nil, List.singleton_append, List.mem_cons, List.not_mem_nil, or_false] at h
  · rw [h]
    split
    · rw [mark_append rfl]
      decide
    · rw [keyVar, mark_append rfl]
      decide
  · rcases h with rfl | rfl
    · exact hmarks (mark_keyVar_append _ _) (by decide)
    · exact hmarks (mark_keyVar_append _ _) (by decide)
  · rcases h with rfl | rfl
    · exact hmarks (mark_keyVar_append _ _) (by decide)
    · rw [String.append_assoc, String.append_assoc, mark_prefixMaskName_append]
      decide
  all_goals
    rw [h, mark_append rfl]
    decide

theorem mark_ne_of_mem_holes (hleft : q.left.vars = [])
    (h : name ∈ holes q.comparison.simplify.pieces) : mark name ≠ "m_".toList := by
  have hhole : Hole q.comparison.vars name := Match.vars_simplify q.comparison ▸ Match.hole_of_mem h
  cases hhole with
  | bare h => exact mark_ne_of_mem_vars hleft h
  | moved h r => exact mark_movedHole _ r

end

/-! ## Choosing cases -/

theorem conditions_prereqs (e : Source.Expr) :
    (prereqs e).flatMap Match.conditions = prereqs e := by
  rw [prereqs, List.flatMap_map]
  exact List.map_eq_flatMap.symm

section

variable {q : LoweredKey} {km : KeyMatch}

theorem simplify_comparison (q : LoweredKey) :
    ∃ right mask, q.comparison.simplify = .equals q.left.fold.1 right mask := by
  obtain ⟨right, mask, heq⟩ := exists_comparison_eq q
  rw [heq, Match.simplify_eq_pass]
  exact ⟨right, mask, rfl⟩

/-- The text of an optional key with a value lists its conditions. -/
theorem listed_optional {m : Match}
    (h : Match.all? (prereqs q.key.expr ++ [q.comparison]) = some m) :
    listed ((prereqs q.key.expr ++ [q.comparison]).map Match.text) = ", " ++ m.text := by
  obtain ⟨right, mask, heq⟩ := exists_comparison_eq q
  have hconditions : m.conditions = prereqs q.key.expr ++ [q.comparison] := by
    rw [Match.conditions_all? h, List.flatMap_append, conditions_prereqs, heq]
    rfl
  rw [← hconditions, Match.listed_conditions]
  intro c hc
  rcases List.mem_append.mp (hconditions ▸ hc) with hc | hc
  · obtain ⟨t, -, rfl⟩ := List.mem_map.mp hc
    exact fun name => by simp
  · cases List.mem_singleton.mp hc
    exact fun name => by simp [heq]

/-- The cases of a key bear the mark of the texts of optional keys. -/
theorem KeyForm.mark_case (h : KeyForm q.key q.left km) {x : Binding} (hx : x ∈ km.bindings)
    (hoptional : x.isOptional = true) {here : Bool} {p : Text × Text} (hp : x.case? here = some p) :
    mark p.1 = "m_".toList := by
  cases h with
  | optional =>
    cases List.mem_singleton.mp hx
    cases hp
    exact mark_append rfl _
  | truth =>
    cases List.mem_singleton.mp hx
    cases hoptional
  | _ => cases hx

theorem chosen_cons_key (h : KeyForm q.key q.left km) (hleft : q.left.vars = [])
    {ms cs : List Match} {present : List Bool}
    (hmarks : ∀ p ∈ chosenCases xs present, mark p.1 = "m_".toList)
    (hrest : Chosen ms (chosenCases xs present) cs) (here : Bool) :
    Chosen (km.guard.simplify :: ms)
      (chosenCases (km.bindings ++ xs) (RowKeys.present [(q, here)] ++ present))
      (q.conditions here ++ cs) := by
  by_cases hkind : q.key.kind = .optional
  · obtain ⟨m, hm, rfl⟩ := h.of_optional hkind
    have hcase : (if here then ", " ++ m.text else "") =
        listed ((q.conditions here).map Match.text) := by
      rw [LoweredKey.conditions, if_pos hkind]
      cases here with
      | true => exact (listed_optional hm).symm
      | false => rfl
    have hpresent : RowKeys.present [(q, here)] = [here] := by
      simp [RowKeys.present, hkind]
    rw [hpresent, List.singleton_append, List.singleton_append, chosenCases_optional, hcase]
    exact .replace hrest
  · obtain ⟨hguard, -, hbindings⟩ := h.of_not_optional hkind
    have hpresent : RowKeys.present [(q, here)] = [] := by
      simp [RowKeys.present, hkind]
    obtain ⟨right, mask, heq⟩ := simplify_comparison q
    rw [hpresent, List.nil_append, chosenCases_append hbindings, hguard, LoweredKey.conditions,
      if_neg hkind]
    refine .keep (fun name => by simp [heq]) (fun p hp hmem => ?_) hrest
    exact mark_ne_of_mem_holes hleft hmem (hmarks p hp)

end

/-- The matches of the keys of a rule. -/
def KeyForms (qs : List LoweredKey) (kms : List KeyMatch) : Prop :=
  List.Forall₂ (fun q km => KeyForm q.key q.left km) qs kms

theorem mark_of_mem_chosenCases {qs : List LoweredKey} {kms : List KeyMatch} (h : KeyForms qs kms)
    {present : List Bool} {p : Text × Text}
    (hp : p ∈ chosenCases (kms.flatMap (·.bindings)) present) : mark p.1 = "m_".toList := by
  obtain ⟨⟨x, here⟩, hx, hp⟩ := List.mem_filterMap.mp hp
  obtain ⟨hx, hoptional⟩ := List.mem_filter.mp (List.of_mem_zip hx).1
  obtain ⟨km, hkm, hx⟩ := List.mem_flatMap.mp hx
  obtain ⟨q, -, hform⟩ := exists_of_mem_right h hkm
  exact hform.mark_case hx hoptional hp

/-- **The keys of a rule**, whatever cases are chosen. -/
theorem chosen_keys {row : RowKeys} {kms : List KeyMatch} (h : KeyForms (row.map Prod.fst) kms)
    (hleft : ∀ q ∈ row, q.1.left.vars = []) :
    Chosen ((kms.map (·.guard)).map Match.simplify)
      (chosenCases (kms.flatMap (·.bindings)) row.present)
      (row.flatMap fun q => q.1.conditions q.2) := by
  induction row generalizing kms with
  | nil =>
    cases h
    exact .nil
  | cons q row ih =>
    obtain ⟨km, kms, hform, hrest, rfl⟩ := List.forall₂_cons_left_iff.mp h
    rw [List.forall_mem_cons] at hleft
    have hpresent : RowKeys.present (q :: row) = RowKeys.present [q] ++ RowKeys.present row := by
      rw [RowKeys.present, ← List.singleton_append, List.filter_append, List.map_append]
      rfl
    rw [List.map_cons, List.map_cons, List.flatMap_cons, List.flatMap_cons, hpresent]
    exact chosen_cons_key hform hleft.1 (fun p => mark_of_mem_chosenCases hrest)
      (ih hrest hleft.2) q.2

/-! ## Rules -/

/-- The priority of the flows of a rule. -/
def rulePriority (t : Table) : Flow.Expr :=
  if allExact t then .number highPriority else .var "priority" 32

/-- The match that all flows of a rule begin with. -/
def ruleHead (t : Table) (v : Vertex) : Match := .seq (.table v.id) (.priority (rulePriority t))

theorem mark_ne_of_mem_ruleHead {t : Table} (h : name ∈ holes (ruleHead t v).pieces) :
    mark name ≠ "m_".toList := by
  have hvars : name ∈ (rulePriority t).vars := Flow.Expr.holes_pieces _ ▸ h
  unfold rulePriority at hvars
  split at hvars
  · cases hvars
  · cases List.mem_singleton.mp hvars
    decide

section

variable {t : Table} {qs : List LoweredKey} {kms : List KeyMatch}

/-- The prerequisites of a rule are those of the keys that every row has a value for. -/
theorem flatMap_prereqs (h : KeyForms qs kms) :
    kms.flatMap (·.prereqs) = (givenKeys qs).flatMap prereqs := by
  induction h with
  | nil => rfl
  | @cons q km qs kms hform _ ih =>
    rw [List.flatMap_cons, ih]
    by_cases hkind : q.key.kind = .optional
    · obtain ⟨m, -, rfl⟩ := hform.of_optional hkind
      rw [givenKeys, givenKeys, List.filter_cons_of_neg (by simpa using hkind)]
      rfl
    · rw [givenKeys, givenKeys, List.filter_cons_of_pos (by simpa using hkind), List.map_cons,
        List.flatMap_cons, (hform.of_not_optional hkind).2.1]

theorem exists_prereq_of_mem {m : Match} (h : KeyForms qs kms)
    (hm : m ∈ (kms.flatMap (·.prereqs)).eraseDups) : ∃ text, m = .prereq text := by
  rw [List.mem_eraseDups, flatMap_prereqs h] at hm
  obtain ⟨e, -, hm⟩ := List.mem_flatMap.mp hm
  obtain ⟨text, -, rfl⟩ := List.mem_map.mp hm
  exact ⟨text, rfl⟩

/-- Simplifying leaves prerequisites alone. -/
theorem simplify_entryGuard (h : KeyForms qs kms) (v : Vertex) :
    (entryGuard t v kms).simplify =
      ((kms.flatMap (·.prereqs)).eraseDups ++ (kms.map (·.guard)).map Match.simplify).foldl .seq
        (ruleHead t v) := by
  have hprereqs : (kms.flatMap (·.prereqs)).eraseDups.map Match.simplify =
      (kms.flatMap (·.prereqs)).eraseDups := by
    refine (List.map_congr_left fun m hm => ?_).trans (List.map_id _)
    obtain ⟨text, rfl⟩ := exists_prereq_of_mem h hm
    rfl
  rw [entryGuard, stageGuard, Match.simplify_foldl, List.map_append, hprereqs]
  rfl

/-- **The text of a rule**, whatever cases are chosen. -/
theorem guardText?_rule {row : RowKeys} (h : KeyForms (row.map Prod.fst) kms)
    (hleft : ∀ q ∈ row, q.1.left.vars = []) (v : Vertex) (comment : Text) (act : Flow.Action)
    {chosen : List Binding} (hchosen : ∀ x ∈ chosen, x.isOptional = false) :
    (flowOf comment (entryGuard t v kms) act
      (entryRow t kms :: kms.flatMap (·.bindings) ++ chosen)).guardText? row.present =
        some ((ruleHead t v).text ++ listed (row.conditions.map Match.text)) := by
  -- neither the row nor a choice of actions has a case for rows without a value
  have hbindings : chosenCases (entryRow t kms :: kms.flatMap (·.bindings) ++ chosen) row.present =
      chosenCases (kms.flatMap (·.bindings)) row.present := by
    rw [chosenCases_append_right hchosen, ← List.singleton_append,
      chosenCases_append (List.forall_mem_singleton.mpr rfl)]
  have hmarks : ∀ p ∈ chosenCases (kms.flatMap (·.bindings)) row.present,
      mark p.1 = "m_".toList := fun p => mark_of_mem_chosenCases h
  have hkept : Chosen
      ((kms.flatMap (·.prereqs)).eraseDups ++ (kms.map (·.guard)).map Match.simplify)
      (chosenCases (kms.flatMap (·.bindings)) row.present)
      ((kms.flatMap (·.prereqs)).eraseDups ++ row.flatMap fun q => q.1.conditions q.2) := by
    refine (chosen_keys h hleft).keep_all fun m hm => ?_
    obtain ⟨text, rfl⟩ := exists_prereq_of_mem h hm
    exact ⟨fun name => by simp, fun p _ => List.not_mem_nil⟩
  show instantiate? (chosenCases (entryRow t kms :: kms.flatMap (·.bindings) ++ chosen) row.present)
    (entryGuard t v kms).simplify.pieces = _
  rw [hbindings, simplify_entryGuard h, Match.pieces_foldl,
    Flow.instantiate?_append fun p hp hmem => mark_ne_of_mem_ruleHead hmem (hmarks p hp),
    hkept.instantiate?_eq, Option.map_some, Match.render_pieces, RowKeys.conditions,
    flatMap_prereqs h]

end

theorem isOptional_of_ruleAction {t : Table} {g : Graph} {act : Flow.Action} {chosen : List Binding}
    (h : RuleAction t g v act chosen) : ∀ x ∈ chosen, x.isOptional = false := by
  cases h with
  | only => exact List.forall_mem_nil _
  | choice => exact List.forall_mem_singleton.mpr rfl

theorem exists_keysLowered {b : State} {t : Table} {kms : List KeyMatch}
    (h : List.Forall₂ (KeyOf b) t.keys kms) :
    ∃ qs, KeysLowered b.allocator t qs ∧ KeyForms qs kms := by
  suffices hkeys : ∀ ks, List.Forall₂ (KeyOf b) ks kms → ∃ qs : List LoweredKey,
      qs.map LoweredKey.key = ks ∧
      (∀ q ∈ qs, Gives b.allocator (value [] q.key.expr) q.left) ∧ KeyForms qs kms by
    obtain ⟨qs, hqs, hgives, hforms⟩ := hkeys t.keys h
    exact ⟨qs, ⟨hqs, hgives⟩, hforms⟩
  clear h
  intro ks h
  induction h with
  | nil => exact ⟨[], rfl, List.forall_mem_nil _, .nil⟩
  | @cons k km ks kms hk _ ih =>
    obtain ⟨left, hgives, hform, -⟩ := hk
    obtain ⟨qs, rfl, hqs, hforms⟩ := ih
    exact ⟨⟨k, left⟩ :: qs, rfl, List.forall_mem_cons.mpr ⟨hgives, hqs⟩, .cons hform hforms⟩

/-- The text of the flow of the rows of a table. -/
theorem RuleFlow.exists_guardText? {b : State} {t : Table} {g : Graph} {f : StageFlow}
    (h : RuleFlow b t g v f) :
    ∃ qs, KeysLowered b.allocator t qs ∧ ∀ row : RowKeys, row.map Prod.fst = qs →
      f.guardText? row.present =
        some ((ruleHead t v).text ++ listed (row.conditions.map Match.text)) := by
  obtain ⟨kms, act, chosen, hkms, haction, rfl⟩ := h
  obtain ⟨qs, hqs, hforms⟩ := exists_keysLowered hkms
  refine ⟨qs, hqs, ?_⟩
  rintro row rfl
  refine guardText?_rule hforms (fun q hq => ?_) v _ act (isOptional_of_ruleAction haction)
  exact (ensures_value_nil _).of_gives (hqs.gives q.1 (List.mem_map_of_mem hq))

/-! ## Conditions are not empty -/

theorem equalsText_ne_empty (left right : Flow.Expr) (mask : Option Flow.Expr) :
    Flow.equalsText left right mask ≠ "" := by
  unfold Flow.equalsText
  split <;> simp

theorem text_ne_empty_of_mem_prereqs {e : Source.Expr} (he : ∀ f ∈ fieldsRead e, f.prereq ≠ some "")
    {c : Match} (hc : c ∈ prereqs e) : c.text ≠ "" := by
  obtain ⟨text, htext, rfl⟩ := List.mem_map.mp hc
  rw [List.mem_eraseDups, prereqTexts_eq] at htext
  obtain ⟨f, hf, htext⟩ := List.mem_flatMap.mp htext
  rintro rfl
  exact he f hf (Option.mem_toList.mp htext)

theorem RowKeys.text_ne_empty {row : RowKeys}
    (h : ∀ q ∈ row, ∀ f ∈ fieldsRead q.1.key.expr, f.prereq ≠ some "") :
    ∀ c ∈ row.conditions, c.text ≠ "" := by
  have hcompared : ∀ q : LoweredKey, q.comparison.text ≠ "" ∧ q.comparison.simplify.text ≠ "" := by
    intro q
    obtain ⟨right, mask, heq⟩ := exists_comparison_eq q
    obtain ⟨right', mask', heq'⟩ := simplify_comparison q
    rw [heq', heq]
    exact ⟨equalsText_ne_empty _ _ _, equalsText_ne_empty _ _ _⟩
  intro c hc
  rcases List.mem_append.mp hc with hc | hc
  · obtain ⟨e, he, hc⟩ := List.mem_flatMap.mp (List.mem_eraseDups.mp hc)
    obtain ⟨k, hk, rfl⟩ := List.mem_map.mp he
    obtain ⟨q, hq, rfl⟩ := List.mem_map.mp (List.mem_filter.mp hk).1
    exact text_ne_empty_of_mem_prereqs (h q hq) hc
  · obtain ⟨q, hq, hc⟩ := List.mem_flatMap.mp hc
    unfold LoweredKey.conditions at hc
    split at hc
    · split at hc
      · rcases List.mem_append.mp hc with hc | hc
        · exact text_ne_empty_of_mem_prereqs (h q hq) hc
        · cases List.mem_singleton.mp hc
          exact (hcompared q.1).1
      · cases hc
    · cases List.mem_singleton.mp hc
      exact (hcompared q.1).2

/-- **Optional keys leave the text well formed.**  A rule over rows that is emitted without a problem
has one flow.  Choose for each optional key whether a row has a value for it, and put the text of the
case in the place of its interpolation: the match is that of the stage and the priority, followed by
conditions, each with one comma in front.  They are the prerequisites of the keys that are not
optional, each once, and then what the keys compare, in their order; an optional key has its own
prerequisites, and is absent where the row has no value.  No condition is empty where no field
declares an empty prerequisite. -/
theorem optional_keys_keep_separators {t : Table} {g : Graph} {v : Vertex} {s : State}
    (h : (after (emitEntryRule t g v) s).2.problems = s.problems) :
    ∃ f qs, (after (emitEntryRule t g v) s).2.flows = s.flows ++ [f] ∧
      KeysLowered (after (emitEntryRule t g v) s).2.allocator t qs ∧
      ∀ row : RowKeys, row.map Prod.fst = qs →
        f.guardText? row.present = some ("table=" ++ Numeral.word v.id ++ ", priority=" ++
          (if allExact t then "100" else "$\x7bpriority\x7d") ++
          String.join (row.conditions.map fun c => ", " ++ c.text)) ∧
        ((∀ k ∈ t.keys, ∀ q ∈ fieldsRead k.expr, q.prereq ≠ some "") →
          ∀ c ∈ row.conditions, c.text ≠ "") := by
  obtain ⟨-, fs, hflows, hrule⟩ := (emits_emitEntryRule t g v).runs s h
  obtain ⟨f, rfl, hf⟩ := hrule _ (Later.refl _)
  obtain ⟨qs, hqs, htext⟩ := hf.exists_guardText?
  have hhead : (ruleHead t v).text = "table=" ++ Numeral.word v.id ++ ", priority=" ++
      if allExact t then "100" else "$\x7bpriority\x7d" := by
    have hpriority : (rulePriority t).text =
        if allExact t then "100" else "$\x7bpriority\x7d" := by
      unfold rulePriority
      split <;> rfl
    have hcomma : ", priority=" = ", " ++ "priority=" := rfl
    show "table=" ++ Numeral.word v.id ++ ", " ++ ("priority=" ++ (rulePriority t).text) = _
    rw [hpriority, hcomma]
    simp only [String.append_assoc]
  refine ⟨f, qs, hflows, hqs, fun row hrow => ⟨?_, fun hprereqs => ?_⟩⟩
  · rw [htext row hrow, hhead, listed, List.map_map]
    rfl
  · refine RowKeys.text_ne_empty fun q hq => hprereqs q.1.key ?_
    rw [← hqs.keys, ← hrow]
    exact List.mem_map_of_mem (List.mem_map_of_mem hq)

/-! ## A table -/

/-- A table with optional keys in front of and between others. -/
def sampleFilter : Table where
  control := "Ingress"
  name := "filter"
  keys := [⟨"dst", .field sampleAddress, .optional⟩,
    ⟨"net", .slice (.field sampleAddress) 31 24, .exact⟩, ⟨"kind", .field sampleKind, .optional⟩,
    ⟨"flag", .field sampleFlag, .exact⟩]
  actions := [⟨sampleDrop, false, false⟩]

/-- The rule of this table, at the first stage of a control. -/
def sampleFilterRule : State :=
  (after (emitEntryRule sampleFilter (ControlFlow.graphOf sampleIngress 1)
    (ControlFlow.graphOf sampleIngress 1).entry) (storedState sampleProgram)).2

/-- Rows with a value for one of the optional keys only.  The address brings its prerequisite
along. -/
theorem optional_keys_keep_separators_sampleFilter :
    sampleFilterRule.problems = (storedState sampleProgram).problems ∧
    (∃ f qs, sampleFilterRule.flows = [f] ∧
      KeysLowered sampleFilterRule.allocator sampleFilter qs ∧
      ∀ row : RowKeys, row.map Prod.fst = qs →
        f.guardText? row.present = some ("table=1, priority=$\x7bpriority\x7d" ++
          String.join (row.conditions.map fun c => ", " ++ c.text))) ∧
    sampleFilterRule.flows.map (fun f =>
      (f.guardText? [true, false], f.guardText? [false, true])) =
        [(some ("table=1, priority=$\x7bpriority\x7d, ip, ip, " ++
          "nw_dst=$\x7bv_dst\x7d, nw_dst=$\x7b(k_net as bit<32>) << 24\x7d/0xff000000, " ++
          "reg1=$\x7b(b_flag as bit<32>) << 8\x7d/0x100"),
        some ("table=1, priority=$\x7bpriority\x7d, ip, " ++
          "nw_dst=$\x7b(k_net as bit<32>) << 24\x7d/0xff000000, reg1=$\x7bv_kind\x7d/0xff, " ++
          "reg1=$\x7b(b_flag as bit<32>) << 8\x7d/0x100"))] := by
  have hproblems : sampleFilterRule.problems = (storedState sampleProgram).problems := by
    decide +kernel
  have hnone : (storedState sampleProgram).flows = [] := by decide +kernel
  obtain ⟨f, qs, hflows, hqs, htext⟩ := optional_keys_keep_separators hproblems
  rw [hnone, List.nil_append] at hflows
  exact ⟨hproblems, ⟨f, qs, hflows, hqs, fun row hrow => (htext row hrow).1⟩, by decide +kernel⟩

end Flowline.Compile
