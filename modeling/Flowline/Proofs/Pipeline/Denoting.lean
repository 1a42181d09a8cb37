import Flowline.Proofs.Lower.Requests
import Flowline.Proofs.Lower.Steps
import Flowline.Proofs.Pipeline.Resolving
import Flowline.Proofs.Source.Grammar

/-!
# What a tree stands for

`Denotes` relates the tree of a text to what it stands for in a scope, by the declarations of the
scope alone: a dotted path is a field under the group of the parameter in front, a plain one is a
parameter of the action or a local, a call is the presence of a header, and a member of the outcome
of a table is a hit, a miss or the action that ran.  `StmtDenotes` goes through statements
constructor by constructor, and the only one that changes is a call that applies a table.

Resolution gives what a tree stands for, or reports something.  What it gives is `Settled`: there
is no name left to look up, but for arguments of built-in calls that name a whole parameter.  The
storage in it is storage of the scope, and nothing else, so the registers that it can ask for are
those of the scope's own fields and locals (`StmtsDenote.uses`).  If two parameters of an action have
one name, only the first can be meant: resolution takes the first that it finds (`Names`).
-/

namespace Flowline.Pipeline

open Lower (StmtsUse Uses fieldRequest localRequest stepsIn stepsOf)
open Source (BinaryOp Case EachCase EachStmt Expr Literal Stmt WholeArgs WholeStmts)
open Switch.Allocator (Request)

/-! ## Dotted names -/

/-- The parts of a name give it back. -/
theorem intercalate_parts (name : Text) : ".".intercalate (parts name) = name := by
  apply String.toList_injective
  rw [String.toList_intercalate, parts, List.map_map]
  have hparts : (name.toList.splitOn '.').map (String.toList ∘ String.ofList)
      = name.toList.splitOn '.' := by
    rw [show String.toList ∘ String.ofList = id from funext fun _ => String.toList_ofList,
      List.map_id]
  rw [hparts]
  exact List.intercalate_splitOn '.'

variable {name : Text} {e x : Expr}

/-- A name of two parts or more is its first part, a dot, and the rest. -/
theorem eq_of_parts {first second : Text} {rest : List Text}
    (h : parts name = first :: second :: rest) :
    name = first ++ "." ++ ".".intercalate (second :: rest) := by
  rw [← intercalate_parts name, h, String.intercalate_cons_cons]

/-! ## What trees stand for -/

/-- A parameter of the control stands for a group of fields. -/
def Scope.Groups (s : Scope) (param group : Text) : Prop :=
  (param, group) ∈ s.params.zip ["hdr.", "meta.", "std."]

/-- What an expression stands for in a scope. -/
inductive Denotes (s : Scope) : Expr → Expr → Prop
  | field {param group rest : Text} {f : Field} (hgroup : s.Groups param group) (hf : f ∈ s.fields)
      (hname : f.name = group ++ rest) : Denotes s (.path (param ++ "." ++ rest)) (.field f)
  | param {action : Text} {params : List Param} {p : Param}
      (haction : s.action = some (action, params)) (hp : p ∈ params) :
      Denotes s (.path p.name) (.param p (s.control ++ "." ++ action))
  | localVar {l : Local} (hl : l ∈ s.locals) : Denotes s (.path l.name) (.localVar l)
  | valid {param : Text} {h : HeaderRef} {args : List Expr} (hgroup : s.Groups param "hdr.")
      (hh : h ∈ s.headers) :
      Denotes s (.call (some (param ++ "." ++ h.name)) "isValid" args) (.valid h)
  | hit {t : TableNames} {args : List Expr} (ht : t ∈ s.tables) :
      Denotes s (.member (.call (some t.name) "apply" args) "hit") (.hit ⟨s.control, t.name⟩ true)
  | miss {t : TableNames} {args : List Expr} (ht : t ∈ s.tables) :
      Denotes s (.member (.call (some t.name) "apply" args) "miss") (.hit ⟨s.control, t.name⟩ false)
  | actionRun {t : TableNames} {args : List Expr} (ht : t ∈ s.tables) :
      Denotes s (.member (.call (some t.name) "apply" args) "action_run")
        (.actionRun ⟨s.control, t.name⟩)
  | literal (l : Literal) : Denotes s (.literal l) (.literal l)
  | truth (b : Bool) : Denotes s (.truth b) (.truth b)
  | binary {op : BinaryOp} {left right l r : Expr} (hl : Denotes s left l) (hr : Denotes s right r) :
      Denotes s (.binary op left right) (.binary op l r)
  | negation {e x : Expr} (h : Denotes s e x) : Denotes s (.negation e) (.negation x)
  | slice {e x : Expr} {high low : Int64} (h : Denotes s e x) :
      Denotes s (.slice e high low) (.slice x high low)
  | cast {type : ValueType} {e x : Expr} (h : Denotes s e x) :
      Denotes s (.cast type e) (.cast type x)

/-- What an argument of a built-in call stands for: the name of a parameter of the control is for
the built-in to read. -/
inductive ArgDenotes (s : Scope) : Expr → Expr → Prop
  | group {name : Text} (h : name ∈ s.params) : ArgDenotes s (.path name) (.path name)
  | value {e x : Expr} (h : Denotes s e x) : ArgDenotes s e x

/-- A label of a switch over a table. -/
def IsLabelOf (t : TableNames) (label : Text) : Prop := label = "default" ∨ label ∈ t.actions

mutual

/-- What a statement stands for in a scope. -/
inductive StmtDenotes (s : Scope) : Stmt → Stmt → Prop
  | block {ss xs : List Stmt} (h : StmtsDenote s ss xs) : StmtDenotes s (.block ss) (.block xs)
  | ifThen {cond c : Expr} {thn t : Stmt} (hc : Denotes s cond c) (ht : StmtDenotes s thn t) :
      StmtDenotes s (.ifThen cond thn) (.ifThen c t)
  | ifElse {cond c : Expr} {thn els t e : Stmt} (hc : Denotes s cond c) (ht : StmtDenotes s thn t)
      (he : StmtDenotes s els e) : StmtDenotes s (.ifElse cond thn els) (.ifElse c t e)
  | switch {subject : Expr} {t : TableNames} {cs xs : List Case} (ht : t ∈ s.tables)
      (hsubject : Denotes s subject (.actionRun ⟨s.control, t.name⟩)) (h : CasesDenote s t cs xs) :
      StmtDenotes s (.switch subject cs) (.switch (.actionRun ⟨s.control, t.name⟩) xs)
  | apply {t : TableNames} {args : List Expr} (ht : t ∈ s.tables) :
      StmtDenotes s (.call (some t.name) "apply" args) (.apply ⟨s.control, t.name⟩)
  | call {method : Text} {es xs : List Expr} (h : List.Forall₂ (ArgDenotes s) es xs) :
      StmtDenotes s (.call none method es) (.call none method xs)
  | assign {left right l r : Expr} (hl : Denotes s left l) (hr : Denotes s right r) :
      StmtDenotes s (.assign left right) (.assign l r)
  | exit : StmtDenotes s .exit .exit
  | ret : StmtDenotes s .ret .ret
  | empty : StmtDenotes s .empty .empty

inductive StmtsDenote (s : Scope) : List Stmt → List Stmt → Prop
  | nil : StmtsDenote s [] []
  | cons {st x : Stmt} {ss xs : List Stmt} (h : StmtDenotes s st x) (hs : StmtsDenote s ss xs) :
      StmtsDenote s (st :: ss) (x :: xs)

/-- What the cases of a switch over a table stand for: the same labels, with and without bodies. -/
inductive CasesDenote (s : Scope) : TableNames → List Case → List Case → Prop
  | nil {t : TableNames} : CasesDenote s t [] []
  | bare {t : TableNames} {label : Text} {cs xs : List Case} (hlabel : IsLabelOf t label)
      (h : CasesDenote s t cs xs) : CasesDenote s t (.bare label :: cs) (.bare label :: xs)
  | arm {t : TableNames} {label : Text} {body ys : List Stmt} {cs xs : List Case}
      (hlabel : IsLabelOf t label) (hbody : StmtsDenote s body ys) (h : CasesDenote s t cs xs) :
      CasesDenote s t (.arm label body :: cs) (.arm label ys :: xs)

end

/-! ## No name is left -/

/-- An expression without a path, a call, a member or a missing operand anywhere. -/
def Settled : Expr → Prop
  | .missing | .path _ | .call _ _ _ | .member _ _ | .any => False
  | .binary _ left right => Settled left ∧ Settled right
  | .negation e => Settled e
  | .slice e _ _ => Settled e
  | .cast _ e => Settled e
  | _ => True

/-- An argument of a built-in call may be a path. -/
def ArgSettled (e : Expr) : Prop := (∃ name, e = .path name) ∨ Settled e

/-- A call of a built-in. -/
def CallSettled : Stmt → Prop
  | .call target _ args => target = none ∧ ∀ e ∈ args, ArgSettled e
  | _ => True

/-- Statements with settled expressions, in which each call is one of a built-in. -/
abbrev StmtsSettled : List Stmt → Prop := EachStmt (Stmt.Own Settled CallSettled)

variable {s : Scope} {E : Expr → Prop} {C P Q : Stmt → Prop}

theorem Denotes.settled (h : Denotes s e x) : Settled x := by
  induction h with
  | binary _ _ ihl ihr => exact ⟨ihl, ihr⟩
  | negation _ ih | slice _ ih | cast _ ih => exact ih
  | _ => trivial

theorem ArgDenotes.settled (h : ArgDenotes s e x) : ArgSettled x := by
  cases h with
  | group => exact .inl ⟨_, rfl⟩
  | value h => exact .inr h.settled

/-- What holds of all that expressions and calls stand for holds of a statement itself. -/
theorem StmtDenotes.own (hE : ∀ {e x}, Denotes s e x → E x)
    (hC : ∀ {st x}, StmtDenotes s st x → C x) {st x : Stmt} (h : StmtDenotes s st x) :
    x.Own E C := by
  have hcall := hC h
  cases h with
  | block => trivial
  | ifThen hc | ifElse hc => exact hE hc
  | switch _ hsubject _ => exact hE hsubject
  | assign hl hr => exact ⟨hE hl, hE hr⟩
  | _ => exact hcall

mutual

/-- A kind of statements that resolution keeps is kept all through statements. -/
theorem StmtDenotes.each (hPQ : ∀ {st x}, StmtDenotes s st x → P st → Q x) {st x : Stmt}
    (h : StmtDenotes s st x) (hst : st.Each P) : x.Each Q := by
  match h, hst with
  | .block h, hst => exact ⟨hPQ (.block h) hst.1, h.each hPQ hst.2⟩
  | .ifThen hc h, hst => exact ⟨hPQ (.ifThen hc h) hst.1, h.each hPQ hst.2⟩
  | .ifElse hc h h', hst =>
    exact ⟨hPQ (.ifElse hc h h') hst.1, h.each hPQ hst.2.1, h'.each hPQ hst.2.2⟩
  | .switch ht hx h, hst => exact ⟨hPQ (.switch ht hx h) hst.1, h.each hPQ hst.2⟩
  | .assign hl hr, hst => exact hPQ (.assign hl hr) hst
  | .apply ht, hst => exact hPQ (.apply ht) hst
  | .call h, hst => exact hPQ (.call h) hst
  | .exit, hst => exact hPQ .exit hst
  | .ret, hst => exact hPQ .ret hst
  | .empty, hst => exact hPQ .empty hst

theorem StmtsDenote.each (hPQ : ∀ {st x}, StmtDenotes s st x → P st → Q x) {ss xs : List Stmt}
    (h : StmtsDenote s ss xs) (hss : EachStmt P ss) : EachStmt Q xs := by
  match h, hss with
  | .nil, _ => exact trivial
  | .cons h hs, hss => exact ⟨h.each hPQ hss.1, hs.each hPQ hss.2⟩

theorem CasesDenote.each (hPQ : ∀ {st x}, StmtDenotes s st x → P st → Q x) {t : TableNames}
    {cs xs : List Case} (h : CasesDenote s t cs xs) (hcs : EachCase P cs) : EachCase Q xs := by
  match h, hcs with
  | .nil, _ => exact trivial
  | .bare _ h, hcs => exact h.each hPQ hcs
  | .arm _ hbody h, hcs => exact ⟨hbody.each hPQ hcs.1, h.each hPQ hcs.2⟩

end

theorem StmtsDenote.settled {ss xs : List Stmt} (h : StmtsDenote s ss xs) (hss : WholeStmts ss) :
    StmtsSettled xs := by
  refine h.each (fun h _ => h.own Denotes.settled fun h => ?_) hss
  cases h with
  | call h => exact ⟨rfl, forall_of_forall₂ (fun _ _ h => h.settled) h⟩
  | _ => trivial

/-! ## Storage and parameters -/

/-- The storage of a scope asks for registers by calls of a kind. -/
structure Scope.Serves (S : Request → Prop) (s : Scope) : Prop where
  fields : ∀ f ∈ s.fields, f.builtin = .none → f.packet = none → S (fieldRequest f)
  locals : ∀ l ∈ s.locals, S (localRequest l)

variable {S : Request → Prop}

theorem Denotes.uses (hs : s.Serves S) (h : Denotes s e x) : Uses S x := by
  induction h with
  | field _ hf _ => exact hs.fields _ hf
  | localVar hl => exact hs.locals _ hl
  | binary _ _ ihl ihr => exact ⟨ihl, ihr⟩
  | negation _ ih | slice _ ih | cast _ ih => exact ih
  | _ => trivial

theorem StmtsDenote.uses (hs : s.Serves S) {ss xs : List Stmt} (h : StmtsDenote s ss xs)
    (hss : WholeStmts ss) : StmtsUse S xs :=
  h.each (fun h _ => h.own (fun h => h.uses hs) fun _ => trivial) hss

/-- The tree of a text names no storage, so it uses storage of any kind. -/
theorem uses_of_whole {e : Expr} (h : e.Whole) : Uses S e := by
  match e with
  | .binary _ left right => exact ⟨uses_of_whole (e := left) h.1, uses_of_whole (e := right) h.2⟩
  | .negation e | .slice e _ _ | .cast _ e => exact uses_of_whole (e := e) h
  | .path _ | .literal _ | .truth _ | .call .. | .member .. => trivial

theorem uses_of_wholeKey (h : e.WholeKey) : Uses S e := by
  rcases h with rfl | h
  · trivial
  · exact uses_of_whole h

/-- What an expression takes a part of is a given field or local, or the first of its name among
given parameters. -/
def Names (fields : List Field) (locals : List Local) (params : List Param) : Expr → Prop
  | .field f => f ∈ fields
  | .localVar l => l ∈ locals
  | .param q _ => params.find? (fun p => p.name == q.name) = some q
  | .slice e _ _ => Names fields locals params e
  | .cast _ e => Names fields locals params e
  | _ => True

/-- What an expression takes a part of is named by a scope. -/
def Scope.Names (s : Scope) (e : Expr) : Prop :=
  ∀ action params, s.action = some (action, params) →
    Pipeline.Names s.fields s.locals params e

/-- Both sides of an assignment are named. -/
def Assigns (P : Expr → Prop) (s : Stmt) : Prop :=
  ∀ left right, s = .assign left right → P left ∧ P right

/-! ## Lookups -/

theorem named_of_find {α : Type} {name : α → Text} {wanted : Text} {xs : List α} {x : α}
    (h : xs.find? (fun x => name x == wanted) = some x) : x ∈ xs ∧ name x = wanted :=
  ⟨List.mem_of_find?_eq_some h, by simpa using List.find?_some h⟩

namespace Scope

theorem groups_of_group {param group : Text} (h : s.group? param = some group) :
    s.Groups param group := by
  obtain ⟨⟨first, second⟩, hfind, rfl⟩ := Option.map_eq_some_iff.mp h
  obtain ⟨hmem, rfl⟩ := named_of_find hfind
  exact hmem

theorem table_of_ref {t : TableRef} (h : s.tableRef? name = some t) :
    ∃ n ∈ s.tables, n.name = name ∧ t = ⟨s.control, n.name⟩ := by
  obtain ⟨n, hfind, rfl⟩ := Option.map_eq_some_iff.mp h
  obtain ⟨hmem, hname⟩ := named_of_find hfind
  exact ⟨n, hmem, hname, rfl⟩

/-- A path stands for what it is resolved to, which is the first of its name. -/
theorem denotes_of_path (h : s.path? name = some e) : Denotes s (.path name) e ∧ s.Names e := by
  unfold path? at h
  split at h
  · cases h
  · rcases Option.or_eq_some_iff.mp h with hparam | ⟨-, hlocal⟩
    · obtain ⟨⟨action, params⟩, haction, hfind⟩ := Option.bind_eq_some_iff.mp hparam
      obtain ⟨p, hp, rfl⟩ := Option.map_eq_some_iff.mp hfind
      obtain ⟨hmem, rfl⟩ := named_of_find hp
      refine ⟨.param haction hmem, fun action' params' haction' => ?_⟩
      cases haction.symm.trans haction'
      exact hp
    · obtain ⟨l, hl, rfl⟩ := Option.map_eq_some_iff.mp hlocal
      obtain ⟨hmem, rfl⟩ := named_of_find hl
      exact ⟨.localVar hmem, fun _ _ _ => hmem⟩
  · next first rest hlong hparts =>
    obtain ⟨group, hgroup, hfield⟩ := Option.bind_eq_some_iff.mp h
    obtain ⟨f, hf, rfl⟩ := Option.map_eq_some_iff.mp hfield
    obtain ⟨hmem, hname⟩ := named_of_find hf
    rw [List.mem_reverse] at hmem
    cases rest with
    | nil => exact (hlong rfl).elim
    | cons second rest =>
      rw [eq_of_parts hparts]
      exact ⟨.field (groups_of_group hgroup) hmem hname, fun _ _ _ => hmem⟩

theorem denotes_of_outcome {base e : Expr} {member : Text} (h : s.outcome? base member = some e) :
    Denotes s (.member base member) e := by
  unfold outcome? at h
  split at h
  · obtain ⟨t, ht, h⟩ := Option.bind_eq_some_iff.mp h
    obtain ⟨n, hn, rfl, rfl⟩ := table_of_ref ht
    split at h
    · next hhit =>
      cases h
      rw [hhit]
      exact .hit hn
    · split at h
      · next hmiss =>
        cases h
        rw [hmiss]
        exact .miss hn
      · split at h
        · next hrun =>
          cases h
          rw [hrun]
          exact .actionRun hn
        · cases h
  · cases h

theorem denotes_of_callValue {target : Option Text} {method : Text} {args : List Expr}
    (h : s.callValue? target method = some e) : Denotes s (.call target method args) e := by
  unfold callValue? at h
  split at h
  · next path =>
    split at h
    · next hmethod =>
      obtain ⟨r, hr, rfl⟩ := Option.map_eq_some_iff.mp h
      unfold header? at hr
      split at hr
      · next param name hparts =>
        split at hr
        · next hgroup =>
          obtain ⟨hmem, rfl⟩ := named_of_find hr
          rw [hmethod, eq_of_parts hparts, String.intercalate_singleton]
          exact .valid (groups_of_group hgroup) (List.mem_reverse.mp hmem)
        · cases hr
      · cases hr
    · cases h
  · cases h

/-! ## Expressions -/

/-- Resolution gives what an expression stands for, by the first of a name. -/
def Gives (s : Scope) (e : Expr) (r : Option Expr) : Prop :=
  ∃ x, r = some x ∧ Denotes s e x ∧ s.Names x

theorem gives_expr (s : Scope) (e : Expr) : Loads (s.expr e) fun r => e.Whole → s.Gives e r := by
  match e with
  | .path name =>
    rw [expr]
    split
    · next x hx => exact loads_pure fun _ => ⟨x, rfl, denotes_of_path hx⟩
    · exact loads_refused _ _
  | .call target method args =>
    rw [expr]
    split
    · next x hx =>
      have hdenotes : Denotes s (.call target method args) x := denotes_of_callValue hx
      refine loads_pure fun _ => ⟨x, rfl, hdenotes, fun _ _ _ => ?_⟩
      cases hdenotes
      trivial
    · exact loads_refused _ _
  | .member base name =>
    rw [expr]
    split
    · next x hx =>
      refine loads_pure fun _ => ⟨x, rfl, denotes_of_outcome hx, fun _ _ _ => ?_⟩
      cases denotes_of_outcome hx <;> trivial
    · exact loads_refused _ _
  | .binary op left right =>
    rw [expr]
    refine (gives_expr s left).bind fun l => (gives_expr s right).bind fun r => loads_pure ?_
    intro hr hl h
    obtain ⟨x, rfl, hx, -⟩ := hl h.1
    obtain ⟨y, rfl, hy, -⟩ := hr h.2
    exact ⟨_, rfl, .binary hx hy, fun _ _ _ => trivial⟩
  | .negation e =>
    rw [expr]
    refine (gives_expr s e).bind fun r => loads_pure fun hr h => ?_
    obtain ⟨x, rfl, hx, -⟩ := hr h
    exact ⟨_, rfl, .negation hx, fun _ _ _ => trivial⟩
  | .slice e high low =>
    rw [expr]
    refine (gives_expr s e).bind fun r => loads_pure fun hr h => ?_
    obtain ⟨x, rfl, hx, hnames⟩ := hr h
    exact ⟨_, rfl, .slice hx, hnames⟩
  | .cast type e =>
    rw [expr]
    refine (gives_expr s e).bind fun r => loads_pure fun hr h => ?_
    obtain ⟨x, rfl, hx, hnames⟩ := hr h
    exact ⟨_, rfl, .cast hx, hnames⟩
  | .literal l => exact loads_pure fun _ => ⟨_, rfl, .literal l, fun _ _ _ => trivial⟩
  | .truth b => exact loads_pure fun _ => ⟨_, rfl, .truth b, fun _ _ _ => trivial⟩
  | .missing | .field _ | .localVar _ | .param .. | .valid _ | .hit .. | .actionRun _ | .any =>
    exact loads_pure False.elim

theorem denotes_exprs (s : Scope) (es : List Expr) :
    Loads (s.exprs es) fun xs => (∀ e ∈ es, e.Whole) → List.Forall₂ (Denotes s) es xs :=
  Loads.collect_of (fun e => (gives_expr s e).mono fun _ hr h =>
    (hr h).imp fun _ hx => ⟨hx.1, hx.2.1⟩) es

theorem denotes_arg (s : Scope) (e : Expr) :
    Loads (s.arg e) fun r => e.Whole → ∃ x, r = some x ∧ ArgDenotes s e x := by
  have hexpr (e : Expr) :
      Loads (s.expr e) fun r => e.Whole → ∃ x, r = some x ∧ ArgDenotes s e x := by
    refine (gives_expr s e).mono fun r hr h => ?_
    obtain ⟨x, hx, hdenotes, -⟩ := hr h
    exact ⟨x, hx, .value hdenotes⟩
  unfold arg
  split
  · next name =>
    split
    · next hname => exact loads_pure fun _ => ⟨_, rfl, .group (List.contains_iff_mem.mp hname)⟩
    · exact hexpr _
  · exact hexpr _

theorem denotes_args (s : Scope) (es : List Expr) :
    Loads (s.args es) fun xs => WholeArgs es → List.Forall₂ (ArgDenotes s) es xs := by
  refine (Loads.collect_of (denotes_arg s) es).mono fun xs hxs h => hxs ?_
  clear hxs
  induction es with
  | nil => exact List.forall_mem_nil _
  | cons e es ih => exact List.forall_mem_cons.mpr ⟨h.1, ih h.2⟩

/-! ## Statements -/

/-- Resolution gives what a statement stands for, and its assignments are named by the scope. -/
def GivesStmt (s : Scope) (st : Stmt) (r : Option Stmt) : Prop :=
  ∃ x, r = some x ∧ StmtDenotes s st x ∧ ∀ step ∈ stepsOf x, Assigns s.Names step

theorem gives_callStmt (s : Scope) (target : Option Text) (method : Text) (es : List Expr) :
    Loads (s.callStmt target method es) fun r =>
      WholeArgs es → s.GivesStmt (.call target method es) r := by
  unfold callStmt
  split
  · refine (denotes_args s es).bind fun xs => loads_pure fun hxs h => ?_
    refine ⟨_, rfl, .call (hxs h), List.forall_mem_singleton.mpr fun left right hassign => ?_⟩
    cases hassign
  · next name =>
    split
    · next t ht =>
      refine loads_pure fun _ => ⟨_, rfl, ?_, List.forall_mem_nil _⟩
      split at ht
      · next hmethod =>
        obtain ⟨n, hn, rfl, rfl⟩ := table_of_ref ht
        rw [hmethod]
        exact .apply hn
      · cases ht
    · exact loads_refused _ _

/-- The table that a switch is over, which is the one its labels are looked up in. -/
theorem table_of_actionRun {subject : Expr} {t : TableRef} (h : Denotes s subject (.actionRun t)) :
    ∃ n ∈ s.tables, t = ⟨s.control, n.name⟩ ∧ s.table? n.name = some n := by
  cases h with
  | @actionRun m _ hm =>
    have hsome : (s.table? m.name).isSome := by
      rw [table?, List.find?_isSome]
      exact ⟨m, hm, beq_self_eq_true _⟩
    obtain ⟨n, hn⟩ := Option.isSome_iff_exists.mp hsome
    obtain ⟨hmem, hname⟩ := named_of_find hn
    exact ⟨n, hmem, by rw [hname], by rw [hname, hn]⟩

theorem isLabelOf_of_labels {n : TableNames} {label : Text} (hn : s.table? n.name = some n)
    (h : s.labels ⟨s.control, n.name⟩ label = true) : IsLabelOf n label := by
  rw [labels, Bool.or_eq_true, hn, Option.any_some] at h
  exact h.imp beq_iff_eq.mp List.contains_iff_mem.mp

mutual

theorem gives_stmt (s : Scope) (st : Stmt) :
    Loads (s.stmt st) fun r => st.Each (Stmt.Own Expr.Whole Stmt.WholeCall) → s.GivesStmt st r := by
  match st with
  | .block ss =>
    rw [stmt]
    refine (gives_stmts s ss).bind fun xs => loads_pure fun hxs h => ?_
    rw [Stmt.Each] at h
    obtain ⟨hdenote, hsteps⟩ := hxs h.2
    exact ⟨_, rfl, .block hdenote, hsteps⟩
  | .ifThen cond thn =>
    rw [stmt]
    refine (gives_expr s cond).bind fun c => (gives_stmt s thn).bind fun t => loads_pure ?_
    intro ht hc h
    rw [Stmt.Each] at h
    obtain ⟨x, rfl, hx, -⟩ := hc h.1
    obtain ⟨y, rfl, hy, -⟩ := ht h.2
    exact ⟨_, rfl, .ifThen hx hy, List.forall_mem_nil _⟩
  | .ifElse cond thn els =>
    rw [stmt]
    refine (gives_expr s cond).bind fun c => (gives_stmt s thn).bind fun t => ?_
    split
    · next c t =>
      refine (gives_stmt s els).bind fun e => loads_pure fun he ht hc h => ?_
      rw [Stmt.Each] at h
      obtain ⟨x, hx, hdx, -⟩ := hc h.1
      obtain ⟨y, hy, hdy, -⟩ := ht h.2.1
      obtain ⟨z, rfl, hdz, -⟩ := he h.2.2
      cases hx
      cases hy
      exact ⟨_, rfl, .ifElse hdx hdy hdz, List.forall_mem_nil _⟩
    · next hmissing =>
      refine loads_pure fun ht hc h => ?_
      rw [Stmt.Each] at h
      obtain ⟨x, rfl, -⟩ := hc h.1
      obtain ⟨y, rfl, -⟩ := ht h.2.1
      exact absurd rfl (hmissing x y rfl)
  | .switch subject cs =>
    rw [stmt]
    refine (gives_expr s subject).bind fun r => ?_
    split
    · next t =>
      refine (denotes_cases s t cs).bind fun xs => loads_pure fun hxs hr h => ?_
      rw [Stmt.Each] at h
      obtain ⟨x, hx, hdx, -⟩ := hr h.1
      cases hx
      obtain ⟨n, hn, rfl, hfirst⟩ := table_of_actionRun hdx
      exact ⟨_, rfl, .switch hn hdx (hxs n rfl hfirst h.2), List.forall_mem_nil _⟩
    · exact loads_refused _ _
    · refine loads_pure fun hr h => ?_
      rw [Stmt.Each] at h
      obtain ⟨x, hx, -⟩ := hr h.1
      cases hx
  | .call target method es =>
    rw [stmt, Stmt.Each]
    exact gives_callStmt s target method es
  | .assign left right =>
    rw [stmt]
    refine (gives_expr s left).bind fun l => (gives_expr s right).bind fun r => loads_pure ?_
    intro hr hl h
    rw [Stmt.Each] at h
    obtain ⟨x, rfl, hx, hnx⟩ := hl h.1
    obtain ⟨y, rfl, hy, hny⟩ := hr h.2
    refine ⟨_, rfl, .assign hx hy, List.forall_mem_singleton.mpr fun left right hassign => ?_⟩
    cases hassign
    exact ⟨hnx, hny⟩
  | .apply t =>
    rw [stmt, Stmt.Each]
    exact loads_pure False.elim
  | .exit =>
    rw [stmt]
    exact loads_pure fun _ => ⟨_, rfl, .exit, List.forall_mem_nil _⟩
  | .ret =>
    rw [stmt]
    exact loads_pure fun _ => ⟨_, rfl, .ret, List.forall_mem_nil _⟩
  | .empty =>
    rw [stmt]
    exact loads_pure fun _ => ⟨_, rfl, .empty, List.forall_mem_nil _⟩

theorem gives_stmts (s : Scope) (ss : List Stmt) :
    Loads (s.stmts ss) fun xs => WholeStmts ss →
      StmtsDenote s ss xs ∧ ∀ step ∈ stepsIn xs, Assigns s.Names step := by
  match ss with
  | [] =>
    rw [stmts]
    exact loads_pure fun _ => ⟨.nil, List.forall_mem_nil _⟩
  | st :: ss =>
    rw [stmts]
    refine (gives_stmt s st).bind fun x => (gives_stmts s ss).bind fun xs => loads_pure ?_
    intro hxs hx h
    rw [WholeStmts, EachStmt] at h
    obtain ⟨y, rfl, hy, hstep⟩ := hx h.1
    obtain ⟨hdenote, hsteps⟩ := hxs h.2
    refine ⟨.cons hy hdenote, ?_⟩
    show ∀ step ∈ stepsIn (y :: xs), _
    rw [stepsIn]
    split
    · exact hstep
    · exact List.forall_mem_append.mpr ⟨hstep, hsteps⟩

theorem denotes_cases (s : Scope) (t : TableRef) (cs : List Case) :
    Loads (s.cases t cs) fun xs => ∀ n, t = ⟨s.control, n.name⟩ → s.table? n.name = some n →
      EachCase (Stmt.Own Expr.Whole Stmt.WholeCall) cs → CasesDenote s n cs xs := by
  match cs with
  | [] =>
    rw [cases]
    exact loads_pure fun _ _ _ _ => .nil
  | .bare label :: cs =>
    rw [cases]
    split
    · next hlabel =>
      refine (denotes_cases s t cs).bind fun xs => loads_pure fun hxs n ht hn h => ?_
      rw [EachCase] at h
      exact .bare (isLabelOf_of_labels hn (ht ▸ hlabel)) (hxs n ht hn h)
    · exact (denotes_cases s t cs).refused _
  | .arm label body :: cs =>
    rw [cases]
    split
    · next hlabel =>
      refine (gives_stmts s body).bind fun ys => ?_
      refine (denotes_cases s t cs).bind fun xs => loads_pure fun hxs hys n ht hn h => ?_
      rw [EachCase] at h
      exact .arm (isLabelOf_of_labels hn (ht ▸ hlabel)) (hys h.1).1 (hxs n ht hn h.2)
    · exact (denotes_cases s t cs).refused _

end

end Scope

end Flowline.Pipeline
