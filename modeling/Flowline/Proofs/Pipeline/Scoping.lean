import Flowline.Proofs.Pipeline.Accepting
import Flowline.Proofs.Pipeline.Denoting
import Flowline.Proofs.Source.Texts

/-!
# Loading keeps what is written

A program that loads has been read in full: each of its trees is what the tree of its text stands
for (`Denotes`, `StmtsDenote`), with nothing left out and nothing unresolved, and by the
declarations of the program itself.  `ControlOf` says this for a control, part by part.  Beside that,
tables run actions of their own control, and assignments name what is declared (`Control.Sound`).
The loader is gone through once, in `loads_resolve`.

The bodies of actions and the expressions of tables are resolved before the tables of the control
are complete.  There tables are known by name only, so a switch inside an action has no label but
`default`.  The body of the control comes last and sees the actions of each table.
-/

namespace Flowline.Pipeline

open Lower (stepsIn)
open Source (Expr Keyset Parsed Stmt)

variable {α β γ : Type}

/-- All fields, in the order of their declaration. -/
def Program.fields (p : Program) : List Field :=
  p.headers.flatMap (·.fields) ++ p.metadata ++ p.standard

/-- The locals of both controls, in the order of their declaration. -/
def Program.locals (p : Program) : List Local := p.controls.flatMap (·.locals)

theorem forall₂_trans {P : α → β → Prop} {Q : β → γ → Prop} {R : α → γ → Prop}
    (h : ∀ a b c, P a b → Q b c → R a c) {as : List α} {bs : List β} {cs : List γ}
    (hP : List.Forall₂ P as bs) (hQ : List.Forall₂ Q bs cs) : List.Forall₂ R as cs := by
  induction hP generalizing cs with
  | nil =>
    cases hQ
    exact .nil
  | cons hab _ ih =>
    cases hQ with
    | cons hbc hrest => exact .cons (h _ _ _ hab hbc) (ih hrest)

/-! ## Texts -/

/-- An expression is what the tree of a text stands for. -/
structure ExprOf (s : Scope) (source : Text) (e : Expr) : Prop where
  parsed : ∃ tree, Source.parseExpression source = .ok ⟨some tree, []⟩ ∧ Denotes s tree e
  settled : Settled e

/-- A body is what the tree of a text stands for. -/
structure BodyOf (s : Scope) (source : Text) (body : List Stmt) : Prop where
  parsed : ∃ tree, Source.parseStatements source = .ok ⟨tree, []⟩ ∧ StmtsDenote s tree body
  settled : StmtsSettled body

/-- A text is read as an expression without an error. -/
def Reads (source : Text) (tree : Expr) : Prop :=
  Source.parseExpression source = .ok ⟨some tree, []⟩

theorem Reads.whole {source : Text} {tree : Expr} (h : Reads source tree) : tree.Whole := by
  obtain ⟨e, htree, hderives⟩ := Source.derives_of_parseExpression h rfl
  cases htree
  exact hderives.whole

theorem exprOf_of_denotes {s : Scope} {source : Text} {tree e : Expr} (hreads : Reads source tree)
    (h : Denotes s tree e) : ExprOf s source e := ⟨⟨tree, hreads, h⟩, h.settled⟩

theorem loads_parsed (hole : α) (r : Except Fault (Parsed α)) :
    Loads (parsed hole r) fun p => r = .ok p := by
  unfold parsed
  split
  · exact loads_pure rfl
  · exact (loads_report _).bind fun _ => loads_pure False.elim

theorem reads_exprOf (source place : Text) :
    Loads (exprOf source place) fun r => ∃ tree, r = some tree ∧ Reads source tree := by
  refine (loads_parsed _ _).bind fun p => ?_
  split
  · exact loads_refused _ _
  · next hquiet =>
    refine loads_pure fun hparse => ?_
    obtain ⟨tree, htree, -⟩ := Source.derives_of_parseExpression hparse hquiet
    refine ⟨tree, htree, ?_⟩
    obtain ⟨_, _⟩ := p
    cases htree
    cases hquiet
    exact hparse

/-- Arguments are read and resolved one by one, and none is lost. -/
theorem exprsOf_argsOf (s : Scope) (place : Text) (sources : List Text) :
    Loads (argsOf s place sources) (List.Forall₂ (ExprOf s) sources) := by
  refine (Loads.collect (fun source => reads_exprOf source place) sources).bind fun trees => ?_
  refine (s.denotes_exprs trees).mono fun es hes hreads => ?_
  have hdenote := hes (forall_of_forall₂ (fun _ _ h => h.whole) hreads)
  exact forall₂_trans (P := Reads) (Q := Denotes s) (fun _ _ _ => exprOf_of_denotes) hreads hdenote

theorem reads_bodyOf (source place : Text) :
    Loads (bodyOf source place) fun tree => Source.parseStatements source = .ok ⟨tree, []⟩ := by
  refine (loads_parsed _ _).bind fun p => ?_
  refine (loads_forIn (fun e => loads_refuse _) p.errors).bind fun _ => loads_pure ?_
  intro hquiet hparse
  rw [hparse, ← hquiet]

theorem wholeStmts_of_parse {source : Text} {tree : List Stmt}
    (h : Source.parseStatements source = .ok ⟨tree, []⟩) : Source.WholeStmts tree :=
  (Source.derives_of_parseStatements h rfl).whole

theorem bodyOf_of_denotes {s : Scope} {source : Text} {tree body : List Stmt}
    (hparse : Source.parseStatements source = .ok ⟨tree, []⟩) (h : StmtsDenote s tree body) :
    BodyOf s source body := ⟨⟨tree, hparse, h⟩, h.settled (wholeStmts_of_parse hparse)⟩

/-- A key of an entry is a constant, which is read without a scope. -/
theorem loads_keysetOf (place source : Text) :
    Loads (keysetOf place source) fun r => ∃ e, r = some e ∧ ∃ ts, Keyset True e ts := by
  refine (loads_parsed _ _).bind fun p => ?_
  split
  · exact loads_refused _ _
  · next hquiet =>
    refine loads_pure fun hparse => ⟨_, rfl, ?_⟩
    obtain ⟨e, htree, hderives⟩ := Source.derives_of_parseKeyset hparse hquiet
    rw [htree]
    exact ⟨_, hderives⟩

/-! ## Tables -/

/-- A table has the keys, the actions, the default and the entries of its description, in their
order, and its expressions are what their texts stand for. -/
structure TableOf (s : Scope) (d : Description.Table) (t : Table) : Prop where
  control : t.control = s.control
  name : t.name = d.name
  keys : List.Forall₂ (fun k key => ExprOf s k.expr key.expr) d.keys t.keys
  actions : List.Forall₂ (fun r ref => ref.action.name = r.name) d.actions t.actions
  default : Option.Rel (fun a b => b.action.name = a.name ∧ List.Forall₂ (ExprOf s) a.args b.args)
    d.defaultAction t.default?
  entries : List.Forall₂
    (fun a b => b.action.name = a.action ∧ List.Forall₂ (ExprOf s) a.args b.args)
    (d.constEntries.getD []) t.entries

/-- A table runs actions of its control, and the keys of its entries are read as keys. -/
structure TableRuns (inControl : List Action) (t : Table) : Prop where
  actions : ∀ r ∈ t.actions, r.action ∈ inControl
  default : ∀ d ∈ t.default?, d.action ∈ inControl
  entries : ∀ e ∈ t.entries, e.action ∈ inControl ∧ ∀ x ∈ e.keys, ∃ ts, Keyset True x ts

section

variable {actions : List Action}

theorem keyOf_loadKey (s : Scope) (place : Text) (d : Description.TableKey) :
    Loads (loadKey s place d) fun r => ∃ k, r = some k ∧ ExprOf s d.expr k.expr := by
  unfold loadKey
  split
  · exact loads_refused _ _
  · refine (reads_exprOf d.expr place).bind fun parsed => ?_
    refine (s.gives_expr (parsed.getD .missing)).bind fun e => loads_pure fun he hparsed => ?_
    obtain ⟨tree, rfl, htree⟩ := hparsed
    obtain ⟨x, rfl, hx, -⟩ := he htree.whole
    exact ⟨_, rfl, exprOf_of_denotes htree hx⟩

theorem refOf_loadActionRef (place : Text) (d : Description.ActionRef) :
    Loads (loadActionRef actions place d) fun r =>
      ∃ ref, r = some ref ∧ ref.action ∈ actions ∧ ref.action.name = d.name := by
  unfold loadActionRef
  split
  · exact loads_refused _ _
  · next a ha => exact loads_pure ⟨_, rfl, named_of_find ha⟩

theorem defaultOf_loadDefault (s : Scope) (place : Text) (d : Option Description.DefaultAction) :
    Loads (loadDefault s actions place d) fun r =>
      Option.Rel (fun a b => b.action.name = a.name ∧ List.Forall₂ (ExprOf s) a.args b.args) d r ∧
        ∀ b ∈ r, b.action ∈ actions := by
  cases d with
  | none => exact loads_pure ⟨.none, nofun⟩
  | some d =>
    rw [loadDefault]
    split
    · exact loads_refused _ _
    · next a ha =>
      refine (exprsOf_argsOf s place d.args).bind fun args => loads_pure fun hargs => ?_
      obtain ⟨hmem, hname⟩ := named_of_find ha
      refine ⟨.some ⟨hname, hargs⟩, ?_⟩
      rintro _ ⟨⟩
      exact hmem

theorem entryOf_loadEntry (s : Scope) (place : Text) (d : Description.Entry) :
    Loads (loadEntry s actions place d) fun r => ∃ e, r = some e ∧
      (e.action.name = d.action ∧ List.Forall₂ (ExprOf s) d.args e.args) ∧
        e.action ∈ actions ∧ ∀ x ∈ e.keys, ∃ ts, Keyset True x ts := by
  unfold loadEntry
  split
  · exact loads_refused _ _
  · next a ha =>
    refine (exprsOf_argsOf s place d.args).bind fun args => ?_
    refine (Loads.collect (loads_keysetOf place) d.keys).bind fun keys => loads_pure ?_
    intro hkeys hargs
    obtain ⟨hmem, hname⟩ := named_of_find ha
    exact ⟨_, rfl, ⟨hname, hargs⟩, hmem,
      forall_of_forall₂ (P := fun x => ∃ ts, Keyset True x ts) (fun _ _ h => h) hkeys⟩

theorem tableOf_loadTable (s : Scope) (d : Description.Table) :
    Loads (loadTable s actions d) fun t => TableOf s d t ∧ TableRuns actions t := by
  refine (Loads.collect (keyOf_loadKey s _) d.keys).bind fun keys => ?_
  refine (Loads.collect (refOf_loadActionRef _) d.actions).bind fun refs => ?_
  refine (defaultOf_loadDefault s _ d.defaultAction).bind fun default? => ?_
  refine (Loads.collect (entryOf_loadEntry s _) (d.constEntries.getD [])).bind fun entries => ?_
  refine loads_pure ?_
  intro hentries hdefault hrefs hkeys
  refine ⟨⟨rfl, rfl, hkeys, hrefs.imp fun _ _ h => h.2, hdefault.1, hentries.imp fun _ _ h => h.1⟩,
    ⟨?_, hdefault.2, ?_⟩⟩
  · exact forall_of_forall₂ (fun _ _ h => h.1) hrefs
  · exact forall_of_forall₂ (fun _ _ h => h.2) hentries

end

/-! ## Controls -/

/-- An action has the parameters of its description, and its body is what its text stands for where
these are known. -/
structure ActionOf (s : Scope) (d : Description.Action) (a : Action) : Prop where
  control : a.control = s.control
  name : a.name = d.name
  params : a.params = d.params.map fun p => ⟨p.name, typeOf p⟩
  body : BodyOf { s with action := some (a.name, a.params) } d.body a.body

/-- The assignments of an action name given fields and locals, and parameters of the action. -/
def Action.Names (fields : List Field) (locals : List Local) (a : Action) : Prop :=
  ∀ left right, .assign left right ∈ stepsIn a.body →
    Pipeline.Names fields locals a.params left ∧ Pipeline.Names fields locals a.params right

theorem actionOf_loadAction (s : Scope) (d : Description.Action) :
    Loads (loadAction s d) fun a => ActionOf s d a ∧ a.Names s.fields s.locals := by
  refine (reads_bodyOf d.body _).bind fun tree => ?_
  refine (Scope.gives_stmts _ tree).bind fun body => loads_pure fun hbody hparse => ?_
  obtain ⟨hdenote, hsteps⟩ := hbody (wholeStmts_of_parse hparse)
  refine ⟨⟨rfl, rfl, rfl, bodyOf_of_denotes hparse hdenote⟩, fun left right hassign => ?_⟩
  obtain ⟨hleft, hright⟩ := hsteps _ hassign left right rfl
  exact ⟨hleft _ _ rfl, hright _ _ rfl⟩

/-- The tables of a control run its own actions, which name what is declared. -/
structure Control.Sound (fields : List Field) (c : Control) : Prop where
  runs : ∀ t ∈ c.tables, TableRuns c.actions t
  names : ∀ a ∈ c.actions, a.Names fields c.locals

/-- The names that the actions and the tables of a control can use.  Tables are known by name. -/
def Control.scope (fields : List Field) (headers : List Header) (c : Control) : Scope :=
  { fields
    headers := headers.map fun h => ⟨h.name, h.protocol⟩
    control := c.name
    params := c.params
    locals := c.locals
    tables := c.tables.map fun t => ⟨t.name, []⟩ }

/-- The names that the body of a control can use.  Tables are known with their actions. -/
def Control.bodyScope (fields : List Field) (headers : List Header) (c : Control) : Scope :=
  { c.scope fields headers with tables := c.tables.map Table.names }

/-- A control has the locals, the actions and the tables of its description, in their order, and
its body is what its text stands for. -/
structure ControlOf (fields : List Field) (headers : List Header) (role : Text)
    (d : Description.Control) (c : Control) : Prop where
  name : c.name = if d.name = "" then role else d.name
  params : c.params = d.params ∧ c.params.length = 3
  locals : c.locals = d.locals.map fun l => ⟨c.name, l.name, typeOf l⟩
  actions : List.Forall₂ (ActionOf (c.scope fields headers)) d.actions c.actions
  tables : List.Forall₂ (TableOf (c.scope fields headers)) d.tables c.tables
  body : BodyOf (c.bodyScope fields headers) d.apply c.body

theorem names_of_tables {s : Scope} {ds : List Description.Table} {ts : List Table}
    (h : List.Forall₂ (TableOf s) ds ts) :
    ds.map (fun d => (⟨d.name, []⟩ : TableNames)) = ts.map fun t => ⟨t.name, []⟩ := by
  induction h with
  | nil => rfl
  | cons h _ ih => rw [List.map_cons, List.map_cons, ih, h.name]

/-- The parts of a control in the scope in which they are loaded. -/
structure PartsOf (s : Scope) (d : Description.Control) (c : Control) : Prop where
  name : c.name = s.control
  params : c.params = d.params
  locals : c.locals = s.locals
  actions : List.Forall₂ (ActionOf s) d.actions c.actions
  tables : List.Forall₂ (TableOf s) d.tables c.tables
  body : BodyOf { s with tables := c.tables.map Table.names } d.apply c.body

theorem partsOf_loadParts (s : Scope) (d : Description.Control) :
    Loads (loadParts s d) fun c => PartsOf s d c ∧ c.Sound s.fields := by
  refine (Loads.forall₂ (actionOf_loadAction s) d.actions).bind fun actions => ?_
  refine (Loads.forall₂ (tableOf_loadTable s) d.tables).bind fun tables => ?_
  refine (reads_bodyOf d.apply _).bind fun tree => ?_
  refine (Scope.gives_stmts _ tree).bind fun body => loads_pure ?_
  intro hbody hparse htables hactions
  have hdenote := (hbody (wholeStmts_of_parse hparse)).1
  refine ⟨⟨rfl, rfl, rfl, hactions.imp fun _ _ h => h.1, htables.imp fun _ _ h => h.1,
    bodyOf_of_denotes hparse hdenote⟩, ⟨?_, ?_⟩⟩
  · exact forall_of_forall₂ (fun _ _ h => h.2) htables
  · exact forall_of_forall₂ (fun _ _ h => h.2) hactions

theorem loads_checkActions (control : Text) (seen : List Text) (ds : List Description.Action) :
    Loads (checkActions control seen ds) fun _ => True := by
  induction ds generalizing seen with
  | nil => exact loads_pure trivial
  | cons d ds ih =>
    rw [checkActions]
    exact Loads.bind_unless (loads_refuse _) ((ih _).mono fun _ _ _ => trivial)

theorem controlOf_loadControl (fields : List Field) (headers : List Header) (role : Text)
    (d : Description.Control) :
    Loads (loadControl fields headers role d) fun c =>
      ControlOf fields headers role d c ∧ c.Sound fields := by
  unfold loadControl
  refine Loads.bind_unless (loads_refuse _) ((loads_checkActions _ _ _).bind fun _ => ?_)
  extract_lets scope
  refine (partsOf_loadParts scope d).mono fun c ⟨hc, hsound⟩ _ hparams => ⟨?_, hsound⟩
  -- the scope is that of the control it gives
  have hscope : scope = c.scope fields headers := by
    rw [Control.scope, hc.name, hc.params, hc.locals, ← names_of_tables hc.tables]
  refine ⟨hc.name, ⟨hc.params, ?_⟩, ?_, ?_, ?_, ?_⟩
  · rw [hc.params]
    exact not_not.mp hparams
  · rw [hc.locals, hc.name]
  · exact hscope ▸ hc.actions
  · exact hscope ▸ hc.tables
  · rw [Control.bodyScope, ← hscope]
    exact hc.body

/-! ## Programs -/

/-- The names of the fields that a description declares, each under its group. -/
def fieldNames (d : Description.Program) : List Text :=
  d.headers.flatMap (fun h => h.fields.map fun f => "hdr." ++ h.name ++ "." ++ f.name) ++
    d.metadata.map (fun f => "meta." ++ f.name) ++ d.standard.map fun f => "std." ++ f.name

/-- A program declares the headers and the fields of its description, and has its controls. -/
structure ProgramOf (d : Description.Program) (p : Program) : Prop where
  headers : p.headers.map (·.name) = d.headers.map (·.name)
  fields : p.fields.map (·.name) = fieldNames d
  ingress : ∃ desc c, d.ingress = some desc ∧ p.ingress = some c ∧
    ControlOf p.fields p.headers "ingress" desc c
  egress : ∃ desc c, d.egress = some desc ∧ p.egress = some c ∧
    ControlOf p.fields p.headers "egress" desc c

/-- Fields of given names are declared behind others. -/
structure Adds (names : List Text) (seen fs : List Field) : Prop where
  names_eq : fs.map (·.name) = names
  distinct : (seen.map (·.name)).Nodup → ((seen ++ fs).map (·.name)).Nodup

theorem Adds.nil (seen : List Field) : Adds [] seen [] := ⟨rfl, fun h => by rwa [List.append_nil]⟩

/-- Fields are declared one behind the other. -/
theorem Adds.append {names names' : List Text} {seen fs gs : List Field} (hfs : Adds names seen fs)
    (hgs : Adds names' (seen ++ fs) gs) : Adds (names ++ names') seen (fs ++ gs) where
  names_eq := by rw [List.map_append, hfs.names_eq, hgs.names_eq]
  distinct h := by
    rw [← List.append_assoc]
    exact hgs.distinct (hfs.distinct h)

theorem adds_declareField (group : Text) (seen : List Field) (d : Description.Field) :
    Loads (declareField group seen d) fun f => Adds [group ++ d.name] seen [f] := by
  unfold declareField
  refine Loads.bind_unless (loads_refuse _) ?_
  refine Loads.bind_unless (loads_refuse _) (loads_pure fun hnew _ => ⟨rfl, fun h => ?_⟩)
  rw [List.map_append, List.map_singleton]
  refine List.Nodup.append h (List.nodup_singleton _) (List.disjoint_singleton.mpr fun hmem => ?_)
  obtain ⟨g, hg, hname⟩ := List.mem_map.mp hmem
  exact hnew (List.any_eq_true.mpr ⟨g, hg, beq_iff_eq.mpr hname⟩)

theorem adds_declareFields (group : Text) (seen : List Field) (ds : List Description.Field) :
    Loads (declareFields group seen ds) (Adds (ds.map fun d => group ++ d.name) seen) := by
  induction ds generalizing seen with
  | nil => exact loads_pure (.nil seen)
  | cons d ds ih =>
    refine (adds_declareField group seen d).bind fun f => ?_
    exact (ih (seen ++ [f])).bind fun fs => loads_pure fun hfs hf => hf.append hfs

theorem adds_declareHeaders (seen : List Field) (ds : List Description.Header) :
    Loads (declareHeaders seen ds) fun hs => hs.map (·.name) = ds.map (·.name) ∧
      Adds (ds.flatMap fun h => h.fields.map fun f => "hdr." ++ h.name ++ "." ++ f.name) seen
        (hs.flatMap (·.fields)) := by
  induction ds generalizing seen with
  | nil => exact loads_pure ⟨rfl, .nil seen⟩
  | cons d ds ih =>
    refine (adds_declareFields _ seen d.fields).bind fun fs => ?_
    refine (ih (seen ++ fs)).bind fun hs => loads_pure fun hhs hfs => ⟨?_, hfs.append hhs.2⟩
    rw [List.map_cons, List.map_cons, hhs.1]

theorem controlOf_loadRole (fields : List Field) (headers : List Header) (role : Text)
    (d : Option Description.Control) :
    Loads (loadRole fields headers role d) fun r => ∃ desc c, d = some desc ∧ r = some c ∧
      ControlOf fields headers role desc c ∧ c.Sound fields := by
  cases d with
  | none => exact loads_refused _ _
  | some d =>
    refine (controlOf_loadControl fields headers role d).bind fun c => loads_pure fun hc => ?_
    exact ⟨d, c, rfl, rfl, hc⟩

theorem loads_resolve (d : Description.Program) :
    Loads (resolve d) fun p => ProgramOf d p ∧ (p.fields.map (·.name)).Nodup ∧
      ∀ c ∈ p.controls, c.Sound p.fields := by
  refine (adds_declareHeaders [] d.headers).bind fun headers => ?_
  refine (adds_declareFields "meta." _ d.metadata).bind fun metadata => ?_
  refine (adds_declareFields "std." _ d.standard).bind fun standard => ?_
  refine (controlOf_loadRole _ headers "ingress" d.ingress).bind fun ingress => ?_
  refine (controlOf_loadRole _ headers "egress" d.egress).bind fun egress => loads_pure ?_
  rintro ⟨outDesc, outControl, hout, rfl, houtOf, houtSound⟩
    ⟨inDesc, inControl, hin, rfl, hinOf, hinSound⟩ hstandard hmetadata ⟨hheaders, hadds⟩
  have hfields := (hadds.append hmetadata).append hstandard
  refine ⟨⟨hheaders, hfields.names_eq, ?_, ?_⟩, hfields.distinct List.nodup_nil, ?_⟩
  · exact ⟨inDesc, inControl, hin, rfl, hinOf⟩
  · exact ⟨outDesc, outControl, hout, rfl, houtOf⟩
  · exact List.forall_mem_cons.mpr ⟨hinSound, List.forall_mem_singleton.mpr houtSound⟩

/-- What holds of every program that is resolved without a report holds of the program of a
description. -/
theorem holds_of_ofDescription {R : Description.Program → Program → Prop}
    (hR : ∀ d, Loads (resolve d) (R d)) {d : Description.Program} {p : Program}
    (h : ofDescription d = .ok p) : R d p := by
  unfold ofDescription at h
  split at h
  · next p' hrun =>
    cases h
    have hfinds := (hR d).finds []
    rw [hrun] at hfinds
    exact hfinds rfl
  · cases h

/-- The program of a text is that of its description. -/
theorem exists_description_of_load {text : Text} {p : Program} (h : load text = .ok p) :
    ∃ d, Description.Program.ofText text = .ok d ∧ ofDescription d = .ok p := by
  unfold load at h
  split at h
  · cases h
  · next d hd =>
    split at h
    · cases h
    · next p' hp =>
      cases h
      exact ⟨d, hd, hp⟩

theorem programOf_resolve (d : Description.Program) : Loads (resolve d) (ProgramOf d) :=
  (loads_resolve d).mono fun _ h => h.1

/-- **Resolution is complete and loses nothing.**  The program of a description has its headers,
fields, controls, actions, tables, keys, defaults and entries.  Each body has the statements of the
tree of its text, one for one, and each expression of a body, a key, a default or an entry is what
the tree of its text stands for.  In all of them names are settled by the declarations of the
program, of the control and of the action around them. -/
theorem programOf_ofDescription {d : Description.Program} {p : Program}
    (h : ofDescription d = .ok p) : ProgramOf d p :=
  holds_of_ofDescription programOf_resolve h

/-- A control that asks for a header and then goes by the action that its table ran. -/
def switchDescription : Description.Program where
  headers := [{ name := "e" }]
  ingress := some { idleControl with
    actions := [{ name := "a" }]
    tables := [{ name := "t", actions := [{ name := "a" }] }]
    apply := "if(h.e.isValid())switch(t.apply().action_run)\x7ba:\x7b\x7d\x7d" }
  egress := some idleControl

theorem programOf_switchDescription :
    ∃ p, ofDescription switchDescription = .ok p ∧ ProgramOf switchDescription p := by
  obtain ⟨p, hload, -⟩ := exists_of_accepts switchDescription (fun _ => true)
    (by decide +kernel)
  exact ⟨p, hload, programOf_ofDescription hload⟩

end Flowline.Pipeline
