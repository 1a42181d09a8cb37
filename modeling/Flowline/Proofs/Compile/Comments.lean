import Flowline.Proofs.Compile.Capture
import Flowline.Proofs.Compile.Ownership
import Flowline.Proofs.Source.Lines

/-!
# Generated text stays in its place

A string is read back from its quoted form (`unescape?_stringText`).  A comment takes the line in
front of its rule, and nothing in it is escaped.

Comments are made of the conditions and the tables that the statements of a control name, which are
words of program text and so have no line breaks (`clauseLines_of_derives`), and of the name of the
control, which is any text.  So all comments of a program are lines exactly if the names of its two
controls are (`comments_oneLine_iff`).
-/

namespace Flowline

/-! ## Quoted strings -/

namespace Ddlog

/-- What a string stands for between its quotes, if its escapes are right and neither a quote nor a
line break is left without one. -/
def unescape? : List Char → Option (List Char)
  | [] => some []
  | '\\' :: '\\' :: cs => (unescape? cs).map ('\\' :: ·)
  | '\\' :: '"' :: cs => (unescape? cs).map ('"' :: ·)
  | '\\' :: 'n' :: cs => (unescape? cs).map ('\n' :: ·)
  | c :: cs => if c = '\\' ∨ c = '"' ∨ c = '\n' then none else (unescape? cs).map (c :: ·)

theorem unescape?_flatMap (cs : List Char) : unescape? (cs.flatMap escapeChar) = some cs := by
  induction cs with
  | nil => rfl
  | cons c cs ih =>
    rw [List.flatMap_cons, escapeChar]
    split_ifs with hbackslash hquote hbreak
    · simp [hbackslash, unescape?, ih]
    · simp [hquote, unescape?, ih]
    · simp [hbreak, unescape?, ih]
    · simp [unescape?, ih, hbackslash, hquote, hbreak]

/-- Between the quotes of a string is nothing but its escaped form. -/
theorem unescape?_stringText (s : Text) :
    ∃ body, (stringText s).toList = '"' :: (body ++ ['"']) ∧ unescape? body = some s.toList :=
  ⟨s.toList.flatMap escapeChar, by simp [stringText], unescape?_flatMap _⟩

/-- The first line of a rule with a comment is the comment, if that is one line. -/
theorem takeWhile_text_iff {r : Rule} (h : r.comment ≠ "") :
    r.text.toList.takeWhile (· ≠ '\n') = "// ".toList ++ r.comment.toList ↔ OneLine r.comment := by
  have htext : ∃ rest, r.text.toList = ("// ".toList ++ r.comment.toList) ++ '\n' :: rest :=
    ⟨_, by simp [Rule.text, h]; rfl⟩
  obtain ⟨rest, htext⟩ := htext
  rw [htext]
  constructor
  · intro heq hmem
    have hline : ∀ c ∈ "// ".toList ++ r.comment.toList, decide (c ≠ '\n') = true :=
      heq ▸ Source.mem_takeWhile
    simpa using hline _ (List.mem_append_right _ hmem)
  · intro hline
    refine Source.takeWhile_append_stop (fun c hc => decide_eq_true ?_) (by simp)
    rintro rfl
    exact (List.mem_append.mp hc).elim (by decide) hline

end Ddlog

/-! ## What expressions stand for -/

namespace Pipeline

open Source (Case Clause Expr Phrase Stmt Token)

variable {s : Scope}

theorem Scope.Groups.oneLine {param group : Text} (h : s.Groups param group) : OneLine group := by
  have hgroup : group ∈ ["hdr.", "meta.", "std."] := (List.of_mem_zip h).2
  simp only [List.mem_cons, List.not_mem_nil, or_false] at hgroup
  rcases hgroup with rfl | rfl | rfl <;> decide

/-- Resolution keeps a text on its line. -/
theorem Denotes.oneLine {e x : Expr} (h : Denotes s e x) (he : OneLine e.text) : OneLine x.text := by
  induction h with
  | field hgroup _ hname =>
    simp only [Expr.text, oneLine_append] at he
    simp only [Expr.text, hname, oneLine_append]
    exact ⟨hgroup.oneLine, he.2⟩
  | param | localVar | literal | truth => exact he
  | valid | hit | miss | actionRun =>
    simp only [Expr.text, oneLine_append] at he ⊢
    simp +decide [he]
  | binary _ _ ihl ihr =>
    simp only [Expr.text, oneLine_append] at he ⊢
    simp [he, ihl, ihr]
  | negation _ ih | slice _ ih | cast _ ih =>
    simp only [Expr.text, oneLine_append] at he ⊢
    simp [he, ih]

end Pipeline

/-! ## What happens at stages -/

namespace ControlFlow

open Pipeline
open Source (Clause Expr Stmt Token)

variable {s : Scope}

/-- The condition or the table of a stage is named in one line. -/
def Role.OneLine : Role → Prop
  | cond e => Flowline.OneLine e.text
  | table name => ∀ n ∈ name, Flowline.OneLine n
  | dummy => False

theorem oneLine_hitTest {e : Expr} {t : TableRef} {expected : Bool}
    (h : hitTest e = some (t, expected)) (he : OneLine e.text) : OneLine t.name := by
  fun_induction hitTest e generalizing expected with
  | case1 u b =>
    cases h
    cases b <;> simp only [Expr.text, oneLine_append] at he <;> exact he.1
  | case2 e ih =>
    obtain ⟨⟨u, b⟩, hu, heq⟩ := Option.map_eq_some_iff.mp h
    cases heq
    simp only [Expr.text, oneLine_append] at he
    exact ih hu he.2
  | case3 => cases h

theorem oneLine_testRole {e : Expr} (he : OneLine e.text) : (testRole e).OneLine := by
  unfold testRole
  split
  · next h =>
    rintro _ ⟨⟩
    exact oneLine_hitTest h he
  · exact he

/-- A call has its text in one line. -/
def CallInLine : Stmt → Prop
  | .call target method args => OneLine (Expr.call target method args).text
  | _ => True

/-- A table that is applied is named in one line. -/
def ApplyInLine : Stmt → Prop
  | .apply t => OneLine t.name
  | _ => True

/-- Statements of texts have their own expressions in one line. -/
theorem inLine_of_derives {nearest : Prop} {st : Stmt} {ts : List Token}
    (h : (Clause.stmt st).Derives nearest ts) (hread : ∀ t ∈ ts, t.IsRead) :
    st.Own (fun e => OneLine e.text) CallInLine := by
  cases h with
  | ifThen _ _ he | ifElse _ _ he | switch _ _ he =>
    exact Source.oneLine_of_spelled _ (he.spelled fun t ht => hread t (by simp [ht]))
  | assign _ hl _ hr =>
    exact ⟨Source.oneLine_of_spelled _ (hl.spelled fun t ht => hread t (by simp [ht])),
      Source.oneLine_of_spelled _ (hr.spelled fun t ht => hread t (by simp [ht]))⟩
  | call _ hl _ =>
    exact Source.oneLine_of_spelled _ (hl.spelled fun t ht => hread t (by simp [ht]))
  | _ => trivial

theorem inLine_of_denotes {st x : Stmt} (h : StmtDenotes s st x)
    (hst : st.Own (fun e => OneLine e.text) CallInLine) :
    x.Own (fun e => OneLine e.text) ApplyInLine := by
  cases h with
  | ifThen hc | ifElse hc | switch _ hc => exact hc.oneLine hst
  | assign hl hr => exact ⟨hl.oneLine hst.1, hr.oneLine hst.2⟩
  | apply =>
    have hcall : OneLine (Expr.call _ _ _).text := hst
    simp only [Expr.text, oneLine_append] at hcall
    exact hcall.1.1.1.1.1
  | _ => trivial

theorem oneLine_ownForks {st : Stmt} (h : st.Own (fun e => OneLine e.text) ApplyInLine) :
    ∀ f ∈ ownForks st, f.role.OneLine := by
  intro f hf
  cases st with
  | ifThen | ifElse =>
    cases List.mem_singleton.mp hf
    exact oneLine_testRole h
  | apply t =>
    cases List.mem_singleton.mp hf
    rintro _ ⟨⟩
    exact h
  | switch subject =>
    cases subject with
    | actionRun =>
      cases List.mem_singleton.mp hf
      rintro _ ⟨⟩
      have hsubject : OneLine (Expr.actionRun _).text := h
      simp only [Expr.text, oneLine_append] at hsubject
      exact hsubject.1
    | _ => cases hf
  | _ => cases hf

end ControlFlow

/-! ## Flows -/

namespace Compile

open Ddlog (Decl)
open ControlFlow
open Pipeline (Control ControlOf Program Table idleControl ofDescription)
open Switch (Target)

/-- The statements of a control have stages that are named in one line, and its tables are its
own. -/
structure InLines (c : Control) : Prop where
  roles : ∀ f ∈ forksAll c.body, f.role.OneLine
  tables : ∀ x ∈ c.tables, x.control = c.name

/-- Controls that are loaded have the statements of program text. -/
theorem inLines_of_load {fields : List Field} {headers : List Pipeline.Header} {role : Text}
    {d : Description.Control} {c : Control} (h : ControlOf fields headers role d c) :
    InLines c where
  roles := by
    obtain ⟨tree, hparse, hbody⟩ := h.body.parsed
    have hderives := Source.derives_of_parseStatements hparse rfl
    exact each_forksAll oneLine_ownForks c.body (hbody.each inLine_of_denotes
      (hderives.each inLine_of_derives (Source.isRead_tokensOf d.apply)))
  tables x hx := by
    obtain ⟨y, -, hy⟩ := exists_of_mem_right h.tables hx
    exact hy.control

/-- The comment of a flow of a table names the table. -/
theorem comment_of_tableFlows {b : State} {t : Table} {g : Graph} {v : Vertex} {fs : List StageFlow}
    (h : TableFlows b t g v fs) {f : StageFlow} (hf : f ∈ fs) :
    ∃ rest, f.comment = "table " ++ t.fullName ++ rest ∧ OneLine rest := by
  rcases h.cases_of_mem hf with ⟨-, _, _, _, -, -, rfl⟩ | ⟨e, _, _, -, -, rfl⟩ | hdefault
  · exact ⟨"", String.append_empty.symm, by decide⟩
  · exact ⟨" entry " ++ toString (e.2 + 1), String.append_assoc, by simp +decide⟩
  · cases hdefault <;> exact ⟨" default", rfl, by decide⟩

theorem name_entryOf (c : Control) (first : Int64) :
    (entryOf c first).name = c.name ++ ".entry" := if_neg (by simp)

/-- The comments of a stage: at the entry they name the control, elsewhere what the stage does. -/
theorem oneLine_of_stageFlows {b : State} {c : Control} {first : Int64} (hc : InLines c)
    (hname : OneLine c.name) {v : Vertex} (hv : v ∈ (graphOf c first).reachable)
    (hexit : v.position ≠ (graphOf c first).exit.position) {fs : List StageFlow}
    (hfs : StageFlows b (rightTables c) (graphOf c first) v fs) : ∀ f ∈ fs, OneLine f.comment := by
  have hrole : v = entryOf c first ∨ v.role.OneLine := by
    rcases cases_of_mem_reachable hv with hentry | rfl | ⟨f, hf, hrole⟩
    · exact .inl hentry
    · exact absurd rfl hexit
    · exact .inr (hrole ▸ hc.roles f hf)
  intro f hf
  cases hfs with
  | dummy hdummy =>
    obtain ⟨e, -, rfl⟩ := List.mem_map.mp hf
    rcases hrole with rfl | hrole
    · show OneLine (entryOf c first).name
      simp +decide [name_entryOf, hname]
    · rw [hdummy] at hrole
      exact hrole.elim
  | @cond e _ hcond =>
    rcases hrole with rfl | hrole
    · cases hcond
    · rw [hcond] at hrole
      have hline : OneLine ("if " ++ e.text) := oneLine_append.mpr ⟨by decide, hrole⟩
      rcases List.mem_cons.mp hf with rfl | hf
      · exact hline
      · cases List.mem_singleton.mp hf
        show OneLine ("if " ++ e.text ++ " else")
        exact oneLine_append.mpr ⟨hline, by decide⟩
  | table htable hfind htables =>
    rcases hrole with rfl | hrole
    · cases htable
    · rw [htable] at hrole
      obtain ⟨x, hx, rfl, rfl⟩ := exists_table?_of_findTable? hfind
      obtain ⟨rest, hcomment, hrest⟩ := comment_of_tableFlows htables hf
      have hcontrol := hc.tables x (List.mem_of_find?_eq_some hx)
      rw [hcomment, Table.fullName, hcontrol]
      simp +decide [hname, hrest, hrole x.name rfl]

/-- The comments of a graph are lines if the name of its control is. -/
theorem blocks_oneLine_iff {b : State} {c : Control} {g : Graph} {first : Int64} (hc : InLines c)
    (hg : g = graphOf c first) (hon : g.Onward first) {exitFlows : Vertex → List StageFlow}
    (hexit : ∀ f ∈ exitFlows g.exit, OneLine f.comment) {blocks : List (List StageFlow)}
    (hblocks : GraphBlocks b c g exitFlows blocks) :
    (∀ f ∈ blocks.flatten, OneLine f.comment) ↔ OneLine c.name := by
  subst hg
  constructor
  · intro hall
    -- the flow that leaves the entry is called after it
    obtain ⟨block, hmem, hblock⟩ := exists_of_mem_left hblocks (hon.proper.mem_reachable.mpr .entry)
    have hposition : (graphOf c first).entry.position ≠ (graphOf c first).exit.position :=
      Nat.ne_of_lt (exitOf_position_pos c first)
    rw [if_neg hposition] at hblock
    obtain ⟨f, hf⟩ := List.exists_mem_of_ne_nil _ (stageFlows_ne_nil hon .entry hposition hblock)
    have hline := hall f (List.mem_flatten.mpr ⟨block, hmem, hf⟩)
    cases hblock with
    | dummy =>
      obtain ⟨e, -, rfl⟩ := List.mem_map.mp hf
      have hentry : OneLine (entryOf c first).name := hline
      rw [name_entryOf, oneLine_append] at hentry
      exact hentry.1
    | cond hrole | table hrole => cases hrole
  · intro hname f hf
    rcases mem_blocks hon hblocks hf with hf | ⟨v, block, hv, hposition, hblock, hf, -⟩
    · exact hexit f hf
    · exact oneLine_of_stageFlows hc hname (hon.proper.mem_reachable.mpr hv) hposition hblock f hf

/-- The comments of a program are lines if the names of its controls are. -/
theorem comments_oneLine_iff {d : Description.Program} {p : Program} {t : Target} {o : Output}
    (hload : ofDescription d = .ok p) (hcompile : (compile p t).result = .ok o) :
    (∀ f ∈ o.flows, OneLine f.comment) ↔ ∀ c ∈ p.controls, OneLine c.name := by
  obtain ⟨inControl, outControl, ports, b, h⟩ := compiled_of_ok hcompile
  have hp := Pipeline.holds_of_ofDescription Pipeline.programOf_resolve hload
  have hlines : InLines inControl ∧ InLines outControl := by
    obtain ⟨_, c, -, hc, hin⟩ := hp.ingress
    obtain ⟨_, c', -, hc', hout⟩ := hp.egress
    cases h.ingress.symm.trans hc
    cases h.egress.symm.trans hc'
    exact ⟨inLines_of_load hin, inLines_of_load hout⟩
  obtain ⟨inBlocks, outBlocks, hin, hout, hflows⟩ := h.flows
  have hingress : ∀ f ∈ [ingressExitFlow o.stages o.ingress.exit], OneLine f.comment :=
    List.forall_mem_singleton.mpr (by decide : OneLine "ingress exit")
  have hegress : ∀ f ∈ egressExitFlows ports o.egress.exit, OneLine f.comment :=
    List.forall_mem_cons.mpr ⟨(by decide : OneLine "egress exit: no output port"),
      List.forall_mem_singleton.mpr (by decide : OneLine "egress exit")⟩
  have hinit : OneLine (initFlow ports o.stages).comment :=
    (by decide : OneLine "initialize output port and multicast group")
  have hnoGroup : OneLine (noGroupFlow ports o.stages).comment :=
    (by decide : OneLine "multicast: no group")
  have hgroup : OneLine (groupFlow ports o.stages).comment :=
    (by decide : OneLine "multicast: one clone per member port")
  rw [hflows, Program.controls, h.ingress, h.egress, Option.toList_some, Option.toList_some,
    List.forall_mem_append, List.forall_mem_singleton, List.forall_mem_singleton,
    ← blocks_oneLine_iff hlines.1 h.inGraph h.inOnward hingress hin,
    ← blocks_oneLine_iff hlines.2 h.outGraph h.outOnward hegress hout]
  simp only [List.forall_mem_cons, List.forall_mem_append, hinit, hnoGroup, hgroup, true_and]

theorem comment_rule (f : StageFlow) : f.rule.comment = f.comment := by
  unfold StageFlow.rule
  split <;> rfl

/-- The comments of rules are those of flows. -/
theorem forall_comment_iff {p : Program} {t : Target} {o : Output}
    (hcompile : (compile p t).result = .ok o) {P : Text → Prop} :
    (∀ r ∈ o.program.filterMap Decl.rule?, P r.comment) ↔ ∀ f ∈ o.flows, P f.comment := by
  obtain ⟨_, _, _, _, h⟩ := compiled_of_ok hcompile
  simp only [h.mem_rules, forall_exists_index, and_imp, forall_apply_eq_imp_iff₂, comment_rule]

/-- **Strings stay between their quotes, and comments on their lines.**  A string is read back from
its quoted form, in which no quote and no line break stands without an escape.  In a program that
loads and compiles no comment of a rule has a line break, exactly if the names of its controls have
none: these are not escaped, and all else in a comment is words of program text.  A comment without
one is the first line of its rule, and a comment with one is not. -/
theorem generated_text_in_place (s : Text) :
    (∃ body, (Ddlog.stringText s).toList = '"' :: (body ++ ['"']) ∧
      Ddlog.unescape? body = some s.toList) ∧
    ∀ d p t o, ofDescription d = .ok p → (compile p t).result = .ok o →
      ((∀ r ∈ o.program.filterMap Decl.rule?, OneLine r.comment) ↔
        ∀ c ∈ p.controls, OneLine c.name) ∧
      ∀ r ∈ o.program.filterMap Decl.rule?, r.comment ≠ "" → (OneLine r.comment ↔
        r.text.toList.takeWhile (· ≠ '\n') = "// ".toList ++ r.comment.toList) := by
  refine ⟨Ddlog.unescape?_stringText s, fun d p t o hload hcompile => ⟨?_, fun r _ hr => ?_⟩⟩
  · exact (forall_comment_iff hcompile).trans (comments_oneLine_iff hload hcompile)
  · exact (Ddlog.takeWhile_text_iff hr).symm

/-- A program whose ingress control has a name of its own and a condition. -/
def namedDescription (name : Text) : Description.Program where
  ingress := some { idleControl with name, apply := "if(true);" }
  egress := some idleControl

/-- With a blank in the name, all comments are lines. -/
theorem generated_text_in_place_namedDescription :
    ∃ p o, ofDescription (namedDescription "a b") = .ok p ∧ (compile p {}).result = .ok o ∧
      ∀ r ∈ o.program.filterMap Decl.rule?, OneLine r.comment := by
  obtain ⟨p, o, hload, hcompile, htest⟩ := exists_of_passes (namedDescription "a b")
    (fun p => decide (∀ c ∈ p.controls, OneLine c.name)) (by decide +kernel)
  obtain ⟨-, hcomments⟩ := generated_text_in_place ""
  exact ⟨p, o, hload, hcompile,
    (hcomments _ p {} o hload hcompile).1.mpr (of_decide_eq_true htest)⟩

/-- With a line break in the name, a comment goes on behind its line. -/
theorem comment_breaks_namedDescription :
    ∃ p o r, ofDescription (namedDescription "a\nb") = .ok p ∧ (compile p {}).result = .ok o ∧
      r ∈ o.program.filterMap Decl.rule? ∧ ¬OneLine r.comment := by
  obtain ⟨p, o, hload, hcompile, htest⟩ := exists_of_passes (namedDescription "a\nb")
    (fun p => decide (¬∀ c ∈ p.controls, OneLine c.name)) (by decide +kernel)
  have hbreaks := mt ((forall_comment_iff hcompile).trans (comments_oneLine_iff hload hcompile)).mp
    (of_decide_eq_true htest)
  simp only [not_forall] at hbreaks
  obtain ⟨r, hr, hbreak⟩ := hbreaks
  exact ⟨p, o, r, hload, hcompile, hr, hbreak⟩

end Compile

end Flowline
