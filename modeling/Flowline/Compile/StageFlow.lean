import Flowline.Compile.Names
import Flowline.Ddlog.Syntax
import Flowline.Flow.Simplify

/-!
# Flows of a stage

A flow of a stage, with the rule that makes it: for each row of a relation, or once if the rule has
no body.  The body binds the variables that the text of the flow interpolates.
-/

namespace Flowline.Compile

open Ddlog (Atom Case Decl Expr Rule Term)
open Flowline.Flow (Action Line Match)

/-- The pattern of a column. -/
inductive Pattern where
  | var (name : Text)
  | pair (first second : Text)
  deriving DecidableEq, Repr

/-- A case of a choice of actions: a constructor, the variables of its fields, and the action. -/
structure ActionCase where
  constructor : Text
  vars : List Text
  action : Action
  deriving DecidableEq, Repr

/-- A term of the body of a rule. -/
inductive Binding where
  /-- A row of a relation. -/
  | row (relation : Text) (patterns : List Pattern)
  /-- The variable is not zero. -/
  | nonzero (var : Text)
  /-- `name` is one or zero, as the truth value `source` says. -/
  | flag (name source : Text)
  /-- `name` is the text of a match if `source` has a value, which is then `some`, and else
  empty. -/
  | optional (name source value : Text) (m : Match)
  /-- `actions` is the text of the action that `action` chooses. -/
  | choice (cases : List ActionCase)
  /-- `name` is the text of an action. -/
  | actionText (name : Text) (a : Action)
  /-- `name` is all texts of `source` in a group, with commas between them. -/
  | joined (name source group : Text)
  deriving DecidableEq, Repr

/-- A flow of a stage. -/
structure StageFlow where
  comment : Text
  flow : Line
  bindings : List Binding := []
  deriving DecidableEq, Repr

/-! ## Rules -/

/-- A pattern as an expression. -/
def Pattern.expr : Pattern → Expr
  | var name => .var name
  | pair first second => .tuple [.var first, .var second]

/-- A case of a choice of actions as one of texts. -/
def ActionCase.expr (c : ActionCase) : Case :=
  .mk (.ctor c.constructor (c.vars.map .var)) (.str c.action.text)

/-- A binding as a term. -/
def Binding.term : Binding → Term
  | row relation patterns => .atom ⟨relation, patterns.map Pattern.expr⟩
  | nonzero v => .cond (.binary "!=" (.var v) (.int "0"))
  | flag name source => .assign name (.ifElse (.var source) (.int "1'd1") (.int "1'd0"))
  | optional name source v m =>
    .assign name (.choose (.var source)
      [.mk (.ctor "Some" [.var v]) (.str (", " ++ m.text)), .mk (.ctor "None" []) (.str "")])
  | choice cases => .assign "actions" (.choose (.var "action") (cases.map ActionCase.expr))
  | actionText name a => .assign name (.str a.text)
  | joined name source group =>
    .assign name (.apply (.apply (.apply (.var source) "group_by" [.var group]) "to_vec" []) "join"
      [.str ", "])

/-- The rule of a flow; without bindings it is a fact. -/
def StageFlow.rule (f : StageFlow) : Rule :=
  if f.bindings.isEmpty then
    { comment := f.comment, head := ⟨flowRelation, [.str f.flow.text]⟩, body := [] }
  else
    { comment := f.comment
      head := ⟨flowRelation, [.var "flow"]⟩
      body := f.bindings.map Binding.term ++ [.assign "flow" (.str f.flow.text)] }

/-- The declaration of a flow. -/
def StageFlow.decl (f : StageFlow) : Decl := .rule f.rule

/-- Whether the text of a binding exists. -/
def Binding.hasText (l : Switch.Limits) : Binding → Bool
  | optional _ _ _ m => m.hasText l
  | _ => true

/-- Whether the text of a flow exists. -/
def StageFlow.hasText (l : Switch.Limits) (f : StageFlow) : Bool :=
  f.flow.guard.hasText l && f.bindings.all (Binding.hasText l)

end Flowline.Compile
