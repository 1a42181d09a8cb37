import Flowline.Pipeline.Program
import Flowline.Text.Quoted

/-!
# Program listings

A resolved program as text: headers with their fields and where these live on the switch, metadata,
and the controls with their locals, actions, tables and bodies.
-/

namespace Flowline.Pipeline

open Source (Expr Stmt)

/-- Lines one below the other, each with its end. -/
def unlines (ls : List Text) : Text := String.join (ls.map (· ++ "\n"))

/-- The part of a name behind its last dot. -/
def lastPart (name : Text) : Text := (name.splitOn ".").getLastD ""

/-- The line of a field, with where it lives behind it. -/
def fieldLine (f : Field) : Text :=
  let notes : List Text :=
    (f.packet.map ("of=" ++ ·)).toList ++
      (f.slice.map fun s =>
        "slice=" ++ Numeral.word s.low ++ ".." ++ Numeral.word s.high ++ "/" ++
          Numeral.word s.size).toList ++
      (f.prereq.map ("prereq=" ++ ·)).toList
  "    " ++ f.type.text ++ " " ++ lastPart f.name ++ ";" ++
    if notes.isEmpty then "" else " // " ++ " ".intercalate notes

/-- A named group of fields. -/
def groupLines (head : Text) (fields : List Field) : List Text :=
  (head ++ " \x7b") :: fields.map fieldLine ++ ["\x7d"]

/-- A header. -/
def Header.lines (h : Header) : List Text :=
  groupLines
    ("header " ++ h.name ++
      match h.protocol with
      | some p => " @protocol(" ++ p.quoted ++ ")"
      | none => "") h.fields

/-- An element of a key. -/
def Key.line (k : Key) : Text :=
  "            " ++ k.expr.text ++ ": " ++ k.kind.name ++ " @name(" ++ k.name.quoted ++ ");"

/-- An action of a table. -/
def ActionRef.line (r : ActionRef) : Text :=
  "            " ++
    (if r.defaultOnly then "@defaultonly " else if r.tableOnly then "@tableonly " else "") ++
    r.action.name ++ ";"

/-- A default action. -/
def DefaultAction.line (d : DefaultAction) : Text :=
  "        " ++ (if d.isConst then "const " else "") ++ "default_action = " ++ d.action.name ++ "(" ++
    Expr.listText d.args ++ ");"

/-- A constant entry. -/
def Entry.line (e : Entry) : Text :=
  "            (" ++ Expr.listText e.keys ++ "): " ++ e.action.name ++ "(" ++ Expr.listText e.args ++
    ");"

/-- A table. -/
def Table.lines (t : Table) : List Text :=
  ["    table " ++ t.name ++ " \x7b"] ++
    (if t.keys.isEmpty then []
      else ["        key = \x7b"] ++ t.keys.map Key.line ++ ["        \x7d"]) ++
    ["        actions = \x7b"] ++ t.actions.map ActionRef.line ++ ["        \x7d"] ++
    (t.default?.map DefaultAction.line).toList ++
    (if t.hasConstEntries then
      ["        const entries = \x7b"] ++ t.entries.map Entry.line ++ ["        \x7d"]
    else []) ++
    ["    \x7d"]

/-- A parameter with its type. -/
def paramText (p : Param) : Text := p.type.text ++ " " ++ p.name

/-- An action with its body. -/
def Action.line (a : Action) : Text :=
  "    action " ++ a.name ++ "(" ++ ", ".intercalate (a.params.map paramText) ++ ") " ++
    Stmt.blockText 1 a.body

/-- A control. -/
def Control.lines (c : Control) : List Text :=
  ["control " ++ c.name ++ "(" ++ ", ".intercalate c.params ++ ") \x7b"] ++
    c.locals.map (fun l => "    " ++ l.type.text ++ " " ++ l.name ++ ";") ++
    c.actions.map Action.line ++
    c.tables.flatMap Table.lines ++
    ["    apply " ++ Stmt.blockText 1 c.body, "\x7d"]

/-- A whole program. -/
def Program.listing (p : Program) : Text :=
  unlines
    (p.headers.flatMap Header.lines ++
      (if p.metadata.isEmpty then [] else groupLines "struct metadata" p.metadata) ++
      (if p.standard.isEmpty then [] else groupLines "struct standard_metadata" p.standard) ++
      p.controls.flatMap fun c => "" :: c.lines)

end Flowline.Pipeline
