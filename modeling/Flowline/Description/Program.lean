import Flowline.Description.Value

/-!
# Descriptions of programs

The shape of a program as it is written down: headers, metadata and two controls, with conditions,
keys and bodies still as text.
-/

namespace Flowline.Description

open Yaml (Node)

/-- The part of a packet field that holds a field. -/
structure Slice where
  low : Int64 := 0
  high : Int64 := 0
  size : Int64 := 0
  deriving DecidableEq, Repr

/-- A field, a local or a parameter. -/
structure Field where
  name : Text := ""
  width : Int64 := 0
  isBool : Bool := false
  isSigned : Bool := false
  isVarbit : Bool := false
  packet : Text := ""
  slice : Option Slice := none
  prereq : Text := ""
  builtin : Text := ""
  deriving DecidableEq, Repr

/-- A packet header. -/
structure Header where
  name : Text := ""
  protocol : Text := ""
  fields : List Field := []
  deriving DecidableEq, Repr

/-- An action with the text of its body. -/
structure Action where
  name : Text := ""
  params : List Field := []
  body : Text := ""
  deriving DecidableEq, Repr

/-- An element of a table's key. -/
structure TableKey where
  expr : Text := ""
  kind : Text := ""
  name : Text := ""
  deriving DecidableEq, Repr

/-- An action that a table may run. -/
structure ActionRef where
  name : Text := ""
  tableOnly : Bool := false
  defaultOnly : Bool := false
  deriving DecidableEq, Repr

/-- The action of a table that nothing matched. -/
structure DefaultAction where
  name : Text := ""
  args : List Text := []
  isConst : Bool := false
  deriving DecidableEq, Repr

/-- A constant entry of a table. -/
structure Entry where
  keys : List Text := []
  action : Text := ""
  args : List Text := []
  priority : Int64 := 0
  deriving DecidableEq, Repr

/-- A table. -/
structure Table where
  name : Text := ""
  keys : List TableKey := []
  actions : List ActionRef := []
  defaultAction : Option DefaultAction := none
  constEntries : Option (List Entry) := none
  deriving DecidableEq, Repr

/-- A control with the text of its body. -/
structure Control where
  name : Text := ""
  params : List Text := []
  locals : List Field := []
  actions : List Action := []
  tables : List Table := []
  apply : Text := ""
  deriving DecidableEq, Repr

/-- A program. -/
structure Program where
  headers : List Header := []
  metadata : List Field := []
  standard : List Field := []
  ingress : Option Control := none
  egress : Option Control := none
  deriving DecidableEq, Repr

/-! ## Reading -/

/-- Reads the part of a packet field. -/
def readSlice : Node → Slice → Read Slice :=
  readRecord "frontend.fileSlice"
    [.part "low" (·.low) (fun s v => { s with low := v }) readWord,
      .part "high" (·.high) (fun s v => { s with high := v }) readWord,
      .part "size" (·.size) (fun s v => { s with size := v }) readWord]

/-- Reads a field. -/
def readField : Node → Field → Read Field :=
  readRecord "frontend.fileField"
    [.part "name" (·.name) (fun f v => { f with name := v }) readString,
      .part "width" (·.width) (fun f v => { f with width := v }) readWord,
      .part "bool" (·.isBool) (fun f v => { f with isBool := v }) readBool,
      .part "signed" (·.isSigned) (fun f v => { f with isSigned := v }) readBool,
      .part "varbit" (·.isVarbit) (fun f v => { f with isVarbit := v }) readBool,
      .part "of" (·.packet) (fun f v => { f with packet := v }) readString,
      .part "slice" (·.slice) (fun f v => { f with slice := v }) (readRecord? readSlice {}),
      .part "prereq" (·.prereq) (fun f v => { f with prereq := v }) readString,
      .part "builtin" (·.builtin) (fun f v => { f with builtin := v }) readString]

/-- Reads a list of fields. -/
def readFields : Node → List Field → Read (List Field) :=
  readList "[]frontend.fileField" fun n => readField n {}

/-- Reads a list of strings; nothing among them is the empty one. -/
def readStrings : Node → List Text → Read (List Text) :=
  readList "[]string" fun n => readString n ""

/-- Reads a header. -/
def readHeader : Node → Header → Read Header :=
  readRecord "frontend.fileHeader"
    [.part "name" (·.name) (fun h v => { h with name := v }) readString,
      .part "protocol" (·.protocol) (fun h v => { h with protocol := v }) readString,
      .part "fields" (·.fields) (fun h v => { h with fields := v }) readFields]

/-- Reads an action. -/
def readAction : Node → Action → Read Action :=
  readRecord "frontend.fileAction"
    [.part "name" (·.name) (fun a v => { a with name := v }) readString,
      .part "params" (·.params) (fun a v => { a with params := v }) readFields,
      .part "body" (·.body) (fun a v => { a with body := v }) readString]

/-- Reads an element of a key. -/
def readTableKey : Node → TableKey → Read TableKey :=
  readRecord "frontend.fileKey"
    [.part "expr" (·.expr) (fun k v => { k with expr := v }) readString,
      .part "match" (·.kind) (fun k v => { k with kind := v }) readString,
      .part "name" (·.name) (fun k v => { k with name := v }) readString]

/-- Reads an action of a table. -/
def readActionRef : Node → ActionRef → Read ActionRef :=
  readRecord "frontend.fileActionRef"
    [.part "name" (·.name) (fun a v => { a with name := v }) readString,
      .part "table_only" (·.tableOnly) (fun a v => { a with tableOnly := v }) readBool,
      .part "default_only" (·.defaultOnly) (fun a v => { a with defaultOnly := v }) readBool]

/-- Reads a default action. -/
def readDefaultAction : Node → DefaultAction → Read DefaultAction :=
  readRecord "frontend.fileDefault"
    [.part "name" (·.name) (fun d v => { d with name := v }) readString,
      .part "args" (·.args) (fun d v => { d with args := v }) readStrings,
      .part "const" (·.isConst) (fun d v => { d with isConst := v }) readBool]

/-- Reads a constant entry. -/
def readEntry : Node → Entry → Read Entry :=
  readRecord "frontend.fileEntry"
    [.part "keys" (·.keys) (fun e v => { e with keys := v }) readStrings,
      .part "action" (·.action) (fun e v => { e with action := v }) readString,
      .part "args" (·.args) (fun e v => { e with args := v }) readStrings,
      .part "priority" (·.priority) (fun e v => { e with priority := v }) readWord]

/-- Reads a table. -/
def readTable : Node → Table → Read Table :=
  readRecord "frontend.fileTable"
    [.part "name" (·.name) (fun t v => { t with name := v }) readString,
      .part "keys" (·.keys) (fun t v => { t with keys := v })
        (readList "[]frontend.fileKey" fun n => readTableKey n {}),
      .part "actions" (·.actions) (fun t v => { t with actions := v })
        (readList "[]frontend.fileActionRef" fun n => readActionRef n {}),
      .part "default_action" (·.defaultAction) (fun t v => { t with defaultAction := v })
        (readRecord? readDefaultAction {}),
      .part "const_entries" (·.constEntries) (fun t v => { t with constEntries := v })
        (readList? "[]frontend.fileEntry" fun n => readEntry n {})]

/-- Reads a control. -/
def readControl : Node → Control → Read Control :=
  readRecord "frontend.fileControl"
    [.part "name" (·.name) (fun c v => { c with name := v }) readString,
      .part "params" (·.params) (fun c v => { c with params := v }) readStrings,
      .part "locals" (·.locals) (fun c v => { c with locals := v }) readFields,
      .part "actions" (·.actions) (fun c v => { c with actions := v })
        (readList "[]frontend.fileAction" fun n => readAction n {}),
      .part "tables" (·.tables) (fun c v => { c with tables := v })
        (readList "[]frontend.fileTable" fun n => readTable n {}),
      .part "apply" (·.apply) (fun c v => { c with apply := v }) readString]

/-- Reads a program. -/
def readProgram : Node → Program → Read Program :=
  readRecord "frontend.fileProgram"
    [.part "headers" (·.headers) (fun p v => { p with headers := v })
        (readList "[]frontend.fileHeader" fun n => readHeader n {}),
      .part "metadata" (·.metadata) (fun p v => { p with metadata := v }) readFields,
      .part "standard" (·.standard) (fun p v => { p with standard := v }) readFields,
      .part "ingress" (·.ingress) (fun p v => { p with ingress := v })
        (readRecord? readControl {}),
      .part "egress" (·.egress) (fun p v => { p with egress := v })
        (readRecord? readControl {})]

/-- The description of a program in a text. -/
def Program.ofText (text : Text) : Except DocumentError Program :=
  readDocument "program" readProgram {} text

end Flowline.Description
