import Flowline.Command.Flags
import Flowline.Compile.Program
import Flowline.Description.Target
import Flowline.Pipeline.Listing
import Flowline.Pipeline.Loader

/-!
# Running the compiler on files

What the command prints and writes, given what it found when it opened its files.  Only the result
of writing is left open.

Steps are logged: the main ones always, all others only if asked for.
-/

namespace Flowline.Command

open Compile (Output)
open Pipeline (Program)
open Switch (Target)

/-! ## Fixed texts -/

/-- The text of the help. -/
def helpText : Text :=
  "p4c-of compiles a match-action pipeline program into a DDlog\n" ++
  "program whose Flow relation holds the OpenFlow flows implementing it.\n" ++
  "Tables become input relations the control plane fills at run time.\n" ++
  "\n" ++
  "Usage:\n" ++
  "  p4c-of [file] [flags]\n" ++
  "\n" ++
  "Flags:\n" ++
  "      --dcfg            Dump the control flow graph of each control\n" ++
  "      --ddecls          Dump the helpers and declarations only\n" ++
  "      --dflows          Dump the flow rules only\n" ++
  "      --dp4             Dump the resolved program\n" ++
  "  -h, --help            help for p4c-of\n" ++
  "  -o, --output string   Output file (default <input>.dl)\n" ++
  "      --target string   YAML file overriding the switch constants\n" ++
  "  -v, --verbose         Log every compilation step\n" ++
  "      --version         version for p4c-of\n"

/-- The text of the version. -/
def versionText : Text := "p4c-of version 0.1.0\n"

/-- The message of a failure. -/
def failureText (message : Text) : Text := "p4c-of: " ++ message ++ "\n"

/-! ## Files -/

/-- Why a file cannot be used. -/
inductive FileError where
  | missing
  | notDirectory
  | isDirectory
  deriving DecidableEq, Repr

/-- The reason in messages. -/
def FileError.reason : FileError → Text
  | missing => "no such file or directory"
  | notDirectory => "not a directory"
  | isDirectory => "is a directory"

/-- The message of a file that cannot be read.  A directory can be opened, but not read. -/
def unreadable (what file : Text) : FileError → Text
  | .isDirectory =>
    file ++ ": decoding " ++ what ++ ": yaml: input error: read " ++ file ++ ": " ++
      FileError.isDirectory.reason
  | e => "failed to open " ++ file ++ ": open " ++ file ++ ": " ++ e.reason

/-- The message of a file that cannot be written. -/
def unwritable (file : Text) (e : FileError) : Text :=
  "error creating " ++ file ++ ": open " ++ file ++ ": " ++ e.reason

/-- A file name without its last extension. -/
def stem (file : Text) : Text :=
  let cs := file.toList.reverse
  match cs.dropWhile fun c => c != '.' && c != '/' with
  | '.' :: rest => String.ofList rest.reverse
  | _ => file

/-- The file that output goes to if none is named. -/
def outputName (file : Text) : Text := stem file ++ ".dl"

/-! ## Sessions -/

/-- A line of the log. -/
structure LogLine where
  isDebug : Bool
  message : Text
  deriving DecidableEq, Repr

/-- A line of the log as text. -/
def LogLine.text (l : LogLine) : Text :=
  "level=" ++ (if l.isDebug then "debug" else "info") ++ " msg=" ++ l.message.quoted ++ "\n"

/-- A main step. -/
def LogLine.info (message : Text) : LogLine := ⟨false, message⟩

/-- A step that is logged only if asked for. -/
def LogLine.debug (message : Text) : LogLine := ⟨true, message⟩

/-- How a session ends. -/
inductive Ending where
  | done
  | failed (message : Text)
  /-- The output goes to a file, and then one more line to the log. -/
  | writing (file content : Text) (last : LogLine)
  /-- There is no answer. -/
  | fault (f : Fault)
  deriving DecidableEq, Repr

/-- What is printed, logged, and left to be done. -/
structure Session where
  stdout : Text := ""
  log : List LogLine := []
  ending : Ending
  deriving DecidableEq, Repr

/-- The end of a session with problems. -/
def Ending.ofReport (r : Report) (message : Text → Text) : Ending :=
  match r.fault? with
  | some f => .fault f
  | none => .failed (message r.message)

/-- The end of a session with a file that holds no document of its kind. -/
def Ending.ofDocument (file : Text) : Description.DocumentError → Ending
  | .fault f => .fault f
  | e => .failed (file ++ ": " ++ e.message)

/-- The switch to compile for. -/
def targetOf (file : Text) (content : Except FileError Text) : Except Ending Target :=
  if file = "" then .ok {}
  else
    match content with
    | .error e => .error (.failed (unreadable "target" file e))
    | .ok text =>
      match Description.targetOfText text with
      | .error (.document e) => .error (.ofDocument file e)
      | .error (.constants e) => .error (.failed (file ++ ": " ++ e.message))
      | .ok t => .ok t

/-- The program to compile. -/
def programOf (file : Text) (content : Except FileError Text) : Except Ending Program :=
  match content with
  | .error e => .error (.failed (unreadable "program" file e))
  | .ok text =>
    match Pipeline.load text with
    | .ok p => .ok p
    | .error (.document e) => .error (.ofDocument file e)
    | .error (.program r) => .error (.ofReport r fun m => file ++ ": " ++ m)

/-- The line of the log for a program that was loaded. -/
def loadedLine (p : Program) : LogLine :=
  .debug ("frontend: loaded " ++ toString p.headers.length ++ " headers, " ++
    toString p.metadata.length ++ " metadata fields, " ++ toString p.controls.length ++
    " controls")

/-- What is done with the output: a part of it is printed, or all of it is written. -/
def present (o : Options) (file : Text) (log : List LogLine) (out : Output) : Session :=
  if o.graphs then { stdout := out.graphText, log, ending := .done }
  else if o.flows then { stdout := Ddlog.Program.text out.flowDecls, log, ending := .done }
  else if o.declarations then
    { stdout := Ddlog.Program.text (out.helpers ++ out.declarations), log, ending := .done }
  else
    let name := if o.output = "" then outputName file else o.output
    { log
      ending := .writing name out.program.text
        (.info ("wrote " ++ toString out.flows.length ++ " flows to " ++ name)) }

/-- Compiles a file, given what was found in it and in the description of the switch. -/
def compileFile (o : Options) (file : Text) (target source : Except FileError Text) : Session :=
  match targetOf o.target target with
  | .error ending => { ending }
  | .ok t =>
    match programOf file source with
    | .error ending => { ending }
    | .ok p =>
      let loaded := loadedLine p
      if o.listing then { stdout := p.listing, log := [loaded], ending := .done }
      else
        let outcome := Compile.compile p t
        let log := [loaded, .info ("compiling " ++ file)] ++ outcome.trace.map .debug
        match outcome.result with
        | .error r => { log, ending := .ofReport r fun m => file ++ ": " ++ m }
        | .ok out => present o file log out

/-- The log of a session as text. -/
def logText (verbose : Bool) (log : List LogLine) : Text :=
  String.join ((log.filter fun l => verbose || !l.isDebug).map LogLine.text)

end Flowline.Command
