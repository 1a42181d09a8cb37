import Flowline.Command.Session

/-!
# Running the command on files in memory

A directory is a list of files with their paths.  It has the directories that its paths run
through, and no others.  `Directory.run` is the whole command: its exit code, what it prints, and
the directory that it leaves.
-/

namespace Flowline.Command

/-- Files with the parts of their paths. -/
structure Directory where
  files : List (List Text × Text)
  deriving DecidableEq, Repr

/-- The parts of a path from the top of the directory; there are none if it leads out. -/
def pathParts : List Text → List Text → Option (List Text)
  | acc, [] => some acc.reverse
  | acc, p :: ps =>
    if p = "" ∨ p = "." then pathParts acc ps
    else if p = ".." then
      match acc with
      | [] => none
      | _ :: acc => pathParts acc ps
    else pathParts (p :: acc) ps

/-- The parts of a path.  An empty path leads nowhere, nor does one from the root. -/
def partsOf? (path : Text) : Option (List Text) :=
  match path.splitOn "/" with
  | [""] => none
  | "" :: _ => none
  | ps => pathParts [] ps

/-- Whether a path asks for a directory. -/
def endsInSlash (path : Text) : Bool := path.toList.getLast? == some '/'

namespace Directory

/-- The content of a file. -/
def content? (d : Directory) (parts : List Text) : Option Text := d.files.lookup parts

/-- Whether a path is a directory. -/
def isDirectory (d : Directory) (parts : List Text) : Bool :=
  parts.isEmpty || d.files.any fun f => parts.isPrefixOf f.1 && f.1 != parts

/-- Whether a path runs through a file. -/
def runsThroughFile (d : Directory) (parts : List Text) : Bool :=
  d.files.any fun f => f.1.isPrefixOf parts && f.1 != parts

/-- Reads a file. -/
def read (d : Directory) (path : Text) : Except FileError Text :=
  match partsOf? path with
  | none => .error .missing
  | some parts =>
    if d.runsThroughFile parts then .error .notDirectory
    else
      match d.content? parts with
      | some text => if endsInSlash path then .error .notDirectory else .ok text
      | none => if d.isDirectory parts then .error .isDirectory else .error .missing

/-- Puts a file in the place of the one with its path, or behind all others. -/
def put (d : Directory) (parts : List Text) (text : Text) : Directory :=
  if d.files.any fun f => f.1 == parts then
    ⟨d.files.map fun f => if f.1 == parts then (parts, text) else f⟩
  else ⟨d.files ++ [(parts, text)]⟩

/-- Writes a file. -/
def write (d : Directory) (path text : Text) : Except FileError Directory :=
  match partsOf? path with
  | none => .error .missing
  | some parts =>
    if d.runsThroughFile parts then .error .notDirectory
    else if d.isDirectory parts || endsInSlash path then .error .isDirectory
    else if d.isDirectory parts.dropLast then .ok (d.put parts text)
    else .error .missing

/-- What a run leaves behind. -/
structure Result where
  exit : Nat
  stdout : Text := ""
  stderr : Text := ""
  directory : Directory
  deriving DecidableEq, Repr

/-- Ends a session. -/
def finish (d : Directory) (verbose : Bool) (s : Session) : Except Fault Result :=
  let log := logText verbose s.log
  match s.ending with
  | .fault f => .error f
  | .done => .ok { exit := 0, stdout := s.stdout, stderr := log, directory := d }
  | .failed message =>
    .ok { exit := 1, stdout := s.stdout, stderr := log ++ failureText message, directory := d }
  | .writing file content last =>
    match d.write file content with
    | .error e =>
      .ok { exit := 1, stderr := log ++ failureText (unwritable file e), directory := d }
    | .ok d => .ok { exit := 0, stderr := log ++ logText verbose [last], directory := d }

/-- Runs the command. -/
def run (d : Directory) (args : List Text) : Except Fault Result :=
  match Invocation.ofArgs args with
  | .fail message => .ok { exit := 1, stderr := failureText message, directory := d }
  | .help => .ok { exit := 0, stdout := helpText, directory := d }
  | .version => .ok { exit := 0, stdout := versionText, directory := d }
  | .compile o file => d.finish o.verbose (compileFile o file (d.read o.target) (d.read file))

end Directory

end Flowline.Command
