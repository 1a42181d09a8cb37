import Flowline.Command.Session

/-!
# The command

Opens the files, prints, and writes; what is printed and written is decided by
`Command.compileFile`.
-/

namespace Flowline.Command

/-- Reads a file. -/
def readSource (file : Text) : IO (Except FileError Text) := do
  try
    let bytes ← IO.FS.readBinFile (file.toUnicode?.getD file)
    pure (.ok (Text.ofBytes bytes.toList))
  catch
    | .noFileOrDirectory .. => pure (.error .missing)
    | .inappropriateType .. => pure (.error .notDirectory)
    | _ => pure (.error .isDirectory)

/-- Writes a file. -/
def writeOutput (file content : Text) : IO (Except FileError Unit) := do
  try
    IO.FS.writeBinFile (file.toUnicode?.getD file) ⟨content.toBytes.toArray⟩
    pure (.ok ())
  catch
    | .noFileOrDirectory .. => pure (.error .missing)
    | .inappropriateType .. => pure (.error .notDirectory)
    | _ => pure (.error .isDirectory)

/-- Prints a text. -/
def printTo (stream : IO.FS.Stream) (t : Text) : IO Unit := stream.write ⟨t.toBytes.toArray⟩

end Flowline.Command

open Flowline Flowline.Command

/-- Runs the command. -/
def main (args : List String) : IO UInt32 := do
  let stdout ← IO.getStdout
  let stderr ← IO.getStderr
  match Invocation.ofArgs (args.map Text.ofUnicode) with
  | .fail message =>
    printTo stderr (failureText message)
    pure 1
  | .help =>
    printTo stdout helpText
    pure 0
  | .version =>
    printTo stdout versionText
    pure 0
  | .compile o file =>
    let target ← if o.target = "" then pure (.error .missing) else readSource o.target
    let source ← readSource file
    let s := compileFile o file target source
    printTo stderr (logText o.verbose s.log)
    printTo stdout s.stdout
    match s.ending with
    | .done => pure 0
    | .fault _ => pure 2
    | .failed message =>
      printTo stderr (failureText message)
      pure 1
    | .writing file content last =>
      match ← writeOutput file content with
      | .error e =>
        printTo stderr (failureText (unwritable file e))
        pure 1
      | .ok () =>
        printTo stderr (logText o.verbose [last])
        pure 0
