import ClassAsm.Command.Run

/-! The program: loads the files that a run can look at, runs the command, writes the assembly text
and prints what the run printed. No other program is started. -/

namespace ClassAsm

/-- The path up to each of its parts, without a slash at the end. -/
def beginnings (path : String) : List String :=
  let parts := Path.parts path
  (List.range parts.length).map fun n =>
    "/".intercalate ((parts.take (n + 1)).map String.ofList)

def placeOf (path : String) : Place := (Path.parts path).foldl Path.move []

/-- Adds what is found on the way to a file, and the file itself. -/
def load (files : Files) (path : String) : IO Files := do
  let mut files := files
  for beginning in beginnings path do
    try
      let bytes ← IO.FS.readBinFile beginning
      files := { files with entries := (placeOf beginning, bytes) :: files.entries }
    catch
      -- code 21: the path is a directory
      | .inappropriateType _ 21 _ =>
        files := { files with folders := placeOf beginning :: files.folders }
      | _ => pure ()
  pure files

/-- Runs the command, and writes the text if the run wrote it. -/
def perform (a : Arguments) : IO (Run Files) := do
  let files ← load (← load {} a.input) a.asmPath
  let run := Run.ofArguments (Files.system .empty) a files
  let place := placeOf a.asmPath
  match run.files.find? place with
  | none => pure ()
  | some bytes => if files.find? place != some bytes then IO.FS.writeBinFile a.asmPath bytes
  pure run

end ClassAsm

def main (args : List String) : IO UInt32 := do
  let run ← match ClassAsm.Arguments.ofCommandLine? args with
    | some a => ClassAsm.perform a
    | none => pure (ClassAsm.Run.ofCommandLine args .empty {})
  IO.print run.output
  IO.eprint run.errors
  return run.status.toUInt32
