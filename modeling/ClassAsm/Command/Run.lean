import ClassAsm.Compilation
import ClassAsm.Files
import ClassAsm.Command.Arguments

/-! One run of the command. It reads the input, writes the assembly text, and then starts the
assembler and the program. What it asks of the machine is a system, so that a run can be over any files:
those of a directory tree, or others. -/

namespace ClassAsm

/-- What a run asks of the machine, where `F` is the state that all its files are in. The programs that
a run starts write no files. -/
structure System (F : Type) where
  read : F → String → Except FileError String
  /-- Where writing fails, the state can still have changed. -/
  write : F → String → String → F × Except FileError Unit
  /-- The exit status and the output of a program. -/
  start : F → String → List String → Except FileError (Nat × String)

/-- The installed programs: exit status and output for the given arguments. -/
abbrev Toolbox := String → List String → Option (Nat × String)

namespace Toolbox

def empty : Toolbox := fun _ _ => none

def basic : Toolbox
  | "true", _ => some (0, "")
  | "false", _ => some (1, "")
  | "echo", args => some (0, " ".intercalate args ++ "\n")
  | _, _ => none

def folders : List Place := [["usr", "bin"], ["bin"]]

/-- Starts a program. A name without a slash is looked for among the installed programs, where only
directories answer to dots; any other file of the tree cannot be started. -/
def start (tools : Toolbox) (files : Files) (program : String) (args : List String) :
    Except FileError (Nat × String) :=
  let installed (name : String) : Except FileError (Nat × String) :=
    match tools name args with
    | some result => .ok result
    | none => .error .notFound
  if program.contains '/' then do
    let place ← files.locate program
    if files.isFolder place || files.isFile (files.target place) then .error .denied
    else if folders.contains place.dropLast then installed (place.getLastD "")
    else .error .notFound
  else if program == "." || program == ".." then .error .denied
  else if Files.nameLimit < program.utf8ByteSize then .error .tooLong
  else installed program

end Toolbox

/-- A directory tree with installed programs. -/
def Files.system (tools : Toolbox) : System Files where
  read := Files.read
  write files path text :=
    match files.write path text with
    | .ok after => (after, .ok ())
    | .error e => (files, .error e)
  start := tools.start

/-- What a run leaves behind. -/
structure Run (F : Type) where
  status : Nat := 0
  output : String := ""
  errors : String := ""
  files : F

namespace Run

variable {F : Type} (sys : System F)

def print (r : Run F) (text : String) : Run F := { r with output := r.output ++ text }

def complain (r : Run F) (text : String) : Run F := { r with errors := r.errors ++ text ++ "\n" }

def exit (r : Run F) (status : Nat) : Run F := { r with status := status }

def fail (r : Run F) (fault : Fault) (devDebug : Bool) : Run F :=
  let f : Failure := ⟨fault, none⟩
  let r := r.complain ("Error " ++ f.summary)
  let r := if devDebug then r.complain f.innerForm else r
  r.exit f.code.value

def failOn (r : Run F) (activity path : String) (e : FileError) (code : ErrorCode) : Run F :=
  (r.complain s!"Error {activity} '{path}': {e.message}").exit code.value

def start (r : Run F) (a : Arguments) : Run F :=
  match sys.start r.files a.outPath [] with
  | .ok (status, text) => (r.print text).exit status
  | .error e => r.failOn "running" a.outPath e .unknown

/-- Hands the assembly text to the assembler, and starts the program if asked to. -/
def assemble (r : Run F) (a : Arguments) (devDebug : Bool) : Run F :=
  let arch := a.arch.bind Architecture.parse?
  match sys.start r.files a.assembler (assemblerArguments a.asmPath a.outPath arch a.build) with
  | .error .notFound => r.fail (.assemblerNotFound a.assembler) devDebug
  | .error e => r.fail (.assemblerUnusable a.assembler e) devDebug
  | .ok (status, text) =>
    let r := r.print text
    if status ≠ 0 then r.fail (.assemblerFailed status) devDebug
    else if a.run && a.build == .exe then r.start sys a
    else r

def deliver (r : Run F) (a : Arguments) (devDebug : Bool) (c : Compilation) : Run F :=
  let r := if a.extras.contains .tokens then
    c.tokens.foldl (fun r t => r.print (t.listing ++ "\n")) r else r
  let r := if a.extras.contains .assembly then r.print (c.assembly ++ "\n") else r
  let (files, written) := sys.write r.files a.asmPath c.assembly
  let r := { r with files := files }
  match written with
  | .error e => r.failOn "writing" a.asmPath e .unaccessibleFile
  | .ok () => if a.build == .textOnly then r else r.assemble sys a devDebug

/-- Shows the warnings, each with an empty line after it. -/
def showWarnings (r : Run F) (source : List Char) (path : String) (ws : List Warning) : Run F :=
  ws.foldl (fun r w => r.complain (w.diagnostic.render source path ++ "\n")) r

def ofArguments (a : Arguments) (files : F) : Run F :=
  let r : Run F := { files := files }
  match sys.read files a.input with
  | .error e => r.failOn "reading" a.input e .unaccessibleFile
  | .ok text =>
    let source := text.toList
    let (options, outcome) := Compilation.ofSource source a.options
    let archWarnings := a.arch.elim [] Architecture.warnings
    let r := r.showWarnings source a.input (archWarnings ++ outcome.warnings)
    match outcome.result with
    | .error f =>
      let r := r.complain (f.diagnostic.render source a.input)
      let r := if options.devDebug then r.complain f.innerForm else r
      r.exit f.code.value
    | .ok c => r.deliver sys a options.devDebug c

/-- Anything but the command `compile` and its arguments is a wrong use. -/
def ofCommandLine (args : List String) (tools : Toolbox) (files : Files) : Run Files :=
  match Arguments.ofCommandLine? args with
  | some a => ofArguments (Files.system tools) a files
  | none => { status := ErrorCode.unknownArgument.value, files := files }

end Run
end ClassAsm
