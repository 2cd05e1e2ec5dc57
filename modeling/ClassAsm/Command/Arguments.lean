import ClassAsm.Build
import ClassAsm.Path
import ClassAsm.Options

/-! The arguments of the command `compile`. Options may stand before and after the input file. A
value follows its option, or is joined to it; flags of one letter may share a dash. An option can be
given once, but for those that print something, and a value that stands alone does not look like an
option. -/

namespace ClassAsm

inductive Extra where
  | tokens
  | assembly
  | timing
deriving DecidableEq, Repr

structure Arguments where
  input : String
  build : BuildKind := .exe
  output : Option String := none
  extras : List Extra := []
  assembler : String := "ilasm"
  arch : Option String := none
  run : Bool := false
  devDebug : Bool := false
  noWarnings : Bool := false
  trim : Bool := false
deriving Repr

namespace Arguments

structure Reading where
  input : Option String := none
  rest : Arguments := { input := "" }
  /-- The options that cannot be given again. -/
  given : List String := []

/-- An option that can be given once, by its long name. -/
def once (p : Reading) (name : String) (put : Arguments → Arguments) : Option Reading :=
  if p.given.contains name then none
  else some { p with rest := put p.rest, given := name :: p.given }

def extraNames : List (String × Extra) :=
  [("tokens", .tokens), ("il", .assembly), ("timing", .timing)]

def valued (p : Reading) (name value : String) : Option Reading :=
  match name with
  | "-b" | "--build" => (BuildKind.parse value).toOption.bind fun k =>
    once p "build" fun a => { a with build := k }
  | "-o" | "--output" =>
    if value.isEmpty then none else once p "output" fun a => { a with output := some value }
  | "-e" | "--emit" => (extraNames.lookup value).map fun x =>
    { p with rest := { p.rest with extras := p.rest.extras ++ [x] } }
  | "--ilasm" => once p "ilasm" fun a => { a with assembler := value }
  | "-a" | "--arch" => once p "arch" fun a => { a with arch := some value }
  | _ => none

def takesValue (name : String) : Bool :=
  ["-b", "--build", "-o", "--output", "-e", "--emit", "--ilasm", "-a", "--arch"].contains name

def isVerbose (arg : String) : Bool := arg == "-v" || arg == "--verbose"

def flag (p : Reading) (name : String) : Option Reading :=
  match name with
  | "-r" | "--run" => once p "run" fun a => { a with run := true }
  | "--dev-debug" => once p "dev-debug" fun a => { a with devDebug := true }
  | "--no-warnings" => once p "no-warnings" fun a => { a with noWarnings := true }
  | "--trim" => once p "trim" fun a => { a with trim := true }
  | name => if isVerbose name then once p "verbose" id else none

/-- The one input, which is not empty. -/
def positional (p : Reading) (arg : String) : Option Reading :=
  if p.input.isSome || arg.isEmpty then none else some { p with input := some arg }

/-- A name and a value in one argument: `--name=value`, `-nvalue` or `-n=value`. -/
def joined? (arg : String) : Option (String × String) :=
  match arg.toList with
  | '-' :: '-' :: cs =>
    match cs.dropWhile (· ≠ '=') with
    | _ :: value => some ("--" ++ String.ofList (cs.takeWhile (· ≠ '=')), String.ofList value)
    | [] => none
  | '-' :: c :: '=' :: value => some (String.ofList ['-', c], String.ofList value)
  | '-' :: c :: d :: value => some (String.ofList ['-', c], String.ofList (d :: value))
  | _ => none

/-- Flags that share the dash before `cs`, each with a dash of its own. -/
def separate : List Char → List String
  | c :: d :: cs =>
    if c = 'r' || c = 'v' then String.ofList ['-', c] :: separate (d :: cs)
    else [String.ofList ('-' :: c :: d :: cs)]
  | cs => [String.ofList ('-' :: cs)]

def separated (arg : String) : List String :=
  match arg.toList with
  | '-' :: c :: cs => if c = '-' then [arg] else separate (c :: cs)
  | _ => [arg]

/-- The argument starts with a dash, and has more than the dash. -/
def isOption (arg : String) : Bool := arg.toList.head? == some '-' && arg.length > 1

def single (p : Reading) (arg : String) : Option Reading :=
  if isOption arg then
    (flag p arg).or ((joined? arg).bind fun (name, value) => valued p name value)
  else positional p arg

def readAll (p : Reading) : List String → Option Reading
  | [] => some p
  | [arg] => single p arg
  | arg :: value :: rest =>
    if takesValue arg then
      if isOption value then none else (valued p arg value).bind (readAll · rest)
    else (single p arg).bind (readAll · (value :: rest))

/-- The arguments after the name of the command. What follows `--` is no option. -/
def parse? (args : List String) : Option Arguments := do
  let p ← readAll {} ((args.takeWhile (· ≠ "--")).flatMap separated)
  let p ← ((args.dropWhile (· ≠ "--")).drop 1).foldlM positional p
  let input ← p.input
  pure { p.rest with input := input }

/-- The whole command line: the command `compile`, and then its arguments. -/
def ofCommandLine? (args : List String) : Option Arguments :=
  match args with
  | "compile" :: rest => parse? rest
  | arg :: "compile" :: rest => if isVerbose arg then parse? rest else none
  | _ => none

def options (a : Arguments) : Options :=
  let o : Options :=
    { devDebug := a.devDebug
      requireMain := a.build == .exe
      assemblyName := (Path.stem? a.input).getD "Program" }
  let o := if a.noWarnings then o.setWarnings true else o
  if a.trim then o.setTrim true else o

def outPath (a : Arguments) : String :=
  a.output.getD (Path.withExtension a.input a.build.extension)

/-- Where the assembly text goes: beside the product. -/
def asmPath (a : Arguments) : String := Path.withExtension a.outPath "il"

end Arguments
end ClassAsm
