import ClassAsm.Diagnostic

/-! What is built from the assembly text, for which processor, and the arguments that the assembler
gets for it. -/

namespace ClassAsm

inductive BuildKind where
  | exe
  | dll
  /-- The assembly text only. -/
  | textOnly
deriving DecidableEq, Repr

namespace BuildKind

def names : List (String × BuildKind) := [("exe", exe), ("dll", dll), ("none", textOnly)]

/-- Reads a build kind, whatever the case of its letters; an unknown one gives the message. -/
def parse (text : String) : Except String BuildKind :=
  let lower := text.toLower
  match names.lookup lower with
  | some kind => .ok kind
  | none => .error s!"unknown build type '{lower}', expected exe, dll or none"

def extension : BuildKind → String
  | dll => "dll"
  | _ => "exe"

end BuildKind

inductive Architecture where
  | x64 | x86 | arm | arm64 | itanium | bit32Preferred
deriving DecidableEq, Repr

namespace Architecture

def names : List (String × Architecture) :=
  [("x64", x64), ("x86", x86), ("arm", arm), ("arm64", arm64), ("itanium", itanium),
   ("32bitpreferred", bit32Preferred)]

def parse? (text : String) : Option Architecture := names.lookup text.toLower

/-- An unknown name gives a warning. -/
def warnings (text : String) : List Warning :=
  if (parse? text).isSome then [] else [⟨.unknownArchitecture text, none⟩]

/-- The switch of the assembler; x86 needs none. -/
def flag? : Architecture → Option String
  | x64 => some "/x64"
  | x86 => none
  | arm => some "/arm"
  | arm64 => some "/arm64"
  | itanium => some "/itanium"
  | bit32Preferred => some "/32bitpreferred"

end Architecture

def assemblerArguments (asmPath outPath : String) (arch : Option Architecture)
    (kind : BuildKind) : List String :=
  let product := match kind with
    | .exe => ["/exe"]
    | .dll => ["/dll"]
    | .textOnly => []
  [asmPath] ++ product ++ ["/output=" ++ outPath] ++ (arch.bind Architecture.flag?).toList

end ClassAsm
