/-! Paths. The parts of a path are separated by slashes; empty parts and single dots say nothing, and
two dots are a step upwards. A place is the list of names that lead to it from the root. -/

namespace ClassAsm

/-- The names from the root down. -/
abbrev Place := List String

namespace Path

/-- The parts between the slashes. -/
def parts (path : String) : List (List Char) :=
  path.toList.foldr (fun c ps =>
    if c = '/' then [] :: ps
    else match ps with
      | [] => [[c]]
      | p :: ps => (c :: p) :: ps) [[]]

def isSilent (part : List Char) : Bool := part.isEmpty || part == ['.']

def isUpward (part : List Char) : Bool := part == ['.', '.']

/-- What stands before the file name, and the name: the last part that says something, unless it is
a step upwards. -/
def splitName? (path : String) : Option (List (List Char) × List Char) :=
  match (parts path).reverse.dropWhile isSilent with
  | [] => none
  | name :: before => if isUpward name then none else some (before.reverse, name)

/-- A name up to its last dot, and what follows the dot; a dot that opens the name does not
count. -/
def splitDot (name : List Char) : List Char × Option (List Char) :=
  let after := name.reverse.takeWhile (· ≠ '.')
  match name.reverse.dropWhile (· ≠ '.') with
  | _ :: c :: cs => ((c :: cs).reverse, some after.reverse)
  | _ => (name, none)

def stem? (path : String) : Option String :=
  (splitName? path).map fun (_, name) => String.ofList (splitDot name).1

/-- Puts an extension after the stem of the file name; a path without a file name stays as it
is. -/
def setExtension (path ext : String) : String :=
  match splitName? path with
  | none => path
  | some (before, name) =>
    let folder := before.flatMap (· ++ ['/'])
    String.ofList (folder ++ (splitDot name).1) ++ "." ++ ext

/-- The path with another extension. As much as the old extension has is first taken off the end;
that can leave a step upwards, which then stays. -/
def withExtension (path ext : String) : String :=
  match (splitName? path).bind fun (_, name) => (splitDot name).2 with
  | none => setExtension path ext
  | some old => setExtension (String.ofList (path.toList.take (path.length - old.length))) ext

def isAbsolute (path : String) : Bool := path.toList.head? == some '/'

def move (place : Place) (part : List Char) : Place :=
  if isSilent part then place
  else if isUpward part then place.dropLast
  else place ++ [String.ofList part]

end Path
end ClassAsm
