import ClassAsm.Failure
import ClassAsm.Path

/-! A directory tree as a finite map from places to contents, and the working directory in it. A path
is walked part by part, and every part but the last has to lead to a directory that is there. The last
may be a link to a file. -/

namespace ClassAsm

structure Files where
  entries : List (Place × ByteArray) := []
  /-- Directories that need not have a file in them. -/
  folders : List Place := []
  /-- The working directory, where relative paths start. -/
  here : Place := []
  /-- Other names of files, each with the place of the file. -/
  links : List (Place × Place) := []
  /-- Files that can only be read. -/
  locked : List Place := []

namespace Files

def nameLimit : Nat := 255
def pathLimit : Nat := 4095

def find? (fs : Files) (place : Place) : Option ByteArray := fs.entries.lookup place

/-- The place is listed as a directory, is the working directory, or has something below it. -/
def isFolder (fs : Files) (place : Place) : Bool :=
  (fs.here :: fs.folders).any place.isPrefixOf ||
    fs.entries.any fun (p, _) => place.isPrefixOf p && place.length < p.length

def target (fs : Files) (place : Place) : Place :=
  if fs.isFolder place then place else (fs.links.lookup place).getD place

def isFile (fs : Files) (place : Place) : Bool :=
  !fs.isFolder place && (fs.find? place).isSome

/-- Looks a part of a path up in a directory. -/
def step (fs : Files) (place : Place) (part : List Char) : Except FileError Place :=
  if !fs.isFolder place then
    .error (if fs.isFile (fs.target place) then .notDirectory else .notFound)
  else if nameLimit < (String.ofList part).utf8ByteSize then .error .tooLong
  else .ok (Path.move place part)

/-- The place of a path, whether something is there or not. -/
def locate (fs : Files) (path : String) : Except FileError Place :=
  if path.isEmpty then .error .notFound
  else if pathLimit < path.utf8ByteSize then .error .tooLong
  else (Path.parts path).foldlM fs.step (if Path.isAbsolute path then [] else fs.here)

def read (fs : Files) (path : String) : Except FileError String := do
  let file := fs.target (← fs.locate path)
  if fs.isFolder file then .error .isDirectory
  else match fs.find? file with
    | none => .error .notFound
    | some bytes =>
      match String.fromUTF8? bytes with
      | some text => .ok text
      | none => .error .notText

def put (fs : Files) (file : Place) (bytes : ByteArray) : Files :=
  { fs with entries := (file, bytes) :: fs.entries.filter (·.1 != file) }

/-- Makes the file if there is none, but not the directory that it is in. -/
def write (fs : Files) (path text : String) : Except FileError Files := do
  let file := fs.target (← fs.locate path)
  if fs.isFolder file then .error .isDirectory
  else if !fs.isFolder file.dropLast then .error .notFound
  else if fs.locked.contains file then .error .denied
  else .ok (fs.put file text.toUTF8)

end Files
end ClassAsm
