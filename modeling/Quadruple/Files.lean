/-
  A working directory: files and folders by path.

  Paths are followed part by part, from the working directory or, after a slash, from the top;
  everything before the last part has to be a folder.  The folders above the working directory
  exist, and nothing is known to be in them.  Errors carry the words of the operating system.
-/
import Quadruple.Bytes
import Quadruple.Table
import Quadruple.Files.Path

namespace Quadruple

/-- Why a file could not be read or written. -/
inductive FileError where
  | notFound
  | isFolder
  | notFolder
  | nameTooLong
  | notText
  | other (text : String)
deriving DecidableEq, Inhabited

def FileError.message : FileError → String
  | notFound => "No such file or directory (os error 2)"
  | isFolder => "Is a directory (os error 21)"
  | notFolder => "Not a directory (os error 20)"
  | nameTooLong => "File name too long (os error 36)"
  | notText => "stream did not contain valid UTF-8"
  | other text => text

/-- What a path leads to. -/
inductive Item where
  | file (content : Bytes)
  | folder
deriving DecidableEq, Inhabited

/-- A place as the parts of the path that leads to it, the last one in front.  A place outside of
the working directory ends in parts `..`, or in the empty part that stands for the top. -/
abbrev Place := List (List Char)

namespace Place

/-- The part that leads up. -/
def up : List Char := ['.', '.']

/-- The top of all folders. -/
def top : Place := [[]]

/-- The place as text, its parts joined by slashes. -/
def key (place : Place) : String := String.ofList (List.intercalate ['/'] place.reverse)

/-- Whether a place is the working directory, the top, or on the way between them. -/
def isGround (place : Place) : Bool := place.all fun part => part.isEmpty || part == up

/-- The folder that holds a place; the top holds itself. -/
def parent : Place → Place
  | [] => [up]
  | part :: rest =>
    if part.isEmpty then part :: rest
    else if part = up then up :: part :: rest
    else rest

end Place

/-- The items that a program can reach, by the text of their place. -/
structure Files where
  items : Table String Item
deriving DecidableEq, Inhabited

namespace Files

/-- An empty directory. -/
def empty : Files := ⟨Table.empty⟩

/-- Check that a place is a folder. -/
def requireFolder (f : Files) (place : Place) : Except FileError Unit :=
  if place.isGround then .ok ()
  else match f.items.find? place.key with
    | some .folder => .ok ()
    | some (.file _) => .error .notFolder
    | none => .error .notFound

/-- The longest name that a file can have, in bytes. -/
def maxName : Nat := 255

/-- The longest path that can be followed, in bytes. -/
def maxPath : Nat := 4095

/-- Follow the parts of a path from a place; empty parts do not lead anywhere. -/
def walk (f : Files) (place : Place) : List (List Char) → Except FileError Place
  | [] => .ok place
  | part :: rest =>
    if part.isEmpty then f.walk place rest
    else do
      f.requireFolder place
      if part = ['.'] then f.walk place rest
      else if part = Place.up then f.walk place.parent rest
      else if maxName < (Bytes.utf8 (String.ofList part)).length then .error .nameTooLong
      else f.walk (part :: place) rest

/-- Follow some parts from where a path starts. -/
def follow (f : Files) (path : String) (parts : List (List Char)) : Except FileError Place :=
  if maxPath < (Bytes.utf8 path).length then .error .nameTooLong
  else match path.toList with
    | [] => .error .notFound
    | '/' :: _ => f.walk Place.top parts
    | _ => f.walk [] parts

/-- The place that a path leads to. -/
def locate (f : Files) (path : String) : Except FileError Place :=
  f.follow path (Path.parts path.toList)

/-- Whether a path can only mean a folder. -/
def namesFolder (path : String) : Bool := path.toList.getLast? == some '/'

/-- The content of a file. -/
def read (f : Files) (path : String) : Except FileError Bytes := do
  let place ← f.locate path
  if place.isGround then throw .isFolder
  match f.items.find? place.key with
  | none => throw .notFound
  | some .folder => throw .isFolder
  | some (.file content) => if namesFolder path then throw .notFolder else return content

/-- Make a file, or replace its content.  A path that can only mean a folder is refused as one as
soon as the folder that would hold it is found. -/
def write (f : Files) (path : String) (content : Bytes) : Except FileError Files := do
  if namesFolder path then
    f.requireFolder (← f.follow path (Path.leading path.toList))
    throw .isFolder
  let place ← f.locate path
  if place.isGround then throw .isFolder
  match f.items.find? place.key with
  | some .folder => throw .isFolder
  | _ => return ⟨f.items.insert place.key (.file content)⟩

/-- Make a folder at a place, unless something is there. -/
def addFolder (f : Files) (place : Place) : Files :=
  if (f.items.find? place.key).isSome then f else ⟨f.items.insert place.key .folder⟩

/-- Make the folders that parts lead through from a place. -/
def addFolders (f : Files) (place : Place) : List (List Char) → Files
  | [] => f
  | part :: rest =>
    if part.isEmpty then f.addFolders place rest
    else (f.addFolder (part :: place)).addFolders (part :: place) rest

/-- Make a folder of the working directory and all folders on the way to it. -/
def makeFolder (f : Files) (path : String) : Files := f.addFolders [] (Path.parts path.toList)

/-- The files that lie in the working directory itself, by name. -/
def listing (f : Files) : List (String × Bytes) :=
  f.items.entries.filterMap fun (name, item) =>
    match item with
    | .file content => if name.toList.contains '/' then none else some (name, content)
    | .folder => none

end Files

end Quadruple
