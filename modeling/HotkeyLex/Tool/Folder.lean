import HotkeyLex.Text.Pieces
import HotkeyLex.Tool.Report

/-!
# Folders in memory

A working directory with files in it, for running a command without a disk. Paths are resolved
name by name: `.` stays, `..` goes up, and a name below a file is an error of its own. Nothing is
known of the world outside the directory except that the directories above it exist.
-/

namespace HotkeyLex.Tool

/-- A file by the names on the way to it. -/
structure Entry where
  names : List String
  bytes : ByteArray

/-- The files of a working directory. -/
structure Folder where
  entries : List Entry

/-- Where a path has led so far. -/
inductive Place where
  /-- A directory above the working directory. -/
  | outside
  /-- A directory in the working directory, by its names. -/
  | inside (names : List String)
  | file (bytes : ByteArray)

namespace Folder

/-- The longest name in bytes. -/
def nameLimit : Nat := 255

/-- The longest path in bytes. -/
def pathLimit : Nat := 4095

/-- The names of a path; repeated slashes count once. -/
def namesOf (path : String) : List String :=
  ((pieces '/' path.toList).map String.ofList).filter (· ≠ "")

def ofFiles (files : List (String × ByteArray)) : Folder :=
  ⟨files.map fun (path, bytes) => ⟨(namesOf path).filter (· ≠ "."), bytes⟩⟩

/-- Follows one name from a place. -/
def enter (f : Folder) (place : Place) (name : String) : Except SystemFault Place :=
  match place with
  | .file _ => .error .notDirectory
  | .outside =>
    if name == "." || name == ".." then .ok .outside
    else if nameLimit < name.utf8ByteSize then .error .nameTooLong
    else .error .notFound
  | .inside names =>
    if name == "." then .ok place
    else if name == ".." then
      .ok (if names.isEmpty then .outside else .inside names.dropLast)
    else if nameLimit < name.utf8ByteSize then .error .nameTooLong
    else
      let names := names ++ [name]
      match f.entries.find? (·.names == names) with
      | some entry => .ok (.file entry.bytes)
      | none =>
        if f.entries.any (names.isPrefixOf ·.names) then .ok (.inside names)
        else .error .notFound

/-- Follows the names of a path from a place. -/
def walk (f : Folder) (place : Place) : List String → Except SystemFault Place
  | [] => .ok place
  | name :: names => match f.enter place name with
    | .ok place => f.walk place names
    | .error fault => .error fault

/-- Reads a file of the folder. A slash at the end of a path asks for a directory. -/
def read (f : Folder) : FileAccess := fun path =>
  if path.toList.contains '\x00' then .error .nullInName
  else if path == "" then .error .notFound
  else if pathLimit < path.utf8ByteSize then .error .nameTooLong
  else
    let origin := if path.toList.head? == some '/' then Place.outside else .inside []
    let names := namesOf path
    match f.walk origin (if path.toList.getLast? == some '/' then names ++ ["."] else names) with
    | .error fault => .error fault
    | .ok (.file bytes) => .ok bytes
    | .ok _ => .error .isDirectory

end Folder

end HotkeyLex.Tool
