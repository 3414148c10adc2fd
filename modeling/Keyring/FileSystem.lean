import Keyring.SystemError
import Keyring.Text.Utf8

/-! Files and directories under one root. Paths are relative to the root, which has no way out. -/
namespace Keyring

/-- The names that lead from the root to a file or directory. -/
abbrev Location := List String

structure File where
  bytes : Bytes
  /-- The permission bits. -/
  mode : Nat

structure FileSystem where
  /-- The directories below the root. -/
  directories : List Location := []
  files : List (Location × File) := []

namespace FileSystem

/-- The longest name of a file, in bytes. -/
def nameLimit : Nat := 255

/-- Paths of so many bytes are too long. -/
def pathLimit : Nat := 4096

def isDirectory (fs : FileSystem) (l : Location) : Bool := l = [] || fs.directories.contains l

def file? (fs : FileSystem) (l : Location) : Option File := fs.files.lookup l

/-- What a path points to. -/
inductive Place where
  /-- A directory, by a path that ends in one of the names `.` and `..` or names the root. -/
  | directory (l : Location)
  /-- A name in a directory. A slash at the end asks for a directory of that name. -/
  | entry (l : Location) (slash : Bool)

/-- The directory that names lead to. -/
def walk (fs : FileSystem) : Location → List String → Except SystemError Location
  | l,[] => .ok l
  | l,name :: r =>
    if name = "" ∨ name = "." then walk fs l r
    else if name = ".." then walk fs l.dropLast r
    else if nameLimit < name.utf8ByteSize then .error .nameTooLong
    else
      let next := l ++ [name]
      if fs.isDirectory next then walk fs next r
      else if (fs.file? next).isSome then .error .notADirectory
      else .error .noSuchFile

/-- The names of a path, the last one first, without those behind slashes at its end. -/
def names (path : String) : List String :=
  ((path.toList.splitOn '/').map String.ofList).reverse.dropWhile (· = "")

def resolve (fs : FileSystem) (path : String) : Except SystemError Place :=
  if path.toList.contains '\x00' then .error .nulInName
  else if path = "" then .error .noSuchFile
  else if pathLimit ≤ path.utf8ByteSize then .error .nameTooLong
  else match names path with
    | [] => .ok (.directory [])
    | last :: r => do
      let l ← fs.walk [] r.reverse
      if last = "." ∨ last = ".." then
        let l ← fs.walk l [last]
        .ok (.directory l)
      else if nameLimit < last.utf8ByteSize then .error .nameTooLong
      else .ok (.entry (l ++ [last]) (path.toList.getLast? = some '/'))

/-- The bytes of a file. -/
def read (fs : FileSystem) (path : String) : Except SystemError Bytes := do
  match ← fs.resolve path with
  | .directory _ => .error .isADirectory
  | .entry l slash =>
    if fs.isDirectory l then .error .isADirectory
    else match fs.file? l with
      | none => .error .noSuchFile
      | some file => if slash then .error .notADirectory else .ok file.bytes

/-- Puts a file in place of the one that is there. -/
def put (fs : FileSystem) (l : Location) (file : File) : FileSystem :=
  { fs with files := (l,file) :: fs.files.filter (·.1 ≠ l) }

/-- Where a file to be written is. It need not be there yet. -/
def target (fs : FileSystem) (path : String) : Except SystemError Location := do
  match ← fs.resolve path with
  | .directory _ => .error .isADirectory
  | .entry l slash => if slash || fs.isDirectory l then .error .isADirectory else .ok l

/-- Adds bytes to the end of a file, depending on what it holds. A new file gets the mode. -/
def extend (fs : FileSystem) (path : String) (mode : Nat) (tail : Bytes → Bytes) :
    Except SystemError FileSystem := do
  let l ← fs.target path
  let old := (fs.file? l).getD ⟨[],mode⟩
  .ok (fs.put l ⟨old.bytes ++ tail old.bytes,old.mode⟩)

/-- Replaces a file. -/
def write (fs : FileSystem) (path : String) (file : File) : Except SystemError FileSystem := do
  let l ← fs.target path
  .ok (fs.put l file)

/-- The regular file that a path points to. -/
def fileAt? (fs : FileSystem) (path : String) : Option File :=
  match fs.resolve path with
  | .ok (.entry l false) => if fs.isDirectory l then none else fs.file? l
  | _ => none

/-- A name in a directory, if nothing has it. -/
def freeName (fs : FileSystem) (path : String) : Option Location :=
  match fs.resolve path with
  | .ok (.entry l _) => if fs.isDirectory l || (fs.file? l).isSome then none else some l
  | _ => none

def makeDirectory (fs : FileSystem) (path : String) : Option FileSystem := do
  let l ← fs.freeName path
  some { fs with directories := l :: fs.directories }

/-- Removes a directory with nothing in it. -/
def removeDirectory (fs : FileSystem) (path : String) : Option FileSystem :=
  match fs.resolve path with
  | .ok (.entry l _) =>
    if fs.directories.contains l ∧ fs.directories.all (·.dropLast ≠ l) ∧
        fs.files.all (·.1.dropLast ≠ l) then
      some { fs with directories := fs.directories.filter (· ≠ l) }
    else none
  | _ => none

def remove (fs : FileSystem) (path : String) : Option FileSystem :=
  match fs.resolve path with
  | .ok (.entry l false) =>
    if fs.isDirectory l || (fs.file? l).isNone then none
    else some { fs with files := fs.files.filter (·.1 ≠ l) }
  | _ => none

end FileSystem
end Keyring
