set_option autoImplicit false

/-!
# Command line: files

What the commands need of a file system: the text of a file and the names of the
files in a directory, or the reason why there is none.

`Disk` is a file system in memory.  A path is walked from its first part to its
last; only a directory can be walked through, and a slash at the end walks
through the last part too.
-/

namespace ScriptEngine.CommandLine

/-! ## Access -/

/-- Why a file or directory cannot be read. -/
inductive FileError where
  | notFound
  | notADirectory
  | isADirectory
  | nameTooLong
  | notText
  | other (cause : String)
  deriving DecidableEq, Repr, Inhabited

/-- The error in words. -/
def FileError.message : FileError → String
  | notFound => "No such file or directory (os error 2)"
  | notADirectory => "Not a directory (os error 20)"
  | isADirectory => "Is a directory (os error 21)"
  | nameTooLong => "File name too long (os error 36)"
  | notText => "stream did not contain valid UTF-8"
  | other cause => cause

/-- A file of a directory. -/
structure NamedText where
  name : String
  text : Except FileError String

/-- Access to files. -/
structure Files where
  /-- The text of the file at a path. -/
  text : String → Except FileError String
  /-- The files, without the directories, in the directory at a path. -/
  directory : String → Except FileError (List NamedText)

/-! ## Files in memory -/

/-- A file or directory with its path from the top. -/
structure DiskEntry where
  path : List String
  /-- Absent for a directory. -/
  content : Option (Except FileError String)

/-- All files and directories, each path once. -/
structure Disk where
  entries : List DiskEntry

/-- What stands at a path. -/
inductive Found where
  | file (content : Except FileError String)
  | directory

namespace Disk

/-- The entry stands for what it is found as. -/
def found (e : DiskEntry) : Found :=
  match e.content with
  | some content => .file content
  | none => .directory

/-- The directory for temporary files. -/
def temporary : List String := ["tmp"]

/-- The directory that paths start from, unless they start with a slash.  Its
name is no part of a path, so that it is not found from outside. -/
def home : List String := temporary ++ ["/"]

/-- A disk with an empty home, and with the device that is always empty. -/
def fresh : Disk :=
  ⟨[⟨[], none⟩, ⟨["dev"], none⟩, ⟨["dev", "null"], some (.ok "")⟩,
    ⟨temporary, none⟩, ⟨home, none⟩]⟩

/-! ### Paths -/

/-- The parts of a path. -/
def parts (path : String) : List String := path.splitOn "/"

/-- Where a path starts. -/
def base (path : String) : List String :=
  if path.toList.head? = some '/' then [] else home

/-- Where a part of a path leads from the directory `here`.  There is no way up
from the top. -/
def step (here : List String) (p : String) : List String :=
  if p = "" ∨ p = "." then here
  else if p = ".." then here.dropLast
  else here ++ [p]

/-! ### Writing -/

/-- Puts an entry in the place of what stands at its path. -/
def put (d : Disk) (e : DiskEntry) : Disk :=
  ⟨d.entries.filter (fun old => old.path != e.path) ++ [e]⟩

/-- Follows the parts of a path from the directory `here`, makes the directories
on the way, and puts the content where the path ends. -/
def putFrom (d : Disk) (here : List String)
    (content : Option (Except FileError String)) : List String → Disk
  | [] => d.put ⟨here, content⟩
  | p :: later => (d.put ⟨here, none⟩).putFrom (step here p) content later

/-- Writes a file, or makes a directory if there is no content. -/
def write (d : Disk) (path : String)
    (content : Option (Except FileError String)) : Disk :=
  d.putFrom (base path) content (parts path)

/-! ### Reading -/

/-- What stands at a path from the top. -/
def find? (d : Disk) (path : List String) : Option Found :=
  (d.entries.find? fun e => e.path == path).map found

/-- The longest name of a file, in bytes. -/
def maxName : Nat := 255

/-- The longest path, in bytes. -/
def maxPath : Nat := 4095

/-- Walks from the directory `here`.  The place reached is given from the top,
with what stands there. -/
def walk (d : Disk) (here : List String) :
    List String → Except FileError (List String × Found)
  | [] => .ok (here, .directory)
  | p :: later =>
      let there := step here p
      if p = "" ∨ p = "." ∨ p = ".." then d.walk there later
      else if maxName < p.utf8ByteSize then .error .nameTooLong
      else
        match d.find? there, later with
        | none, _ => .error .notFound
        | some .directory, later => d.walk there later
        | some (.file content), [] => .ok (there, .file content)
        | some (.file _), _ :: _ => .error .notADirectory

/-- What stands at a path. -/
def look (d : Disk) (path : String) : Except FileError (List String × Found) :=
  if path.isEmpty then .error .notFound
  else if maxPath < path.utf8ByteSize then .error .nameTooLong
  else d.walk (base path) (parts path)

/-- The text of the file at a path. -/
def text (d : Disk) (path : String) : Except FileError String :=
  match d.look path with
  | .ok (_, .file content) => content
  | .ok (_, .directory) => .error .isADirectory
  | .error e => .error e

/-- The entry's name and text, if it is a file in the directory `here`. -/
def childOf (here : List String) (e : DiskEntry) : Option NamedText :=
  match e.path.getLast?, e.content with
  | some name, some text =>
      if e.path.dropLast = here then some ⟨name, text⟩ else none
  | _, _ => none

/-- The files in the directory at a path. -/
def directory (d : Disk) (path : String) : Except FileError (List NamedText) :=
  match d.look path with
  | .ok (here, .directory) => .ok (d.entries.filterMap (childOf here))
  | .ok (_, .file _) => .error .notADirectory
  | .error e => .error e

/-- Access to the files of a disk. -/
def files (d : Disk) : Files := ⟨d.text, d.directory⟩

end Disk

end ScriptEngine.CommandLine
