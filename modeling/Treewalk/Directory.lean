import Treewalk.Diagnostic

/-!
# Directories

A directory and what it holds, for the files that a command names. A path is
walked part by part, and each part but the last has to lead to a directory. It
may leave the directory, which lies in `/tmp`; from there up to the root there is
what every system has.
-/

namespace Treewalk

inductive Entry where
  | file (bytes : ByteArray)
  /-- What is read from the standard input. -/
  | input
  | folder

/-- Why a file cannot be had. -/
inductive FileFault where
  | notFound
  /-- Something that is not a directory stands inside the path. -/
  | notFolder
  | isFolder
  | nameTooLong
  | invalidText
  /-- Another refusal of the system, with its text and number. -/
  | refused (text : String) (code : Nat)
  deriving DecidableEq, Repr

namespace FileFault

/-- The refusal of the system, with its number. -/
def message : FileFault → String
  | notFound => "No such file or directory (os error 2)"
  | notFolder => "Not a directory (os error 20)"
  | isFolder => "Is a directory (os error 21)"
  | nameTooLong => "File name too long (os error 36)"
  | invalidText => ChannelFault.invalidText.message
  | refused text code => text ++ " (os error " ++ toString code ++ ")"

/-- A directory can be opened like a file, and fails only when it is read. -/
def activity : FileFault → String
  | isFolder | invalidText => "read"
  | _ => "open"

end FileFault

/-- What a directory holds: entries by the parts of their paths. -/
structure Directory where
  entries : List (List String × Entry)

/-- Where a path is counted from. -/
inductive Base where
  /-- The directory itself. -/
  | here
  /-- The root of the system. -/
  | root
  deriving DecidableEq, Repr

/-- Where a walk stands. -/
structure Location where
  base : Base
  parts : List String

namespace Directory

/-- The longest name of an entry, in bytes. -/
def maxName : Nat := 255

/-- The longest path, in bytes. -/
def maxPath : Nat := 4095

/-- The directories that every system has at its root. -/
def systemFolders : List String :=
  ["bin", "boot", "dev", "etc", "home", "lib", "media", "mnt", "opt", "proc", "root", "run", "sbin",
   "srv", "sys", "tmp", "usr", "var"]

/-- What every system has: its directories, the empty device and the standard
input under its three names. -/
def system : Directory :=
  ⟨systemFolders.map (fun name => ([name], .folder)) ++
    [(["dev", "null"], .file .empty), (["dev", "stdin"], .input), (["dev", "fd", "0"], .input),
      (["proc", "self", "fd", "0"], .input)]⟩

/-- What is known at a base. -/
def under (d : Directory) : Base → Directory
  | .here => d
  | .root => system

/-- The entry at a path; whatever leads to an entry is a directory. -/
def find? (d : Directory) (parts : List String) : Option Entry :=
  match d.entries.find? fun e => e.1 == parts with
  | some e => some e.2
  | none =>
    if parts.isEmpty || d.entries.any fun e => parts.isPrefixOf e.1 then some .folder else none

def entryAt (d : Directory) (l : Location) : Except FileFault Entry :=
  match (d.under l.base).find? l.parts with
  | some e => .ok e
  | none => .error .notFound

/-- The directory above; nothing is above the root but itself. -/
def parent (l : Location) : Location :=
  match l.parts, l.base with
  | [], .here => ⟨.root, ["tmp"]⟩
  | parts, base => ⟨base, parts.dropLast⟩

/-- One part of a path further. -/
def step (d : Directory) (l : Location) (part : String) : Except FileFault Location := do
  match ← d.entryAt l with
  | .file _ | .input => throw .notFolder
  | .folder =>
    if part = "" ∨ part = "." then pure l
    else if part = ".." then pure (parent l)
    else if maxName < part.utf8ByteSize then throw .nameTooLong
    else
      let next : Location := ⟨l.base, l.parts ++ [part]⟩
      let _ ← d.entryAt next
      pure next

/-- Walks a path. One that starts with a slash starts at the root. -/
def locate (d : Directory) (path : String) : Except FileFault Location :=
  if maxPath < path.utf8ByteSize then .error .nameTooLong
  else
    let base := if path.startsWith "/" then Base.root else .here
    (path.splitOn "/").foldlM d.step ⟨base, []⟩

/-- The bytes of a file. -/
def bytes (d : Directory) (input : ByteArray) (path : String) : Except FileFault ByteArray := do
  match ← d.entryAt (← d.locate path) with
  | .file bytes => pure bytes
  | .input => pure input
  | .folder => throw .isFolder

/-- The text of a file. -/
def read (d : Directory) (input : ByteArray) (path : String) : Except FileFault String := do
  match String.fromUTF8? (← d.bytes input path) with
  | some text => pure text
  | none => throw .invalidText

/-- Makes an empty file at the top, in place of a file of that name. -/
def create (d : Directory) (name : String) : Except FileFault Directory :=
  match d.find? [name] with
  | some .folder => .error .isFolder
  | _ => .ok ⟨([name], .file .empty) :: d.entries.filter fun e => e.1 != [name]⟩

def isFile (d : Directory) (name : String) : Bool :=
  match d.find? [name] with
  | some (.file _) => true
  | _ => false

end Directory

end Treewalk
