import StackCompiler.CommandLine.Host

/-!
# A host in memory

Directories, files and the text that was written, as a value. Directories are numbered and know
the one around them. Commands run in the directory `top`; whatever lies above it, the root of
absolute paths too, is the one directory `outside`, which starts out empty.

* `Disk`, `Directory`, `DiskEntry`: what there is;
* `Disk.ofFiles`: a disk with some files;
* `Disk.look`, `Disk.locate`: names and paths;
* `Disk.read`, `Disk.makeDirectory`, `Disk.write`: using them;
* `Disk.host`: commands on a disk;
* `Disk.changes`: what a command has written.
-/

namespace StackCompiler

inductive DiskEntry where
  | directory (number : Nat)
  | file (contents : ByteArray)

/-- A directory: the one around it, and what it holds. -/
structure Directory where
  outer : Nat
  entries : List (String × DiskEntry)

structure Disk where
  directories : Array Directory
  output : String
  warnings : String

namespace Disk

/-- The directory above the one that commands run in. -/
def outside : Nat := 0

def top : Nat := 1

def empty : Disk := ⟨#[⟨outside, []⟩, ⟨outside, []⟩], "", ""⟩

def entries (d : Disk) (here : Nat) : List (String × DiskEntry) :=
  match d.directories[here]? with
  | some directory => directory.entries
  | none => []

def outer (d : Disk) (here : Nat) : Nat :=
  match d.directories[here]? with
  | some directory => directory.outer
  | none => outside

def put (d : Disk) (here : Nat) (name : String) (entry : DiskEntry) : Disk :=
  { d with directories := d.directories.modify here fun directory =>
      { directory with entries := (name, entry) :: directory.entries.filter (·.1 != name) } }

def putDirectory (d : Disk) (here : Nat) (name : String) : Disk :=
  let number := d.directories.size
  { d with directories := d.directories.push ⟨here, []⟩ }.put here name (.directory number)

/-- Puts a file at the end of a path, and directories on the way. -/
def install (contents : ByteArray) : Disk → Nat → List String → Disk
  | d, _, [] => d
  | d, here, [name] => d.put here name (.file contents)
  | d, here, name :: rest =>
    match (d.entries here).lookup name with
    | some (.directory next) => install contents d next rest
    | _ => install contents (d.putDirectory here name) d.directories.size rest

def steps (path : String) : List String := path.splitOn "/"

def ofFiles (files : List (String × ByteArray)) : Disk :=
  files.foldl (fun d (path, contents) => install contents d top (steps path)) empty

def nameLimit : Nat := 255

def pathLimit : Nat := 4095

/-- What a directory holds under a step of a path. -/
def look (d : Disk) (here : Nat) (name : String) : Except FileError DiskEntry :=
  if name == "" || name == "." then .ok (.directory here)
  else if name == ".." then .ok (.directory (d.outer here))
  else if nameLimit < name.utf8ByteSize then .error .nameTooLong
  else
    match (d.entries here).lookup name with
    | some entry => .ok entry
    | none => .error .notFound

/-- What is found by following steps of a path from a directory. -/
def locateFrom (d : Disk) : Nat → List String → Except FileError DiskEntry
  | here, [] => .ok (.directory here)
  | here, name :: rest =>
    match d.look here name with
    | .error e => .error e
    | .ok (.directory next) => locateFrom d next rest
    | .ok (.file contents) => if rest.isEmpty then .ok (.file contents) else .error .notDirectory

/-- The directory that a path starts from, and its steps. -/
def entryPoint (path : String) : Except FileError (Nat × List String) :=
  if path == "" then .error .notFound
  else if pathLimit < path.utf8ByteSize then .error .nameTooLong
  else .ok (if isAbsolute path then outside else top, steps path)

def locate (d : Disk) (path : String) : Except FileError DiskEntry := do
  let (start, names) ← entryPoint path
  d.locateFrom start names

/-- The directory of the last step, and that step. -/
def locateLast (d : Disk) (start : Nat) (names : List String) :
    Except FileError (Nat × String) := do
  match ← d.locateFrom start names.dropLast with
  | .directory here => return (here, names.getLast?.getD "")
  | .file _ => throw .notDirectory

def read (d : Disk) (path : String) : Except FileError String := do
  match ← d.locate path with
  | .directory _ => throw .isDirectory
  | .file contents =>
    match String.fromUTF8? contents with
    | some text => return text
    | none => throw .notText

/-- Makes a directory at a path that leads nowhere yet. -/
def makeDirectory (d : Disk) (path : String) : Except FileError Disk := do
  let (start, names) ← entryPoint path
  let (here, name) ← d.locateLast start (names.reverse.dropWhile (· == "")).reverse
  match d.look here name with
  | .ok _ => throw .alreadyExists
  | .error .notFound => return d.putDirectory here name
  | .error e => throw e

def write (d : Disk) (path text : String) : Except FileError Disk := do
  let (start, names) ← entryPoint path
  let (here, name) ← d.locateLast start names
  match d.look here name with
  | .ok (.directory _) => throw .isDirectory
  | .ok (.file _) | .error .notFound => return d.put here name (.file text.toUTF8)
  | .error e => throw e

/-- A step that changes the disk, unless it fails. -/
def attempt (f : Disk → Except FileError Disk) : StateM Disk (Except FileError Unit) := fun d =>
  match f d with
  | .ok d => (.ok (), d)
  | .error e => (.error e, d)

def host : Host (StateM Disk) where
  readText path := do return (← get).read path
  isPresent path := do return ((← get).locate path).isOk
  isDirectory path := do
    match (← get).locate path with
    | .ok (.directory _) => return true
    | _ => return false
  makeDirectory path := attempt (·.makeDirectory path)
  writeText path text := attempt (·.write path text)
  putLine line := modify fun d => { d with output := d.output ++ line ++ "\n" }
  warnLine line := modify fun d => { d with warnings := d.warnings ++ line ++ "\n" }

/-- The files in and below a directory, down to a depth. -/
def filesBelow (d : Disk) : Nat → Nat → List (List String × ByteArray)
  | 0, _ => []
  | depth + 1, here =>
    (d.entries here).flatMap fun (name, entry) =>
      match entry with
      | .file contents => [([name], contents)]
      | .directory next =>
        (filesBelow d depth next).map fun (names, contents) => (name :: names, contents)

/-- There are no more levels than directories. -/
def files (d : Disk) : List (List String × ByteArray) := d.filesBelow d.directories.size top

/-- The files that are new or differ. -/
def changes (before after : Disk) : List (String × String) :=
  let old := before.files
  after.files.filterMap fun (names, contents) =>
    if old.lookup names == some contents then none
    else (String.fromUTF8? contents).map fun text => (pathThrough false names, text)

end Disk

end StackCompiler
