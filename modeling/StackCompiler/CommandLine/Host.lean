import StackCompiler.CommandLine

/-!
# Running commands

A command runs on a host, which has files and two streams for text.

* `FileError`: why a file or directory cannot be used;
* `Host`: what a command needs of its surroundings;
* `makeDirectories`: a directory with all those around it;
* `readInputs`, `reportUnit`, `writeArtifacts`: the steps of a compilation;
* `Command.run`: the exit code of a command.
-/

namespace StackCompiler

inductive FileError where
  | notFound
  | alreadyExists
  | notDirectory
  | isDirectory
  | nameTooLong
  | notText
  | other (reason : String)
deriving DecidableEq

def FileError.message : FileError → String
  | notFound => "No such file or directory (os error 2)"
  | alreadyExists => "File exists (os error 17)"
  | notDirectory => "Not a directory (os error 20)"
  | isDirectory => "Is a directory (os error 21)"
  | nameTooLong => "File name too long (os error 36)"
  | notText => "stream did not contain valid UTF-8"
  | other reason => reason

/-- What a command needs of its surroundings. -/
structure Host (m : Type → Type) where
  readText : (path : String) → m (Except FileError String)
  isPresent : (path : String) → m Bool
  isDirectory : (path : String) → m Bool
  makeDirectory : (path : String) → m (Except FileError Unit)
  writeText : (path text : String) → m (Except FileError Unit)
  putLine : (line : String) → m Unit
  warnLine : (line : String) → m Unit

def isAbsolute (path : String) : Bool := path.toList.head? == some '/'

def pathThrough (absolute : Bool) (names : List String) : String :=
  (if absolute then "/" else "") ++ String.intercalate "/" names

section

variable {m : Type → Type} [Monad m] (host : Host m)

def readInput (path : String) : m (Except String SourceInput) := do
  match ← host.readText path with
  | .ok text => return .ok ⟨unitNameOfPath path, some path, text⟩
  | .error reason =>
    let e : CompileError := .io ("failed to read " ++ path ++ ": " ++ reason.message)
    return .error ("cannot load " ++ path ++ ": " ++ e.message)

/-- Reads units up to the first that cannot be read. -/
def readInputs : List String → m (Except String (List SourceInput))
  | [] => return .ok []
  | path :: rest => do
    match ← readInput host path with
    | .error e => return .error e
    | .ok input =>
      match ← readInputs rest with
      | .error e => return .error e
      | .ok inputs => return .ok (input :: inputs)

def reportUnit (json : Bool) (r : UnitResult) : m Unit :=
  if json then host.putLine r.feedback.json.pretty
  else r.reports.forM fun report => host.warnLine (report.render (some r.input.text))

def joinPath (directory file : String) : String :=
  if directory.toList.getLast? = some '/' then directory ++ file else directory ++ "/" ++ file

def writeFiles (directory : String) : List Artifact → m (Except String Unit)
  | [] => return .ok ()
  | artifact :: rest => do
    let path := joinPath directory artifact.fileName
    match ← host.writeText path artifact.contents with
    | .error reason => return .error ("cannot write " ++ path ++ ": " ++ reason.message)
    | .ok () => writeFiles directory rest

/-- It is fine if there is a directory in the end. -/
def settleDirectory (path : String) (made : Except FileError Unit) :
    m (Except FileError Unit) := do
  match made with
  | .ok () => return .ok ()
  | .error e => return if ← host.isDirectory path then .ok () else .error e

/-- Makes a directory; if something on the way is missing, first those around it, the innermost
first. -/
def makeDirectoriesAround (path : String) : List String → m (Except FileError Unit)
  | [] => do settleDirectory host path (← host.makeDirectory path)
  | name :: outer => do
    match ← host.makeDirectory path with
    | .error .notFound =>
      let parent := pathThrough (isAbsolute path) (name :: outer).reverse
      match ← makeDirectoriesAround parent outer with
      | .error e => return .error e
      | .ok () => settleDirectory host path (← host.makeDirectory path)
    | made => settleDirectory host path made

/-- Makes a directory and those around it. -/
def makeDirectories (path : String) : m (Except FileError Unit) :=
  makeDirectoriesAround host path (pathParts path).reverse.tail

/-- Writes the files of a unit into a directory. -/
def writeArtifacts (directory : String) (artifacts : List Artifact) : m (Except String Unit) := do
  if artifacts.isEmpty then return .ok ()
  else if (← host.isPresent directory) && !(← host.isDirectory directory) then
    return .error ("output path " ++ directory ++ " is not a directory")
  else
    match ← makeDirectories host directory with
    | .error reason => return .error ("cannot create " ++ directory ++ ": " ++ reason.message)
    | .ok () => writeFiles host directory artifacts

/-- Reports on units and writes their files; gives whether all is well. -/
def finishUnits (job : CompileJob) : List UnitResult → m (Except String Bool)
  | [] => return .ok true
  | r :: rest => do
    reportUnit host job.jsonReports r
    let written ← match job.outDir with
      | some directory => writeArtifacts host directory r.artifacts
      | none => pure (.ok ())
    match written with
    | .error e => return .error e
    | .ok () =>
      match ← finishUnits job rest with
      | .error e => return .error e
      | .ok success => return .ok (r.success && success)

def CompileJob.run (job : CompileJob) : m (Except String Bool) := do
  match ← readInputs host job.files with
  | .error e => return .error e
  | .ok inputs => finishUnits host job (compile inputs job.options)

def versionText : String := "blc 0.1.0"

def usageText : String :=
  "Usage: blc [FILE]...\n       blc build <FILES>... [-o <OUTPUT>] [--format jasmin|json] " ++
    "[--emit-ir] [--json-diagnostics]\n       blc check <FILES>... [--json-diagnostics]\n" ++
    "       blc version"

def Command.run (command : Command) : m Nat := do
  match command with
  | .compile job =>
    match ← job.run host with
    | .error e =>
      host.warnLine ("Error: " ++ e)
      return 1
    | .ok success => return if success then 0 else 1
  | .about =>
    host.putLine versionText
    host.putLine "BLC Compiler"
    host.putLine "License: Apache-2.0"
    return 0
  | .version =>
    host.putLine versionText
    return 0
  | .help =>
    host.putLine usageText
    return 0
  | .nothing =>
    host.warnLine "Error: No input file specified"
    host.warnLine "Usage: blc <FILE>... or blc build <FILE>..."
    return 1
  | .wrongUsage e =>
    host.warnLine ("error: " ++ e.message)
    return 2

end

end StackCompiler
