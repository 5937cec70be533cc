import StackCompiler.CommandLine.Host

/-!
# The program

Commands on the files and streams of the system.
-/

namespace StackCompiler

/-- A code may come with either sign. -/
def reasonOf : IO.Error → FileError
  | .noFileOrDirectory _ _ _ => .notFound
  | .alreadyExists _ _ _ => .alreadyExists
  | .inappropriateType _ code _ => if code = 21 then .isDirectory else .notDirectory
  | .invalidArgument path code reason =>
    if code = 36 || code = -36 then .nameTooLong
    else .other (toString (IO.Error.invalidArgument path code reason))
  | e => .other (toString e)

def guarded {α : Type} (action : IO α) : IO (Except FileError α) := do
  match ← action.toBaseIO with
  | .ok a => return .ok a
  | .error e => return .error (reasonOf e)

def readSystemText (path : String) : IO (Except FileError String) := do
  match ← guarded (IO.FS.readBinFile path) with
  | .error reason => return .error reason
  | .ok contents =>
    match String.fromUTF8? contents with
    | some text => return .ok text
    | none => return .error .notText

def isSystemEntry (path : String) : IO Bool := do
  match ← (IO.FS.realPath path).toBaseIO with
  | .ok found => found.pathExists
  | .error _ => return false

def isSystemDirectory (path : String) : IO Bool := do
  match ← (IO.FS.realPath path).toBaseIO with
  | .ok found => found.isDir
  | .error _ => return false

def systemHost : Host IO where
  readText := readSystemText
  isPresent := isSystemEntry
  isDirectory := isSystemDirectory
  makeDirectory path := guarded (IO.FS.createDir path)
  writeText path text := guarded (IO.FS.writeFile path text)
  putLine line := IO.println line
  warnLine line := IO.eprintln line

end StackCompiler

def main (args : List String) : IO UInt32 := do
  return (← (StackCompiler.Command.ofArgs args).run StackCompiler.systemHost).toUInt32
