import StackCompiler.Compilation

/-!
# Command line

The arguments of the program and what they ask for.

* `Command`, `CompileJob`: what can be asked for;
* `UsageError`: arguments that make no sense;
* `Argument`, `Argument.of`: the forms of arguments;
* `Command.ofArgs`: what some arguments ask for.
-/

namespace StackCompiler

inductive UsageError where
  | unknown (argument : String)
  | repeated (option : String)
  | missingValue (option : String)
  | unexpectedValue (option : String)
  | badValue (option value : String)
  | missingFile
deriving DecidableEq

def UsageError.message : UsageError → String
  | unknown argument => "unexpected argument '" ++ argument ++ "' found"
  | repeated option => "the argument '--" ++ option ++ "' cannot be used multiple times"
  | missingValue option => "a value is required for '" ++ option ++ "' but none was supplied"
  | unexpectedValue option => "no value is expected for '--" ++ option ++ "'"
  | badValue option value => "invalid value '" ++ value ++ "' for '--" ++ option ++ "'"
  | missingFile => "the following required arguments were not provided: <FILES>..."

structure CompileJob where
  files : List String
  options : CompileOptions
  outDir : Option String
  /-- Reports are wanted as data. -/
  jsonReports : Bool
deriving DecidableEq

inductive Command where
  | compile (job : CompileJob)
  | about
  | version
  | help
  | nothing
  | wrongUsage (error : UsageError)
deriving DecidableEq

/-! ## Arguments -/

/-- The form of an argument. -/
inductive Argument where
  /-- Everything after it is a value. -/
  | escape
  | long (name : String) (value : Option String)
  | short (letters : List Char)
  | value (text : String)
deriving DecidableEq

/-- A long option is divided at its first equals sign. -/
def longOption (text : List Char) : Argument :=
  match text.dropWhile (· != '=') with
  | [] => .long (String.ofList text) none
  | _ :: value => .long (String.ofList (text.takeWhile (· != '='))) (some (String.ofList value))

/-- The form of an argument; a single dash is a value. -/
def Argument.of (text : String) : Argument :=
  match text.toList with
  | ['-', '-'] => .escape
  | '-' :: '-' :: name => longOption name
  | ['-'] => .value text
  | '-' :: letters => .short letters
  | _ => .value text

structure Arguments where
  files : List String
  output : Option String
  format : Option OutputFormat
  emitIr : Bool
  jsonReports : Bool
deriving DecidableEq

namespace Arguments

def none : Arguments := ⟨[], .none, .none, false, false⟩

def addFile (a : Arguments) (file : String) : Except Command Arguments :=
  if file.isEmpty then .error (.wrongUsage (.missingValue "FILES"))
  else .ok { a with files := a.files ++ [file] }

def addFiles : Arguments → List String → Except Command Arguments
  | a, [] => .ok a
  | a, file :: rest => do addFiles (← a.addFile file) rest

def setOutput (a : Arguments) (value : String) : Except Command Arguments :=
  if a.output.isSome then .error (.wrongUsage (.repeated "output"))
  else if value.isEmpty then .error (.wrongUsage (.missingValue "--output"))
  else .ok { a with output := some value }

def setFormat (a : Arguments) (value : String) : Except Command Arguments :=
  if a.format.isSome then .error (.wrongUsage (.repeated "format"))
  else
    match value with
    | "jasmin" => .ok { a with format := some .jasmin }
    | "json" => .ok { a with format := some .json }
    | other => .error (.wrongUsage (.badValue "format" other))

def setEmitIr (a : Arguments) : Except Command Arguments :=
  if a.emitIr then .error (.wrongUsage (.repeated "emit-ir")) else .ok { a with emitIr := true }

def setJsonReports (a : Arguments) : Except Command Arguments :=
  if a.jsonReports then .error (.wrongUsage (.repeated "json-diagnostics"))
  else .ok { a with jsonReports := true }

end Arguments

/-- An option takes a value, is set by itself, or asks for something else. -/
inductive OptionUse where
  | value (set : Arguments → String → Except Command Arguments)
  | flag (set : Arguments → Except Command Arguments)
  | instead (command : Command)

structure OptionTable where
  long : String → Option OptionUse
  short : Char → Option OptionUse

def useWith (a : Arguments) (option value : String) : OptionUse → Except Command Arguments
  | .value set => set a value
  | .flag _ | .instead _ => .error (.wrongUsage (.unexpectedValue option))

/-- Reads arguments. The value of an option may follow it. -/
def readArguments (table : OptionTable) : Arguments → List String → Except Command Arguments
  | a, [] => .ok a
  | a, argument :: rest =>
    match Argument.of argument with
    | .escape => a.addFiles rest
    | .value file => do readArguments table (← a.addFile file) rest
    | .long name (some value) =>
      match table.long name with
      | none => .error (.wrongUsage (.unknown argument))
      | some use => do readArguments table (← useWith a name value use) rest
    | .long name none =>
      match table.long name with
      | none => .error (.wrongUsage (.unknown argument))
      | some (.instead command) => .error command
      | some (.flag set) => do readArguments table (← set a) rest
      | some (.value set) =>
        match rest with
        | [] => .error (.wrongUsage (.missingValue argument))
        | next :: rest =>
          match Argument.of next with
          | .value value => do readArguments table (← set a value) rest
          | _ => .error (.wrongUsage (.missingValue argument))
    | .short [] => .error (.wrongUsage (.unknown argument))
    | .short (letter :: letters) =>
      match table.short letter with
      | none | some (.flag _) => .error (.wrongUsage (.unknown argument))
      | some (.instead command) => .error command
      | some (.value set) =>
        match letters, rest with
        | '=' :: value, rest => do readArguments table (← set a (String.ofList value)) rest
        | first :: value, rest => do
          readArguments table (← set a (String.ofList (first :: value))) rest
        | [], [] => .error (.wrongUsage (.missingValue argument))
        | [], next :: rest =>
          match Argument.of next with
          | .value value => do readArguments table (← set a value) rest
          | _ => .error (.wrongUsage (.missingValue argument))

/-! ## Commands -/

def mainOptions : OptionTable where
  long
    | "help" => some (.instead .help)
    | "version" => some (.instead .version)
    | _ => none
  short
    | 'h' => some (.instead .help)
    | 'V' => some (.instead .version)
    | _ => none

def buildOptions : OptionTable where
  long
    | "output" => some (.value Arguments.setOutput)
    | "format" => some (.value Arguments.setFormat)
    | "emit-ir" => some (.flag Arguments.setEmitIr)
    | "json-diagnostics" => some (.flag Arguments.setJsonReports)
    | "help" => some (.instead .help)
    | _ => none
  short
    | 'o' => some (.value Arguments.setOutput)
    | 'h' => some (.instead .help)
    | _ => none

def checkOptions : OptionTable where
  long
    | "json-diagnostics" => some (.flag Arguments.setJsonReports)
    | "help" => some (.instead .help)
    | _ => none
  short
    | 'h' => some (.instead .help)
    | _ => none

def aboutOptions : OptionTable where
  long
    | "help" => some (.instead .help)
    | _ => none
  short
    | 'h' => some (.instead .help)
    | _ => none

def Command.ofResult : Except Command Command → Command
  | .ok command => command
  | .error command => command

/-- Builds into the current directory, unless another is given. -/
def buildCommand (a : Arguments) : Command :=
  .compile ⟨a.files, ⟨a.format.getD .jasmin, a.emitIr, false⟩, some (a.output.getD "."),
    a.jsonReports⟩

def checkCommand (a : Arguments) : Command :=
  .compile ⟨a.files, ⟨.jasmin, false, true⟩, none, a.jsonReports⟩

def withFiles (make : Arguments → Command) (a : Arguments) : Command :=
  if a.files.isEmpty then .wrongUsage .missingFile else make a

def commandNames : List String := ["build", "check", "version", "help"]

/-- Help is about the whole program or about one command. -/
def helpCommand : List String → Command
  | [] => .help
  | [name] => if commandNames.contains name then .help else .wrongUsage (.unknown name)
  | _ :: other :: _ => .wrongUsage (.unknown other)

def Command.ofArgs (args : List String) : Command :=
  match args with
  | "build" :: rest =>
    .ofResult (withFiles buildCommand <$> readArguments buildOptions .none rest)
  | "check" :: rest =>
    .ofResult (withFiles checkCommand <$> readArguments checkOptions .none rest)
  | "version" :: rest =>
    let about (a : Arguments) : Command := match a.files with
      | [] => .about
      | file :: _ => .wrongUsage (.unknown file)
    .ofResult (about <$> readArguments aboutOptions .none rest)
  | "help" :: rest => helpCommand rest
  | args =>
    let plain (a : Arguments) : Command := if a.files.isEmpty then .nothing else buildCommand a
    .ofResult (plain <$> readArguments mainOptions .none args)

end StackCompiler
