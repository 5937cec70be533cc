import StackCompiler.Analysis.OfUnit
import StackCompiler.ClassFile.Jasmin
import StackCompiler.ClassFile.Listing
import StackCompiler.ClassFile.Model
import StackCompiler.Codegen.Classes
import StackCompiler.Loader
import StackCompiler.Report

/-!
# Compilation

Units are compiled together. All of them are loaded, then all publish what others can use, and
then each is analysed and, if it has no errors, turned into files. A unit that fails does not stop
the others.
-/

namespace StackCompiler

inductive OutputFormat where
  | jasmin
  | json
deriving DecidableEq

structure CompileOptions where
  format : OutputFormat
  /-- A listing is wanted too. -/
  emitIr : Bool
  /-- No files are wanted at all. -/
  checkOnly : Bool
deriving DecidableEq

structure SourceInput where
  name : String
  path : Option String
  text : String
deriving DecidableEq

def SourceInput.displayName (input : SourceInput) : String := input.path.getD input.name

structure Artifact where
  fileName : String
  contents : String
deriving DecidableEq

structure UnitResult where
  input : SourceInput
  analysis : Option Analysis
  fatal : Option CompileError
  artifacts : List Artifact
  stats : Stats

namespace UnitResult

def success (r : UnitResult) : Bool := r.fatal.isNone && r.analysis.any Analysis.isOk

/-- The error that stopped the unit and all findings. -/
def reports (r : UnitResult) : List Report :=
  let file := r.input.displayName
  let source := some r.input.text
  (r.fatal.toList.map (Report.ofError · file source)) ++
    ((r.analysis.map Analysis.diagnostics).getD []).map (Report.ofDiagnostic · file source)

def feedback (r : UnitResult) : Feedback :=
  ⟨r.success, r.input.name, r.input.displayName, r.reports, r.stats⟩

end UnitResult

/-! ## Files -/

def GenerateError.toCompileError (e : GenerateError) : CompileError := .codeGeneration e.message

/-- The classes that were described, and what stopped the description. -/
def Generated.assemble (g : Generated) (placed : Bool) : Assembly × Option CompileError :=
  match Assembly.acceptAll placed .empty g.requests with
  | .ok () a => (a, g.error.map GenerateError.toCompileError)
  | .error e a => (a, some (.codeGeneration e.message))

def Assembly.artifacts (a : Assembly) : OutputFormat → List Artifact
  | .jasmin => a.assemblyFiles.map fun (name, text) => ⟨name, text⟩
  | .json => a.models.map fun (name, text) => ⟨name ++ ".json", text⟩

structure Emitted where
  artifacts : List Artifact
  classCount : Nat

/-- Makes the files of a unit. -/
def emitUnit (unit : SourceUnit) (analysis : Analysis) (options : CompileOptions) :
    Analysis × Except CompileError Emitted :=
  let generated := generate unit analysis
  match generated.assemble (options.format = .jasmin) with
  | (_, some e) => (generated.analysis, .error e)
  | (classes, none) =>
    let artifacts := classes.artifacts options.format
    if options.emitIr then
      let again := generate unit generated.analysis
      match again.assemble false with
      | (_, some e) => (again.analysis, .error e)
      | (listed, none) =>
        let listing : Artifact := ⟨unitClassName unit.name ++ ".ir", listed.listing⟩
        (again.analysis, .ok ⟨artifacts ++ [listing], artifacts.length⟩)
    else (generated.analysis, .ok ⟨artifacts, artifacts.length⟩)

/-! ## Units -/

def loadAll : Loader → List SourceInput → List (Except CompileError SourceUnit)
  | _, [] => []
  | l, input :: rest =>
    match l.add input.name input.text input.path with
    | .error e => .error e :: loadAll l rest
    | .ok (unit, l) => .ok unit :: loadAll l rest

def loadedUnits (loaded : List (Except CompileError SourceUnit)) : List SourceUnit :=
  loaded.filterMap Except.toOption

def statsOf (input : SourceInput) (analysis : Option Analysis) (classCount : Nat) : Stats :=
  let lines := (sourceLines input.text).length
  match analysis with
  | none => ⟨0, 0, classCount, 0, 0, lines⟩
  | some a =>
    ⟨a.declaredFunctions.length, a.declaredRecords.length, classCount,
      a.diagnostics.errorCount, a.diagnostics.warningCount, lines⟩

def failedResult (input : SourceInput) (e : CompileError) : UnitResult :=
  ⟨input, none, some e, [], statsOf input none 0⟩

def compileUnit (exports : ExportTable) (options : CompileOptions) (index : Nat)
    (input : SourceInput) (unit : SourceUnit) : UnitResult :=
  let (unit, analysis) := unit.analyze index exports
  if analysis.isOk && !options.checkOnly then
    match emitUnit unit analysis options with
    | (analysis, .ok emitted) =>
      ⟨input, some analysis, none, emitted.artifacts,
        statsOf input (some analysis) emitted.classCount⟩
    | (analysis, .error e) =>
      ⟨input, some analysis, some e, [], statsOf input (some analysis) 0⟩
  else ⟨input, some analysis, none, [], statsOf input (some analysis) 0⟩

/-- Compiles what was loaded, numbered from the given number on. -/
def compileLoaded (exports : ExportTable) (options : CompileOptions) :
    (index : Nat) → List (SourceInput × Except CompileError SourceUnit) → List UnitResult
  | _, [] => []
  | index, (input, .error e) :: rest =>
    failedResult input e :: compileLoaded exports options index rest
  | index, (input, .ok unit) :: rest =>
    compileUnit exports options index input unit ::
      compileLoaded exports options (index + 1) rest

/-- Compiles units together. -/
def compile (inputs : List SourceInput) (options : CompileOptions) : List UnitResult :=
  let loaded := loadAll .empty inputs
  compileLoaded (.publish (loadedUnits loaded)) options 0 (inputs.zip loaded)

def compileSource (name source : String) (options : CompileOptions) : List UnitResult :=
  compile [⟨name, none, source⟩] options

end StackCompiler
