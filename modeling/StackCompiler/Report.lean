import StackCompiler.Diagnostic
import StackCompiler.Error
import StackCompiler.Text.Json

/-!
# Reports

Diagnostics and errors as they are shown: a line of text with the source line under it, or data.
-/

namespace StackCompiler

open Text

/-- A newline at the end begins no further line. -/
def linesFrom : (line : List Char) → List Char → List (List Char)
  | [], [] => []
  | line, [] => [line.reverse]
  | line, '\n' :: rest =>
    match line with
    | '\r' :: before => before.reverse :: linesFrom [] rest
    | line => line.reverse :: linesFrom [] rest
  | line, c :: rest => linesFrom (c :: line) rest

def sourceLines (text : String) : List String := (linesFrom [] text.toList).map String.ofList

/-- The place after some bytes, if a character ends there. -/
def lineColumnFrom : (line column bytes : Nat) → List Char → Option (Nat × Nat)
  | line, column, 0, _ => some (line, column)
  | _, _, _ + 1, [] => none
  | line, column, bytes + 1, c :: rest =>
    if bytes + 1 < c.utf8Size then none
    else if c = '\n' then lineColumnFrom (line + 1) 1 (bytes + 1 - c.utf8Size) rest
    else lineColumnFrom line (column + 1) (bytes + 1 - c.utf8Size) rest

def lineColumn? (source : String) (offset : Nat) : Option (Nat × Nat) :=
  lineColumnFrom 1 1 offset source.toList

structure Location where
  file : String
  line : Nat
  column : Nat
  /-- The line and column at which the place ends, if known. -/
  stop : Option (Nat × Nat)
deriving DecidableEq

/-- The end is looked up with the offset taken in bytes. -/
def Location.of (file : String) (span : Span) (source : Option String) : Location :=
  ⟨file, span.line, span.column, source.bind (lineColumn? · span.stop)⟩

structure Report where
  code : String
  severity : Severity
  message : String
  location : Option Location
  construct : Option Construct
deriving DecidableEq

namespace Report

def ofDiagnostic (d : Diagnostic) (file : String) (source : Option String) : Report :=
  ⟨d.kind.code, d.severity, d.message, some (.of file d.span source), some d.construct⟩

def errorCode : CompileError → String
  | .unexpectedToken .. | .expectedIdent _ | .expectedType _ | .expectedExpr _
  | .invalidLiteral .. => "P0001"
  | .malformedTree .. => "I0001"
  | .codeGeneration _ => "I0002"
  | .units _ => "M0001"
  | .io _ => "F0001"

def ofError (e : CompileError) (file : String) (source : Option String) : Report :=
  let message := if e.isInternal then "internal compiler error: " ++ e.message else e.message
  ⟨errorCode e, .error, message, e.span?.map (.of file · source), none⟩

def isError (r : Report) : Bool := r.severity == .error

def caretWidth (location : Location) : Nat :=
  let start := max location.column 1
  match location.stop with
  | some (line, column) =>
    if line = location.line ∧ start < column then column - start else 1
  | none => 1

def fill (n : Nat) (c : Char) : String := String.ofList (List.replicate n c)

/-- The source line of a place with carets under the place. -/
def excerpt (location : Location) (source : Option String) : String :=
  let line? := match source, location.line with
    | some text, line + 1 => (sourceLines text)[line]?
    | _, _ => none
  match line? with
  | none => ""
  | some line =>
    let gutter := toString location.line
    "\n " ++ gutter ++ " | " ++ line ++ "\n " ++ fill gutter.length ' ' ++ " | " ++
      fill (max location.column 1 - 1) ' ' ++ fill (caretWidth location) '^'

def render (r : Report) (source : Option String) : String :=
  let label := match r.severity with
    | .error => "error"
    | .warning => "warning"
  let head := label ++ "[" ++ r.code ++ "]: " ++ r.message
  match r.location with
  | none => head
  | some location =>
    location.file ++ s!":{location.line}:{location.column}: " ++ head ++ excerpt location source

def locationJson (l : Location) : Json :=
  .object [("file", .string l.file), ("line", .ofNat l.line), ("column", .ofNat l.column),
    ("end_line", .ofOption (fun stop => .ofNat stop.1) l.stop),
    ("end_column", .ofOption (fun stop => .ofNat stop.2) l.stop)]

def json (r : Report) : Json :=
  .object [("code", .string r.code), ("severity", .string r.severity.label),
    ("message", .string r.message), ("location", .ofOption locationJson r.location),
    ("construct", .ofOption (fun c => .string (Construct.label c)) r.construct)]

end Report

structure Stats where
  functionCount : Nat
  recordCount : Nat
  classCount : Nat
  errorCount : Nat
  warningCount : Nat
  lines : Nat
deriving DecidableEq

def Stats.json (s : Stats) : Json :=
  .object [("parse_time_ms", .ofNat 0), ("semantic_time_ms", .ofNat 0),
    ("codegen_time_ms", .ofNat 0), ("function_count", .ofNat s.functionCount),
    ("record_count", .ofNat s.recordCount), ("class_count", .ofNat s.classCount),
    ("error_count", .ofNat s.errorCount), ("warning_count", .ofNat s.warningCount),
    ("loc", .ofNat s.lines)]

structure Feedback where
  success : Bool
  unit : String
  sourceFile : String
  reports : List Report
  stats : Stats
deriving DecidableEq

def Feedback.json (f : Feedback) : Json :=
  .object [("success", .bool f.success), ("unit", .string f.unit),
    ("source_file", .string f.sourceFile), ("diagnostics", .array (f.reports.map Report.json)),
    ("stats", f.stats.json)]

end StackCompiler
