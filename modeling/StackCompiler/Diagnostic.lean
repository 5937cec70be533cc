import StackCompiler.Span

/-!
# Diagnostics

What the analysis has to say about a unit. Diagnostics are kept in the order in which they are
found; a unit may have many of them.
-/

namespace StackCompiler

/-- Only errors keep a unit from being compiled. -/
inductive Severity where
  | error
  | warning
deriving DecidableEq

def Severity.label : Severity → String
  | error => "Error"
  | warning => "Warning"

inductive DiagnosticKind where
  | duplicateDeclaration
  | unresolvedName
  | typeMismatch
  | missingReturn
  | controlFlow
  | invalidAssignment
  | unusedVariable
  | unreachableCode
deriving DecidableEq

namespace DiagnosticKind

def all : List DiagnosticKind :=
  [duplicateDeclaration, unresolvedName, typeMismatch, missingReturn, controlFlow,
    invalidAssignment, unusedVariable, unreachableCode]

/-- What is merely useless is a warning, all else an error. -/
def severity : DiagnosticKind → Severity
  | unusedVariable | unreachableCode => .warning
  | _ => .error

def code : DiagnosticKind → String
  | duplicateDeclaration => "E0001"
  | unresolvedName => "E0002"
  | typeMismatch => "E0003"
  | missingReturn => "E0004"
  | controlFlow => "E0005"
  | invalidAssignment => "E0006"
  | unusedVariable => "W0001"
  | unreachableCode => "W0002"

def label : DiagnosticKind → String
  | duplicateDeclaration => "DuplicateDeclaration"
  | unresolvedName => "UnresolvedName"
  | typeMismatch => "TypeMismatch"
  | missingReturn => "MissingReturn"
  | controlFlow => "ControlFlow"
  | invalidAssignment => "InvalidAssignment"
  | unusedVariable => "UnusedVariable"
  | unreachableCode => "UnreachableCode"

end DiagnosticKind

/-- The part of the language that a diagnostic is about. -/
inductive Construct where
  | unit | function | record | parameter | variable_ | block | branch | whileLoop | forLoop | ret
  | leave | next | assignment | literal | name | binary | unary | call | field | index | array
  | cast | type
deriving DecidableEq

namespace Construct

def all : List Construct :=
  [unit, function, record, parameter, variable_, block, branch, whileLoop, forLoop, ret, leave,
    next, assignment, literal, name, binary, unary, call, field, index, array, cast, type]

def label : Construct → String
  | unit => "Unit"
  | function => "Function"
  | record => "Record"
  | parameter => "Parameter"
  | variable_ => "Variable"
  | block => "Block"
  | branch => "If"
  | whileLoop => "While"
  | forLoop => "For"
  | ret => "Return"
  | leave => "Break"
  | next => "Continue"
  | assignment => "Assignment"
  | literal => "Literal"
  | name => "Name"
  | binary => "Binary"
  | unary => "Unary"
  | call => "Call"
  | field => "Field"
  | index => "Index"
  | array => "Array"
  | cast => "Cast"
  | type => "Type"

end Construct

structure Diagnostic where
  kind : DiagnosticKind
  message : String
  span : Span
  construct : Construct
deriving DecidableEq

namespace Diagnostic

def severity (d : Diagnostic) : Severity := d.kind.severity

def isError (d : Diagnostic) : Bool := d.severity == .error

def text (d : Diagnostic) : String := d.span.text ++ ": " ++ d.message

end Diagnostic

/-- Findings in the order in which they were made. -/
abbrev Diagnostics := List Diagnostic

namespace Diagnostics

def hasErrors (ds : Diagnostics) : Bool := ds.any Diagnostic.isError

def errorCount (ds : Diagnostics) : Nat := ds.countP Diagnostic.isError

def warningCount (ds : Diagnostics) : Nat := ds.length - ds.errorCount

def ofKind (ds : Diagnostics) (kind : DiagnosticKind) : Diagnostics := ds.filter (·.kind = kind)

end Diagnostics

end StackCompiler
