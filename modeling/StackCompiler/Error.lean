import StackCompiler.Span

/-!
# Errors that stop a unit

A unit that cannot be read, or for which no code can be produced, is given up with one of these
errors. Problems that the author of a program can have several of at once are diagnostics
instead.
-/

namespace StackCompiler

inductive CompileError where
  | unexpectedToken (expected got : String) (span : Span)
  | expectedIdent (span : Span)
  | expectedType (span : Span)
  | expectedExpr (span : Span)
  | invalidLiteral (text : String) (span : Span)
  /-- A parse tree without the shape that its rule promises. -/
  | malformedTree (rule detail : String) (span : Span)
  | codeGeneration (detail : String)
  | units (detail : String)
  | io (detail : String)
deriving DecidableEq

namespace CompileError

def message : CompileError → String
  | unexpectedToken expected got _ => "Unexpected token: expected " ++ expected ++ ", got " ++ got
  | expectedIdent _ => "Expected identifier"
  | expectedType _ => "Expected type"
  | expectedExpr _ => "Expected expression"
  | invalidLiteral text _ => "Invalid literal: " ++ text
  | malformedTree rule detail _ => "Malformed parse tree at " ++ rule ++ ": " ++ detail
  | codeGeneration detail => "Code generation error: " ++ detail
  | units detail => "Module error: " ++ detail
  | io detail => "IO error: " ++ detail

def span? : CompileError → Option Span
  | unexpectedToken _ _ span | expectedIdent span | expectedType span | expectedExpr span
  | invalidLiteral _ span | malformedTree _ _ span => some span
  | codeGeneration _ | units _ | io _ => none

/-- Errors that no source text should be able to cause. -/
def isInternal : CompileError → Bool
  | malformedTree .. | codeGeneration _ => true
  | _ => false

end CompileError

end StackCompiler
