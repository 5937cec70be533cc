/-!
# Source spans

A span is a half-open range of characters of a source text together with the line and column of
its first character.
-/

namespace StackCompiler

/-- Lines and columns count from one. They are not bounded: in a text of fewer than `2 ^ 32`
characters they are what counters of 32 bits would hold. -/
structure Span where
  start : Nat
  stop : Nat
  line : Nat
  column : Nat
deriving DecidableEq, Repr, Inhabited

namespace Span

/-- The span of declarations that no source text holds. -/
def nowhere : Span := ⟨0, 0, 0, 0⟩

/-- The smallest span that covers both. -/
def merge (a b : Span) : Span where
  start := min a.start b.start
  stop := max a.stop b.stop
  line := if b.start < a.start then b.line else a.line
  column := if b.start < a.start then b.column else a.column

def length (s : Span) : Nat := s.stop - s.start

def isEmpty (s : Span) : Bool := s.start == s.stop

def text (s : Span) : String := s!"{s.line}:{s.column}"

end Span

end StackCompiler
