import StackCompiler.Ast.OfParseTree
import StackCompiler.UnitName

/-!
# Loading units

Units are loaded one after another. No two of them may have the same class.
-/

namespace StackCompiler

structure LoadedUnit where
  path : Option String
  unit : SourceUnit

/-- The units loaded so far, in order. -/
structure Loader where
  units : List LoadedUnit

namespace Loader

def empty : Loader := ⟨[]⟩

def describe (path : Option String) : String := path.getD "<memory>"

def owner? (l : Loader) (className : String) : Option LoadedUnit :=
  l.units.find? fun loaded => unitClassName loaded.unit.name == className

/-- Loads a unit, unless its class is taken or it cannot be parsed. -/
def add (l : Loader) (name source : String) (path : Option String) :
    Except CompileError (SourceUnit × Loader) := do
  let className := unitClassName name
  match l.owner? className with
  | some previous =>
    throw (.units ("two units map to class `" ++ className ++ "` (" ++ describe previous.path ++
      " and " ++ describe path ++ ")"))
  | none =>
    let unit ← SourceUnit.parse name source
    return (unit, ⟨l.units ++ [⟨path, unit⟩]⟩)

end Loader

end StackCompiler
