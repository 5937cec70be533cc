import StackCompiler.Ast
import StackCompiler.Diagnostic
import StackCompiler.UnitName

/-!
# The analysis of a unit

What the analysis finds out about a unit beyond the notes in its syntax tree.
-/

namespace StackCompiler

/-- What a declared name stands for. -/
inductive SymbolKind where
  | variable_
  | parameter
  | loopVariable
  | function (id : FnId)
  | record (decl : DeclId)
  | builtin (builtin : Builtin)
deriving DecidableEq

/-- The name stands for a value that is stored. -/
def SymbolKind.isStorage : SymbolKind → Bool
  | variable_ | parameter | loopVariable => true
  | _ => false

/-- A declared name, at a depth of scopes. -/
structure Symbol where
  name : String
  kind : SymbolKind
  ty : Ty
  span : Span
  depth : Nat
  mutable : Bool
  /-- The function whose frame holds the value; globals have none. -/
  owner : Option FnId
  slot : Option Nat
deriving DecidableEq

namespace Symbol

/-- The value is in the frame of a function. -/
def isLocal (s : Symbol) : Bool := s.kind.isStorage && s.owner.isSome

/-- The value is in a static field. -/
def isGlobal (s : Symbol) : Bool := s.kind == .variable_ && s.owner.isNone

end Symbol

/-- A function and the method that it becomes. -/
structure FunctionInfo where
  name : String
  method : String
  className : String
  decl : DeclId
  params : List Ty
  ret : Ty
  parent : Option FnId
  /-- The outer variables that it is handed after its parameters. -/
  captures : List SymbolId
  isExternal : Bool
  span : Span
deriving DecidableEq

def FunctionInfo.signature (f : FunctionInfo) : Ty := .function f.decl f.params f.ret

/-- A record and the class that it becomes. -/
structure RecordInfo where
  name : String
  className : String
  decl : DeclId
  fields : List (String × Ty)
  isExternal : Bool
  span : Span
deriving DecidableEq

namespace RecordInfo

/-- The position of the first field of that name. -/
def fieldIndex? (r : RecordInfo) (name : String) : Option Nat := r.fields.findIdx? (·.1 == name)

def recordType (r : RecordInfo) : Ty := .record r.decl r.name

/-- The types that a constructor takes. -/
def fieldTypes (r : RecordInfo) : List Ty := r.fields.map Prod.snd

end RecordInfo

/-- What a unit declares, and what is wrong with it. -/
structure Analysis where
  unit : String
  className : String
  symbols : Array Symbol
  functions : Array FunctionInfo
  records : List RecordInfo
  globals : List SymbolId
  diagnostics : Diagnostics

/-- The statements outside of functions. -/
def FnId.main : FnId := 0

/-- A variable would have to live in two slots. -/
structure SlotConflict where
  name : String
  existing : Nat
  wanted : Nat
deriving DecidableEq

def SlotConflict.message (c : SlotConflict) : String :=
  "`" ++ c.name ++ s!"` already lives in slot {c.existing}, cannot move it to {c.wanted}"

namespace Analysis

/-- There are warnings at most. -/
def isOk (a : Analysis) : Bool := !a.diagnostics.hasErrors

/-- The record that is declared there. -/
def record? (a : Analysis) (decl : DeclId) : Option RecordInfo :=
  a.records.find? (·.decl = decl)

/-- The class that the record becomes. -/
def recordClass? (a : Analysis) (decl : DeclId) : Option String :=
  (a.record? decl).map RecordInfo.className

/-- The functions of the unit itself. -/
def declaredFunctions (a : Analysis) : List FunctionInfo :=
  (a.functions.toList.drop 1).filter (!·.isExternal)

/-- The records of the unit itself. -/
def declaredRecords (a : Analysis) : List RecordInfo := a.records.filter (!·.isExternal)

/-- The symbols that get slots. -/
def locals (a : Analysis) : List Symbol := a.symbols.toList.filter Symbol.isLocal

/-- Gives a symbol the slot that it stays in. -/
def assignSlot (a : Analysis) (id : SymbolId) (slot : Nat) : Except SlotConflict Analysis :=
  match a.symbols[id]? with
  | none => .ok a
  | some symbol =>
    let assigned := a.symbols.setIfInBounds id { symbol with slot := some slot }
    match symbol.slot with
    | some existing =>
      if existing = slot then .ok { a with symbols := assigned }
      else .error ⟨symbol.name, existing, slot⟩
    | none => .ok { a with symbols := assigned }

end Analysis

end StackCompiler
