import StackCompiler.Analysis
import StackCompiler.ClassFile
import StackCompiler.CodeBuffer
import StackCompiler.SlotAllocator

/-!
# Writing the code of a method

The code of expressions is written into a buffer, with the analysis of the unit and the frame of
the method at hand.

* `GenerateError`, `GenerateError.message`: why no code can be made;
* `Emit`, `Emit.instruction`, `Emit.about`, `Emit.bind`, `Emit.newLabel`: steps of writing;
* `Analysis.methodRef`, `Analysis.fieldRef`, `Analysis.globalField`: what instructions refer to;
* `Frame`, `Frame.load`, `Frame.store`: the method that is being written, and its variables.
-/

namespace StackCompiler

inductive GenerateError where
  | semanticErrors (unit : String) (count : Nat)
  | buffer (error : BufferError)
  | slots (error : SlotError)
  | stack (error : StackError)
  | slotConflict (conflict : SlotConflict)
  /-- A declaration that the analysis has not seen. -/
  | notAnalyzed (what name : String)
  | untypedExpr
  | unresolvedName (name : String)
  | unresolvedCall
  | unresolvedField (record : String)
  | fieldWithoutKind (name : String)
  | missingReturn (method : String)
  | noLoop
  | rangeKind (kind : Kind)
  | notPlace
  | arrayType (ty : Ty)
  | newArrayType (ty : Ty)
  | arrayOfVoid
  | noConversion (source target : Ty)
  | unknownDecl (decl : DeclId)
  | unknownRecord (name : String)
  | unknownSymbol (id : SymbolId)
  | unknownFunction (id : FnId)
  | noArgument (name : String)
  | lengthOf (ty : Ty)
  | notComparable (ty : Ty)
  | noSlot (name : String)
  | notOwned (name : String)
  | storedEarly (name : String)
  | fieldOf (ty : Ty)
  | indexing (ty : Ty)
  | noJvmType (ty : Ty)
  | notValue (ty : Ty)
  | intRange (value : Int)
deriving DecidableEq

def GenerateError.message : GenerateError → String
  | semanticErrors unit count => "unit `" ++ unit ++ s!"` has {count} semantic errors"
  | buffer error => error.message
  | slots error => error.message
  | stack error => error.message
  | slotConflict conflict => conflict.message
  | notAnalyzed what name => what ++ " `" ++ name ++ "` was not analyzed"
  | untypedExpr => "expression was not analyzed"
  | unresolvedName name => "`" ++ name ++ "` was not resolved"
  | unresolvedCall => "call was not resolved"
  | unresolvedField record => "unresolved field of `" ++ record ++ "`"
  | fieldWithoutKind name => "field `" ++ name ++ "` has no value type"
  | missingReturn method =>
    "control reaches the end of `" ++ method ++ "` without returning a value"
  | noLoop => "break or continue outside a loop"
  | rangeKind kind => "range over " ++ kind.label ++ " values"
  | notPlace => "assignment to something that is not a place"
  | arrayType ty => "array literal typed as `" ++ ty.text ++ "`"
  | newArrayType ty => "`new` typed as `" ++ ty.text ++ "`"
  | arrayOfVoid => "array of void"
  | noConversion source target =>
    "no conversion from `" ++ source.text ++ "` to `" ++ target.text ++ "`"
  | unknownDecl decl =>
    s!"unknown record DeclId \x7b unit: {decl.unit}, index: {decl.index} \x7d"
  | unknownRecord name => "unknown record `" ++ name ++ "`"
  | unknownSymbol id => s!"unknown symbol {id}"
  | unknownFunction id => s!"unknown function {id}"
  | noArgument name => "`" ++ name ++ "` called without an argument"
  | lengthOf ty => "len of `" ++ ty.text ++ "`"
  | notComparable ty => "cannot compare `" ++ ty.text ++ "` values"
  | noSlot name => "`" ++ name ++ "` has no slot in this method"
  | notOwned name => "`" ++ name ++ "` is not stored in this method"
  | storedEarly name => "`" ++ name ++ "` is stored before it has a slot"
  | fieldOf ty => "field access on `" ++ ty.text ++ "`"
  | indexing ty => "indexing `" ++ ty.text ++ "`"
  | noJvmType ty => "`" ++ ty.text ++ "` has no JVM representation"
  | notValue ty => "`" ++ ty.text ++ "` is not a value type"
  | intRange value => s!"{value} does not fit in an int"

abbrev Emit := StateT CodeBuffer (Except GenerateError)

namespace Emit

def ofWrite {α : Type} (write : CodeBuffer.Write α) : Emit α := fun b =>
  match write b with
  | .ok a b => .ok (a, b)
  | .error e _ => .error (.buffer e)

def instruction (i : Instruction) : Emit Unit := ofWrite (CodeBuffer.emit i)

/-- Appends an instruction about a variable or a function. -/
def about (subject : Subject) (i : Instruction) : Emit Unit :=
  ofWrite (CodeBuffer.emitAbout (some subject) i)

def newLabel : Emit LabelId := ofWrite CodeBuffer.newLabel

def bind (label : LabelId) : Emit Unit := ofWrite (CodeBuffer.bind label)

def jump (label : LabelId) : Emit Unit := instruction (.goto (.label label))

end Emit

/-! ## Types -/

def kindOf (ty : Ty) : Except GenerateError Kind :=
  match Kind.ofTy? ty with
  | some kind => .ok kind
  | none => .error (.notValue ty)

/-- The type that stands for a type of the language. -/
def Analysis.jvmType (a : Analysis) (ty : Ty) : Except GenerateError JvmType :=
  match JvmType.ofTy? a.recordClass? ty with
  | some t => .ok t
  | none => .error (.noJvmType ty)

def elemOf (t : JvmType) : Except GenerateError ArrayElem :=
  match ArrayElem.ofType? t with
  | some elem => .ok elem
  | none => .error .arrayOfVoid

def Analysis.arrayElem (a : Analysis) : Ty → Except GenerateError ArrayElem
  | .array elem => do elemOf (← a.jvmType elem)
  | other => .error (.indexing other)

def typeOf (e : Expr) : Except GenerateError Ty :=
  match e.ty? with
  | some ty => .ok ty
  | none => .error .untypedExpr

/-- The type of the value that an expression leaves. -/
def resultTypeOf (e : Expr) : Ty := e.resultTy?.getD .error

def intConstant (value : Int) : Except GenerateError Instruction :=
  if -2147483648 ≤ value ∧ value ≤ 2147483647 then .ok (.iconst (.ofInt value))
  else .error (.intRange value)

def NameRef.symbol (ref : NameRef) : Except GenerateError SymbolId :=
  match ref.binding with
  | some binding => .ok binding.symbol
  | none => .error (.unresolvedName ref.name)

/-! ## Symbols -/

namespace Analysis

def symbol (a : Analysis) (id : SymbolId) : Except GenerateError Symbol :=
  match a.symbols[id]? with
  | some symbol => .ok symbol
  | none => .error (.unknownSymbol id)

def function (a : Analysis) (id : FnId) : Except GenerateError FunctionInfo :=
  match a.functions[id]? with
  | some info => .ok info
  | none => .error (.unknownFunction id)

def globalField (a : Analysis) (symbol : Symbol) : Except GenerateError FieldRef :=
  return ⟨a.className, symbol.name, ← a.jvmType symbol.ty⟩

/-- The type of the parameter that hands a captured variable on. -/
def captureType (a : Analysis) (id : SymbolId) : Except GenerateError JvmType := do
  a.jvmType (← a.symbol id).ty

/-- Captured variables follow the declared parameters. -/
def methodRef (a : Analysis) (id : FnId) : Except GenerateError MethodRef := do
  let info ← a.function id
  let params ← info.params.mapM a.jvmType
  let captures ← info.captures.mapM a.captureType
  return ⟨info.className, info.method, params ++ captures, ← a.jvmType info.ret⟩

def constructorRef (a : Analysis) (info : RecordInfo) : Except GenerateError MethodRef :=
  return ⟨info.className, "<init>", ← info.fieldTypes.mapM a.jvmType, .void⟩

def fieldRef (a : Analysis) (ty : Ty) (position : Option Nat) :
    Except GenerateError FieldRef :=
  match ty with
  | .record decl name =>
    match a.record? decl with
    | none => .error (.unknownRecord name)
    | some info =>
      match position.bind (info.fields[·]?) with
      | none => .error (.unresolvedField name)
      | some (field, fieldTy) => return ⟨info.className, field, ← a.jvmType fieldTy⟩
  | other => .error (.fieldOf other)

end Analysis

/-- The method that is being written. -/
structure Frame where
  analysis : Analysis
  function : FnId
  /-- The slots of the captured variables. -/
  captures : List (SymbolId × Nat)

namespace Frame

def slot (f : Frame) (id : SymbolId) (symbol : Symbol) : Except GenerateError Nat :=
  let slot? := if symbol.owner = some f.function then symbol.slot else f.captures.lookup id
  match slot? with
  | some slot => .ok slot
  | none => .error (.noSlot symbol.name)

def loadInstruction (f : Frame) (id : SymbolId) : Except GenerateError Instruction := do
  let symbol ← f.analysis.symbol id
  if symbol.isGlobal then return .getStatic (← f.analysis.globalField symbol)
  else
    let kind ← kindOf symbol.ty
    return .load kind (← f.slot id symbol)

def storeInstruction (f : Frame) (id : SymbolId) : Except GenerateError Instruction := do
  let symbol ← f.analysis.symbol id
  if symbol.isGlobal then return .putStatic (← f.analysis.globalField symbol)
  else if symbol.owner ≠ some f.function then throw (.notOwned symbol.name)
  else
    let kind ← kindOf symbol.ty
    match symbol.slot with
    | some slot => return .store kind slot
    | none => throw (.storedEarly symbol.name)

def load (f : Frame) (id : SymbolId) : Emit Unit := do
  Emit.about (.symbol id) (← f.loadInstruction id)

def store (f : Frame) (id : SymbolId) : Emit Unit := do
  Emit.about (.symbol id) (← f.storeInstruction id)

end Frame

end StackCompiler
