import StackCompiler.Codegen.Statements

/-!
# Code of units

A unit becomes a class for each of its records and one class for its functions, its global
variables and the statements outside of functions. Every method is checked before it is handed on.

* `generateMethod`, `generateConstructor`: methods;
* `generateRecord`, `generateUnit`: classes;
* `Stmt.functionCount`: bounds the number of nested functions;
* `Generated`, `generateUpTo`, `generate`: the requests for all classes of a unit, and the analysis
  with slots.
-/

namespace StackCompiler

open Generate

def objectClass : String := "java/lang/Object"

def send (request : Request) : Generate Unit :=
  modify fun s => { s with requests := s.requests.push request }

def sendMethod (m : Method) : Generate Unit :=
  modify fun s => { s with requests := s.requests ++ m.body.requests, methods := s.methods.push m }

def finishMethod (origin : MethodOrigin) (header : MethodHeader) (ret : Option Kind)
    (buffer : CodeBuffer) (slots : SlotAllocator) : Except GenerateError Method := do
  match buffer.finish with
  | .error e => throw (.buffer e)
  | .ok (code, maxStack) =>
    let limits : Limits := ⟨maxStack, slots.max⟩
    match verifyUpTo buffer.limit code limits ret with
    | .error e => throw (.stack e)
    | .ok () => return ⟨origin, ⟨header, code, limits⟩, buffer.subjects.toList⟩

/-! ## Records -/

/-- Stores the fields of a new record. -/
def storeFields (className : String) :
    SlotAllocator → List (String × JvmType) → Emit SlotAllocator
  | slots, [] => return slots
  | slots, (name, ty) :: rest => do
    match ty.kind? with
    | none => throw (.fieldWithoutKind name)
    | some kind =>
      match slots.allocate kind with
      | .error e => throw (.slots e)
      | .ok (slot, slots) =>
        Emit.about .self (.load .reference 0)
        Emit.about (.field name) (.load kind slot)
        Emit.instruction (.putField ⟨className, name, ty⟩)
        storeFields className slots rest

def constructorCode (limit : Option Nat) (className : String)
    (fields : List (String × JvmType)) : Emit SlotAllocator := do
  Emit.about .self (.load .reference 0)
  Emit.instruction (.invokeSpecial ⟨objectClass, "<init>", [], .void⟩)
  let slots ← storeFields className (.start limit 1) fields
  Emit.instruction (.ret none)
  return slots

def generateConstructor (limit : Option Nat) (record : RecordInfo)
    (fields : List (String × JvmType)) : Except GenerateError Method := do
  let (slots, code) ← (constructorCode limit record.className fields).run (.start limit)
  finishMethod (.record record.decl) ⟨"<init>", fields.map Prod.snd, .void, false⟩ none code slots

def sendFields : List (String × Ty) → Generate (List (String × JvmType))
  | [] => return []
  | (name, ty) :: rest => do
    let ty ← compute ((← get).analysis.jvmType ty)
    send (.addField ⟨name, ty, false⟩)
    return (name, ty) :: (← sendFields rest)

def generateRecord (source : String) (record : RecordInfo) : Generate Unit := do
  send (.beginClass ⟨record.className, objectClass, source⟩)
  let fields ← sendFields record.fields
  sendMethod (← compute (generateConstructor (← get).code.limit record fields))
  send .endClass

/-! ## Methods -/

def allocateParams : List Param → Generate Unit
  | [] => return
  | param :: rest => do
    let id ← analyzed "parameter" param.name param.symbol
    let kind ← compute (kindOf (← symbol id).ty)
    let _ ← newSlot id kind
    allocateParams rest

/-- Gives captured variables slots in this method. -/
def allocateCaptures : List SymbolId → List (SymbolId × Nat) → Generate (List (SymbolId × Nat))
  | [], known => return known
  | id :: rest, known => do
    let kind ← compute (kindOf (← symbol id).ty)
    let slot ← allocate kind
    allocateCaptures rest ((id, slot) :: known)

/-- A function without a result returns by itself. -/
def endMethod (info : FunctionInfo) : Generate Unit := do
  if ← isReachable then
    if info.ret ≠ .void then throw (.missingReturn info.method)
    instruction (.ret none)

def methodHeader (a : Analysis) (id : FnId) : Except GenerateError MethodHeader := do
  if id = FnId.main then return ⟨"main", [.array .string], .void, true⟩
  else
    let ref ← a.methodRef id
    return ⟨ref.name, ref.params, ref.ret, true⟩

/-- The method of a function. The first slot of `main` holds the arguments of the program. -/
def generateMethod (id : FnId) (params : List Param) (body : List Stmt) :
    Generate Method := do
  let reserved := if id = FnId.main then 1 else 0
  modify fun s => { s with
    code := .start s.code.limit, slots := .start s.code.limit reserved }
  allocateParams params
  let info ← compute ((← get).analysis.function id)
  let captures ← allocateCaptures info.captures []
  Stmt.generateList ⟨id, captures⟩ none body
  endMethod info
  let s ← get
  let header ← compute (methodHeader s.analysis id)
  compute (finishMethod (.function id) header (Kind.ofTy? info.ret) s.code s.slots)

def generateFunction (f : FunctionDecl) : Generate Unit := do
  match f.head.id with
  | none => throw (.notAnalyzed "function" f.head.name.name)
  | some id => sendMethod (← generateMethod id f.head.params f.body)

/-! ## Units -/

def nextPending : Generate (Option FunctionDecl) := do
  let s ← get
  match s.pending with
  | [] => return none
  | f :: rest =>
    set { s with pending := rest }
    return some f

/-- Writes functions that were put aside, and those put aside in turn. -/
def generatePending : (fuel : Nat) → Generate Unit
  | 0 => return
  | fuel + 1 => do
    match ← nextPending with
    | none => return
    | some f =>
      generateFunction f
      generatePending fuel

mutual

def Stmt.functionCount : Stmt → Nat
  | .function _ body => 1 + Stmt.functionCounts body
  | .block _ body => Stmt.functionCounts body
  | .branch _ _ yes none => yes.functionCount
  | .branch _ _ yes (some no) => yes.functionCount + no.functionCount
  | .loop _ _ body | .range _ _ _ _ body => body.functionCount
  | _ => 0

def Stmt.functionCounts : List Stmt → Nat
  | [] => 0
  | stmt :: rest => stmt.functionCount + Stmt.functionCounts rest

end

def Item.nestedCount : Item → Nat
  | .function f => Stmt.functionCounts f.body
  | .record _ => 0
  | .stmt s => s.functionCount

def Item.nestedCounts : List Item → Nat
  | [] => 0
  | item :: rest => item.nestedCount + Item.nestedCounts rest

def SourceUnit.mainBody (unit : SourceUnit) : List Stmt :=
  unit.items.filterMap fun
    | .stmt stmt => some stmt
    | _ => none

def SourceUnit.functions (unit : SourceUnit) : List FunctionDecl :=
  unit.items.filterMap fun
    | .function f => some f
    | _ => none

def sendGlobal (id : SymbolId) : Generate Unit := do
  let field ← compute ((← get).analysis.globalField (← symbol id))
  send (.addField ⟨field.name, field.ty, true⟩)

def generateUnit (unit : SourceUnit) : Generate Unit := do
  (← get).analysis.declaredRecords.forM (generateRecord unit.name)
  send (.beginClass ⟨(← get).analysis.className, objectClass, unit.name⟩)
  (← get).analysis.globals.forM sendGlobal
  sendMethod (← generateMethod FnId.main [] unit.mainBody)
  unit.functions.forM generateFunction
  generatePending (Item.nestedCounts unit.items)
  send .endClass

/-- The outcome of making code of a unit. -/
structure Generated where
  requests : List Request
  methods : List Method
  analysis : Analysis
  error : Option GenerateError

/-- Makes code of a unit, with a limit to the sizes of methods. -/
def generateUpTo (limit : Option Nat) (unit : SourceUnit) (analysis : Analysis) : Generated :=
  if !analysis.isOk then
    ⟨[], [], analysis, some (.semanticErrors unit.name analysis.diagnostics.errorCount)⟩
  else
    match generateUnit unit ⟨analysis, [], #[], #[], .start limit, .start limit 0⟩ with
    | .ok () s => ⟨s.requests.toList, s.methods.toList, s.analysis, none⟩
    | .error e s => ⟨s.requests.toList, s.methods.toList, s.analysis, some e⟩

def generate (unit : SourceUnit) (analysis : Analysis) : Generated :=
  generateUpTo (some maxWords) unit analysis

end StackCompiler
