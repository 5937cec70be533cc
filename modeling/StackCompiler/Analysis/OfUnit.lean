import StackCompiler.Analysis.Captures
import StackCompiler.Analysis.Statements

/-!
# Analysing units

A unit is analysed in three scopes: built-in functions, what other units export, and the unit
itself. Records and functions are made known before anything else, so that their order does not
matter.

* `declareBuiltins`, `declareImports`, `declareRecords`, `registerItems`: what is made known;
* `analyzeItems`: the contents;
* `SourceUnit.analyze`: the annotated unit and its analysis.
-/

namespace StackCompiler

/-- The number of the unit that built-in functions belong to. -/
def builtinUnit : Nat := Nat.pow 2 64 - 1

def declareBuiltins : Analyze Unit :=
  (Builtin.all.zipIdx).forM fun (builtin, index) => do
    let ty : Ty := .function ⟨builtinUnit, index⟩ [] builtin.result
    bindName builtin.name
      (← newSymbol builtin.name (.builtin builtin) ty Span.nowhere false none)

def declareImport (e : Export) : Analyze Unit := do
  match e.signature with
  | .function method params ret =>
    let s ← get
    let info : FunctionInfo :=
      { name := e.name, method := method, className := e.className, decl := e.decl
        params := params, ret := ret, parent := none, captures := [], isExternal := true
        span := e.span }
    set { s with functions := s.functions.push info }
    bindName e.name
      (← newSymbol e.name (.function s.functions.size) info.signature e.span false none)
  | .record fields =>
    let info : RecordInfo :=
      { name := e.name, className := recordClassName e.className e.name, decl := e.decl
        fields := fields, isExternal := true, span := e.span }
    modify fun s => { s with records := s.records ++ [info] }
    bindName e.name (← newSymbol e.name (.record e.decl) info.recordType e.span false none)

/-- Makes the declarations of other units known. -/
def declareImports (exports : ExportTable) : Analyze Unit := do
  let unit := (← get).unitIndex
  (exports.importsFor unit).forM declareImport
  (exports.conflictsFor unit).forM fun conflict =>
    report .duplicateDeclaration ("`" ++ conflict.name ++ "` is already exported by unit `" ++
      conflict.owner ++ "`") conflict.span .unit

/-! ## Records -/

def declareRecord (index : Nat) (record : RecordDecl) : Analyze RecordDecl := do
  let s ← get
  let decl : DeclId := ⟨s.unitIndex, index⟩
  let info : RecordInfo :=
    { name := record.name.name, className := recordClassName s.className record.name.name
      decl := decl, fields := [], isExternal := false, span := record.span }
  set { s with records := s.records ++ [info] }
  let _ ← declare record.name (.record decl) info.recordType false none .record
  return { record with decl := some decl }

def declareRecordNames : (index : Nat) → List Item → Analyze (List Item)
  | _, [] => return []
  | index, .record record :: rest => do
    let record ← declareRecord index record
    return .record record :: (← declareRecordNames (index + 1) rest)
  | index, item :: rest => return item :: (← declareRecordNames (index + 1) rest)

/-- The fields of a record with their types; of one name the first counts. -/
def resolveFields (record : RecordDecl) :
    List (String × Ty) → List FieldDecl → Analyze (List (String × Ty))
  | known, [] => return known
  | known, field :: rest => do
    let ty ← resolveValueType field.ty
    if known.any (·.1 == field.name.name) then
      report .duplicateDeclaration ("field `" ++ field.name.name ++ "` is already declared in `" ++
        record.name.name ++ "`") field.name.span .record
      resolveFields record known rest
    else resolveFields record (known ++ [(field.name.name, ty)]) rest

def declareFields (record : RecordDecl) : Analyze Unit := do
  let fields ← resolveFields record [] record.fields
  modify fun s => { s with
    records := s.records.map fun info =>
      if some info.decl = record.decl then { info with fields := fields } else info }

/-- Makes records known: first all names, then the fields. -/
def declareRecords (items : List Item) : Analyze (List Item) := do
  let items ← declareRecordNames 0 items
  items.forM fun item =>
    match item with
    | .record record => declareFields record
    | _ => pure ()
  return items

/-! ## Items -/

/-- Makes the functions at the top of a unit known. -/
def registerItems : (index : Nat) → List Item → Analyze (List (Option FnId))
  | _, [] => return []
  | index, .function f :: rest => do
    let id ← registerFunction f.head none ⟨(← get).unitIndex, index⟩
    return some id :: (← registerItems (index + 1) rest)
  | index, _ :: rest => return none :: (← registerItems (index + 1) rest)

def analyzeItems (flow : Flow) (warned : Bool) (ids : List (Option FnId)) :
    List Item → Analyze (List Item)
  | [] => return []
  | .record record :: rest =>
    return .record record :: (← analyzeItems flow warned ids.tail rest)
  | .function f :: rest => do
    let f ← analyzeFunction ids.head?.join f
    return .function f :: (← analyzeItems flow warned ids.tail rest)
  | .stmt stmt :: rest => do
    let warns := !flow.completes && !warned
    if warns then warnUnreachable stmt
    let (stmt, next) ← stmt.analyze ⟨FnId.main, false⟩ none
    return .stmt stmt :: (← analyzeItems (flow.andThen next) (warned || warns) ids.tail rest)

/-! ## Units -/

/-- Nothing is known yet but the function `main`. -/
def AnalysisState.start (unit : SourceUnit) (index : Nat) : AnalysisState :=
  let main : FunctionInfo :=
    { name := "main", method := "main", className := unitClassName unit.name
      decl := ⟨index, unit.items.length⟩, params := [], ret := .void, parent := none
      captures := [], isExternal := false, span := unit.span }
  { unitIndex := index, className := unitClassName unit.name, scopes := .empty, symbols := #[]
    functions := #[main], records := [], globals := [], diagnostics := [], used := []
    outerReads := [], calls := #[], methods := reservedMethods
    nextDecl := unit.items.length + 1 }

def analyzeAll (exports : ExportTable) (items : List Item) : Analyze (List Item) := do
  openScope .builtins
  declareBuiltins
  openScope .imports
  declareImports exports
  openScope .unit
  let items ← declareRecords items
  let ids ← registerItems 0 items
  modifyScopes (·.setState .analyzing)
  let items ← analyzeItems .normal false ids items
  leaveScope
  leaveScope
  leaveScope
  closeCaptures
  return items

/-- The annotated unit and its analysis. -/
def SourceUnit.analyze (unit : SourceUnit) (index : Nat) (exports : ExportTable) :
    SourceUnit × Analysis :=
  let (items, s) := (analyzeAll exports unit.items).run (.start unit index)
  ({ unit with items := items },
    { unit := unit.name, className := s.className, symbols := s.symbols
      functions := s.functions, records := s.records, globals := s.globals
      diagnostics := s.diagnostics })

def SourceUnit.analyzeAlone (unit : SourceUnit) : SourceUnit × Analysis := unit.analyze 0 .empty

end StackCompiler
