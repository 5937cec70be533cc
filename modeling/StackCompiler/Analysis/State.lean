import StackCompiler.Export
import StackCompiler.Scope

/-!
# The state of an analysis

The analysis walks over a unit with a state that holds the scopes and all that has been found.
Nothing stops it: what is wrong is reported, and the walk goes on.

* `AnalysisState`, `Analyze`: the state and steps of the analysis;
* `report`, `newSymbol`, `declare`, `leaveScope`: findings and declarations;
* `resolveType`, `resolveValueType`, `resolveResult`, `resolveDeclared`: written types;
* `registerFunction`: a function, before its body is looked at.
-/

namespace StackCompiler

structure CallSite where
  caller : FnId
  callee : FnId
  span : Span
  /-- The number of symbols declared before the call. -/
  watermark : Nat
deriving DecidableEq

/-- What has been found so far. -/
structure AnalysisState where
  unitIndex : Nat
  className : String
  scopes : ScopeStack
  symbols : Array Symbol
  functions : Array FunctionInfo
  records : List RecordInfo
  globals : List SymbolId
  diagnostics : Diagnostics
  /-- The symbols that have been read. -/
  used : List SymbolId
  /-- Which function reads which variable of another function. -/
  outerReads : List (FnId × SymbolId)
  calls : Array CallSite
  methods : List String
  /-- The number of the next nested declaration. -/
  nextDecl : Nat

abbrev Analyze := StateM AnalysisState

/-- Where in a unit the analysis is. -/
structure Context where
  function : FnId
  inLoop : Bool

def report (kind : DiagnosticKind) (message : String) (span : Span) (construct : Construct) :
    Analyze Unit :=
  modify fun s => { s with diagnostics := s.diagnostics ++ [⟨kind, message, span, construct⟩] }

def modifyScopes (f : ScopeStack → ScopeStack) : Analyze Unit :=
  modify fun s => { s with scopes := f s.scopes }

def openScope (kind : ScopeKind) : Analyze Unit :=
  modifyScopes fun scopes => (scopes.enter kind).setState .declaring

def enterScope (kind : ScopeKind) : Analyze Unit := modifyScopes (·.enter kind)

/-! ## Declarations -/

def newSymbol (name : String) (kind : SymbolKind) (ty : Ty) (span : Span) (mutable : Bool)
    (owner : Option FnId) : Analyze SymbolId := do
  let s ← get
  set { s with
    symbols := s.symbols.push ⟨name, kind, ty, span, s.scopes.depth, mutable, owner, none⟩ }
  return s.symbols.size

def bindName (name : String) (id : SymbolId) : Analyze Unit :=
  modify fun s =>
    match s.scopes.declare name id with
    | .ok scopes => { s with scopes := scopes }
    | .error _ => s

/-- A new symbol, bound unless its name is taken in the scope. -/
def declare (name : Ident) (kind : SymbolKind) (ty : Ty) (mutable : Bool) (owner : Option FnId)
    (construct : Construct) : Analyze SymbolId := do
  let id ← newSymbol name.name kind ty name.span mutable owner
  let s ← get
  match s.scopes.declare name.name id with
  | .ok scopes => set { s with scopes := scopes }
  | .error (.duplicate name' existing) =>
    report .duplicateDeclaration (ScopeError.duplicate name' existing).message name.span construct
  | .error _ => pure ()
  return id

/-- A local variable that is never read, with no underscore in front. -/
def AnalysisState.isUnused (s : AnalysisState) (id : SymbolId) (symbol : Symbol) : Bool :=
  symbol.kind == .variable_ && symbol.owner.isSome && !s.used.contains id &&
    symbol.name.toList.head? != some '_'

def warnUnused (id : SymbolId) : Analyze Unit := do
  let s ← get
  match s.symbols[id]? with
  | some symbol =>
    if s.isUnused id symbol then
      report .unusedVariable ("variable `" ++ symbol.name ++ "` is never read") symbol.span
        .variable_
  | none => pure ()

/-- Leaves the scope and warns about unused variables. -/
def leaveScope : Analyze Unit := do
  let s ← get
  match s.scopes.exit with
  | .ok (symbols, scopes) =>
    set { s with scopes := scopes }
    symbols.forM warnUnused
  | .error _ => pure ()

/-! ## Types -/

def resolveTypeName (ident : Ident) : Analyze Ty := do
  let s ← get
  match s.scopes.resolve ident.name with
  | .ok binding =>
    match (s.symbols[binding.symbol]?).map Symbol.kind with
    | some (.record decl) => return .record decl ident.name
    | _ =>
      report .typeMismatch ("`" ++ ident.name ++ "` is not a type") ident.span .type
      return .error
  | .error _ =>
    report .unresolvedName ("cannot find type `" ++ ident.name ++ "`") ident.span .type
    return .error

/-- A type whose values are stored cannot be void. -/
def rejectVoid (span : Span) (ty : Ty) : Analyze Ty := do
  if ty = .void then
    report .typeMismatch "`void` cannot be used as a value type" span .type
    return .error
  else return ty

def resolveType : TypeExpr → Analyze Ty
  | .named ident =>
    match Ty.primitive? ident.name with
    | some ty => return ty
    | none => resolveTypeName ident
  | .array elem _ => return .array (← rejectVoid elem.span (← resolveType elem))

def resolveValueType (ty : TypeExpr) : Analyze Ty := do rejectVoid ty.span (← resolveType ty)

def resolveResult : Option TypeExpr → Analyze Ty
  | some ty => resolveType ty
  | none => return .void

def resolveDeclared : Option TypeExpr → Analyze (Option Ty)
  | some ty => return some (← resolveValueType ty)
  | none => return none

/-! ## Functions -/

def freshDecl : Analyze DeclId := do
  let s ← get
  set { s with nextDecl := s.nextDecl + 1 }
  return ⟨s.unitIndex, s.nextDecl⟩

def takeMethod (parent : Option FnId) (name : String) : Analyze String := do
  let s ← get
  let base := match parent.bind (s.functions[·]?) with
    | some outer => outer.method ++ "$" ++ name
    | none => name
  let method := uniqueMethod s.methods base
  set { s with methods := method :: s.methods }
  return method

def registerFunction (head : FunctionHead) (parent : Option FnId) (decl : DeclId) :
    Analyze FnId := do
  let params ← head.params.mapM fun p => resolveValueType p.ty
  let ret ← resolveResult head.ret
  let method ← takeMethod parent head.name.name
  let s ← get
  let info : FunctionInfo :=
    { name := head.name.name, method := method, className := s.className, decl := decl
      params := params, ret := ret, parent := parent, captures := [], isExternal := false
      span := head.span }
  set { s with functions := s.functions.push info }
  let _ ← declare head.name (.function s.functions.size) info.signature false none .function
  return s.functions.size

def registerStmt (parent : FnId) : Stmt → Analyze (Option FnId)
  | .function head _ => do return some (← registerFunction head (some parent) (← freshDecl))
  | _ => return none

/-- Makes the functions of a scope known and begins to analyse it. -/
def beginBody (parent : FnId) (body : List Stmt) : Analyze (List (Option FnId)) := do
  modifyScopes (·.setState .declaring)
  let ids ← body.mapM (registerStmt parent)
  modifyScopes (·.setState .analyzing)
  return ids

end StackCompiler
