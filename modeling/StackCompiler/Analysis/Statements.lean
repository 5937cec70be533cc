import StackCompiler.Analysis.Typing

/-!
# Analysing statements

Statements are typed in order. The analysis also follows which of them can complete, to find
missing results and code that is never reached.

* `Flow`, `Flow.andThen`: how a statement can end;
* `analyzeVar`, `analyzeRange`, `analyzeReturn`, `analyzeAssign`: single statements;
* `Stmt.analyze`, `Stmt.analyzeList`: all statements, nested functions among them;
* `analyzeFunction`: a function.
-/

namespace StackCompiler

/-- How a statement can end. -/
structure Flow where
  /-- Control can go on to the next statement. -/
  completes : Bool
  /-- Control can leave the loop around. -/
  breaks : Bool
deriving DecidableEq

namespace Flow

def normal : Flow := ⟨true, false⟩

def stop : Flow := ⟨false, false⟩

/-- What is never reached does not count. -/
def andThen (first second : Flow) : Flow :=
  ⟨first.completes && second.completes, first.breaks || (first.completes && second.breaks)⟩

def orElse (first second : Flow) : Flow :=
  ⟨first.completes || second.completes, first.breaks || second.breaks⟩

end Flow

def warnUnreachable (stmt : Stmt) : Analyze Unit :=
  report .unreachableCode "unreachable statement" stmt.span .block

/-! ## Single statements -/

def analyzeCondition (ctx : Context) (construct : Construct) (cond : Expr) : Analyze Expr := do
  let (cond, _) ← cond.analyze ctx (some .bool)
  expectType cond .bool construct

def atTopLevel : Analyze Bool := do
  return (← get).scopes.current?.map Scope.kind == some .unit

def typeVar (declared : Option Ty) (init : Expr × Ty) : Analyze (Expr × Ty) := do
  match declared with
  | some ty => return (← expectType init.1 ty .variable_, ty)
  | none =>
    if init.2 = .void then
      report .typeMismatch "cannot bind the result of a `void` expression" init.1.span .variable_
      return (init.1, .error)
    else return init

/-- The initial value is typed before the name exists. -/
def analyzeVar (ctx : Context) (decl : VarDecl) : Analyze VarDecl := do
  let declared ← resolveDeclared decl.ty
  let init ← decl.init.analyze ctx declared
  let (init, ty) ← typeVar declared init
  let isGlobal ← atTopLevel
  let owner := if isGlobal then none else some ctx.function
  let id ← declare decl.name .variable_ ty decl.mutable owner .variable_
  if isGlobal then modify fun s => { s with globals := s.globals ++ [id] }
  return { decl with init := init, symbol := some id }

def analyzeRange (ctx : Context) (first last : Expr) : Analyze (Expr × Expr × Ty) := do
  let (first, firstTy) ← first.analyze ctx none
  let (last, lastTy) ← last.analyze ctx none
  if firstTy.isError || lastTy.isError then return (first, last, .error)
  else
    match (firstTy.join? lastTy).filter Ty.isIntegral with
    | some ty => return (first.widenTo ty, last.widenTo ty, ty)
    | none =>
      report .typeMismatch ("range bounds must be `int` or `long`, found `" ++ firstTy.text ++
        "` and `" ++ lastTy.text ++ "`") (first.span.merge last.span) .forLoop
      return (first, last, .error)

def analyzeReturn (ctx : Context) (span : Span) (value : Option Expr) :
    Analyze (Option Expr) := do
  if ctx.function = FnId.main then
    report .controlFlow "`return` outside of a function" span .ret
    match value with
    | some value => return some (← value.analyze ctx none).1
    | none => return none
  else
    let ret := (((← get).functions[ctx.function]?).map FunctionInfo.ret).getD .error
    match value with
    | some value =>
      let (value, _) ← value.analyze ctx (some ret)
      if ret = .void then
        report .typeMismatch "a function returning `void` cannot return a value" value.span .ret
        return some value
      else return some (← expectType value ret .ret)
    | none =>
      if ret ≠ .void ∧ !ret.isError then
        report .typeMismatch ("expected a value of type `" ++ ret.text ++ "`") span .ret
      return none

/-- Why a symbol cannot be assigned to, if it cannot. -/
def assignProblem? (ctx : Context) (symbol : Symbol) : Option String :=
  match symbol.kind with
  | .parameter => some ("cannot assign to parameter `" ++ symbol.name ++ "`")
  | .loopVariable => some ("cannot assign to loop variable `" ++ symbol.name ++ "`")
  | .variable_ =>
    if !symbol.mutable then
      some ("cannot assign to `" ++ symbol.name ++ "`: it is declared with `val`")
    else if symbol.isLocal && symbol.owner != some ctx.function then
      some ("cannot assign to captured variable `" ++ symbol.name ++ "`")
    else none
  | .function _ | .builtin _ => some ("cannot assign to function `" ++ symbol.name ++ "`")
  | .record _ => some ("cannot assign to record type `" ++ symbol.name ++ "`")

/-- A name that is assigned to, which does not count as a read. -/
def analyzeAssignedName (ctx : Context) (span : Span) (ref : NameRef) :
    Analyze (NameRef × Ty) := do
  match ← lookupName ref.name with
  | .error e =>
    report .unresolvedName e.message span .assignment
    return ({ ref with binding := none }, .error)
  | .ok (binding, symbol?) =>
    let ref := { ref with binding := some binding }
    match symbol? with
    | none => return (ref, .error)
    | some symbol =>
      match assignProblem? ctx symbol with
      | some problem => report .invalidAssignment problem span .assignment
      | none => pure ()
      return (ref, if symbol.kind.isStorage then symbol.ty else .error)

def analyzeTarget (ctx : Context) (target : Expr) : Analyze (Expr × Ty) := do
  match target with
  | .name note ref =>
    let (ref, ty) ← analyzeAssignedName ctx note.span ref
    return (.name (note.typed ty) ref, ty)
  | .index .. | .field .. => target.analyze ctx none
  | _ =>
    report .invalidAssignment "invalid assignment target" target.span .assignment
    let (target, _) ← target.analyze ctx none
    return (target, .error)

def analyzeAssign (ctx : Context) (target value : Expr) : Analyze (Expr × Expr) := do
  let (target, ty) ← analyzeTarget ctx target
  let (value, _) ← value.analyze ctx (some ty)
  return (target, ← expectType value ty .assignment)

/-! ## Functions -/

def declareParams (id : FnId) : List Param → List Ty → Analyze (List Param)
  | [], _ => return []
  | param :: rest, types => do
    let symbol ← declare param.name .parameter (types.head?.getD .error) false (some id) .parameter
    return { param with symbol := some symbol } :: (← declareParams id rest types.tail)

def beginFunction (id : FnId) (head : FunctionHead) : Analyze FunctionHead := do
  openScope (.function id)
  let types := (((← get).functions[id]?).map FunctionInfo.params).getD []
  return { head with id := some id, params := ← declareParams id head.params types }

/-- Closes the scope of a function, which has to end with its result. -/
def endFunction (id : FnId) (head : FunctionHead) (flow : Flow) : Analyze Unit := do
  let ret := (((← get).functions[id]?).map FunctionInfo.ret).getD .error
  if ret ≠ .void ∧ !ret.isError ∧ flow.completes then
    report .missingReturn ("function `" ++ head.name.name ++ "` must return a value of type `" ++
      ret.text ++ "` on every path") head.name.span .function
  leaveScope

/-- The number of a function, which is made known if need be. -/
def functionId (id? : Option FnId) (head : FunctionHead) : Analyze FnId := do
  match id? <|> head.id with
  | some id => return id
  | none => registerFunction head none (← freshDecl)

/-! ## All statements -/

mutual

/-- Analyses a statement; `id?` is the number of a known function. -/
def Stmt.analyze (ctx : Context) (id? : Option FnId) : Stmt → Analyze (Stmt × Flow)
  | .var decl => return (.var (← analyzeVar ctx decl), .normal)
  | .function head body => do
    let id ← functionId id? head
    let head ← beginFunction id head
    let ids ← beginBody id body
    let (body, flow) ← Stmt.analyzeList ⟨id, false⟩ .normal false ids body
    endFunction id head flow
    return (.function head body, .normal)
  | .block span body => do
    enterScope .block
    let ids ← beginBody ctx.function body
    let (body, flow) ← Stmt.analyzeList ctx .normal false ids body
    leaveScope
    return (.block span body, flow)
  | .branch span cond yes no => do
    let cond ← analyzeCondition ctx .branch cond
    enterScope .block
    let ids ← beginBody ctx.function [yes]
    let (yes, yesFlow) ← yes.analyze ctx ids.head?.join
    leaveScope
    match no with
    | none => return (.branch span cond yes none, yesFlow.orElse .normal)
    | some no =>
      enterScope .block
      let ids ← beginBody ctx.function [no]
      let (no, noFlow) ← no.analyze ctx ids.head?.join
      leaveScope
      return (.branch span cond yes (some no), yesFlow.orElse noFlow)
  | .loop span cond body => do
    let cond ← analyzeCondition ctx .whileLoop cond
    enterScope .loop
    let ids ← beginBody ctx.function [body]
    let (body, flow) ← body.analyze { ctx with inLoop := true } ids.head?.join
    leaveScope
    return (.loop span cond body, ⟨!cond.isTrueLiteral || flow.breaks, false⟩)
  | .range span loopVar first last body => do
    let (first, last, ty) ← analyzeRange ctx first last
    openScope .loop
    let symbol ← declare loopVar.name .loopVariable ty false (some ctx.function) .forLoop
    let ids ← beginBody ctx.function [body]
    let (body, _) ← body.analyze { ctx with inLoop := true } ids.head?.join
    leaveScope
    return (.range span { loopVar with symbol := some symbol } first last body, .normal)
  | .ret span value => return (.ret span (← analyzeReturn ctx span value), .stop)
  | .leave span => do
    if ctx.inLoop then return (.leave span, ⟨false, true⟩)
    else
      report .controlFlow "`break` outside of a loop" span .leave
      return (.leave span, .stop)
  | .next span => do
    if !ctx.inLoop then report .controlFlow "`continue` outside of a loop" span .next
    return (.next span, .stop)
  | .assign span target value => do
    let (target, value) ← analyzeAssign ctx target value
    return (.assign span target value, .normal)
  | .expr value => do
    let (value, _) ← value.analyze ctx none
    return (.expr value, .normal)

/-- Analyses statements behind others that end with `flow`; `warned` says whether some of those are
out of reach. -/
def Stmt.analyzeList (ctx : Context) (flow : Flow) (warned : Bool) (ids : List (Option FnId)) :
    List Stmt → Analyze (List Stmt × Flow)
  | [] => return ([], flow)
  | stmt :: rest => do
    let warns := !flow.completes && !warned && !stmt.isFunction
    if warns then warnUnreachable stmt
    let (stmt, stmtFlow) ← stmt.analyze ctx ids.head?.join
    let (rest, flow) ←
      Stmt.analyzeList ctx (flow.andThen stmtFlow) (warned || warns) ids.tail rest
    return (stmt :: rest, flow)

end

def analyzeFunction (id? : Option FnId) (f : FunctionDecl) : Analyze FunctionDecl := do
  let id ← functionId id? f.head
  let head ← beginFunction id f.head
  let ids ← beginBody id f.body
  let (body, flow) ← Stmt.analyzeList ⟨id, false⟩ .normal false ids f.body
  endFunction id head flow
  return ⟨head, body⟩

end StackCompiler
