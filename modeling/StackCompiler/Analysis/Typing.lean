import StackCompiler.Analysis.State

/-!
# Typing expressions

Operands are typed before the expressions that they belong to. Each expression that is looked at
gets its type, and each widening that need not be written is noted.

* `Expr.widenTo`, `expectType`: widening to the type that is wanted;
* `analyzeName`, `resolveCallee`: names as values and as functions;
* `typeBinary`, `typeUnary`, `typeField`, `typeElements`: the types of compound expressions;
* `Expr.analyze`: whole expressions.
-/

namespace StackCompiler

def Note.typed (note : Note) (ty : Ty) : Note := { note with ty := some ty, coercion := none }

/-- Notes that the value is widened to the type, if need be. -/
def Expr.widenTo (target : Ty) (e : Expr) : Expr :=
  match e.ty? with
  | some ty => if ty.widensTo target then e.withNote { e.note with coercion := some target } else e
  | none => e

def expectType (e : Expr) (expected : Ty) (construct : Construct) : Analyze Expr := do
  let actual := e.ty?.getD .error
  if actual.coercibleTo expected then return e.widenTo expected
  else
    report .typeMismatch ("expected `" ++ expected.text ++ "`, found `" ++ actual.text ++ "`")
      e.span construct
    return e

def maxInt : Int := 2147483647

def typeLiteral (span : Span) : Literal → Analyze Ty
  | .int value => do
    if maxInt < value then
      report .typeMismatch (s!"integer literal `{value}` does not fit in `int`") span .literal
      return .error
    else return .int
  | .long _ => return .long
  | .float _ => return .float
  | .double _ => return .double
  | .bool _ => return .bool
  | .string _ => return .string

/-! ## Names -/

/-- Notes that a symbol is read, and by which function. -/
def noteRead (ctx : Context) (id : SymbolId) (symbol : Symbol) : Analyze Unit :=
  modify fun s =>
    let used := if s.used.contains id then s.used else id :: s.used
    if symbol.isLocal && symbol.owner != some ctx.function
        && !s.outerReads.contains (ctx.function, id) then
      { s with used := used, outerReads := (ctx.function, id) :: s.outerReads }
    else { s with used := used }

/-- The symbol that a name is bound to, if it is bound. -/
def lookupName (name : String) : Analyze (Except ScopeError (Binding × Option Symbol)) := do
  let s ← get
  match s.scopes.resolve name with
  | .ok binding => return .ok (binding, s.symbols[binding.symbol]?)
  | .error e => return .error e

def analyzeName (ctx : Context) (span : Span) (ref : NameRef) : Analyze (NameRef × Ty) := do
  match ← lookupName ref.name with
  | .error e =>
    report .unresolvedName e.message span .name
    return ({ ref with binding := none }, .error)
  | .ok (binding, symbol?) =>
    let ref := { ref with binding := some binding }
    match symbol? with
    | none => return (ref, .error)
    | some symbol =>
      match symbol.kind with
      | .variable_ | .parameter | .loopVariable =>
        noteRead ctx binding.symbol symbol
        return (ref, symbol.ty)
      | .function _ | .builtin _ =>
        report .typeMismatch ("`" ++ symbol.name ++ "` is a function, not a value") span .name
        return (ref, .error)
      | .record _ =>
        report .typeMismatch ("`" ++ symbol.name ++ "` is a record type, not a value") span .name
        return (ref, .error)

/-- What a name that is called turns out to be. -/
inductive Callee where
  /-- Nothing is known, and nothing is said about the arguments. -/
  | unknown
  /-- Something that has been reported. -/
  | notCallable
  | function (id : FnId) (info : FunctionInfo)
  | constructor (info : RecordInfo)
  | builtin (builtin : Builtin)

/-- A name that is called, its type and what it is. -/
def resolveCallee (ctx : Context) (span : Span) (ref : NameRef) :
    Analyze (NameRef × Ty × Callee) := do
  match ← lookupName ref.name with
  | .error e =>
    report .unresolvedName e.message span .call
    return ({ ref with binding := none }, .error, .unknown)
  | .ok (binding, symbol?) =>
    let ref := { ref with binding := some binding }
    match symbol? with
    | none => return (ref, .error, .unknown)
    | some symbol =>
      match symbol.kind with
      | .function id =>
        match (← get).functions[id]? with
        | some info => return (ref, symbol.ty, .function id info)
        | none => return (ref, symbol.ty, .unknown)
      | .record decl =>
        match (← get).records.find? (·.decl = decl) with
        | some info =>
          return (ref, .function decl info.fieldTypes info.recordType, .constructor info)
        | none => return (ref, .error, .unknown)
      | .builtin builtin => return (ref, symbol.ty, .builtin builtin)
      | .variable_ | .parameter | .loopVariable =>
        noteRead ctx binding.symbol symbol
        report .typeMismatch ("`" ++ symbol.name ++ "` has type `" ++ symbol.ty.text ++
          "` and cannot be called") span .call
        return (ref, symbol.ty, .notCallable)

def noteCall (ctx : Context) (id : FnId) (info : FunctionInfo) (span : Span) : Analyze Unit :=
  modify fun s =>
    if info.isExternal then s
    else { s with calls := s.calls.push ⟨ctx.function, id, span, s.symbols.size⟩ }

/-! ## Compound expressions -/

def typeBinary (op : BinOp) (span : Span) (left right : Expr × Ty) :
    Analyze (Expr × Expr × Ty) := do
  if left.2.isError || right.2.isError then return (left.1, right.1, .error)
  else
    match binarySignature? op left.2 right.2 with
    | some signature =>
      return (left.1.widenTo signature.operand, right.1.widenTo signature.operand,
        signature.result)
    | none =>
      report .typeMismatch ("operator `" ++ op.symbol ++ "` cannot be applied to `" ++
        left.2.text ++ "` and `" ++ right.2.text ++ "`") span .binary
      return (left.1, right.1, .error)

/-- The literal that is in range only with a minus before it. -/
def isLeastInt : UnOp → Expr → Bool
  | .neg, .literal _ (.int value) => value = maxInt + 1
  | _, _ => false

def typeUnary (op : UnOp) (span : Span) (operand : Ty) : Analyze Ty := do
  if operand.isError then return .error
  else
    match unarySignature? op operand with
    | some ty => return ty
    | none =>
      report .typeMismatch ("operator `" ++ op.symbol ++ "` cannot be applied to `" ++
        operand.text ++ "`") span .unary
      return .error

def typeField (base : Ty) (field : Ident) : Analyze (Ty × Option Nat) := do
  match base with
  | .error => return (.error, none)
  | .record decl _ =>
    match (← get).records.find? (·.decl = decl) with
    | none => return (.error, none)
    | some record =>
      match record.fieldIndex? field.name with
      | some position => return ((record.fieldTypes[position]?).getD .error, some position)
      | none =>
        report .unresolvedName ("record `" ++ record.name ++ "` has no field `" ++ field.name ++
          "`") field.span .field
        return (.error, none)
  | other =>
    report .typeMismatch ("type `" ++ other.text ++ "` has no field `" ++ field.name ++ "`")
      field.span .field
    return (.error, none)

def typeIndex (base : Expr × Ty) : Analyze Ty := do
  match base.2 with
  | .array elem => return elem
  | .error => return .error
  | other =>
    report .typeMismatch ("cannot index into a value of type `" ++ other.text ++ "`")
      base.1.span .index
    return .error

def typeCast (span : Span) (source target : Ty) : Analyze Ty := do
  if source.isError || target.isError then return .error
  else if source.castableTo target then return target
  else
    report .typeMismatch ("cannot cast `" ++ source.text ++ "` to `" ++ target.text ++ "`") span
      .cast
    return .error

/-- The least type that all elements can be widened to, or the first element that does not go with
those before it. -/
def unifyElements : Ty → List (Expr × Ty) → Except (Ty × Expr × Ty) Ty
  | elem, [] => .ok elem
  | elem, (e, ty) :: rest =>
    if ty = elem then unifyElements elem rest
    else
      match elem.join? ty with
      | some joined => unifyElements joined rest
      | none => .error (elem, e, ty)

def typeElements (span : Span) (elems : List (Expr × Ty)) : Analyze (List Expr × Ty) := do
  let exprs := elems.map Prod.fst
  match elems with
  | [] =>
    report .typeMismatch "cannot infer the element type of an empty array literal" span .array
    return (exprs, .error)
  | (_, first) :: rest =>
    if elems.any (·.2.isError) then return (exprs, .error)
    else
      match unifyElements first rest with
      | .error (elem, e, ty) =>
        report .typeMismatch ("array elements must share a type, found `" ++ elem.text ++
          "` and `" ++ ty.text ++ "`") e.span .array
        return (exprs, .error)
      | .ok .void =>
        report .typeMismatch "array elements cannot be `void`" span .array
        return (exprs, .error)
      | .ok elem => return (exprs.map (Expr.widenTo elem), .array elem)

/-- Compares the numbers of arguments and parameters. -/
def checkArity (name : String) (span : Span) (params args : Nat) : Analyze Bool := do
  if args = params then return false
  else
    report .typeMismatch ("`" ++ name ++ s!"` expects {params} argument" ++
      (if params = 1 then "" else "s") ++ s!" but {args} " ++
      (if args = 1 then "was" else "were") ++ " supplied") span .call
    return true

/-- Checks an argument. Only the first mismatch of a call is reported. -/
def checkArg (name : String) (index : Nat) (reported : Bool) (arg : Expr × Ty)
    (expected : Option Ty) : Analyze (Expr × Bool) := do
  match expected with
  | none => return (arg.1, reported)
  | some expected =>
    if arg.2.coercibleTo expected then return (arg.1.widenTo expected, reported)
    else if reported then return (arg.1, true)
    else
      report .typeMismatch (s!"argument {index + 1} of `" ++ name ++ "`: expected `" ++
        expected.text ++ "`, found `" ++ arg.2.text ++ "`") arg.1.span .call
      return (arg.1, true)

def typeBuiltin (builtin : Builtin) (span : Span) (args : List (Expr × Ty)) : Analyze Ty := do
  match args with
  | [(arg, ty)] =>
    match builtin.check ty with
    | .ok ty => return ty
    | .error message =>
      report .typeMismatch message arg.span .call
      return .error
  | args =>
    report .typeMismatch ("`" ++ builtin.name ++
      s!"` takes 1 argument but {args.length} were supplied") span .call
    return .error

/-! ## Expressions -/

def wantedElement? : Option Ty → Option Ty
  | some (.array elem) => if elem.isError then none else some elem
  | _ => none

mutual

/-- Types an expression. What is expected matters to array literals only. -/
def Expr.analyze (ctx : Context) (expected : Option Ty) : Expr → Analyze (Expr × Ty)
  | .literal note value => do
    let ty ← typeLiteral note.span value
    return (.literal (note.typed ty) value, ty)
  | .name note ref => do
    let (ref, ty) ← analyzeName ctx note.span ref
    return (.name (note.typed ty) ref, ty)
  | .binary note op left right => do
    if op.isLogical then
      let (left, _) ← left.analyze ctx none
      let left ← expectType left .bool .binary
      let (right, _) ← right.analyze ctx none
      let right ← expectType right .bool .binary
      return (.binary (note.typed .bool) op left right, .bool)
    else
      let left ← left.analyze ctx none
      let right ← right.analyze ctx none
      let (left, right, ty) ← typeBinary op note.span left right
      return (.binary (note.typed ty) op left right, ty)
  | .unary note op operand => do
    if isLeastInt op operand then
      return (.unary (note.typed .int) op (operand.withNote (operand.note.typed .int)), .int)
    else
      let (operand, operandTy) ← operand.analyze ctx none
      let ty ← typeUnary op note.span operandTy
      return (.unary (note.typed ty) op operand, ty)
  | .call note callee args _ =>
    match callee with
    | .name calleeNote ref => do
      let (ref, calleeTy, found) ← resolveCallee ctx calleeNote.span ref
      let callee := .name (calleeNote.typed calleeTy) ref
      match found with
      | .unknown => return (.call (note.typed .error) callee args none, .error)
      | .notCallable =>
        let args ← Expr.analyzeAll ctx args
        return (.call (note.typed .error) callee (args.map Prod.fst) none, .error)
      | .function id info =>
        let reported ← checkArity info.name note.span info.params.length args.length
        let args ← Expr.analyzeArgs ctx info.name 0 reported info.params args
        noteCall ctx id info note.span
        return (.call (note.typed info.ret) callee args (some (.function id)), info.ret)
      | .constructor info =>
        let reported ← checkArity info.name note.span info.fieldTypes.length args.length
        let args ← Expr.analyzeArgs ctx info.name 0 reported info.fieldTypes args
        return (.call (note.typed info.recordType) callee args (some (.constructor info.decl)),
          info.recordType)
      | .builtin builtin =>
        let args ← Expr.analyzeAll ctx args
        let ty ← typeBuiltin builtin note.span args
        return (.call (note.typed ty) callee (args.map Prod.fst) (some (.builtin builtin)), ty)
    | callee => do
      let (callee, calleeTy) ← callee.analyze ctx none
      if calleeTy.isError then
        return (.call (note.typed .error) callee args none, .error)
      else
        report .typeMismatch ("expression of type `" ++ calleeTy.text ++ "` is not callable")
          callee.span .call
        let args ← Expr.analyzeAll ctx args
        return (.call (note.typed .error) callee (args.map Prod.fst) none, .error)
  | .field note base ident _ => do
    let (base, baseTy) ← base.analyze ctx none
    let (ty, position) ← typeField baseTy ident
    return (.field (note.typed ty) base ident position, ty)
  | .index note base position => do
    let base ← base.analyze ctx none
    let (position, _) ← position.analyze ctx none
    let position ← expectType position .int .index
    let ty ← typeIndex base
    return (.index (note.typed ty) base.1 position, ty)
  | .array note elems => do
    match wantedElement? expected with
    | some elem =>
      let elems ← Expr.analyzeElements ctx elem elems
      return (.array (note.typed (.array elem)) elems, .array elem)
    | none =>
      let elems ← Expr.analyzeAll ctx elems
      let (elems, ty) ← typeElements note.span elems
      return (.array (note.typed ty) elems, ty)
  | .newArray note elem length => do
    let elemTy ← resolveValueType elem
    let (length, _) ← length.analyze ctx none
    let length ← expectType length .int .array
    let ty := if elemTy.isError then .error else .array elemTy
    return (.newArray (note.typed ty) elem length, ty)
  | .cast note operand target => do
    let (operand, operandTy) ← operand.analyze ctx none
    let targetTy ← resolveValueType target
    let ty ← typeCast note.span operandTy targetTy
    return (.cast (note.typed ty) operand target, ty)

def Expr.analyzeAll (ctx : Context) : List Expr → Analyze (List (Expr × Ty))
  | [] => return []
  | e :: rest => do
    let first ← e.analyze ctx none
    return first :: (← Expr.analyzeAll ctx rest)

def Expr.analyzeElements (ctx : Context) (elem : Ty) : List Expr → Analyze (List Expr)
  | [] => return []
  | e :: rest => do
    let (e, _) ← e.analyze ctx (some elem)
    let e ← expectType e elem .array
    return e :: (← Expr.analyzeElements ctx elem rest)

/-- Types the arguments of a call from a position on. -/
def Expr.analyzeArgs (ctx : Context) (name : String) (index : Nat) (reported : Bool)
    (params : List Ty) : List Expr → Analyze (List Expr)
  | [] => return []
  | e :: rest => do
    let arg ← e.analyze ctx params.head?
    let (e, reported) ← checkArg name index reported arg params.head?
    return e :: (← Expr.analyzeArgs ctx name (index + 1) reported params.tail rest)

end

end StackCompiler
