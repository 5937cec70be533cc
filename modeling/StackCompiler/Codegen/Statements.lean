import StackCompiler.Codegen.Expressions

/-!
# Code of statements

Statements are written in order; what control cannot reach is left out. A nested function is put
aside until the function around it is done.

* `Method`, `MethodOrigin`: finished methods;
* `GenState`, `Generate`: the state and steps of making code;
* `FrameHead`: what is fixed for a method;
* `newSlot`, `generateVar`, `generateAssign`, `generateBranch`, `generateLoop`, `generateRange`: the
  pieces;
* `Stmt.generate`, `Stmt.generateList`: statements.
-/

namespace StackCompiler

/-- What a method is made of. -/
inductive MethodOrigin where
  | function (id : FnId)
  | record (decl : DeclId)
deriving DecidableEq

/-- A finished method, and what its instructions are about. -/
structure Method where
  origin : MethodOrigin
  body : MethodBody
  subjects : List (Option Subject)

structure GenState where
  /-- The analysis, to which the slots of variables are added. -/
  analysis : Analysis
  /-- The nested functions that are still to be written. -/
  pending : List FunctionDecl
  requests : Array Request
  methods : Array Method
  code : CodeBuffer
  slots : SlotAllocator

/-- A step of making code. The state is kept when a step fails. -/
abbrev Generate := EStateM GenerateError GenState

/-- What is fixed for the method being written. -/
structure FrameHead where
  function : FnId
  /-- The slots of the captured variables. -/
  captures : List (SymbolId × Nat)

/-- Where the jumps out of the innermost loop go. -/
structure LoopLabels where
  leave : LabelId
  next : LabelId

namespace Generate

def compute {α : Type} (x : Except GenerateError α) : Generate α := fun s =>
  match x with
  | .ok a => .ok a s
  | .error e => .error e s

def ofEmit {α : Type} (x : Emit α) : Generate α := fun s =>
  match x s.code with
  | .ok (a, code) => .ok a { s with code := code }
  | .error e => .error e s

/-- The method being written, with the slots assigned so far. -/
def frame (head : FrameHead) : Generate Frame := do
  return ⟨(← get).analysis, head.function, head.captures⟩

def push (head : FrameHead) (e : Expr) : Generate Unit := do
  let f ← frame head
  ofEmit (e.code f).push

def instruction (i : Instruction) : Generate Unit := ofEmit (Emit.instruction i)

def about (subject : Subject) (i : Instruction) : Generate Unit := ofEmit (Emit.about subject i)

def isReachable : Generate Bool := return (← get).code.reachable

def allocate (kind : Kind) : Generate Nat := fun s =>
  match s.slots.allocate kind with
  | .ok (slot, slots) => .ok slot { s with slots := slots }
  | .error e => .error (.slots e) s

def openSlots : Generate Unit := modify fun s => { s with slots := s.slots.openScope }

def closeSlots : Generate Unit := fun s =>
  match s.slots.closeScope with
  | .ok slots => .ok () { s with slots := slots }
  | .error e => .error (.slots e) s

def inScope (step : Generate Unit) : Generate Unit := do
  openSlots
  step
  closeSlots

/-- A step that is left out where control cannot get. -/
def whenReachable (step : Generate Unit) : Generate Unit := do
  if ← isReachable then step

def jumpBy (head : FrameHead) (e : Expr) (label : LabelId) (jumpIf : Bool) : Generate Unit := do
  let f ← frame head
  ofEmit ((e.code f).jump label jumpIf)

def assignSlot (id : SymbolId) (slot : Nat) : Generate Unit := fun s =>
  match s.analysis.assignSlot id slot with
  | .ok analysis => .ok () { s with analysis := analysis }
  | .error e => .error (.slotConflict e) s

def symbol (id : SymbolId) : Generate Symbol := do compute ((← get).analysis.symbol id)

def analyzed (what : String) (name : Ident) (id : Option SymbolId) : Generate SymbolId :=
  match id with
  | some id => pure id
  | none => throw (.notAnalyzed what name.name)

def defer (f : FunctionDecl) : Generate Unit :=
  modify fun s => { s with pending := s.pending ++ [f] }

end Generate

open Generate

def newSlot (id : SymbolId) (kind : Kind) : Generate Nat := do
  let slot ← allocate kind
  assignSlot id slot
  return slot

def generateVar (head : FrameHead) (decl : VarDecl) : Generate Unit := do
  let id ← analyzed "variable" decl.name decl.symbol
  push head decl.init
  let variable_ ← symbol id
  if variable_.isGlobal then
    instruction (.putStatic (← compute ((← get).analysis.globalField variable_)))
  else
    let kind ← compute (kindOf variable_.ty)
    let slot ← newSlot id kind
    about (.symbol id) (.store kind slot)

def generateAssign (f : Frame) (target value : Expr) : Emit Unit :=
  match target with
  | .name _ ref => do
    let id ← ref.symbol
    (value.code f).push
    f.store id
  | .index _ base position => do
    let elem ← f.analysis.arrayElem (← typeOf base)
    (base.code f).push
    (position.code f).push
    (value.code f).push
    Emit.instruction (.arrayStore elem)
  | .field _ base _ position => do
    let ref ← f.analysis.fieldRef (← typeOf base) position
    (base.code f).push
    (value.code f).push
    Emit.instruction (.putField ref)
  | _ => throw .notPlace

/-- Leaves a range loop if the number has reached the bound. -/
def testRange (id : SymbolId) (kind : Kind) (slot bound : Nat) (done : LabelId) : Emit Unit := do
  Emit.about (.symbol id) (.load kind slot)
  Emit.about (.bound id) (.load kind bound)
  match kind with
  | .int => Emit.instruction (.branchInt .ge (.label done))
  | .long => do
    Emit.instruction (.compare .lcmp)
    Emit.instruction (.branchZero .ge (.label done))
  | other => throw (.rangeKind other)

def stepRange (id : SymbolId) (kind : Kind) (slot : Nat) : Emit Unit := do
  if kind = .int then Emit.about (.symbol id) (.iinc slot 1)
  else
    Emit.about (.symbol id) (.load kind slot)
    Emit.instruction (.lconst 1)
    Emit.instruction (.arith kind .add)
    Emit.about (.symbol id) (.store kind slot)

def innermost (loop : Option LoopLabels) : Generate LoopLabels :=
  match loop with
  | some labels => pure labels
  | none => throw .noLoop

def generateReturn (head : FrameHead) (value : Option Expr) : Generate Unit := do
  match value with
  | none => instruction (.ret none)
  | some value =>
    push head value
    let info ← compute ((← get).analysis.function head.function)
    instruction (.ret (some (← compute (kindOf info.ret))))

def generateDiscarded (head : FrameHead) (e : Expr) : Generate Unit := do
  push head e
  match e.resultTy?.bind Kind.ofTy? with
  | some kind => instruction (.pop kind)
  | none => pure ()

def generateBranch (head : FrameHead) (cond : Expr) (yes : Generate Unit) : Generate Unit := do
  let otherwise ← ofEmit Emit.newLabel
  jumpBy head cond otherwise false
  inScope yes
  ofEmit (Emit.bind otherwise)

def generateChoice (head : FrameHead) (cond : Expr) (yes no : Generate Unit) : Generate Unit := do
  let otherwise ← ofEmit Emit.newLabel
  jumpBy head cond otherwise false
  inScope yes
  let done ← ofEmit Emit.newLabel
  ofEmit (Emit.jump done)
  ofEmit (Emit.bind otherwise)
  inScope no
  ofEmit (Emit.bind done)

def testLoop (head : FrameHead) (cond : Expr) (done : LabelId) : Generate Unit :=
  if cond.isTrueLiteral then pure () else jumpBy head cond done false

def generateLoop (head : FrameHead) (cond : Expr) (body : LoopLabels → Generate Unit) :
    Generate Unit := do
  let top ← ofEmit Emit.newLabel
  let done ← ofEmit Emit.newLabel
  ofEmit (Emit.bind top)
  testLoop head cond done
  inScope (body ⟨done, top⟩)
  ofEmit (Emit.jump top)
  ofEmit (Emit.bind done)

def startRange (head : FrameHead) (id : SymbolId) (kind : Kind) (first last : Expr) :
    Generate (Nat × Nat) := do
  push head first
  let slot ← newSlot id kind
  about (.symbol id) (.store kind slot)
  push head last
  let bound ← allocate kind
  about (.bound id) (.store kind bound)
  return (slot, bound)

/-- The loop over a range whose numbers and bound are in slots. -/
def repeatRange (id : SymbolId) (kind : Kind) (slot bound : Nat)
    (body : LoopLabels → Generate Unit) : Generate Unit := do
  let top ← ofEmit Emit.newLabel
  let following ← ofEmit Emit.newLabel
  let done ← ofEmit Emit.newLabel
  ofEmit (Emit.bind top)
  ofEmit (testRange id kind slot bound done)
  inScope (body ⟨done, following⟩)
  ofEmit (Emit.bind following)
  ofEmit (stepRange id kind slot)
  ofEmit (Emit.jump top)
  ofEmit (Emit.bind done)

/-- A loop over a range, whose bounds are evaluated once. -/
def generateRange (head : FrameHead) (loopVar : LoopVar) (first last : Expr)
    (body : LoopLabels → Generate Unit) : Generate Unit := do
  let id ← analyzed "loop variable" loopVar.name loopVar.symbol
  let kind ← compute (kindOf (← symbol id).ty)
  inScope do
    let (slot, bound) ← startRange head id kind first last
    repeatRange id kind slot bound body

mutual

def Stmt.generate (head : FrameHead) (loop : Option LoopLabels) : Stmt → Generate Unit
  | .var decl => generateVar head decl
  | .function declHead body => defer ⟨declHead, body⟩
  | .block _ body => inScope (Stmt.generateList head loop body)
  | .branch _ cond yes none => generateBranch head cond (yes.generate head loop)
  | .branch _ cond yes (some no) =>
    generateChoice head cond (yes.generate head loop) (no.generate head loop)
  | .loop _ cond body => generateLoop head cond fun labels => body.generate head (some labels)
  | .range _ loopVar first last body =>
    generateRange head loopVar first last fun labels => body.generate head (some labels)
  | .ret _ value => generateReturn head value
  | .leave _ => do ofEmit (Emit.jump (← innermost loop).leave)
  | .next _ => do ofEmit (Emit.jump (← innermost loop).next)
  | .assign _ target value => do
    let f ← frame head
    ofEmit (generateAssign f target value)
  | .expr value => generateDiscarded head value

/-- Writes statements; nested functions are put aside. -/
def Stmt.generateList (head : FrameHead) (loop : Option LoopLabels) : List Stmt → Generate Unit
  | [] => return
  | .function declHead body :: rest => do
    defer ⟨declHead, body⟩
    Stmt.generateList head loop rest
  | stmt :: rest => do
    whenReachable (stmt.generate head loop)
    Stmt.generateList head loop rest

end

end StackCompiler
