import StackCompiler.Instruction.Text

/-!
# Stack checking

Finished code is checked by following every way through it and keeping the kinds on the operand
stack. Each instruction is looked at once: all ways to it have to bring the same stack.

* `StackError`, `StackError.message`: what can be wrong with code;
* `stackAfter`, `successors`: one instruction, what it does to the stack and where control goes;
* `Walk`, `Walk.step`, `Walk.run`: the search through the code;
* `simulateUpTo`, `simulate`: the deepest stack, and the stack at the end of a fragment;
* `checkInstruction`, `verifyUpTo`, `verify`: a method against its limits and result.
-/

namespace StackCompiler

abbrev KindStack := List Kind

def KindStack.text (stack : KindStack) : String :=
  "[" ++ String.intercalate ", " (stack.reverse.map Kind.label) ++ "]"

inductive StackError where
  | tooLong (size : Nat)
  | emptyBody
  | mismatch (instruction : Instruction) (index : Nat) (expected found : Kind)
  | underflow (instruction : Instruction) (index : Nat)
  | badTarget (target : Target) (index : Nat)
  | fallsOff
  | fragmentExits
  | inconsistent (index : Nat) (existing found : KindStack)
  | maxStack (depth limit : Nat)
  | outsideLocals (instruction : Instruction) (index limit : Nat)
  | outsideFrame (instruction : Instruction) (index : Nat)
  | wrongReturn (instruction : Instruction) (index : Nat)
deriving DecidableEq

def StackError.message : StackError → String
  | tooLong size => s!"method has {size} instructions"
  | emptyBody => "method body is empty"
  | mismatch instruction index expected found =>
    "`" ++ instruction.text ++ s!"` at {index} expects " ++ expected.label ++ ", found " ++
      found.label
  | underflow instruction index =>
    s!"stack underflow at {index} (`" ++ instruction.text ++ "`)"
  | badTarget target index => "bad jump target " ++ target.text ++ s!" at {index}"
  | fallsOff => "control falls off the end of the method"
  | fragmentExits => "fragment exits with inconsistent stacks"
  | inconsistent index existing found =>
    s!"inconsistent stack at {index}: " ++ existing.text ++ " versus " ++ found.text
  | maxStack depth limit => s!"simulated stack depth {depth} exceeds max_stack {limit}"
  | outsideLocals instruction index limit =>
    "`" ++ instruction.text ++ s!"` at {index} is outside the {limit} local slots"
  | outsideFrame instruction index =>
    "`" ++ instruction.text ++ s!"` at {index} is outside the frame"
  | wrongReturn instruction index =>
    "`" ++ instruction.text ++ s!"` at {index} does not match the method\x27s return type"

/-! ## One instruction -/

/-- Takes kinds in the order in which they come off. -/
def takeKinds (instruction : Instruction) (index : Nat) :
    List Kind → KindStack → Except StackError KindStack
  | [], stack => .ok stack
  | _ :: _, [] => .error (.underflow instruction index)
  | expected :: rest, found :: stack =>
    if found = expected then takeKinds instruction index rest stack
    else .error (.mismatch instruction index expected found)

def stackAfter (instruction : Instruction) (index : Nat) (stack : KindStack) :
    Except StackError KindStack := do
  let rest ← takeKinds instruction index instruction.effect.pops.reverse stack
  return instruction.effect.pushes.reverse ++ rest

/-- Where control can go from an instruction. -/
structure Successors where
  /-- The positions inside the code. -/
  next : List Nat
  /-- Control can go past the end of the code. -/
  leaves : Bool

/-- Where control can go from an instruction; a jump comes first. -/
def successors (size : Nat) (instruction : Instruction) (index : Nat) :
    Except StackError Successors := do
  let jumps ← match instruction.target? with
    | none => pure []
    | some (.index target) =>
      if target < size then pure [target] else throw (.badTarget (.index target) index)
    | some target => throw (.badTarget target index)
  if instruction.isTerminal then return ⟨jumps, false⟩
  else if index + 1 < size then return ⟨jumps ++ [index + 1], false⟩
  else return ⟨jumps, true⟩

/-! ## All instructions -/

/-- What the end of the code means. -/
inductive CodeMode where
  /-- A whole method, which control must not run past. -/
  | method
  /-- A part of a method, which control may run past. -/
  | fragment
deriving DecidableEq

/-- A search through code. -/
structure Walk where
  /-- The stacks with which control gets to instructions. -/
  known : Array (Option KindStack)
  /-- The instructions to look at, the next first. -/
  pending : List Nat
  /-- The most words so far, counted up to a limit. -/
  maxStack : Nat
  /-- The stack with which control runs past the end. -/
  exitStack : Option KindStack

namespace Walk

def start (size : Nat) : Walk where
  known := (Array.replicate size none).setIfInBounds 0 (some [])
  pending := [0]
  maxStack := 0
  exitStack := none

def leave (w : Walk) (mode : CodeMode) (stack : KindStack) : Except StackError Walk :=
  match mode, w.exitStack with
  | .method, _ => .error .fallsOff
  | .fragment, none => .ok { w with exitStack := some stack }
  | .fragment, some existing => if existing = stack then .ok w else .error .fragmentExits

def reach (w : Walk) (stack : KindStack) (index : Nat) : Except StackError Walk :=
  match (w.known[index]?).join with
  | some existing =>
    if existing = stack then .ok w else .error (.inconsistent index existing stack)
  | none =>
    .ok { w with
      known := w.known.setIfInBounds index (some stack)
      pending := w.pending ++ [index] }

def step (limit : Option Nat) (code : Array Instruction) (mode : CodeMode) (w : Walk)
    (index : Nat) : Except StackError Walk :=
  match code[index]? with
  | none => .ok w
  | some instruction => do
    let stack ← stackAfter instruction index ((w.known[index]?).join.getD [])
    let w := { w with maxStack := max w.maxStack (wordsUpTo limit stack) }
    let out ← successors code.size instruction index
    let w ← if out.leaves then w.leave mode stack else pure w
    out.next.foldlM (fun w next => w.reach stack next) w

/-- Looks at up to the given number of instructions. -/
def run (limit : Option Nat) (code : Array Instruction) (mode : CodeMode) :
    Nat → Walk → Except StackError Walk
  | 0, w => .ok w
  | fuel + 1, w =>
    match w.pending with
    | [] => .ok w
    | index :: rest => do
      run limit code mode fuel (← step limit code mode { w with pending := rest } index)

end Walk

structure Simulation where
  /-- The most words on the stack, counted up to the limit. -/
  maxStack : Nat
  exitStack : Option KindStack

/-- Follows every way through code. No instruction is looked at twice, so that as many steps as
instructions suffice. -/
def simulateUpTo (limit : Option Nat) (code : Array Instruction) (mode : CodeMode) :
    Except StackError Simulation :=
  if exceeds limit code.size then .error (.tooLong code.size)
  else if code.isEmpty then
    match mode with
    | .method => .error .emptyBody
    | .fragment => .ok ⟨0, some []⟩
  else do
    let w ← Walk.run limit code mode code.size (Walk.start code.size)
    return ⟨w.maxStack, w.exitStack⟩

def simulate (code : Array Instruction) (mode : CodeMode) : Except StackError Simulation :=
  simulateUpTo (some maxWords) code mode

/-! ## Limits -/

structure Limits where
  maxStack : Nat
  maxLocals : Nat
deriving DecidableEq

/-- Checks the local slots and the result of one instruction. -/
def checkInstruction (limits : Limits) (ret : Option Kind) (instruction : Instruction)
    (index : Nat) : Except StackError Unit :=
  match instruction with
  | .load kind slot | .store kind slot =>
    if limits.maxLocals < slot + kind.words then
      .error (.outsideLocals instruction index limits.maxLocals)
    else .ok ()
  | .iinc slot _ =>
    if limits.maxLocals ≤ slot then .error (.outsideFrame instruction index) else .ok ()
  | .ret kind => if kind = ret then .ok () else .error (.wrongReturn instruction index)
  | _ => .ok ()

def checkFrom (limits : Limits) (ret : Option Kind) :
    Nat → List Instruction → Except StackError Unit
  | _, [] => .ok ()
  | index, instruction :: rest => do
    checkInstruction limits ret instruction index
    checkFrom limits ret (index + 1) rest

/-- Checks a whole method. -/
def verifyUpTo (limit : Option Nat) (code : Array Instruction) (limits : Limits)
    (ret : Option Kind) : Except StackError Unit := do
  let simulation ← simulateUpTo limit code .method
  if limits.maxStack < simulation.maxStack then
    throw (.maxStack simulation.maxStack limits.maxStack)
  checkFrom limits ret 0 code.toList

/-- Checks a whole method of limited size. -/
def verify (code : Array Instruction) (limits : Limits) (ret : Option Kind) :
    Except StackError Unit :=
  verifyUpTo (some maxWords) code limits ret

end StackCompiler
