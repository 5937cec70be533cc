import StackCompiler.Ast
import StackCompiler.Instruction.Text

/-!
# Code buffers

The code of one method while it is being written. The buffer follows the depth of the operand
stack and drops what control cannot reach. Jumps go to labels, which are placed as the code is
written and replaced by positions at the end.
-/

namespace StackCompiler

inductive BufferError where
  | unknownLabel (label : LabelId)
  | boundTwice (label : LabelId)
  | bindDepth (label : LabelId) (depth expected : Nat)
  | underflow (instruction : Instruction) (popped depth : Nat)
  | jumpDepth (label : LabelId) (depth expected : Nat)
  | overflow
  | neverBound (label : LabelId)
  | pastEnd (label : LabelId)
deriving DecidableEq

def BufferError.message : BufferError → String
  | unknownLabel label => s!"unknown label {label}"
  | boundTwice label => s!"label {label} bound twice"
  | bindDepth label depth expected =>
    s!"stack depth {depth} at label {label} disagrees with {expected} from a jump"
  | underflow instruction popped depth =>
    "`" ++ instruction.text ++ s!"` pops {popped} words with only {depth} on the stack"
  | jumpDepth label depth expected =>
    s!"jump to label {label} with stack depth {depth}, expected {expected}"
  | overflow => s!"operand stack exceeds {maxWords} words"
  | neverBound label => s!"label {label} is never bound"
  | pastEnd label => s!"label {label} points past the end of the method"

/-- The variable whose slot an instruction uses, or the function that it calls. -/
inductive Subject where
  /-- A variable, in its own function or handed on. -/
  | symbol (id : SymbolId)
  /-- The end of the range of a loop variable. -/
  | bound (id : SymbolId)
  /-- The record that a constructor makes. -/
  | self
  /-- The value that a constructor takes for a field. -/
  | field (name : String)
  | function (id : FnId)
deriving DecidableEq

structure LabelState where
  position : Option Nat
  depth : Option Nat
deriving DecidableEq

structure CodeBuffer where
  code : Array Instruction
  /-- What each instruction is about. -/
  subjects : Array (Option Subject)
  labels : Array LabelState
  depth : Nat
  maxDepth : Nat
  /-- Control can get to the end of the code. -/
  reachable : Bool
  limit : Option Nat

namespace CodeBuffer

def start (limit : Option Nat) : CodeBuffer := ⟨#[], #[], #[], 0, 0, true, limit⟩

def empty : CodeBuffer := start (some maxWords)

/-- Writing to a buffer; a step that fails may have changed it. -/
abbrev Write := EStateM BufferError CodeBuffer

def newLabel : Write LabelId := fun b =>
  .ok b.labels.size { b with labels := b.labels.push ⟨none, none⟩ }

/-- Places a label at the end of the code. If control gets there only by jumps, the depth is that of
the jumps. -/
def bind (label : LabelId) : Write Unit := fun b =>
  match b.labels[label]? with
  | none => .error (.unknownLabel label) b
  | some state =>
    if state.position.isSome then .error (.boundTwice label) b
    else
      let place (depth : Option Nat) : Array LabelState :=
        b.labels.setIfInBounds label ⟨some b.code.size, depth⟩
      match b.reachable, state.depth with
      | true, none => .ok () { b with labels := place (some b.depth) }
      | true, some expected =>
        if expected = b.depth then .ok () { b with labels := place (some b.depth) }
        else .error (.bindDepth label b.depth expected) { b with labels := place (some expected) }
      | false, some depth =>
        .ok () { b with labels := place (some depth), depth := depth, reachable := true }
      | false, none => .ok () { b with labels := place none }

/-- Notes the depth of the stack at a jump to a label. -/
def noteJump (label : LabelId) : Write Unit := fun b =>
  match b.labels[label]? with
  | none => .error (.unknownLabel label) b
  | some state =>
    let noted := { b with labels := b.labels.setIfInBounds label { state with depth := b.depth } }
    match state.depth with
    | none => .ok () noted
    | some expected =>
      if expected = b.depth then .ok () noted else .error (.jumpDepth label b.depth expected) b

def noteTarget (instruction : Instruction) : Write Unit :=
  match instruction.target? with
  | some (.label label) => noteJump label
  | _ => pure ()

def take (instruction : Instruction) : Write Unit := fun b =>
  let popped := wordsUpTo b.limit instruction.effect.pops
  if b.depth < popped then .error (.underflow instruction popped b.depth) b
  else .ok () { b with depth := b.depth - popped }

/-- Leaves the results of an instruction and appends it. -/
def put (subject : Option Subject) (instruction : Instruction) : Write Unit := fun b =>
  let depth := b.depth + wordsUpTo b.limit instruction.effect.pushes
  if exceeds b.limit depth then .error .overflow b
  else
    .ok () { b with
      code := b.code.push instruction
      subjects := b.subjects.push subject
      depth := depth
      maxDepth := max b.maxDepth depth
      reachable := !instruction.isTerminal }

/-- Appends an instruction, unless control cannot get there. -/
def emitAbout (subject : Option Subject) (instruction : Instruction) : Write Unit := do
  if (← get).reachable then
    take instruction
    noteTarget instruction
    put subject instruction

def emit (instruction : Instruction) : Write Unit := emitAbout none instruction

def position (b : CodeBuffer) (label : LabelId) : Except BufferError Nat :=
  match (b.labels[label]?).bind LabelState.position with
  | none => .error (.neverBound label)
  | some position => if position < b.code.size then .ok position else .error (.pastEnd label)

/-- The instruction with a position in place of a label. -/
def place (b : CodeBuffer) (instruction : Instruction) : Except BufferError Instruction :=
  match instruction.target? with
  | some (.label label) => return instruction.retarget (.index (← b.position label))
  | _ => return instruction

def finish (b : CodeBuffer) : Except BufferError (Array Instruction × Nat) :=
  return (← b.code.mapM b.place, b.maxDepth)

end CodeBuffer

end StackCompiler
