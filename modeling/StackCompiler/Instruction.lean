import StackCompiler.JvmType

/-!
# Instructions

The instructions of the stack machine. Jumps go to labels at first and to positions once a method
is complete. Every instruction knows what it takes from the operand stack and what it leaves.
-/

namespace StackCompiler

open Number

abbrev LabelId := Nat

inductive Target where
  | label (id : LabelId)
  /-- The position of an instruction of the method. -/
  | index (position : Nat)
deriving DecidableEq

inductive Cond where
  | eq | ne | lt | le | gt | ge
deriving DecidableEq

namespace Cond

def all : List Cond := [eq, ne, lt, le, gt, ge]

/-- The condition that holds exactly when the other does not. -/
def negate : Cond → Cond
  | eq => ne
  | ne => eq
  | lt => ge
  | ge => lt
  | le => gt
  | gt => le

end Cond

/-- Arithmetic on two operands of one kind. -/
inductive ArithOp where
  | add | sub | mul | div | rem
deriving DecidableEq

def ArithOp.all : List ArithOp := [add, sub, mul, div, rem]

/-- Comparison that leaves -1, 0 or 1. Unordered values are less for those ending in `l` and greater
for those in `g`. -/
inductive CompareOp where
  | lcmp | fcmpl | fcmpg | dcmpl | dcmpg
deriving DecidableEq

namespace CompareOp

def all : List CompareOp := [lcmp, fcmpl, fcmpg, dcmpl, dcmpg]

def operand : CompareOp → Kind
  | lcmp => .long
  | fcmpl | fcmpg => .float
  | dcmpl | dcmpg => .double

end CompareOp

/-- Truth values have arrays of their own. -/
inductive ArrayElem where
  | boolean | int | long | float | double | reference
deriving DecidableEq

namespace ArrayElem

def all : List ArrayElem := [boolean, int, long, float, double, reference]

/-- The elements of an array of a type, unless it has no values. -/
def ofType? : JvmType → Option ArrayElem
  | .boolean => some boolean
  | .int => some int
  | .long => some long
  | .float => some float
  | .double => some double
  | .object _ | .array _ => some reference
  | .void => none

def kind : ArrayElem → Kind
  | boolean | int => .int
  | long => .long
  | float => .float
  | double => .double
  | reference => .reference

end ArrayElem

structure FieldRef where
  owner : String
  name : String
  ty : JvmType
deriving DecidableEq

structure MethodRef where
  owner : String
  name : String
  params : List JvmType
  ret : JvmType
deriving DecidableEq

namespace MethodRef

def descriptor (m : MethodRef) : String := methodDescriptor m.params m.ret

def argKinds (m : MethodRef) : List Kind := m.params.filterMap JvmType.kind?

end MethodRef

inductive Instruction where
  /-- Pushes a number or, as zero or one, a truth value. -/
  | iconst (value : Int32)
  | lconst (value : Int64)
  | fconst (value : Single)
  | dconst (value : Double)
  | sconst (value : String)
  | load (kind : Kind) (slot : Nat)
  | store (kind : Kind) (slot : Nat)
  /-- Adds to a number in a local slot. -/
  | iinc (slot : Nat) (delta : Int)
  /-- Takes a length and leaves a new array. -/
  | newArray (elem : JvmType)
  | arrayLoad (elem : ArrayElem)
  | arrayStore (elem : ArrayElem)
  | arrayLength
  | pop (kind : Kind)
  | dup
  | arith (kind : Kind) (op : ArithOp)
  | neg (kind : Kind)
  | convert (source target : Kind)
  | compare (op : CompareOp)
  /-- Jumps if a number compares so with zero. -/
  | branchZero (cond : Cond) (target : Target)
  /-- Jumps if two numbers compare so. -/
  | branchInt (cond : Cond) (target : Target)
  /-- Jumps if two references are the same, or are not. -/
  | branchRef (cond : Cond) (target : Target)
  | goto (target : Target)
  | ret (kind : Option Kind)
  /-- Leaves an instance that is not yet initialised. -/
  | new (className : String)
  | getStatic (field : FieldRef)
  | putStatic (field : FieldRef)
  | getField (field : FieldRef)
  | putField (field : FieldRef)
  | invokeStatic (method : MethodRef)
  | invokeVirtual (method : MethodRef)
  | invokeSpecial (method : MethodRef)
deriving DecidableEq

/-- What an instruction takes, the top last, and what it leaves. -/
structure StackEffect where
  pops : List Kind
  pushes : List Kind
deriving DecidableEq

namespace StackEffect

def popWords (e : StackEffect) : Nat := shortWords e.pops

def pushWords (e : StackEffect) : Nat := shortWords e.pushes

end StackEffect

namespace Instruction

def effect : Instruction → StackEffect
  | iconst _ => ⟨[], [.int]⟩
  | lconst _ => ⟨[], [.long]⟩
  | fconst _ => ⟨[], [.float]⟩
  | dconst _ => ⟨[], [.double]⟩
  | sconst _ => ⟨[], [.reference]⟩
  | load kind _ => ⟨[], [kind]⟩
  | store kind _ => ⟨[kind], []⟩
  | iinc _ _ => ⟨[], []⟩
  | newArray _ => ⟨[.int], [.reference]⟩
  | arrayLoad elem => ⟨[.reference, .int], [elem.kind]⟩
  | arrayStore elem => ⟨[.reference, .int, elem.kind], []⟩
  | arrayLength => ⟨[.reference], [.int]⟩
  | pop kind => ⟨[kind], []⟩
  | dup => ⟨[.reference], [.reference, .reference]⟩
  | arith kind _ => ⟨[kind, kind], [kind]⟩
  | neg kind => ⟨[kind], [kind]⟩
  | convert source target => ⟨[source], [target]⟩
  | compare op => ⟨[op.operand, op.operand], [.int]⟩
  | branchZero _ _ => ⟨[.int], []⟩
  | branchInt _ _ => ⟨[.int, .int], []⟩
  | branchRef _ _ => ⟨[.reference, .reference], []⟩
  | goto _ => ⟨[], []⟩
  | ret kind => ⟨kind.toList, []⟩
  | new _ => ⟨[], [.reference]⟩
  | getStatic field => ⟨[], field.ty.kind?.toList⟩
  | putStatic field => ⟨field.ty.kind?.toList, []⟩
  | getField field => ⟨[.reference], field.ty.kind?.toList⟩
  | putField field => ⟨.reference :: field.ty.kind?.toList, []⟩
  | invokeStatic method => ⟨method.argKinds, method.ret.kind?.toList⟩
  | invokeVirtual method | invokeSpecial method =>
    ⟨.reference :: method.argKinds, method.ret.kind?.toList⟩

def target? : Instruction → Option Target
  | branchZero _ target | branchInt _ target | branchRef _ target | goto target => some target
  | _ => none

/-- The instruction with another destination, if it has one. -/
def retarget (target : Target) : Instruction → Instruction
  | branchZero cond _ => branchZero cond target
  | branchInt cond _ => branchInt cond target
  | branchRef cond _ => branchRef cond target
  | goto _ => goto target
  | other => other

/-- Control never goes on to the next instruction. -/
def isTerminal : Instruction → Bool
  | goto _ | ret _ => true
  | _ => false

end Instruction

end StackCompiler
