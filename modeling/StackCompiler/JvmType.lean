import StackCompiler.Ty

/-!
# Types of the stack machine

The kinds of values that the operand stack and the local frame tell apart, and the types that
descriptors name.
-/

namespace StackCompiler

/-- The values in a place on the stack or in the frame. -/
inductive Kind where
  | int | long | float | double | reference
deriving DecidableEq

namespace Kind

def all : List Kind := [int, long, float, double, reference]

def label : Kind → String
  | int => "Int"
  | long => "Long"
  | float => "Float"
  | double => "Double"
  | reference => "Reference"

/-- The words that a value takes: two for the wide kinds. -/
def words : Kind → Nat
  | long | double => 2
  | _ => 1

def letter : Kind → String
  | int => "i"
  | long => "l"
  | float => "f"
  | double => "d"
  | reference => "a"

def ofTy? : Ty → Option Kind
  | .int | .bool => some int
  | .long => some long
  | .float => some float
  | .double => some double
  | .string | .array _ | .record _ _ => some reference
  | .void | .function .. | .error => none

end Kind

def totalWords : List Kind → Nat
  | [] => 0
  | kind :: rest => kind.words + totalWords rest

/-- The most words that an operand stack or a frame can have. -/
def maxWords : Nat := 65535

/-- The words of some values together. With a limit they are counted from zero again once they go
over it. -/
def wordsUpTo (limit : Option Nat) (kinds : List Kind) : Nat :=
  match limit with
  | none => totalWords kinds
  | some most => totalWords kinds % (most + 1)

def exceeds (limit : Option Nat) (count : Nat) : Bool := limit.any (· < count)

/-- The words of some values together, in sixteen bits. -/
def shortWords (kinds : List Kind) : Nat := wordsUpTo (some maxWords) kinds

/-- A type as descriptors name it. -/
inductive JvmType where
  | boolean
  | int
  | long
  | float
  | double
  | void
  /-- Instances of a class, by its internal name. -/
  | object (className : String)
  | array (elem : JvmType)
deriving DecidableEq

namespace JvmType

def string : JvmType := object "java/lang/String"

/-- The class that every reference is an instance of. -/
def anyObject : JvmType := object "java/lang/Object"

/-- The type that stands for one of the language. -/
def ofTy? (classOf : DeclId → Option String) : Ty → Option JvmType
  | .int => some int
  | .long => some long
  | .float => some float
  | .double => some double
  | .bool => some boolean
  | .string => some string
  | .void => some void
  | .array elem => (ofTy? classOf elem).map array
  | .record decl _ => (classOf decl).map object
  | .function .. | .error => none

def kind? : JvmType → Option Kind
  | boolean | int => some .int
  | long => some .long
  | float => some .float
  | double => some .double
  | object _ | array _ => some .reference
  | void => none

def words (t : JvmType) : Nat := (t.kind?.map Kind.words).getD 0

def descriptor : JvmType → String
  | boolean => "Z"
  | int => "I"
  | long => "J"
  | float => "F"
  | double => "D"
  | void => "V"
  | object className => "L" ++ className ++ ";"
  | array elem => "[" ++ elem.descriptor

/-- The name of a class, or the descriptor of an array. -/
def classOperand : JvmType → String
  | object className => className
  | other => other.descriptor

end JvmType

def methodDescriptor (params : List JvmType) (ret : JvmType) : String :=
  "(" ++ String.join (params.map JvmType.descriptor) ++ ")" ++ ret.descriptor

end StackCompiler
