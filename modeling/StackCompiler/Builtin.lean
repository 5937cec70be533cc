import StackCompiler.JvmType

/-!
# Built-in functions

The three functions that every unit can call. They live in the outermost scope, so that a
declaration of the same name hides them.
-/

namespace StackCompiler

inductive Builtin where
  | print
  | len
  | str
deriving DecidableEq

namespace Builtin

def all : List Builtin := [print, len, str]

def name : Builtin → String
  | print => "print"
  | len => "len"
  | str => "str"

def ofName? (text : String) : Option Builtin := all.find? fun b => b.name == text

def arity (_ : Builtin) : Nat := 1

def result : Builtin → Ty
  | print => .void
  | len => .int
  | str => .string

def accepts : Builtin → Ty → Bool
  | _, .error => true
  | len, .array _ | len, .string => true
  | len, _ => false
  | _, ty => ty != .void

def rejection (b : Builtin) (arg : Ty) : String :=
  match b with
  | len => "len expects an array or string, found `" ++ arg.text ++ "`"
  | _ => b.name ++ " expects a value, found `" ++ arg.text ++ "`"

/-- The type of a call, or what is wrong with its argument. -/
def check (b : Builtin) (arg : Ty) : Except String Ty :=
  if b.accepts arg then .ok b.result else .error (b.rejection arg)

end Builtin

/-- The parameter of the method that prints values of a type. -/
def printlnParam : Ty → JvmType
  | .int => .int
  | .long => .long
  | .float => .float
  | .double => .double
  | .bool => .boolean
  | .string => .string
  | _ => .anyObject

/-- The parameter of the method that makes strings of values; a string passes as an object, which
may be null. -/
def valueOfParam : Ty → JvmType
  | .string => .anyObject
  | ty => printlnParam ty

end StackCompiler
