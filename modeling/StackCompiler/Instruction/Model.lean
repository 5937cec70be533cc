import StackCompiler.Instruction
import StackCompiler.Text.Json

/-!
# Instructions as data

Instructions in the form in which class models hold them: the name of the instruction alone, or
an object that maps it to its operand or to the list of its operands.
-/

namespace StackCompiler

open Text

/-- How models name a comparison with zero or of two values. -/
def Cond.label : Cond → String
  | eq => "Eq"
  | ne => "Ne"
  | lt => "Lt"
  | le => "Le"
  | gt => "Gt"
  | ge => "Ge"

/-- How models name an operation on numbers. -/
def ArithOp.label : ArithOp → String
  | add => "Add"
  | sub => "Sub"
  | mul => "Mul"
  | div => "Div"
  | rem => "Rem"

/-- How models name a comparison that leaves its result on the stack. -/
def CompareOp.label : CompareOp → String
  | lcmp => "Lcmp"
  | fcmpl => "Fcmpl"
  | fcmpg => "Fcmpg"
  | dcmpl => "Dcmpl"
  | dcmpg => "Dcmpg"

/-- How models name what arrays hold. -/
def ArrayElem.label : ArrayElem → String
  | boolean => "Boolean"
  | int => "Int"
  | long => "Long"
  | float => "Float"
  | double => "Double"
  | reference => "Reference"

/-- Classes and arrays hold what they are of. -/
def JvmType.json : JvmType → Json
  | boolean => .string "Boolean"
  | int => .string "Int"
  | long => .string "Long"
  | float => .string "Float"
  | double => .string "Double"
  | void => .string "Void"
  | object className => .object [("Object", .string className)]
  | array elem => .object [("Array", elem.json)]

def Kind.json (kind : Kind) : Json := .string kind.label

/-- A label, or a position once it is placed. -/
def Target.json : Target → Json
  | label id => .object [("Label", .ofNat id)]
  | index position => .object [("Index", .ofNat position)]

/-- A field, its class and its type. -/
def FieldRef.json (f : FieldRef) : Json :=
  .object [("owner", .string f.owner), ("name", .string f.name), ("ty", f.ty.json)]

/-- A method, its class and its signature. -/
def MethodRef.json (m : MethodRef) : Json :=
  .object [("owner", .string m.owner), ("name", .string m.name),
    ("params", .array (m.params.map JvmType.json)), ("ret", m.ret.json)]

/-- The form of an instruction depends on the number of its operands. -/
def Instruction.json : Instruction → Json
  | iconst value => .object [("IConst", .ofInt value.toInt)]
  | lconst value => .object [("LConst", .ofInt value.toInt)]
  | fconst value => .object [("FConst", .number value.json)]
  | dconst value => .object [("DConst", .number value.json)]
  | sconst value => .object [("SConst", .string value)]
  | load kind slot => .object [("Load", .array [kind.json, .ofNat slot])]
  | store kind slot => .object [("Store", .array [kind.json, .ofNat slot])]
  | iinc slot delta => .object [("IInc", .array [.ofNat slot, .ofInt delta])]
  | newArray elem => .object [("NewArray", elem.json)]
  | arrayLoad elem => .object [("ArrayLoad", .string elem.label)]
  | arrayStore elem => .object [("ArrayStore", .string elem.label)]
  | arrayLength => .string "ArrayLength"
  | pop kind => .object [("Pop", kind.json)]
  | dup => .string "Dup"
  | arith kind op => .object [("Arith", .array [kind.json, .string op.label])]
  | neg kind => .object [("Neg", kind.json)]
  | convert source target => .object [("Convert", .array [source.json, target.json])]
  | compare op => .object [("Compare", .string op.label)]
  | branchZero cond target => .object [("If", .array [.string cond.label, target.json])]
  | branchInt cond target => .object [("IfICmp", .array [.string cond.label, target.json])]
  | branchRef cond target => .object [("IfACmp", .array [.string cond.label, target.json])]
  | goto target => .object [("Goto", target.json)]
  | ret kind => .object [("Return", .ofOption Kind.json kind)]
  | new className => .object [("New", .string className)]
  | getStatic field => .object [("GetStatic", field.json)]
  | putStatic field => .object [("PutStatic", field.json)]
  | getField field => .object [("GetField", field.json)]
  | putField field => .object [("PutField", field.json)]
  | invokeStatic method => .object [("InvokeStatic", method.json)]
  | invokeVirtual method => .object [("InvokeVirtual", method.json)]
  | invokeSpecial method => .object [("InvokeSpecial", method.json)]

end StackCompiler
