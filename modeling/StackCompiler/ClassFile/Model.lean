import StackCompiler.ClassFile
import StackCompiler.Instruction.Model

/-!
# Class models

Classes as data: the fields, then the methods.
-/

namespace StackCompiler

open Text

/-- The class, the one that it extends, and its source. -/
def ClassHeader.json (h : ClassHeader) : Json :=
  .object [("name", .string h.name), ("super_name", .string h.superName),
    ("source", .string h.source)]

/-- A field, which is static if it holds a global. -/
def FieldInfo.json (f : FieldInfo) : Json :=
  .object [("name", .string f.name), ("ty", f.ty.json), ("is_static", .bool f.isStatic)]

/-- The name and the signature of a method. -/
def MethodHeader.json (h : MethodHeader) : Json :=
  .object [("name", .string h.name), ("params", .array (h.params.map JvmType.json)),
    ("ret", h.ret.json), ("is_static", .bool h.isStatic)]

/-- The sizes of the operand stack and of the frame. -/
def Limits.json (l : Limits) : Json :=
  .object [("max_stack", .ofNat l.maxStack), ("max_locals", .ofNat l.maxLocals)]

/-- A method with all of its instructions. -/
def MethodBody.json (m : MethodBody) : Json :=
  .object [("header", m.header.json), ("code", .array (m.code.toList.map Instruction.json)),
    ("limits", m.limits.json)]

def ClassFile.json (c : ClassFile) : Json :=
  .object [("header", c.header.json), ("fields", .array (c.fields.map FieldInfo.json)),
    ("methods", .array (c.methods.map MethodBody.json))]

/-- The models of all classes, by the names of the classes. -/
def Assembly.models (a : Assembly) : List (String × String) :=
  a.classes.map fun c => (c.header.name, c.json.pretty)

end StackCompiler
