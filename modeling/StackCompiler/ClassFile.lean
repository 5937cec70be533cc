import StackCompiler.Instruction
import StackCompiler.StackCheck

/-!
# Classes

Classes as they are put together, request by request: one class at a time, and in it one method
at a time.
-/

namespace StackCompiler

/-- What is said of a class before its members. -/
structure ClassHeader where
  name : String
  superName : String
  source : String
deriving DecidableEq

/-- A static field holds a global; others belong to records. -/
structure FieldInfo where
  name : String
  ty : JvmType
  isStatic : Bool
deriving DecidableEq

/-- What is said of a method before its code. -/
structure MethodHeader where
  name : String
  params : List JvmType
  ret : JvmType
  isStatic : Bool
deriving DecidableEq

def MethodHeader.descriptor (h : MethodHeader) : String := methodDescriptor h.params h.ret

/-- A method with the sizes that its code needs. -/
structure MethodBody where
  header : MethodHeader
  code : Array Instruction
  limits : Limits
deriving DecidableEq

/-- What classes are made of. -/
inductive Member where
  | field (field : FieldInfo)
  | method (method : MethodBody)
deriving DecidableEq

/-- A class with its members in the order of description. -/
structure ClassFile where
  header : ClassHeader
  members : Array Member
deriving DecidableEq

namespace ClassFile

/-- The fields, in the order of description. -/
def fields (c : ClassFile) : List FieldInfo :=
  c.members.toList.filterMap fun
    | .field field => some field
    | .method _ => none

/-- The methods, in the order of description. -/
def methods (c : ClassFile) : List MethodBody :=
  c.members.toList.filterMap fun
    | .field _ => none
    | .method method => some method

/-- The first method of that name. -/
def method? (c : ClassFile) (name : String) : Option MethodBody :=
  c.methods.find? (·.header.name == name)

end ClassFile

/-! ## Requests -/

/-- A step in the description of classes. -/
inductive Request where
  | beginClass (header : ClassHeader)
  | addField (field : FieldInfo)
  | beginMethod (header : MethodHeader)
  | emit (instruction : Instruction)
  | endMethod (limits : Limits)
  | endClass
deriving DecidableEq

/-- How errors name a request. -/
def Request.label : Request → String
  | beginClass _ => "begin_class"
  | addField _ => "add_field"
  | beginMethod _ => "begin_method"
  | emit _ => "emit"
  | endMethod _ => "end_method"
  | endClass => "end_class"

/-- The requests that describe a method. -/
def MethodBody.requests (m : MethodBody) : List Request :=
  .beginMethod m.header :: (m.code.toList.map .emit ++ [.endMethod m.limits])

/-- How far the description has come. -/
inductive Stage where
  | idle
  | inClass (draft : ClassFile)
  | inMethod (draft : ClassFile) (header : MethodHeader) (code : Array Instruction)

/-- How errors name a stage. -/
def Stage.label : Stage → String
  | idle => "Idle"
  | inClass _ => "InClass"
  | inMethod .. => "InMethod"

/-- Why a request is refused. -/
inductive AssemblyError where
  /-- The request does not fit the stage. -/
  | misplaced (request stage : String)
  /-- A jump to a label instead of a position. -/
  | unplacedLabel (label : LabelId)
deriving DecidableEq

def AssemblyError.message : AssemblyError → String
  | misplaced request stage => "`" ++ request ++ "` requested while " ++ stage
  | unplacedLabel label => s!"unpatched label {label} reached the assembler"

/-- The classes described so far. -/
structure Assembly where
  done : Array ClassFile
  stage : Stage

namespace Assembly

def empty : Assembly := ⟨#[], .idle⟩

/-- The class that is being described. -/
def draft? (a : Assembly) : Option ClassFile :=
  match a.stage with
  | .idle => none
  | .inClass draft | .inMethod draft _ _ => some draft

/-- All classes; one that is not finished comes last. -/
def classes (a : Assembly) : List ClassFile := a.done.toList ++ a.draft?.toList

/-- The first class of that name. -/
def class? (a : Assembly) (name : String) : Option ClassFile :=
  a.classes.find? (·.header.name == name)

/-- Takes a request. With `placed`, jumps to labels are refused. -/
def accept (placed : Bool) (a : Assembly) (request : Request) : Except AssemblyError Assembly :=
  match request, a.stage with
  | .beginClass header, .idle => .ok { a with stage := .inClass ⟨header, #[]⟩ }
  | .addField field, .inClass draft =>
    .ok { a with stage := .inClass ⟨draft.header, draft.members.push (.field field)⟩ }
  | .beginMethod header, .inClass draft => .ok { a with stage := .inMethod draft header #[] }
  | .emit instruction, .inMethod draft header code =>
    match placed, instruction.target? with
    | true, some (.label label) => .error (.unplacedLabel label)
    | _, _ => .ok { a with stage := .inMethod draft header (code.push instruction) }
  | .endMethod limits, .inMethod draft header code =>
    let method : Member := .method ⟨header, code, limits⟩
    .ok { a with stage := .inClass ⟨draft.header, draft.members.push method⟩ }
  | .endClass, .inClass draft => .ok ⟨a.done.push draft, .idle⟩
  | request, stage => .error (.misplaced request.label stage.label)

/-- Takes requests up to the first that is refused. -/
def acceptAll (placed : Bool) : Assembly → List Request → EStateM.Result AssemblyError Assembly Unit
  | a, [] => .ok () a
  | a, request :: rest =>
    match a.accept placed request with
    | .ok a => acceptAll placed a rest
    | .error e => .error e a

end Assembly

end StackCompiler
