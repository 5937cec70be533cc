import StackCompiler.Codegen.Emit

/-!
# Code of expressions

An expression can be written in two ways: so that it leaves its value, or so that it jumps if its
truth value is the one that is asked for. Comparisons and logical operators jump; their value is
made from jumps.

* `ExprCode`: both ways of writing an expression;
* `OpClass`: what a binary operator is made of;
* `literalInstruction`, `convert`, `compareAndJump`, `materialize`: the pieces;
* `Expr.code`: the code of an expression.
-/

namespace StackCompiler

open Number

/-- The two ways of writing an expression. -/
structure ExprCode where
  /-- Leaves the value, before widening. -/
  value : Emit Unit
  /-- Leaves the value, after widening. -/
  push : Emit Unit
  /-- Jumps if the value is the given one, and goes on otherwise. -/
  jump : LabelId → Bool → Emit Unit

/-! ## Operators -/

inductive OpClass where
  | arith (op : ArithOp)
  | compare (cond : Cond)
  /-- The left operand alone decides if it has the given value. -/
  | logical (decisive : Bool)
deriving DecidableEq

def BinOp.opClass : BinOp → OpClass
  | add => .arith .add
  | sub => .arith .sub
  | mul => .arith .mul
  | div => .arith .div
  | rem => .arith .rem
  | eq => .compare .eq
  | ne => .compare .ne
  | lt => .compare .lt
  | le => .compare .le
  | gt => .compare .gt
  | ge => .compare .ge
  | and => .logical false
  | or => .logical true

def concatMethod : MethodRef := ⟨"java/lang/String", "concat", [.string], .string⟩

/-- Compares two strings, either of which may be null. -/
def equalsMethod : MethodRef :=
  ⟨"java/util/Objects", "equals", [.anyObject, .anyObject], .boolean⟩

/-- Computes with two operands on the stack; strings are joined. -/
def applyArith (op : ArithOp) (operand : Ty) : Emit Unit := do
  if operand = .string then Emit.instruction (.invokeVirtual concatMethod)
  else Emit.instruction (.arith (← kindOf operand) op)

/-- The comparison that lets an ordered condition fail if the values are not ordered. -/
def floatCompare (isDouble : Bool) (cond : Cond) : CompareOp :=
  match isDouble, cond with
  | false, .lt | false, .le => .fcmpg
  | false, _ => .fcmpl
  | true, .lt | true, .le => .dcmpg
  | true, _ => .dcmpl

/-- Compares two operands on the stack, and jumps if the outcome is the given one. -/
def compareAndJump (cond : Cond) (operand : Ty) (label : LabelId) (jumpIf : Bool) : Emit Unit :=
  let target : Target := .label label
  let branch := if jumpIf then cond else cond.negate
  match operand with
  | .int | .bool => Emit.instruction (.branchInt branch target)
  | .long => do
    Emit.instruction (.compare .lcmp)
    Emit.instruction (.branchZero branch target)
  | .float => do
    Emit.instruction (.compare (floatCompare false cond))
    Emit.instruction (.branchZero branch target)
  | .double => do
    Emit.instruction (.compare (floatCompare true cond))
    Emit.instruction (.branchZero branch target)
  | .string => do
    Emit.instruction (.invokeStatic equalsMethod)
    Emit.instruction (.branchZero (if (cond == .eq) == jumpIf then .ne else .eq) target)
  | .array _ | .record _ _ => Emit.instruction (.branchRef branch target)
  | other => throw (.notComparable other)

def materialize (jump : LabelId → Bool → Emit Unit) : Emit Unit := do
  let whenFalse ← Emit.newLabel
  let done ← Emit.newLabel
  jump whenFalse false
  Emit.instruction (.iconst 1)
  Emit.jump done
  Emit.bind whenFalse
  Emit.instruction (.iconst 0)
  Emit.bind done

def jumpOnValue (push : Emit Unit) (label : LabelId) (jumpIf : Bool) : Emit Unit := do
  push
  Emit.instruction (.branchZero (if jumpIf then .ne else .eq) (.label label))

/-- The right operand is looked at only if the left one does not decide. -/
def jumpLogical (decisive : Bool) (left right : ExprCode) (label : LabelId) (jumpIf : Bool) :
    Emit Unit := do
  if jumpIf = decisive then
    left.jump label jumpIf
    right.jump label jumpIf
  else
    let skip ← Emit.newLabel
    left.jump skip decisive
    right.jump label jumpIf
    Emit.bind skip

/-! ## Values -/

def literalInstruction : Literal → Except GenerateError Instruction
  | .int value => intConstant value
  | .long value => return .lconst (.ofInt value)
  | .float value => return .fconst value.toSingle
  | .double value => return .dconst value
  | .bool value => return .iconst (if value then 1 else 0)
  | .string value => return .sconst value

/-- The instruction that pushes the negation of a number. -/
def negatedInstruction? : Literal → Option (Except GenerateError Instruction)
  | .int value => some (intConstant (-value))
  | .long value => some (.ok (.lconst (.ofInt (-value))))
  | .float value => some (.ok (.fconst value.neg.toSingle))
  | .double value => some (.ok (.dconst value.neg))
  | .bool _ | .string _ => none

/-- The negation of a number that is written down and not widened, so that the least number can be.
-/
def foldedNegation? : Expr → Option (Except GenerateError Instruction)
  | .literal note value => if note.coercion.isNone then negatedInstruction? value else none
  | _ => none

def convert (source target : Ty) : Emit Unit := do
  if source = target then return
  if !source.isNumeric || !target.isNumeric then throw (.noConversion source target)
  let sourceKind ← kindOf source
  let targetKind ← kindOf target
  if sourceKind ≠ targetKind then Emit.instruction (.convert sourceKind targetKind)

/-- Widens a value on the stack as its note says. -/
def applyCoercion (note : Note) : Emit Unit := do
  match note.coercion with
  | none => return
  | some target =>
    match note.ty with
    | some ty => convert ty target
    | none => throw .untypedExpr

def ExprCode.ofValue (note : Note) (value : Emit Unit) : ExprCode :=
  let push := do
    value
    applyCoercion note
  ⟨value, push, jumpOnValue push⟩

/-- The code of an expression whose truth value shows in jumps. -/
def ExprCode.ofJump (note : Note) (jump : LabelId → Bool → Emit Unit) : ExprCode :=
  let value := materialize jump
  ⟨value, do
    value
    applyCoercion note, jump⟩

def printStream : JvmType := .object "java/io/PrintStream"

def outField : FieldRef := ⟨"java/lang/System", "out", printStream⟩

def callBuiltin (builtin : Builtin) (argTy : Ty) (arg : Emit Unit) : Emit Unit :=
  match builtin with
  | .print => do
    Emit.instruction (.getStatic outField)
    arg
    Emit.instruction
      (.invokeVirtual ⟨"java/io/PrintStream", "println", [printlnParam argTy], .void⟩)
  | .len => do
    arg
    match argTy with
    | .array _ => Emit.instruction .arrayLength
    | .string => Emit.instruction (.invokeVirtual ⟨"java/lang/String", "length", [], .int⟩)
    | other => throw (.lengthOf other)
  | .str => do
    arg
    Emit.instruction
      (.invokeStatic ⟨"java/lang/String", "valueOf", [valueOfParam argTy], .string⟩)

/-- The captured variables of the function follow its arguments. -/
def callFunction (f : Frame) (id : FnId) (args : Emit Unit) : Emit Unit := do
  args
  let info ← f.analysis.function id
  info.captures.forM f.load
  Emit.about (.function id) (.invokeStatic (← f.analysis.methodRef id))

def callConstructor (f : Frame) (decl : DeclId) (args : Emit Unit) : Emit Unit := do
  match f.analysis.record? decl with
  | none => throw (.unknownDecl decl)
  | some info =>
    let init ← f.analysis.constructorRef info
    Emit.instruction (.new info.className)
    Emit.instruction .dup
    args
    Emit.instruction (.invokeSpecial init)

/-- The element type of an array literal, or of a new array. -/
def elementTypeOf (note : Note) (wrong : Ty → GenerateError) : Except GenerateError Ty :=
  match note.ty with
  | none => .error .untypedExpr
  | some (.array elem) => .ok elem
  | some other => .error (wrong other)

/-! ## Expressions -/

mutual

def Expr.code (f : Frame) : Expr → ExprCode
  | .literal note value =>
    let code := ExprCode.ofValue note do Emit.instruction (← literalInstruction value)
    match value with
    | .bool b => { code with
        jump := fun label jumpIf => if b = jumpIf then Emit.jump label else pure () }
    | _ => code
  | .name note ref => .ofValue note do f.load (← ref.symbol)
  | .binary note op left right =>
    let leftCode := left.code f
    let rightCode := right.code f
    match op.opClass with
    | .arith arithOp => .ofValue note do
      leftCode.push
      rightCode.push
      applyArith arithOp (resultTypeOf left)
    | .compare cond => .ofJump note fun label jumpIf => do
      leftCode.push
      rightCode.push
      compareAndJump cond (resultTypeOf left) label jumpIf
    | .logical decisive => .ofJump note (jumpLogical decisive leftCode rightCode)
  | .unary note .not operand =>
    let operandCode := operand.code f
    .ofJump note fun label jumpIf => operandCode.jump label !jumpIf
  | .unary note .neg operand =>
    let operandCode := operand.code f
    .ofValue note do
      match foldedNegation? operand with
      | some folded => Emit.instruction (← folded)
      | none =>
        operandCode.push
        match note.ty with
        | some ty => Emit.instruction (.neg (← kindOf ty))
        | none => throw .untypedExpr
  | .call note _ args target =>
    .ofValue note do
      match target with
      | none => throw .unresolvedCall
      | some (.function id) => callFunction f id (Expr.pushAll f args)
      | some (.constructor decl) => callConstructor f decl (Expr.pushAll f args)
      | some (.builtin builtin) =>
        match args with
        | [] => throw (.noArgument builtin.name)
        | arg :: _ => callBuiltin builtin (resultTypeOf arg) (arg.code f).push
  | .field note base _ position =>
    let baseCode := base.code f
    .ofValue note do
      let ref ← f.analysis.fieldRef (← typeOf base) position
      baseCode.push
      Emit.instruction (.getField ref)
  | .index note base position =>
    let baseCode := base.code f
    let positionCode := position.code f
    .ofValue note do
      let elem ← f.analysis.arrayElem (← typeOf base)
      baseCode.push
      positionCode.push
      Emit.instruction (.arrayLoad elem)
  | .array note elems =>
    .ofValue note do
      let elemType ← f.analysis.jvmType (← elementTypeOf note .arrayType)
      let elem ← elemOf elemType
      Emit.instruction (← intConstant elems.length)
      Emit.instruction (.newArray elemType)
      Expr.fillArray f elem 0 elems
  | .newArray note _ length =>
    let lengthCode := length.code f
    .ofValue note do
      let elemType ← f.analysis.jvmType (← elementTypeOf note .newArrayType)
      lengthCode.push
      Emit.instruction (.newArray elemType)
  | .cast note operand _ =>
    let operandCode := operand.code f
    .ofValue note do
      operandCode.push
      match note.ty with
      | some ty => convert (resultTypeOf operand) ty
      | none => throw .untypedExpr

def Expr.pushAll (f : Frame) : List Expr → Emit Unit
  | [] => return
  | e :: rest => do
    (e.code f).push
    Expr.pushAll f rest

/-- Stores values in an array on the stack, from a position on. -/
def Expr.fillArray (f : Frame) (elem : ArrayElem) (index : Nat) : List Expr → Emit Unit
  | [] => return
  | e :: rest => do
    Emit.instruction .dup
    Emit.instruction (← intConstant index)
    (e.code f).push
    Emit.instruction (.arrayStore elem)
    Expr.fillArray f elem (index + 1) rest

end

end StackCompiler
