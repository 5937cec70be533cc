import StackCompiler.Instruction
import StackCompiler.Text.Property
import StackCompiler.Text.Quoted

/-!
# Mnemonics

Instructions as assembly text, with the short forms for small operands.
-/

namespace StackCompiler

open Text

/-- A number in hexadecimal with at least four digits. -/
def paddedHex (n : Nat) : List Char :=
  let digits := hex n
  List.replicate (4 - digits.length) '0' ++ digits

/-- The quote, the backslash, newline, tab and return have short escapes; other controls and all
beyond ASCII go by number. -/
def escapeConstantChar (c : Char) : List Char :=
  if c == '"' then ['\\', '"']
  else if c == '\\' then ['\\', '\\']
  else if c == '\n' then ['\\', 'n']
  else if c == '\t' then ['\\', 't']
  else if c == '\r' then ['\\', 'r']
  else if isControl c || 0x80 ≤ c.toNat then ['\\', 'u'] ++ paddedHex c.toNat
  else [c]

/-- A string constant, without the quotes around it. -/
def escapeConstant (s : String) : String := String.ofList (s.toList.flatMap escapeConstantChar)

/-- A destination: a label that is not yet placed, or a position. -/
def Target.text : Target → String
  | label id => "?" ++ toString id
  | index position => "L" ++ toString position

def Cond.mnemonic : Cond → String
  | eq => "eq"
  | ne => "ne"
  | lt => "lt"
  | le => "le"
  | gt => "gt"
  | ge => "ge"

def ArithOp.mnemonic : ArithOp → String
  | add => "add"
  | sub => "sub"
  | mul => "mul"
  | div => "div"
  | rem => "rem"

def CompareOp.mnemonic : CompareOp → String
  | lcmp => "lcmp"
  | fcmpl => "fcmpl"
  | fcmpg => "fcmpg"
  | dcmpl => "dcmpl"
  | dcmpg => "dcmpg"

/-- Truth values are kept as bytes. -/
def ArrayElem.letter : ArrayElem → String
  | boolean => "b"
  | elem => elem.kind.letter

def FieldRef.text (f : FieldRef) : String := f.owner ++ "/" ++ f.name ++ " " ++ f.ty.descriptor

def MethodRef.text (m : MethodRef) : String := m.owner ++ "/" ++ m.name ++ m.descriptor

/-- The first four slots have forms of their own. -/
def slotText (mnemonic : String) (slot : Nat) : String :=
  mnemonic ++ (if slot ≤ 3 then "_" else " ") ++ toString slot

def intConstantText (value : Int) : String :=
  if value = -1 then "iconst_m1"
  else if 0 ≤ value ∧ value ≤ 5 then "iconst_" ++ toString value
  else if -128 ≤ value ∧ value ≤ 127 then "bipush " ++ toString value
  else if -32768 ≤ value ∧ value ≤ 32767 then "sipush " ++ toString value
  else "ldc " ++ toString value

def Instruction.text : Instruction → String
  | iconst value => intConstantText value.toInt
  | lconst value =>
    if value = 0 ∨ value = 1 then "lconst_" ++ toString value.toInt
    else "ldc2_w " ++ toString value.toInt
  | fconst value =>
    if value = .zero then "fconst_0"
    else if value = .one then "fconst_1"
    else if value = .two then "fconst_2"
    else "ldc " ++ value.text
  | dconst value =>
    if value = .zero then "dconst_0"
    else if value = .one then "dconst_1"
    else "ldc2_w " ++ value.text
  | sconst value => "ldc \"" ++ escapeConstant value ++ "\""
  | load kind slot => slotText (kind.letter ++ "load") slot
  | store kind slot => slotText (kind.letter ++ "store") slot
  | iinc slot delta => "iinc " ++ toString slot ++ " " ++ toString delta
  | newArray elem =>
    match elem with
    | .boolean => "newarray boolean"
    | .int => "newarray int"
    | .long => "newarray long"
    | .float => "newarray float"
    | .double => "newarray double"
    | other => "anewarray " ++ other.classOperand
  | arrayLoad elem => elem.letter ++ "aload"
  | arrayStore elem => elem.letter ++ "astore"
  | arrayLength => "arraylength"
  | pop kind => if kind.words = 2 then "pop2" else "pop"
  | dup => "dup"
  | arith kind op => kind.letter ++ op.mnemonic
  | neg kind => kind.letter ++ "neg"
  | convert source target => source.letter ++ "2" ++ target.letter
  | compare op => op.mnemonic
  | branchZero cond target => "if" ++ cond.mnemonic ++ " " ++ target.text
  | branchInt cond target => "if_icmp" ++ cond.mnemonic ++ " " ++ target.text
  | branchRef cond target => "if_acmp" ++ cond.mnemonic ++ " " ++ target.text
  | goto target => "goto " ++ target.text
  | ret (some kind) => kind.letter ++ "return"
  | ret none => "return"
  | new className => "new " ++ className
  | getStatic field => "getstatic " ++ field.text
  | putStatic field => "putstatic " ++ field.text
  | getField field => "getfield " ++ field.text
  | putField field => "putfield " ++ field.text
  | invokeStatic method => "invokestatic " ++ method.text
  | invokeVirtual method => "invokevirtual " ++ method.text
  | invokeSpecial method => "invokespecial " ++ method.text

end StackCompiler
