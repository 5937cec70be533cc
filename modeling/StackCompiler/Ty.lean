import StackCompiler.Operator

/-!
# Types

The types of the language, the widenings between them and the operator table.
-/

namespace StackCompiler

/-- A declaration, among all units compiled together. -/
structure DeclId where
  unit : Nat
  index : Nat
deriving DecidableEq

inductive Ty where
  | int
  | long
  | float
  | double
  | bool
  | string
  | void
  | array (elem : Ty)
  | record (decl : DeclId) (name : String)
  | function (decl : DeclId) (params : List Ty) (ret : Ty)
  /-- The type of an expression that already has a diagnostic. -/
  | error
deriving Inhabited

namespace Ty

mutual

def decEq : (a b : Ty) → Decidable (a = b)
  | .int, b => by cases b <;> first | exact isTrue rfl | exact isFalse nofun
  | .long, b => by cases b <;> first | exact isTrue rfl | exact isFalse nofun
  | .float, b => by cases b <;> first | exact isTrue rfl | exact isFalse nofun
  | .double, b => by cases b <;> first | exact isTrue rfl | exact isFalse nofun
  | .bool, b => by cases b <;> first | exact isTrue rfl | exact isFalse nofun
  | .string, b => by cases b <;> first | exact isTrue rfl | exact isFalse nofun
  | .void, b => by cases b <;> first | exact isTrue rfl | exact isFalse nofun
  | .error, b => by cases b <;> first | exact isTrue rfl | exact isFalse nofun
  | .array a, b => by
    cases b with
    | array b =>
      exact match decEq a b with
        | isTrue h => isTrue (congrArg _ h)
        | isFalse h => isFalse fun e => h (Ty.array.inj e)
    | _ => exact isFalse nofun
  | .record d n, b => by
    cases b with
    | record d' n' =>
      exact if h : d = d' ∧ n = n' then isTrue (by rw [h.1, h.2])
        else isFalse fun e => h (Ty.record.inj e)
    | _ => exact isFalse nofun
  | .function d ps r, b => by
    cases b with
    | function d' ps' r' =>
      exact match decEqList ps ps', decEq r r' with
        | isTrue h, isTrue h' =>
          if hd : d = d' then isTrue (by rw [hd, h, h'])
          else isFalse fun e => hd (Ty.function.inj e).1
        | isFalse h, _ => isFalse fun e => h (Ty.function.inj e).2.1
        | _, isFalse h => isFalse fun e => h (Ty.function.inj e).2.2
    | _ => exact isFalse nofun

def decEqList : (as bs : List Ty) → Decidable (as = bs)
  | [], [] => isTrue rfl
  | [], _ :: _ => isFalse nofun
  | _ :: _, [] => isFalse nofun
  | a :: as, b :: bs =>
    match decEq a b, decEqList as bs with
    | isTrue h, isTrue h' => isTrue (by rw [h, h'])
    | isFalse h, _ => isFalse fun e => h (List.cons.inj e).1
    | _, isFalse h => isFalse fun e => h (List.cons.inj e).2

end

instance : DecidableEq Ty := decEq

def primitive? (name : String) : Option Ty :=
  match name with
  | "int" => some int
  | "long" => some long
  | "float" => some float
  | "double" => some double
  | "bool" => some bool
  | "string" => some string
  | "void" => some void
  | _ => none

def isNumeric : Ty → Bool
  | int | long | float | double => true
  | _ => false

def isIntegral : Ty → Bool
  | int | long => true
  | _ => false

def isError : Ty → Bool
  | error => true
  | _ => false

def isReference : Ty → Bool
  | string | array _ | record _ _ => true
  | _ => false

mutual

def containsError : Ty → Bool
  | error => true
  | array elem => elem.containsError
  | function _ params ret => ret.containsError || anyError params
  | _ => false

def anyError : List Ty → Bool
  | [] => false
  | ty :: rest => ty.containsError || anyError rest

end

mutual

def text : Ty → String
  | int => "int"
  | long => "long"
  | float => "float"
  | double => "double"
  | bool => "bool"
  | string => "string"
  | void => "void"
  | array elem => elem.text ++ "[]"
  | record _ name => name
  | function _ params ret =>
    "function(" ++ String.intercalate ", " (textList params) ++ ") -> " ++ ret.text
  | error => "<error>"

def textList : List Ty → List String
  | [] => []
  | ty :: rest => ty.text :: textList rest

end

/-! ## Conversions -/

/-- The widenings that need not be written: they lose nothing. -/
def widensTo : Ty → Ty → Bool
  | int, long | int, double | float, double => true
  | _, _ => false

/-- A value of the one type can stand for the other. -/
def coercibleTo (a b : Ty) : Bool := a == b || a.widensTo b || a.isError || b.isError

/-- Between numbers, and to the same type. -/
def castableTo (a b : Ty) : Bool :=
  (a.isNumeric && b.isNumeric) || a == b || a.isError || b.isError

/-- The least numeric type that both numeric types can stand for. -/
def join? (a b : Ty) : Option Ty :=
  if a.isNumeric && b.isNumeric then
    [int, long, float, double].find? fun c => a.coercibleTo c && b.coercibleTo c
  else none

end Ty

/-! ## The operator table -/

/-- The type of both operands, and that of the result. -/
structure OpSignature where
  operand : Ty
  result : Ty
deriving DecidableEq

/-- The row of the operator table. -/
def binarySignature? (op : BinOp) (left right : Ty) : Option OpSignature :=
  match op with
  | .add =>
    if left = .string ∧ right = .string then some ⟨.string, .string⟩
    else (left.join? right).map fun t => ⟨t, t⟩
  | .sub | .mul | .div | .rem => (left.join? right).map fun t => ⟨t, t⟩
  | .lt | .le | .gt | .ge => (left.join? right).map fun t => ⟨t, .bool⟩
  | .eq | .ne =>
    match left.join? right with
    | some t => some ⟨t, .bool⟩
    | none =>
      if left = right ∧ (left = .bool ∨ left.isReference) then some ⟨left, .bool⟩ else none
  | .and | .or => if left = .bool ∧ right = .bool then some ⟨.bool, .bool⟩ else none

def unarySignature? (op : UnOp) (operand : Ty) : Option Ty :=
  match op with
  | .neg => if operand.isNumeric then some operand else none
  | .not => if operand = .bool then some .bool else none

end StackCompiler
