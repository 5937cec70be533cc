import StackCompiler.Token

/-!
# Operators

The binary and unary operators of expressions.
-/

namespace StackCompiler

/-- The logical operators evaluate their right operand only if need be. -/
inductive BinOp where
  | add | sub | mul | div | rem
  | eq | ne | lt | le | gt | ge
  | and | or
deriving DecidableEq

namespace BinOp

def all : List BinOp := [add, sub, mul, div, rem, eq, ne, lt, le, gt, ge, and, or]

def ofPunct? : Punct → Option BinOp
  | .plus => some add
  | .minus => some sub
  | .star => some mul
  | .slash => some div
  | .percent => some rem
  | .equal => some eq
  | .notEqual => some ne
  | .less => some lt
  | .lessEqual => some le
  | .greater => some gt
  | .greaterEqual => some ge
  | .andAnd => some and
  | .orOr => some or
  | _ => none

def symbol : BinOp → String
  | add => "+"
  | sub => "-"
  | mul => "*"
  | div => "/"
  | rem => "%"
  | eq => "=="
  | ne => "!="
  | lt => "<"
  | le => "<="
  | gt => ">"
  | ge => ">="
  | and => "&&"
  | or => "||"

def isComparison : BinOp → Bool
  | eq | ne | lt | le | gt | ge => true
  | _ => false

def isLogical : BinOp → Bool
  | and | or => true
  | _ => false

end BinOp

inductive UnOp where
  | neg
  | not
deriving DecidableEq

def UnOp.symbol : UnOp → String
  | neg => "-"
  | not => "!"

end StackCompiler
