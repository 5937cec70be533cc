import StackCompiler.Token

/-!
# Parse trees

The tree of grammar rules over the tokens of a unit. Delimiters are not kept; keywords and
operators that carry meaning are leaves.
-/

namespace StackCompiler

inductive Rule where
  | unit | function | params | param | struct | field | varDecl | block | branch | whileLoop
  | forLoop | ret | breakStmt | continueStmt | assign | exprStmt | binary | unary | cast | call
  | args | index | member | arrayLit | newArray | paren | literal | name | type | arrayType
deriving DecidableEq

namespace Rule

def all : List Rule :=
  [unit, function, params, param, struct, field, varDecl, block, branch, whileLoop, forLoop, ret,
    breakStmt, continueStmt, assign, exprStmt, binary, unary, cast, call, args, index, member,
    arrayLit, newArray, paren, literal, name, type, arrayType]

def label : Rule → String
  | unit => "Unit"
  | function => "Function"
  | params => "Params"
  | param => "Param"
  | struct => "Struct"
  | field => "Field"
  | varDecl => "VarDecl"
  | block => "Block"
  | branch => "If"
  | whileLoop => "While"
  | forLoop => "For"
  | ret => "Return"
  | breakStmt => "Break"
  | continueStmt => "Continue"
  | assign => "Assign"
  | exprStmt => "ExprStmt"
  | binary => "Binary"
  | unary => "Unary"
  | cast => "Cast"
  | call => "Call"
  | args => "Args"
  | index => "Index"
  | member => "Member"
  | arrayLit => "ArrayLit"
  | newArray => "NewArray"
  | paren => "Paren"
  | literal => "Literal"
  | name => "Name"
  | type => "Type"
  | arrayType => "ArrayType"

end Rule

/-- A tree of grammar rules over tokens. -/
inductive ParseTree where
  | leaf (token : Token)
  | node (rule : Rule) (span : Span) (children : List ParseTree)

namespace ParseTree

def span : ParseTree → Span
  | leaf token => token.span
  | node _ span _ => span

def rule? : ParseTree → Option Rule
  | leaf _ => none
  | node rule _ _ => some rule

mutual

def size : ParseTree → Nat
  | leaf _ => 1
  | node _ _ children => 1 + sizeList children

def sizeList : List ParseTree → Nat
  | [] => 0
  | tree :: rest => tree.size + sizeList rest

end

end ParseTree

end StackCompiler
