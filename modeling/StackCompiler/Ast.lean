import StackCompiler.Builtin

/-!
# The syntax tree

Units as the analysis and the code generator see them. Some parts are empty at first and filled
in by the analysis: the type of an expression, what a name is bound to, what a call calls.
-/

namespace StackCompiler

open Number

abbrev SymbolId := Nat

/-- The number of a function; zero is `main`. -/
abbrev FnId := Nat

/-- A name where it is declared. -/
structure Ident where
  name : String
  span : Span
deriving DecidableEq

inductive TypeExpr where
  | named (ident : Ident)
  | array (elem : TypeExpr) (span : Span)
deriving DecidableEq

def TypeExpr.span : TypeExpr → Span
  | named ident => ident.span
  | array _ span => span

inductive Literal where
  | int (value : Int)
  | long (value : Int)
  /-- A number of single precision, not rounded yet. -/
  | float (value : Double)
  | double (value : Double)
  | bool (value : Bool)
  | string (value : String)
deriving DecidableEq

/-- The symbol of a name and the depth of its scope. -/
structure Binding where
  symbol : SymbolId
  depth : Nat
deriving DecidableEq

/-- A name where it is used. -/
structure NameRef where
  name : String
  binding : Option Binding
deriving DecidableEq

inductive CallTarget where
  | function (id : FnId)
  | constructor (decl : DeclId)
  | builtin (builtin : Builtin)
deriving DecidableEq

/-- What is known of an expression. -/
structure Note where
  span : Span
  ty : Option Ty
  /-- The type to which the value is widened, if it is. -/
  coercion : Option Ty
deriving DecidableEq

def Note.fresh (span : Span) : Note := ⟨span, none, none⟩

/-- The type of the value that is left after widening. -/
def Note.resultTy? (note : Note) : Option Ty := note.coercion <|> note.ty

inductive Expr where
  | literal (note : Note) (value : Literal)
  | name (note : Note) (ref : NameRef)
  | binary (note : Note) (op : BinOp) (left right : Expr)
  | unary (note : Note) (op : UnOp) (operand : Expr)
  | call (note : Note) (callee : Expr) (args : List Expr) (target : Option CallTarget)
  /-- A field of a record; `index` is its position. -/
  | field (note : Note) (base : Expr) (field : Ident) (index : Option Nat)
  | index (note : Note) (base index : Expr)
  | array (note : Note) (elems : List Expr)
  | newArray (note : Note) (elem : TypeExpr) (length : Expr)
  | cast (note : Note) (operand : Expr) (target : TypeExpr)

namespace Expr

def note : Expr → Note
  | literal note _ | name note _ | binary note .. | unary note .. | call note .. | field note ..
  | index note .. | array note _ | newArray note .. | cast note .. => note

def withNote (note : Note) : Expr → Expr
  | literal _ value => literal note value
  | name _ ref => name note ref
  | binary _ op left right => binary note op left right
  | unary _ op operand => unary note op operand
  | call _ callee args target => call note callee args target
  | field _ base ident position => field note base ident position
  | index _ base position => index note base position
  | array _ elems => array note elems
  | newArray _ elem length => newArray note elem length
  | cast _ operand target => cast note operand target

def span (e : Expr) : Span := e.note.span

def ty? (e : Expr) : Option Ty := e.note.ty

def resultTy? (e : Expr) : Option Ty := e.note.resultTy?

/-- The literal `true`, as in a loop without end. -/
def isTrueLiteral : Expr → Bool
  | literal _ (.bool true) => true
  | _ => false

end Expr

structure Param where
  name : Ident
  ty : TypeExpr
  span : Span
  symbol : Option SymbolId
deriving DecidableEq

structure FunctionHead where
  name : Ident
  params : List Param
  ret : Option TypeExpr
  span : Span
  bodySpan : Span
  id : Option FnId
deriving DecidableEq

structure VarDecl where
  name : Ident
  mutable : Bool
  ty : Option TypeExpr
  init : Expr
  span : Span
  symbol : Option SymbolId

structure LoopVar where
  name : Ident
  symbol : Option SymbolId
deriving DecidableEq

inductive Stmt where
  | var (decl : VarDecl)
  | function (head : FunctionHead) (body : List Stmt)
  | block (span : Span) (body : List Stmt)
  | branch (span : Span) (cond : Expr) (yes : Stmt) (no : Option Stmt)
  | loop (span : Span) (cond : Expr) (body : Stmt)
  /-- The numbers from `first` up to and without `last`. -/
  | range (span : Span) (var : LoopVar) (first last : Expr) (body : Stmt)
  | ret (span : Span) (value : Option Expr)
  | leave (span : Span)
  | next (span : Span)
  | assign (span : Span) (target value : Expr)
  | expr (value : Expr)

namespace Stmt

def span : Stmt → Span
  | var decl => decl.span
  | function head _ => head.span
  | block span _ | branch span .. | loop span .. | range span .. | ret span _ | leave span
  | next span | assign span .. => span
  | expr value => value.span

def isFunction : Stmt → Bool
  | function .. => true
  | _ => false

end Stmt

structure FunctionDecl where
  head : FunctionHead
  body : List Stmt

structure FieldDecl where
  name : Ident
  ty : TypeExpr
  span : Span
deriving DecidableEq

structure RecordDecl where
  name : Ident
  fields : List FieldDecl
  span : Span
  decl : Option DeclId
deriving DecidableEq

inductive Item where
  | function (decl : FunctionDecl)
  | record (decl : RecordDecl)
  | stmt (stmt : Stmt)

structure SourceUnit where
  name : String
  items : List Item
  span : Span

end StackCompiler
