import StackCompiler.Ast
import StackCompiler.Error
import StackCompiler.ParseTree.Parser

/-!
# From parse trees to syntax trees

Each rule of the grammar promises its node certain children. A tree that breaks such a promise is
rejected with the first fault in the order in which the children are read.

* `TreeFault`, `TreeFault.detail`: the ways in which a node can be malformed;
* `Expr.ofTree`, `Stmt.ofTree`, `Item.ofTree`: the parts of a unit;
* `SourceUnit.ofTree`, `SourceUnit.parse`: whole units.
-/

namespace StackCompiler

inductive TreeFault where
  | expected (what : String)
  | missing (what : String) (index : Nat)
  | notTerminal (what : String) (index : Nat)
  | notIdentifier (index : Nat)
  | noDeclarationKeyword
  | notStatement
  | notExpression
  | unknownBinary (kind : TokenKind)
  | unknownUnary (kind : TokenKind)
  | notLiteral (kind : TokenKind)

def TreeFault.detail : TreeFault → String
  | expected what => "expected " ++ what
  | missing what index => "missing " ++ what ++ " (child " ++ toString index ++ ")"
  | notTerminal what index => "expected terminal " ++ what ++ " at child " ++ toString index
  | notIdentifier index => "child " ++ toString index ++ " is not an identifier"
  | noDeclarationKeyword => "declaration must start with var or val"
  | notStatement => "not a statement"
  | notExpression => "not an expression"
  | unknownBinary kind => "unknown binary operator " ++ kind.describe
  | unknownUnary kind => "unknown unary operator " ++ kind.describe
  | notLiteral kind => kind.describe ++ " is not a literal"

/-- The rule and the span of a node, for reports. -/
structure NodeHead where
  rule : Rule
  span : Span

def malformed {α : Type} (node : NodeHead) (fault : TreeFault) : Except CompileError α :=
  .error (.malformedTree node.rule.label fault.detail node.span)

/-- Rejects a token in a place where a node has to stand. -/
def strayTerminal {α : Type} (token : Token) (what : String) : Except CompileError α :=
  .error (.malformedTree token.kind.describe ("expected " ++ what ++ ", found a terminal")
    token.span)

def childAt (node : NodeHead) (children : List ParseTree) (index : Nat) (what : String) :
    Except CompileError ParseTree :=
  match children[index]? with
  | some child => .ok child
  | none => malformed node (.missing what index)

def tokenAt (node : NodeHead) (children : List ParseTree) (index : Nat) (what : String) :
    Except CompileError Token := do
  match ← childAt node children index what with
  | .leaf token => return token
  | .node .. => malformed node (.notTerminal what index)

def identAt (node : NodeHead) (children : List ParseTree) (index : Nat) :
    Except CompileError Ident := do
  let token ← tokenAt node children index "identifier"
  match token.kind with
  | .ident name => return ⟨name, token.span⟩
  | _ => malformed node (.notIdentifier index)

/-- The children of a tree that has to be a node of a rule. -/
def nodeOf (rule : Rule) (what : String) :
    ParseTree → Except CompileError (NodeHead × List ParseTree)
  | .leaf token => strayTerminal token what
  | .node found span children =>
    if found = rule then .ok (⟨found, span⟩, children) else malformed ⟨found, span⟩ (.expected what)

/-! ## Types and heads of declarations -/

def TypeExpr.ofTree : ParseTree → Except CompileError TypeExpr
  | .node .arrayType span (elem :: _) => return .array (← TypeExpr.ofTree elem) span
  | .node .arrayType span [] => malformed ⟨.arrayType, span⟩ (.missing "element type" 0)
  | .node .type span children => return .named (← identAt ⟨.type, span⟩ children 0)
  | .node rule span _ => malformed ⟨rule, span⟩ (.expected "type")
  | .leaf token => strayTerminal token "type"

def ParseTree.isType (tree : ParseTree) : Bool :=
  tree.rule? == some .type || tree.rule? == some .arrayType

def Param.ofTree (tree : ParseTree) : Except CompileError Param := do
  let (node, children) ← nodeOf .param "parameter" tree
  let name ← identAt node children 0
  let ty ← TypeExpr.ofTree (← childAt node children 1 "parameter type")
  return ⟨name, ty, node.span, none⟩

def FieldDecl.ofTree (tree : ParseTree) : Except CompileError FieldDecl := do
  let (node, children) ← nodeOf .field "field" tree
  let name ← identAt node children 0
  let ty ← TypeExpr.ofTree (← childAt node children 1 "field type")
  return ⟨name, ty, node.span⟩

def RecordDecl.ofChildren (span : Span) (children : List ParseTree) :
    Except CompileError RecordDecl := do
  let name ← identAt ⟨.struct, span⟩ children 0
  let fields ← (children.drop 1).mapM FieldDecl.ofTree
  return ⟨name, fields, span, none⟩

/-- A function declaration up to its body, perhaps with a result type. -/
def FunctionHead.ofChildren (span : Span) (children : List ParseTree) :
    Except CompileError FunctionHead := do
  let node : NodeHead := ⟨.function, span⟩
  let name ← identAt node children 0
  let (_, list) ← nodeOf .params "parameter list" (← childAt node children 1 "parameter list")
  let params ← list.mapM Param.ofTree
  let third ← childAt node children 2 "body"
  let ret ← if third.isType then pure (some (← TypeExpr.ofTree third)) else pure none
  return ⟨name, params, ret, span, span, none⟩

/-! ## Expressions -/

def Literal.ofChildren (span : Span) (children : List ParseTree) :
    Except CompileError Literal := do
  let node : NodeHead := ⟨.literal, span⟩
  match (← tokenAt node children 0 "literal").kind with
  | .intLit value => return .int value
  | .longLit value => return .long value
  | .floatLit value => return .float value
  | .doubleLit value => return .double value
  | .stringLit value => return .string value
  | .keyword .true_ => return .bool true
  | .keyword .false_ => return .bool false
  | kind => malformed node (.notLiteral kind)

def binaryOperator (node : NodeHead) (kind : TokenKind) : Except CompileError BinOp :=
  match kind with
  | .punct p =>
    match BinOp.ofPunct? p with
    | some op => .ok op
    | none => malformed node (.unknownBinary kind)
  | _ => malformed node (.unknownBinary kind)

def unaryOperator (node : NodeHead) : TokenKind → Except CompileError UnOp
  | .punct .minus => .ok .neg
  | .punct .bang => .ok .not
  | kind => malformed node (.unknownUnary kind)

mutual

/-- The expression of a tree. Parentheses leave no trace. -/
def Expr.ofTree : ParseTree → Except CompileError Expr
  | .leaf token => strayTerminal token "expression"
  | .node rule span children =>
    let node : NodeHead := ⟨rule, span⟩
    let note := Note.fresh span
    match rule with
    | .literal => return .literal note (← Literal.ofChildren span children)
    | .name => return .name note ⟨(← identAt node children 0).name, none⟩
    | .paren =>
      match children with
      | inner :: _ => Expr.ofTree inner
      | [] => malformed node (.missing "inner expression" 0)
    | .binary => do
      let token ← tokenAt node children 1 "operator"
      let op ← binaryOperator node token.kind
      match children with
      | left :: _ :: rest =>
        let left ← Expr.ofTree left
        match rest with
        | right :: _ => return .binary note op left (← Expr.ofTree right)
        | [] => malformed node (.missing "right operand" 2)
      | _ => malformed node (.missing "left operand" 0)
    | .unary => do
      let token ← tokenAt node children 0 "operator"
      let op ← unaryOperator node token.kind
      match children with
      | _ :: operand :: _ => return .unary note op (← Expr.ofTree operand)
      | _ => malformed node (.missing "operand" 1)
    | .cast =>
      match children with
      | operand :: rest => do
        let operand ← Expr.ofTree operand
        match rest with
        | target :: _ => return .cast note operand (← TypeExpr.ofTree target)
        | [] => malformed node (.missing "cast type" 1)
      | [] => malformed node (.missing "cast operand" 0)
    | .call =>
      match children with
      | callee :: .node .args _ args :: _ => do
        let callee ← Expr.ofTree callee
        return .call note callee (← Expr.ofTrees args) none
      | _ :: .node found foundSpan _ :: _ =>
        malformed ⟨found, foundSpan⟩ (.expected "argument list")
      | _ :: .leaf token :: _ => strayTerminal token "argument list"
      | _ => malformed node (.missing "arguments" 1)
    | .index =>
      match children with
      | base :: rest => do
        let base ← Expr.ofTree base
        match rest with
        | position :: _ => return .index note base (← Expr.ofTree position)
        | [] => malformed node (.missing "index" 1)
      | [] => malformed node (.missing "indexed expression" 0)
    | .member =>
      match children with
      | base :: _ => do
        let base ← Expr.ofTree base
        return .field note base (← identAt node children 1) none
      | [] => malformed node (.missing "record expression" 0)
    | .arrayLit => return .array note (← Expr.ofTrees children)
    | .newArray => do
      let elem ← TypeExpr.ofTree (← childAt node children 0 "element type")
      match children with
      | _ :: length :: _ => return .newArray note elem (← Expr.ofTree length)
      | _ => malformed node (.missing "length" 1)
    | _ => malformed node .notExpression

def Expr.ofTrees : List ParseTree → Except CompileError (List Expr)
  | [] => return []
  | tree :: rest => do
    let first ← Expr.ofTree tree
    return first :: (← Expr.ofTrees rest)

end

/-! ## Statements -/

def VarDecl.ofChildren (span : Span) (children : List ParseTree) :
    Except CompileError VarDecl := do
  let node : NodeHead := ⟨.varDecl, span⟩
  let keyword ← tokenAt node children 0 "var/val keyword"
  let mutable ← match keyword.kind with
    | .keyword .var => pure true
    | .keyword .val => pure false
    | _ => malformed node .noDeclarationKeyword
  let name ← identAt node children 1
  let third ← childAt node children 2 "initializer"
  if third.isType then
    let ty ← TypeExpr.ofTree third
    let init ← Expr.ofTree (← childAt node children 3 "initializer")
    return ⟨name, mutable, some ty, init, span, none⟩
  else
    let init ← Expr.ofTree third
    return ⟨name, mutable, none, init, span, none⟩

mutual

def Stmt.ofTree : ParseTree → Except CompileError Stmt
  | .leaf token => strayTerminal token "statement"
  | .node rule span children =>
    let node : NodeHead := ⟨rule, span⟩
    match rule with
    | .block => return .block span (← Stmt.ofTrees children)
    | .function => do
      let (head, body) ← Stmt.ofFunction span children
      return .function head body
    | .varDecl => return .var (← VarDecl.ofChildren span children)
    | .branch => do
      let cond ← Expr.ofTree (← childAt node children 0 "condition")
      match children with
      | _ :: yes :: rest =>
        let yes ← Stmt.ofTree yes
        match rest with
        | no :: _ => return .branch span cond yes (some (← Stmt.ofTree no))
        | [] => return .branch span cond yes none
      | _ => malformed node (.missing "then branch" 1)
    | .whileLoop => do
      let cond ← Expr.ofTree (← childAt node children 0 "condition")
      match children with
      | _ :: body :: _ => return .loop span cond (← Stmt.ofTree body)
      | _ => malformed node (.missing "body" 1)
    | .forLoop => do
      let name ← identAt node children 0
      let first ← Expr.ofTree (← childAt node children 1 "range start")
      let last ← Expr.ofTree (← childAt node children 2 "range end")
      match children with
      | _ :: _ :: _ :: body :: _ =>
        return .range span ⟨name, none⟩ first last (← Stmt.ofTree body)
      | _ => malformed node (.missing "body" 3)
    | .ret =>
      match children with
      | value :: _ => return .ret span (some (← Expr.ofTree value))
      | [] => return .ret span none
    | .breakStmt => return .leave span
    | .continueStmt => return .next span
    | .assign => do
      let target ← Expr.ofTree (← childAt node children 0 "assignment target")
      let value ← Expr.ofTree (← childAt node children 1 "assigned value")
      return .assign span target value
    | .exprStmt => return .expr (← Expr.ofTree (← childAt node children 0 "expression"))
    | _ => malformed node .notStatement

def Stmt.ofTrees : List ParseTree → Except CompileError (List Stmt)
  | [] => return []
  | tree :: rest => do
    let first ← Stmt.ofTree tree
    return first :: (← Stmt.ofTrees rest)

/-- The body is the third child, or the fourth one after a result type. -/
def Stmt.ofFunction (span : Span) :
    List ParseTree → Except CompileError (FunctionHead × List Stmt)
  | name :: list :: third :: rest => do
    let head ← FunctionHead.ofChildren span (name :: list :: third :: rest)
    if third.isType then
      match rest with
      | .node .block bodySpan body :: _ =>
        return ({ head with bodySpan := bodySpan }, ← Stmt.ofTrees body)
      | .node found foundSpan _ :: _ => malformed ⟨found, foundSpan⟩ (.expected "function body")
      | .leaf token :: _ => strayTerminal token "function body"
      | [] => malformed ⟨.function, span⟩ (.missing "body" 3)
    else
      match third with
      | .node .block bodySpan body =>
        return ({ head with bodySpan := bodySpan }, ← Stmt.ofTrees body)
      | .node found foundSpan _ => malformed ⟨found, foundSpan⟩ (.expected "function body")
      | .leaf token => strayTerminal token "function body"
  | children => do
    let _ ← FunctionHead.ofChildren span children
    malformed ⟨.function, span⟩ (.missing "body" 2)

end

/-! ## Units -/

def Item.ofTree (tree : ParseTree) : Except CompileError Item :=
  match tree with
  | .node .function span children => do
    let (head, body) ← Stmt.ofFunction span children
    return .function ⟨head, body⟩
  | .node .struct span children => return .record (← RecordDecl.ofChildren span children)
  | tree => return .stmt (← Stmt.ofTree tree)

def SourceUnit.ofTree (name : String) (tree : ParseTree) : Except CompileError SourceUnit := do
  let (node, children) ← nodeOf .unit "unit" tree
  return ⟨name, ← children.mapM Item.ofTree, node.span⟩

def SourceUnit.parse (name source : String) : Except CompileError SourceUnit := do
  SourceUnit.ofTree name (← parseSource source)

end StackCompiler
