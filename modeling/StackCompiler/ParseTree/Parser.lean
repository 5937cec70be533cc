import StackCompiler.Error
import StackCompiler.ParseTree
import StackCompiler.Token.Lexer

/-!
# From tokens to parse trees

Recursive descent over a list of tokens, with binding powers for binary operators. The cursor
stays on the last token once it has reached it.

Every function takes an amount of fuel that bounds its depth. A list of tokens that ends with the
end mark never uses up the fuel that `parseTokens` starts with: between two tokens that are
consumed lies a chain of at most eight calls.

* `Cursor`: the current token and what is left;
* `Parser`: a step that moves the cursor and may fail;
* `Parser.statement`, `Parser.expr`: the two large nonterminals;
* `parseTokens`, `parseSource`: whole units.
-/

namespace StackCompiler

structure Cursor where
  /-- The span of the token before the current one. -/
  prev : Span
  current : Token
  rest : List Token

namespace Cursor

def start (first : Token) (rest : List Token) : Cursor := ⟨first.span, first, rest⟩

/-- The cursor on the next token; on the last one it stays. -/
def advance (c : Cursor) : Cursor :=
  match c.rest with
  | [] => c
  | next :: rest => ⟨c.current.span, next, rest⟩

end Cursor

inductive ParseFault where
  | rejected (error : CompileError)
  /-- The fuel is used up at a place. -/
  | exhausted (place : Cursor)

abbrev Parser := StateT Cursor (Except ParseFault)

namespace Parser

/-! ## Steps on single tokens -/

def reject {α : Type} (error : CompileError) : Parser α := throw (.rejected error)

def exhausted {α : Type} : Parser α := do throw (.exhausted (← get))

def peek : Parser Token := return (← get).current

def peekKind : Parser TokenKind := return (← get).current.kind

def here : Parser Span := return (← get).current.span

def advance : Parser Token := modifyGet fun c => (c.current, c.advance)

def check (kind : TokenKind) : Parser Bool := return (← get).current.kind == kind

/-- Rejects the current token. -/
def unexpected {α : Type} (expected : String) : Parser α := do
  let token ← peek
  match token.kind with
  | .badLiteral text => reject (.invalidLiteral text token.span)
  | kind => reject (.unexpectedToken expected kind.describe token.span)

def expect (kind : TokenKind) : Parser Token := do
  if ← check kind then advance else unexpected kind.describe

def consume (kind : TokenKind) : Parser Bool := do
  if ← check kind then
    let _ ← advance
    return true
  else return false

def ident : Parser ParseTree := do
  match ← peekKind with
  | .ident _ => return .leaf (← advance)
  | _ => reject (.expectedIdent (← here))

/-- The node of everything consumed from `start` on. -/
def node (rule : Rule) (start : Span) (children : List ParseTree) : Parser ParseTree :=
  return .node rule (start.merge (← get).prev) children

/-! ## Types and declarations -/

/-- Array brackets after a type, with nothing inside. -/
def arraySuffix (start : Span) : Nat → ParseTree → Parser ParseTree
  | 0, _ => exhausted
  | fuel + 1, tree => do
    let cursor ← get
    match cursor.current.kind, cursor.rest with
    | .punct .lbracket, ⟨.punct .rbracket, _⟩ :: _ => do
      let _ ← advance
      let _ ← advance
      arraySuffix start fuel (← node .arrayType start [tree])
    | _, _ => return tree

def type (fuel : Nat) : Parser ParseTree := do
  let start ← here
  match ← peekKind with
  | .ident _ =>
    let name ← advance
    arraySuffix start fuel (← node .type start [.leaf name])
  | _ => reject (.expectedType start)

def typedName (fuel : Nat) (rule : Rule) : Parser ParseTree := do
  let start ← here
  let name ← ident
  let _ ← expect (.punct .colon)
  let ty ← type fuel
  node rule start [name, ty]

/-- Parameters up to the closing parenthesis, which is left. -/
def params : Nat → Parser (List ParseTree)
  | 0 => exhausted
  | fuel + 1 => do
    match ← peekKind with
    | .punct .rparen | .eof => return []
    | _ =>
      let param ← typedName fuel .param
      if ← consume (.punct .comma) then return param :: (← params fuel)
      else return [param]

def paramList (fuel : Nat) : Parser ParseTree := do
  let start ← here
  let _ ← expect (.punct .lparen)
  let items ← params fuel
  let _ ← expect (.punct .rparen)
  node .params start items

/-- Fields up to the closing brace; a comma or a semicolon may follow each. -/
def fields : Nat → Parser (List ParseTree)
  | 0 => exhausted
  | fuel + 1 => do
    match ← peekKind with
    | .punct .rbrace | .eof => return []
    | _ =>
      let field ← typedName fuel .field
      if !(← consume (.punct .comma)) then
        let _ ← consume (.punct .semicolon)
      return field :: (← fields fuel)

def struct (fuel : Nat) : Parser ParseTree := do
  let start ← here
  let _ ← expect (.keyword .struct)
  let name ← ident
  let _ ← expect (.punct .lbrace)
  let members ← fields fuel
  let _ ← expect (.punct .rbrace)
  node .struct start (name :: members)

/-- The binding power of a token that is a binary operator. -/
def power? : TokenKind → Option Nat
  | .punct p => p.precedence?
  | _ => none

/-! ## Expressions -/

mutual

/-- Binary operators bind at least as tightly as `least`. -/
def exprFrom : Nat → Nat → Parser ParseTree
  | 0, _ => exhausted
  | fuel + 1, least => do
    let start ← here
    let left ← unary fuel
    operators fuel least start left

/-- Binary operators associate to the left. -/
def operators : Nat → Nat → Span → ParseTree → Parser ParseTree
  | 0, _, _, _ => exhausted
  | fuel + 1, least, start, left => do
    match power? (← peekKind) with
    | none => return left
    | some power =>
      if power < least then return left
      else
        let op ← advance
        let right ← exprFrom fuel (power + 1)
        operators fuel least start (← node .binary start [left, .leaf op, right])

def unary : Nat → Parser ParseTree
  | 0 => exhausted
  | fuel + 1 => do
    let start ← here
    match ← peekKind with
    | .punct .minus | .punct .bang =>
      let op ← advance
      let operand ← unary fuel
      node .unary start [.leaf op, operand]
    | _ =>
      let operand ← primary fuel
      suffixes fuel start operand

/-- An operand without anything before or after it. -/
def primary : Nat → Parser ParseTree
  | 0 => exhausted
  | fuel + 1 => do
    let start ← here
    match ← peekKind with
    | .intLit _ | .longLit _ | .floatLit _ | .doubleLit _ | .stringLit _ | .keyword .true_
    | .keyword .false_ =>
      let literal ← advance
      node .literal start [.leaf literal]
    | .ident _ =>
      let name ← advance
      node .name start [.leaf name]
    | .punct .lparen =>
      let _ ← advance
      let inner ← exprFrom fuel 0
      let _ ← expect (.punct .rparen)
      node .paren start [inner]
    | .punct .lbracket =>
      let _ ← advance
      let elems ← exprList fuel (.punct .rbracket)
      let _ ← expect (.punct .rbracket)
      node .arrayLit start elems
    | .keyword .new_ =>
      let _ ← advance
      let elem ← type fuel
      let _ ← expect (.punct .lbracket)
      let length ← exprFrom fuel 0
      let _ ← expect (.punct .rbracket)
      node .newArray start [elem, length]
    | .badLiteral text => reject (.invalidLiteral text start)
    | _ => reject (.expectedExpr start)

/-- Expressions with commas between them, up to a closing token. -/
def exprList : Nat → TokenKind → Parser (List ParseTree)
  | 0, _ => exhausted
  | fuel + 1, close => do
    let kind ← peekKind
    if kind == close || kind == .eof then return []
    else
      let item ← exprFrom fuel 0
      if ← consume (.punct .comma) then return item :: (← exprList fuel close)
      else return [item]

/-- Calls, indices, members and conversions after an operand. -/
def suffixes : Nat → Span → ParseTree → Parser ParseTree
  | 0, _, _ => exhausted
  | fuel + 1, start, operand => do
    match ← peekKind with
    | .punct .lparen =>
      let opening ← advance
      let items ← exprList fuel (.punct .rparen)
      let _ ← expect (.punct .rparen)
      let args ← node .args opening.span items
      suffixes fuel start (← node .call start [operand, args])
    | .punct .lbracket =>
      let _ ← advance
      let index ← exprFrom fuel 0
      let _ ← expect (.punct .rbracket)
      suffixes fuel start (← node .index start [operand, index])
    | .punct .dot =>
      let _ ← advance
      let field ← ident
      suffixes fuel start (← node .member start [operand, field])
    | .keyword .as_ =>
      let _ ← advance
      let ty ← type fuel
      suffixes fuel start (← node .cast start [operand, ty])
    | _ => return operand

end

def expr (fuel : Nat) : Parser ParseTree := exprFrom fuel 0

def condition (fuel : Nat) : Parser ParseTree := do
  let _ ← expect (.punct .lparen)
  let cond ← expr fuel
  let _ ← expect (.punct .rparen)
  return cond

def varDecl (fuel : Nat) : Parser ParseTree := do
  let start ← here
  let keyword ← advance
  let name ← ident
  let ty ← if ← consume (.punct .colon) then pure [← type fuel] else pure []
  let _ ← expect (.punct .assign)
  let init ← expr fuel
  let _ ← expect (.punct .semicolon)
  node .varDecl start ([.leaf keyword, name] ++ ty ++ [init])

def exprStatement (fuel : Nat) : Parser ParseTree := do
  let start ← here
  let target ← expr fuel
  if ← consume (.punct .assign) then
    let value ← expr fuel
    let _ ← expect (.punct .semicolon)
    node .assign start [target, value]
  else
    let _ ← expect (.punct .semicolon)
    node .exprStmt start [target]

/-! ## Statements -/

mutual

def statement : Nat → Parser ParseTree
  | 0 => exhausted
  | fuel + 1 => do
    let start ← here
    match ← peekKind with
    | .punct .lbrace => block fuel
    | .keyword .var | .keyword .val => varDecl fuel
    | .keyword .function => function fuel
    | .keyword .if_ =>
      let _ ← advance
      let cond ← condition fuel
      let yes ← statement fuel
      if ← consume (.keyword .else_) then
        let no ← statement fuel
        node .branch start [cond, yes, no]
      else node .branch start [cond, yes]
    | .keyword .while_ =>
      let _ ← advance
      let cond ← condition fuel
      let body ← statement fuel
      node .whileLoop start [cond, body]
    | .keyword .for_ =>
      let _ ← advance
      let _ ← expect (.punct .lparen)
      let var ← ident
      let _ ← expect (.keyword .in_)
      let first ← expr fuel
      let _ ← expect (.punct .dotDot)
      let last ← expr fuel
      let _ ← expect (.punct .rparen)
      let body ← statement fuel
      node .forLoop start [var, first, last, body]
    | .keyword .return_ =>
      let _ ← advance
      let value ← if ← check (.punct .semicolon) then pure [] else pure [← expr fuel]
      let _ ← expect (.punct .semicolon)
      node .ret start value
    | .keyword .break_ =>
      let _ ← advance
      let _ ← expect (.punct .semicolon)
      node .breakStmt start []
    | .keyword .continue_ =>
      let _ ← advance
      let _ ← expect (.punct .semicolon)
      node .continueStmt start []
    | _ => exprStatement fuel

def block : Nat → Parser ParseTree
  | 0 => exhausted
  | fuel + 1 => do
    let start ← here
    let _ ← expect (.punct .lbrace)
    let body ← statements fuel
    let _ ← expect (.punct .rbrace)
    node .block start body

/-- Statements up to a closing brace, which is left. -/
def statements : Nat → Parser (List ParseTree)
  | 0 => exhausted
  | fuel + 1 => do
    match ← peekKind with
    | .punct .rbrace | .eof => return []
    | _ =>
      let first ← statement fuel
      return first :: (← statements fuel)

def function : Nat → Parser ParseTree
  | 0 => exhausted
  | fuel + 1 => do
    let start ← here
    let _ ← expect (.keyword .function)
    let name ← ident
    let list ← paramList fuel
    let result ← if ← consume (.punct .arrow) then pure [← type fuel] else pure []
    let body ← block fuel
    node .function start ([name, list] ++ result ++ [body])

end

def items : Nat → Parser (List ParseTree)
  | 0 => exhausted
  | fuel + 1 => do
    match ← peekKind with
    | .eof => return []
    | .keyword .struct =>
      let first ← struct fuel
      return first :: (← items fuel)
    | _ =>
      let first ← statement fuel
      return first :: (← items fuel)

def unit (fuel : Nat) : Parser ParseTree := do
  let start ← here
  let children ← items fuel
  return .node .unit (start.merge (← here)) children

end Parser

def parseFuel (tokens : Nat) : Nat := 16 * (tokens + 1)

/-- A list that ends with an opening bracket or a sign has no expression there. -/
def parseTokens (tokens : List Token) : Except CompileError ParseTree :=
  match tokens with
  | [] => .error (.expectedExpr .nowhere)
  | first :: rest =>
    match Parser.unit (parseFuel tokens.length) (.start first rest) with
    | .ok (tree, _) => .ok tree
    | .error (.rejected error) => .error error
    | .error (.exhausted _) =>
      .error (.expectedExpr (tokens.getLast?.map Token.span |>.getD .nowhere))

def parseSource (source : String) : Except CompileError ParseTree :=
  parseTokens (tokenize source)

end StackCompiler
