import StackCompiler.Span
import StackCompiler.Number.Layout
import StackCompiler.Text.Quoted

/-!
# Tokens

The words, symbols and literals that a source text is made of, and how messages name them.
-/

namespace StackCompiler

open Number Text

inductive Keyword where
  | function | struct | var | val | if_ | else_ | while_ | for_ | in_ | return_ | break_
  | continue_ | true_ | false_ | as_ | new_
deriving DecidableEq

namespace Keyword

def all : List Keyword :=
  [function, struct, var, val, if_, else_, while_, for_, in_, return_, break_, continue_, true_,
    false_, as_, new_]

def word : Keyword → String
  | function => "function"
  | struct => "struct"
  | var => "var"
  | val => "val"
  | if_ => "if"
  | else_ => "else"
  | while_ => "while"
  | for_ => "for"
  | in_ => "in"
  | return_ => "return"
  | break_ => "break"
  | continue_ => "continue"
  | true_ => "true"
  | false_ => "false"
  | as_ => "as"
  | new_ => "new"

def label : Keyword → String
  | function => "Function"
  | struct => "Struct"
  | var => "Var"
  | val => "Val"
  | if_ => "If"
  | else_ => "Else"
  | while_ => "While"
  | for_ => "For"
  | in_ => "In"
  | return_ => "Return"
  | break_ => "Break"
  | continue_ => "Continue"
  | true_ => "True"
  | false_ => "False"
  | as_ => "As"
  | new_ => "New"

def ofWord? (text : String) : Option Keyword := all.find? fun k => k.word == text

end Keyword

inductive Punct where
  | plus | minus | star | slash | percent | assign | equal | notEqual | less | lessEqual
  | greater | greaterEqual | andAnd | orOr | bang | arrow
  | lparen | rparen | lbrace | rbrace | lbracket | rbracket | comma | semicolon | colon | dot
  | dotDot
deriving DecidableEq

namespace Punct

def all : List Punct :=
  [plus, minus, star, slash, percent, assign, equal, notEqual, less, lessEqual, greater,
    greaterEqual, andAnd, orOr, bang, arrow, lparen, rparen, lbrace, rbrace, lbracket, rbracket,
    comma, semicolon, colon, dot, dotDot]

def label : Punct → String
  | plus => "Plus"
  | minus => "Minus"
  | star => "Star"
  | slash => "Slash"
  | percent => "Percent"
  | assign => "Eq"
  | equal => "EqEq"
  | notEqual => "Ne"
  | less => "Lt"
  | lessEqual => "Le"
  | greater => "Gt"
  | greaterEqual => "Ge"
  | andAnd => "AndAnd"
  | orOr => "OrOr"
  | bang => "Not"
  | arrow => "Arrow"
  | lparen => "LParen"
  | rparen => "RParen"
  | lbrace => "LBrace"
  | rbrace => "RBrace"
  | lbracket => "LBracket"
  | rbracket => "RBracket"
  | comma => "Comma"
  | semicolon => "Semicolon"
  | colon => "Colon"
  | dot => "Dot"
  | dotDot => "DotDot"

/-- A higher binding power binds tighter. -/
def precedence? : Punct → Option Nat
  | orOr => some 1
  | andAnd => some 2
  | equal | notEqual => some 3
  | less | lessEqual | greater | greaterEqual => some 4
  | plus | minus => some 5
  | star | slash | percent => some 6
  | _ => none

end Punct

/-- What a token is, without its place in the text. -/
inductive TokenKind where
  | keyword (word : Keyword)
  | punct (symbol : Punct)
  | ident (name : String)
  | intLit (value : Int)
  | longLit (value : Int)
  | floatLit (value : Double)
  | doubleLit (value : Double)
  | stringLit (value : String)
  /-- A literal that has no value, by its text. -/
  | badLiteral (text : String)
  /-- A character that starts no token. -/
  | unknown (c : Char)
  | eof
deriving DecidableEq

/-- The name of a token in messages. -/
def TokenKind.describe : TokenKind → String
  | .keyword k => k.label
  | .punct p => p.label
  | .ident name => "Ident(" ++ quotedString name ++ ")"
  | .intLit value => "IntLit(" ++ toString value ++ ")"
  | .longLit value => "LongLit(" ++ toString value ++ ")"
  | .floatLit value => "FloatLit(" ++ value.text ++ ")"
  | .doubleLit value => "DoubleLit(" ++ value.text ++ ")"
  | .stringLit value => "StringLit(" ++ quotedString value ++ ")"
  | .badLiteral text => "BadLiteral(" ++ quotedString text ++ ")"
  | .unknown c => "Unknown(" ++ quotedChar c ++ ")"
  | .eof => "Eof"

structure Token where
  kind : TokenKind
  span : Span
deriving DecidableEq

end StackCompiler
