import StackCompiler.Token

/-!
# From source text to tokens

A source text is split into tokens with white space and comments between them. Each step looks at
the characters that are left, decides how many of them are skipped and how many make the next
token, and moves the position over both.

* `Position`: offset, line and column of a character;
* `skipped`: how many characters of white space and comments come first;
* `Lexeme`, `lexeme`: the token at the front of a text and its length;
* `tokenize`: all tokens of a text, closed by the end mark.
-/

namespace StackCompiler

open Number Text

/-- A place in a text. Below `2 ^ 32` characters, counters of 32 bits would agree with its line and
column. -/
structure Position where
  offset : Nat
  line : Nat
  column : Nat
deriving DecidableEq

namespace Position

def start : Position := ⟨0, 1, 1⟩

def step (p : Position) (c : Char) : Position :=
  if c == '\n' then ⟨p.offset + 1, p.line + 1, 1⟩ else ⟨p.offset + 1, p.line, p.column + 1⟩

def advance (p : Position) (cs : List Char) : Position := cs.foldl step p

def spanTo (p q : Position) : Span := ⟨p.offset, q.offset, p.line, p.column⟩

end Position

/-! ## White space and comments -/

inductive Trivia where
  | outside
  | lineComment
  | blockComment (depth : Nat)

/-- The characters to skip before the next token. Block comments nest; one that is not closed takes
the rest of the text. -/
def skipped : Trivia → List Char → Nat
  | .outside, '/' :: '/' :: rest => 2 + skipped .lineComment rest
  | .outside, '/' :: '*' :: rest => 2 + skipped (.blockComment 1) rest
  | .outside, c :: rest => if isBlank c then 1 + skipped .outside rest else 0
  | .lineComment, c :: rest =>
    1 + skipped (if c == '\n' then .outside else .lineComment) rest
  | .blockComment depth, '/' :: '*' :: rest => 2 + skipped (.blockComment (depth + 1)) rest
  | .blockComment depth, '*' :: '/' :: rest =>
    2 + skipped (if depth ≤ 1 then .outside else .blockComment (depth - 1)) rest
  | .blockComment depth, _ :: rest => 1 + skipped (.blockComment depth) rest
  | _, [] => 0

/-! ## Single tokens -/

/-- A token and the number of its characters. -/
structure Lexeme where
  kind : TokenKind
  length : Nat

def wordLexeme (cs : List Char) : Lexeme :=
  let text := cs.takeWhile isWordPart
  let name := String.ofList text
  ⟨match Keyword.ofWord? name with
    | some word => .keyword word
    | none => .ident name, text.length⟩

/-- Digits of a decimal numeral may be set apart by underscores. -/
def isDigitPart (c : Char) : Bool := c.isDigit || c == '_'

def isHexDigit (c : Char) : Bool :=
  c.isDigit || ('a' ≤ c && c ≤ 'f') || ('A' ≤ c && c ≤ 'F')

def isHexPart (c : Char) : Bool := isHexDigit c || c == '_'

/-- The first character that is not yet read is one of two. -/
def startsWithEither (a b : Char) : List Char → Bool
  | c :: _ => c == a || c == b
  | [] => false

def integerLimit : Nat := Nat.pow 2 63

/-- A literal of some characters, if it has a value. -/
def literalLexeme (cs : List Char) (length : Nat) (kind? : Option TokenKind) : Lexeme :=
  ⟨kind?.getD (.badLiteral (String.ofList (cs.take length))), length⟩

/-- An integer literal, if its value is in range. -/
def integerKind? (long : Bool) (value : Nat) : Option TokenKind :=
  if value < integerLimit then some (if long then .longLit value else .intLit value) else none

/-- `rest` is what follows the two-character mark. -/
def hexLexeme (cs rest : List Char) : Lexeme :=
  let part := rest.takeWhile isHexPart
  let digits := part.filter (· != '_')
  let long := startsWithEither 'L' 'l' (rest.drop part.length)
  literalLexeme cs (2 + part.length + long.toNat)
    (if digits.isEmpty then none else integerKind? long (ofDigits 16 digits))

/-- A point counts only before a digit. -/
def fractionPart : List Char → List Char
  | '.' :: c :: rest => if c.isDigit then '.' :: (c :: rest).takeWhile isDigitPart else []
  | _ => []

/-- The mark and sign belong to it, even without digits. -/
def exponentPart : List Char → List Char
  | mark :: rest =>
    if mark == 'e' || mark == 'E' then
      match rest with
      | sign :: after =>
        if sign == '+' || sign == '-' then mark :: sign :: after.takeWhile isDigitPart
        else mark :: rest.takeWhile isDigitPart
      | [] => [mark]
    else []
  | [] => []

/-- A decimal literal, and whether a mark that follows is part of it: an integer, or a
floating-point number if it has a fraction, an exponent or the mark of single precision. -/
def decimalKind? (fractional : Bool) (digits rest : List Char) : Bool × Option TokenKind :=
  if !fractional && startsWithEither 'L' 'l' rest then
    (true, integerKind? true (ofDigits 10 digits))
  else if startsWithEither 'f' 'F' rest then
    (true, (Decimal.read? digits).map fun d => .floatLit (Double.ofDecimal d))
  else if fractional then
    (false, (Decimal.read? digits).map fun d => .doubleLit (Double.ofDecimal d))
  else (false, integerKind? false (ofDigits 10 digits))

def decimalLexeme (cs : List Char) : Lexeme :=
  let whole := cs.takeWhile isDigitPart
  let fraction := fractionPart (cs.drop whole.length)
  let exponent := exponentPart (cs.drop (whole.length + fraction.length))
  let numeral := whole ++ fraction ++ exponent
  let (marked, kind?) := decimalKind? (!fraction.isEmpty || !exponent.isEmpty)
    (numeral.filter (· != '_')) (cs.drop numeral.length)
  literalLexeme cs (numeral.length + marked.toNat) kind?

def numberLexeme (cs : List Char) : Lexeme :=
  match cs with
  | '0' :: mark :: rest =>
    if mark == 'x' || mark == 'X' then hexLexeme cs rest else decimalLexeme cs
  | _ => decimalLexeme cs

/-- Unknown escapes stand for themselves. -/
def unescape (c : Char) : Char :=
  if c == 'n' then '\n'
  else if c == 'r' then '\r'
  else if c == 't' then '\t'
  else if c == '0' then '\x00'
  else c

/-- The characters after the opening quote, and how many of the text they take; there is no value if
the line or the text ends first. -/
def stringBody : List Char → Option (List Char) × Nat
  | [] => (none, 0)
  | '"' :: _ => (some [], 1)
  | '\n' :: _ => (none, 0)
  | ['\\'] => (none, 1)
  | '\\' :: c :: rest =>
    let (value, length) := stringBody rest
    (value.map (unescape c :: ·), length + 2)
  | c :: rest =>
    let (value, length) := stringBody rest
    (value.map (c :: ·), length + 1)

/-- A string literal; `rest` is what follows its opening quote. -/
def stringLexeme (cs rest : List Char) : Lexeme :=
  let (value?, length) := stringBody rest
  literalLexeme cs (length + 1) (value?.map fun value => .stringLit (String.ofList value))

/-- A symbol of two characters if the second one follows. -/
def pairLexeme (second : Char) (pair : Punct) (other : TokenKind) : List Char → Lexeme
  | c :: _ => if c == second then ⟨.punct pair, 2⟩ else ⟨other, 1⟩
  | [] => ⟨other, 1⟩

def symbolLexeme (c : Char) (rest : List Char) : Lexeme :=
  match c with
  | '+' => ⟨.punct .plus, 1⟩
  | '-' => pairLexeme '>' .arrow (.punct .minus) rest
  | '*' => ⟨.punct .star, 1⟩
  | '/' => ⟨.punct .slash, 1⟩
  | '%' => ⟨.punct .percent, 1⟩
  | '=' => pairLexeme '=' .equal (.punct .assign) rest
  | '!' => pairLexeme '=' .notEqual (.punct .bang) rest
  | '<' => pairLexeme '=' .lessEqual (.punct .less) rest
  | '>' => pairLexeme '=' .greaterEqual (.punct .greater) rest
  | '&' => pairLexeme '&' .andAnd (.unknown '&') rest
  | '|' => pairLexeme '|' .orOr (.unknown '|') rest
  | '.' => pairLexeme '.' .dotDot (.punct .dot) rest
  | '(' => ⟨.punct .lparen, 1⟩
  | ')' => ⟨.punct .rparen, 1⟩
  | '\x7b' => ⟨.punct .lbrace, 1⟩
  | '\x7d' => ⟨.punct .rbrace, 1⟩
  | '[' => ⟨.punct .lbracket, 1⟩
  | ']' => ⟨.punct .rbracket, 1⟩
  | ',' => ⟨.punct .comma, 1⟩
  | ';' => ⟨.punct .semicolon, 1⟩
  | ':' => ⟨.punct .colon, 1⟩
  | other => ⟨.unknown other, 1⟩

/-- The token at the front of a text that starts with `c`. -/
def lexeme (c : Char) (rest : List Char) : Lexeme :=
  if isWordStart c then wordLexeme (c :: rest)
  else if c.isDigit then numberLexeme (c :: rest)
  else if c == '"' then stringLexeme (c :: rest) rest
  else symbolLexeme c rest

/-! ## Whole texts -/

/-- The tokens of the rest of a text. Every token takes a character, so `fuel` beyond the length of
the text is not used up. -/
def tokensFrom : Nat → Position → List Char → List Token
  | 0, p, _ => [⟨.eof, p.spanTo p⟩]
  | fuel + 1, p, cs =>
    let gap := skipped .outside cs
    let first := p.advance (cs.take gap)
    match cs.drop gap with
    | [] => [⟨.eof, first.spanTo first⟩]
    | c :: rest =>
      let token := lexeme c rest
      let next := first.advance ((c :: rest).take token.length)
      ⟨token.kind, first.spanTo next⟩ :: tokensFrom fuel next ((c :: rest).drop token.length)

/-- The tokens of a text and an end mark. -/
def tokenize (source : String) : List Token :=
  tokensFrom (source.length + 1) .start source.toList

end StackCompiler
