import StackCompiler.Text.Property

/-!
# Quoted text in messages

How a message quotes a text or a single character of the source, so that every character of it
can be seen.
-/

namespace StackCompiler.Text

/-- In lower case and without leading zeros. -/
def hex (n : Nat) : List Char := Nat.toDigits 16 n

/-- Common controls go by letter, the backslash and the quote with a backslash, other invisible
characters by number. -/
def escapeShown (quote : Char) (c : Char) : List Char :=
  if c == '\t' then ['\\', 't']
  else if c == '\r' then ['\\', 'r']
  else if c == '\n' then ['\\', 'n']
  else if c == '\\' then ['\\', '\\']
  else if c == '\x00' then ['\\', '0']
  else if c == quote then ['\\', quote]
  else if isVisible c then [c]
  else ['\\', 'u', '\x7b'] ++ hex c.toNat ++ ['\x7d']

def quotedString (s : String) : String :=
  String.ofList ('"' :: s.toList.flatMap (escapeShown '"') ++ ['"'])

def quotedChar (c : Char) : String :=
  String.ofList ('\x27' :: escapeShown '\x27' c ++ ['\x27'])

end StackCompiler.Text
