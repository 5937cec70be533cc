import StackCompiler.Text.Alphabetic
import StackCompiler.Text.Numeric
import StackCompiler.Text.GraphemeExtend
import StackCompiler.Text.Unprintable

/-!
# Character classes

The classes of characters that the language and its messages distinguish. Each decides ASCII by
a rule and the rest by a table of Unicode ranges or runs.
-/

namespace StackCompiler.Text

def inRanges (ranges : List (Nat × Nat)) (code : Nat) : Bool :=
  ranges.any fun r => r.1 ≤ code && code ≤ r.2

/-- The table has the lengths of the runs without and with a property, in turn. -/
def inRuns : List Nat → Nat → Bool
  | without :: within :: runs, code =>
    without ≤ code && (code < without + within || inRuns runs (code - (without + within)))
  | _, _ => false

/-- The code points with the property White_Space. -/
def blankRanges : List (Nat × Nat) := [
  (0x9, 0xd), (0x20, 0x20), (0x85, 0x85), (0xa0, 0xa0), (0x1680, 0x1680), (0x2000, 0x200a),
  (0x2028, 0x2029), (0x202f, 0x202f), (0x205f, 0x205f), (0x3000, 0x3000)]

def isBlank (c : Char) : Bool := inRanges blankRanges c.toNat

def isAlphabetic (c : Char) : Bool :=
  if c.toNat < 0x80 then c.isAlpha else inRuns alphabeticRuns c.toNat

/-- Digits and other characters of a number category. -/
def isNumeric (c : Char) : Bool :=
  if c.toNat < 0x80 then c.isDigit else inRuns numericRuns c.toNat

/-- A name starts with a letter or an underscore. -/
def isWordStart (c : Char) : Bool := isAlphabetic c || c == '_'

def isWordPart (c : Char) : Bool := isAlphabetic c || isNumeric c || c == '_'

/-- Those below the space, and U+007F to U+009F. -/
def isControl (c : Char) : Bool := c.toNat < 0x20 || (0x7f ≤ c.toNat && c.toNat < 0xa0)

/-- The characters that attach to the one before them. The halfwidth sound marks U+FF9E and U+FF9F
are letters with a place of their own. -/
def isAttached (c : Char) : Bool :=
  inRuns graphemeExtendRuns c.toNat && !(c.toNat == 0xff9e || c.toNat == 0xff9f)

/-- The fillers of Hangul, which are blank letters. -/
def fillerRanges : List (Nat × Nat) := [(0x115f, 0x1160), (0x3164, 0x3164), (0xffa0, 0xffa0)]

/-- The characters that a quoted text shows as they are. -/
def isVisible (c : Char) : Bool :=
  if c.toNat < 0x80 then !isControl c
  else !isAttached c && !inRanges fillerRanges c.toNat && !inRuns unprintableRuns c.toNat

end StackCompiler.Text
