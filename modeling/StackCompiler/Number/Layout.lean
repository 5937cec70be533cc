import StackCompiler.Number.Shortest

/-!
# Written floating-point numbers

The two ways in which a floating-point number is written: in instruction operands and messages,
and in JSON. Both take the fewest digits that read back and differ in where plain notation ends.
-/

namespace StackCompiler.Number

structure Layout where
  /-- Plain notation is used from this exponent on. -/
  least : Int
  /-- Plain notation is used up to this exponent. -/
  greatest : Int
  /-- Positive exponents carry a sign. -/
  signedExponent : Bool
  /-- Which of two equally near numerals is taken. -/
  tie : Tie
  infinity : String
  notANumber : String
  /-- Infinity shows its sign. -/
  signedInfinity : Bool

namespace Layout

/-- Plain from `1e-4` up to `1e16`, and a tie goes up. -/
def operand : Layout where
  least := -4
  greatest := 15
  signedExponent := false
  tie := .up
  infinity := "inf"
  notANumber := "NaN"
  signedInfinity := true

/-- Double precision numbers in JSON, which has no infinity. -/
def jsonDouble : Layout where
  least := -5
  greatest := 15
  signedExponent := true
  tie := .even
  infinity := "null"
  notANumber := "null"
  signedInfinity := false

/-- Plain notation ends sooner on the large side. -/
def jsonSingle : Layout := { jsonDouble with least := -6, greatest := 12 }

/-- A whole number keeps one zero behind the point. -/
def plain (digits : List Char) (place : Int) : List Char :=
  if place < 0 then
    '0' :: '.' :: List.replicate (-place - 1).toNat '0' ++ digits
  else
    let whole := place.toNat + 1
    let front := digits.take whole
    let back := digits.drop whole
    front ++ List.replicate (whole - front.length) '0' ++ '.' ::
      (if back.isEmpty then ['0'] else back)

/-- One digit before the point, and an exponent. -/
def scientific (signedExponent : Bool) (digits : List Char) (place : Int) : List Char :=
  let mantissa := match digits with
    | [] => []
    | [d] => [d]
    | d :: rest => d :: '.' :: rest
  let sign := if signedExponent && 0 ≤ place then ['+'] else []
  mantissa ++ 'e' :: sign ++ (toString place).toList

def write (layout : Layout) (f : Format) (negative : Bool) (size : Magnitude) : String :=
  let sign := if negative then "-" else ""
  match size with
  | .notANumber => layout.notANumber
  | .infinite => (if layout.signedInfinity then sign else "") ++ layout.infinity
  | .finite significand exponent =>
    if significand = 0 then sign ++ "0.0"
    else
      let d := shortest f layout.tie significand exponent
      let digits := Nat.toDigits 10 d.digits
      let place := d.exponent + (digits.length - 1 : Nat)
      let body :=
        if layout.least ≤ place && place ≤ layout.greatest then plain digits place
        else scientific layout.signedExponent digits place
      sign ++ String.ofList body

end Layout

def Double.text (x : Double) : String :=
  let (negative, size) := Format.double.decode x.bits.toNat
  Layout.operand.write .double negative size

def Double.json (x : Double) : String :=
  let (negative, size) := Format.double.decode x.bits.toNat
  Layout.jsonDouble.write .double negative size

def Single.text (x : Single) : String :=
  let (negative, size) := Format.single.decode x.bits.toNat
  Layout.operand.write .single negative size

def Single.json (x : Single) : String :=
  let (negative, size) := Format.single.decode x.bits.toNat
  Layout.jsonSingle.write .single negative size

end StackCompiler.Number
