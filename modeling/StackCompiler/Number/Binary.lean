/-!
# Binary floating-point numbers

Single and double precision numbers, held by their bits. Everything is exact arithmetic on
natural numbers, so that two numbers are equal exactly when their bits are.
-/

namespace StackCompiler.Number

def twoPow (n : Nat) : Nat := Nat.pow 2 n

def tenPow (n : Nat) : Nat := Nat.pow 10 n

/-- A binary interchange format. -/
structure Format where
  fractionBits : Nat
  exponentBits : Nat

namespace Format

def single : Format := ⟨23, 8⟩

def double : Format := ⟨52, 11⟩

/-- The exponent of the unit in which subnormal numbers count. -/
def leastExponent (f : Format) : Int :=
  2 - (twoPow (f.exponentBits - 1) : Nat) - f.fractionBits

/-- Larger patterns without the sign are not numbers. -/
def infinity (f : Format) : Nat := (twoPow f.exponentBits - 1) * twoPow f.fractionBits

def notANumber (f : Format) : Nat := f.infinity + twoPow (f.fractionBits - 1)

def signWeight (f : Format) : Nat := twoPow (f.fractionBits + f.exponentBits)

end Format

/-- `significand * 2 ^ exponent`, or out of range. -/
inductive Magnitude where
  | finite (significand : Nat) (exponent : Int)
  | infinite
  | notANumber
deriving DecidableEq

namespace Format

def decode (f : Format) (bits : Nat) : Bool × Magnitude :=
  let negative := f.signWeight ≤ bits
  let rest := bits % f.signWeight
  let field := rest / twoPow f.fractionBits
  let fraction := rest % twoPow f.fractionBits
  let size :=
    if rest = f.infinity then .infinite
    else if f.infinity < rest then .notANumber
    else if field = 0 then .finite fraction f.leastExponent
    else .finite (twoPow f.fractionBits + fraction) (f.leastExponent + (field - 1 : Nat))
  (negative, size)

/-- Rounds to the nearest whole number; a tie goes to the even one. -/
def roundDiv (num den : Nat) : Nat :=
  let q := num / den
  let r := num % den
  if 2 * r < den then q
  else if den < 2 * r then q + 1
  else q + q % 2

/-- The exponent of the leading bit of a positive ratio. -/
def leadingExponent (num den : Nat) : Int :=
  let guess : Int := (Nat.log2 num : Int) - (Nat.log2 den : Int)
  let reached := den * twoPow guess.toNat ≤ num * twoPow (-guess).toNat
  if reached then guess else guess - 1

/-- The number nearest to a ratio, or infinity. -/
def roundRatio (f : Format) (num den : Nat) : Nat :=
  if num = 0 then 0
  else
    let exponent := max f.leastExponent (leadingExponent num den - f.fractionBits)
    let significand := roundDiv (num * twoPow (-exponent).toNat) (den * twoPow exponent.toNat)
    let bits := (exponent - f.leastExponent).toNat * twoPow f.fractionBits + significand
    min bits f.infinity

/-- A number of the given sign and size, rounded. -/
def encode (f : Format) (negative : Bool) (size : Magnitude) : Nat :=
  let bits := match size with
    | .infinite => f.infinity
    | .notANumber => f.notANumber
    | .finite significand exponent =>
      f.roundRatio (significand * twoPow exponent.toNat) (twoPow (-exponent).toNat)
  if negative then f.signWeight + bits else bits

end Format

structure Double where
  bits : UInt64
deriving DecidableEq, Inhabited

structure Single where
  bits : UInt32
deriving DecidableEq, Inhabited

namespace Double

def neg (x : Double) : Double := ⟨x.bits ^^^ 0x8000000000000000⟩

def zero : Double := ⟨0⟩

def one : Double := ⟨0x3ff0000000000000⟩

def toSingle (x : Double) : Single :=
  let (negative, size) := Format.double.decode x.bits.toNat
  ⟨(Format.single.encode negative size).toUInt32⟩

end Double

namespace Single

def zero : Single := ⟨0⟩

def one : Single := ⟨0x3f800000⟩

def two : Single := ⟨0x40000000⟩

end Single

end StackCompiler.Number
