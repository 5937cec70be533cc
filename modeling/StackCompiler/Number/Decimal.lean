import StackCompiler.Number.Binary

/-!
# Decimal numerals

Reading of numbers that are written with decimal digits, and their nearest binary numbers.
-/

namespace StackCompiler.Number

/-- The value of a digit. -/
def digitValue (c : Char) : Nat :=
  if '0' ≤ c && c ≤ '9' then c.toNat - '0'.toNat
  else if 'a' ≤ c && c ≤ 'f' then c.toNat - 'a'.toNat + 10
  else if 'A' ≤ c && c ≤ 'F' then c.toNat - 'A'.toNat + 10
  else 0

/-- The value of digits, the most significant first. -/
def ofDigits (base : Nat) (digits : List Char) : Nat :=
  digits.foldl (fun value c => value * base + digitValue c) 0

/-- A number written as `digits * 10 ^ exponent`. -/
structure Decimal where
  digits : Nat
  exponent : Int
deriving DecidableEq

/-- Nothing, or a marked exponent with at least one digit. -/
def readExponent? : List Char → Option Int
  | [] => some 0
  | mark :: rest =>
    if mark == 'e' || mark == 'E' then
      let (negative, digits) := match rest with
        | '+' :: digits => (false, digits)
        | '-' :: digits => (true, digits)
        | digits => (false, digits)
      if digits.isEmpty || !digits.all Char.isDigit then none
      else
        let size : Int := ofDigits 10 digits
        some (if negative then -size else size)
    else none

/-- Digits, perhaps a point among them, perhaps an exponent. -/
def Decimal.read? (text : List Char) : Option Decimal :=
  let whole := text.takeWhile Char.isDigit
  let rest := text.dropWhile Char.isDigit
  let (fraction, rest) := match rest with
    | '.' :: after => (after.takeWhile Char.isDigit, after.dropWhile Char.isDigit)
    | rest => ([], rest)
  if whole.isEmpty && fraction.isEmpty then none
  else
    (readExponent? rest).map fun exponent =>
      ⟨ofDigits 10 (whole ++ fraction), exponent - fraction.length⟩

/-- The binary number nearest to a decimal one. Past four hundred places there are only infinity and
zero left. -/
def Decimal.toBits (f : Format) (d : Decimal) : Nat :=
  let places : Int := (Nat.toDigits 10 d.digits).length + d.exponent
  if d.digits = 0 || places < -400 then 0
  else if 400 < places then f.infinity
  else f.roundRatio (d.digits * tenPow d.exponent.toNat) (tenPow (-d.exponent).toNat)

def Double.ofDecimal (d : Decimal) : Double := ⟨(d.toBits .double).toUInt64⟩

/-- A pattern read from a text with an optional sign; infinity and what is not a number go by their
names. -/
def readBits? (f : Format) (text : String) : Option Nat :=
  let (negative, body) := match text.toList with
    | '-' :: body => (true, body)
    | '+' :: body => (false, body)
    | body => (false, body)
  let name := String.ofList (body.map Char.toLower)
  let size :=
    if name == "inf" || name == "infinity" then some f.infinity
    else if name == "nan" then some f.notANumber
    else (Decimal.read? body).map (Decimal.toBits f)
  size.map fun bits => if negative then f.signWeight + bits else bits

def Double.read? (text : String) : Option Double :=
  (readBits? .double text).map fun bits => ⟨bits.toUInt64⟩

def Single.read? (text : String) : Option Single :=
  (readBits? .single text).map fun bits => ⟨bits.toUInt32⟩

end StackCompiler.Number
