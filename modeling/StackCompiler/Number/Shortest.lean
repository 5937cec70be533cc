import StackCompiler.Number.Decimal

/-!
# The fewest digits that read back

The shortest decimal numeral among those that round to a given binary number and, of these, the
one nearest to it.
-/

namespace StackCompiler.Number

/-- The choice between two numerals that are equally near. -/
inductive Tie where
  | up
  | even
deriving DecidableEq

/-- The ratios that round to `value / unit`: between `low / unit` and `high / unit`. -/
structure Interval where
  low : Nat
  value : Nat
  high : Nat
  unit : Nat
  closed : Bool

/-- Below a power of two numbers lie twice as close. -/
def Interval.of (f : Format) (significand : Nat) (exponent : Int) : Interval :=
  let scale := twoPow (exponent - 2).toNat
  let below := if significand = twoPow f.fractionBits then 1 else 2
  { low := (4 * significand - below) * scale
    value := 4 * significand * scale
    high := (4 * significand + 2) * scale
    unit := twoPow (2 - exponent).toNat
    closed := significand % 2 = 0 }

def Interval.scaled (i : Interval) (num den : Nat) : Interval :=
  { i with low := i.low * num, value := i.value * num, high := i.high * num, unit := i.unit * den }

def Interval.holds (i : Interval) (n : Nat) : Bool :=
  let point := n * i.unit
  if i.closed then i.low ≤ point && point ≤ i.high else i.low < point && point < i.high

/-- The whole number next to the value, if it is in the interval. -/
def Interval.nearest? (i : Interval) (tie : Tie) : Option Nat :=
  let below := i.value / i.unit
  let rest := 2 * (i.value % i.unit)
  let upper :=
    if rest < i.unit then false
    else if i.unit < rest then true
    else match tie with
      | .up => true
      | .even => below % 2 = 1
  match i.holds below, i.holds (below + 1) with
  | true, true => some (if upper then below + 1 else below)
  | true, false => some below
  | false, true => some (below + 1)
  | false, false => none

/-- The exponent of the leading digit, from a guess that is not above it. -/
def leadingPlace (num den : Nat) : Nat → Int → Int
  | 0, place => place
  | steps + 1, place =>
    let next := place + 1
    if den * tenPow next.toNat ≤ num * tenPow (-next).toNat then leadingPlace num den steps next
    else place

def Decimal.trim : Nat → Decimal → Decimal
  | 0, d => d
  | steps + 1, d =>
    if d.digits ≠ 0 ∧ d.digits % 10 = 0 then Decimal.trim steps ⟨d.digits / 10, d.exponent + 1⟩
    else d

/-- Tries finer grids until one has a point in the interval. -/
def searchGrid (i : Interval) (tie : Tie) : Nat → Int → Decimal
  | 0, place => ⟨i.value * tenPow (-place).toNat / (i.unit * tenPow place.toNat), place⟩
  | steps + 1, place =>
    match (i.scaled (tenPow (-place).toNat) (tenPow place.toNat)).nearest? tie with
    | some digits => ⟨digits, place⟩
    | none => searchGrid i tie steps (place - 1)

/-- The shortest numeral of `significand * 2 ^ exponent`. -/
def shortest (f : Format) (tie : Tie) (significand : Nat) (exponent : Int) : Decimal :=
  let i := Interval.of f significand exponent
  let bits : Int := (Nat.log2 i.value : Int) - (Nat.log2 i.unit : Int) - 1
  let place := leadingPlace i.value i.unit 4 (bits * 30103 / 100000 - 1)
  Decimal.trim 20 (searchGrid i tie 17 place)

end StackCompiler.Number
