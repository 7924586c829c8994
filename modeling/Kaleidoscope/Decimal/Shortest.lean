import Kaleidoscope.Decimal.Basic

/-!
Decimals near a double: the one with a given number of digits, and the shortest one that reads back.
-/

namespace Kaleidoscope

/-- The exponent of the leading decimal digit of `num / den`. -/
def leadingExponent (num den : Nat) : Int :=
  if den ≤ num then
    Int.ofNat (Nat.toDigits 10 (num / den)).length - 1
  else
    -Int.ofNat (Nat.toDigits 10 ((den - 1) / num)).length

namespace Double

/-- The magnitude as a fraction of two natural numbers. -/
def fraction (d : Double) : Nat × Nat := (d.units, unitsPerOne)

/-- The magnitude divided by `10 ^ exponent`, as a fraction. -/
def scaledFraction (d : Double) (exponent : Int) : Nat × Nat :=
  match exponent with
  | .ofNat n => (d.fraction.1, d.fraction.2 * Nat.pow 10 n)
  | .negSucc n => (d.fraction.1 * Nat.pow 10 (n + 1), d.fraction.2)

def leadingExponent (d : Double) : Int :=
  Kaleidoscope.leadingExponent d.fraction.1 d.fraction.2

/-- The decimal nearest to `d` with `count` digits; zero has zeros for digits. -/
def rounded (d : Double) (count : Nat) : Decimal :=
  if d.isZero then
    ⟨d.negative, 0, 0⟩
  else
    let exponent := d.leadingExponent + 1 - count
    let (num, den) := d.scaledFraction exponent
    let digits := roundQuotient num den
    if digits = Nat.pow 10 count then
      ⟨d.negative, digits / 10, exponent + 1⟩
    else
      ⟨d.negative, digits, exponent⟩

/-- Of the two decimals with `count` digits around `d`, the nearer one that reads back as `d`; the larger
one when both are as near. -/
def neighbour? (d : Double) (count : Nat) : Option Decimal :=
  let exponent := d.leadingExponent + 1 - count
  let (num, den) := d.scaledFraction exponent
  let low := num / den
  let below : Decimal := ⟨d.negative, low, exponent⟩
  let above : Decimal := ⟨d.negative, low + 1, exponent⟩
  let candidates := if 2 * (num % den) < den then [below, above] else [above, below]
  candidates.find? fun candidate => candidate.toDouble = d

/-- Every digit of a finite `d`. -/
def expansion (d : Double) : Decimal := ⟨d.negative, d.units * Nat.pow 5 1074, -1074⟩

/-- The decimal with the fewest digits that reads back as the finite number `d`. -/
def shortest (d : Double) : Decimal :=
  if d.isZero then
    ⟨d.negative, 0, 0⟩
  else
    match (List.range' 1 17).findSome? d.neighbour? with
    | some decimal => decimal.trim
    | none => d.expansion.trim

end Double

end Kaleidoscope
