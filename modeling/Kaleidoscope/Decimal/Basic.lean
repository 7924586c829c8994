import Kaleidoscope.Double.Basic

/-!
Decimal numbers `± digits · 10 ^ exponent`: reading their text and rounding them to the nearest double.
-/

namespace Kaleidoscope

/-- The quotient rounded to the nearest whole number, a half to the even one. -/
def roundQuotient (num den : Nat) : Nat :=
  let low := num / den
  let twice := 2 * (num % den)
  if den < twice ∨ twice = den ∧ low % 2 = 1 then low + 1 else low

/-- The magnitude nearest to `num / den`. The leading 53 bits of the quotient, counted in units, are
rounded to even; a carry moves into the exponent, and past the last finite magnitude stands infinity. -/
def nearestMagnitude (num den : Nat) : Nat :=
  let scaled := num * Double.unitsPerOne
  let shift := Nat.log2 (scaled / den) - 52
  min Double.infinityWord.toNat
    (shift * Double.binadeSize + roundQuotient scaled (den * Nat.pow 2 shift))

structure Decimal where
  negative : Bool
  digits : Nat
  exponent : Int
  deriving DecidableEq

namespace Decimal

/-- The magnitude as a fraction of two natural numbers. -/
def fraction (d : Decimal) : Nat × Nat :=
  match d.exponent with
  | .ofNat n => (d.digits * Nat.pow 10 n, 1)
  | .negSucc n => (d.digits, Nat.pow 10 (n + 1))

def toDouble (d : Decimal) : Double :=
  .ofMagnitude d.negative (nearestMagnitude d.fraction.1 d.fraction.2)

/-- Moves trailing zeros of the digits into the exponent. -/
def trim (d : Decimal) : Decimal :=
  if h : d.digits ≠ 0 ∧ d.digits % 10 = 0 then
    trim ⟨d.negative, d.digits / 10, d.exponent + 1⟩
  else
    d
termination_by d.digits
decreasing_by omega

def isDigit (c : Char) : Bool := '0' ≤ c && c ≤ '9'

def natOfDigits (text : List Char) : Nat :=
  text.foldl (fun value c => 10 * value + (c.toNat - '0'.toNat)) 0

def readSign : List Char → Bool × List Char
  | '-' :: rest => (true, rest)
  | text => (false, text)

def readFraction : List Char → List Char × List Char
  | '.' :: rest => (rest.takeWhile isDigit, rest.dropWhile isDigit)
  | text => ([], text)

def readWhole? (text : List Char) : Option Nat :=
  if !text.isEmpty && text.all isDigit then some (natOfDigits text) else none

/-- What may follow the digits: nothing, or `e`, a sign and a whole number. -/
def readExponent? : List Char → Option Int
  | [] => some 0
  | 'e' :: '+' :: rest => (readWhole? rest).map Int.ofNat
  | 'e' :: '-' :: rest => (readWhole? rest).map fun value => -Int.ofNat value
  | _ => none

/-- Reads a whole text: an optional minus, digits with at most one point and at least one digit, and an
optional exponent. -/
def parse? (text : List Char) : Option Decimal :=
  let (negative, unsigned) := readSign text
  let whole := unsigned.takeWhile isDigit
  let (fraction, rest) := readFraction (unsigned.dropWhile isDigit)
  if whole.isEmpty && fraction.isEmpty then
    none
  else
    (readExponent? rest).map fun exponent =>
      ⟨negative, natOfDigits (whole ++ fraction), exponent - fraction.length⟩

/-- All digits in place: zeros fill up to the point, and there is no point without digits after it. -/
def positional (d : Decimal) : String :=
  let sign := if d.negative then "-" else ""
  let digits := Nat.toDigits 10 d.digits
  match d.exponent with
  | .ofNat n => sign ++ String.ofList (digits ++ List.replicate n '0')
  | .negSucc n =>
    let padded := List.replicate (n + 2 - digits.length) '0' ++ digits
    let (whole, fraction) := padded.splitAt (padded.length - (n + 1))
    sign ++ String.ofList whole ++ "." ++ String.ofList fraction

/-- One digit, a point, the other digits, and the exponent of the first digit with its sign and at least
two places. -/
def scientific (d : Decimal) : String :=
  let sign := if d.negative then "-" else ""
  let digits := Nat.toDigits 10 d.digits
  let exponent := d.exponent + (digits.length - 1 : Nat)
  let places := Nat.toDigits 10 exponent.natAbs
  sign ++ String.ofList (digits.take 1) ++ "." ++ String.ofList (digits.drop 1) ++ "e" ++
    (if exponent < 0 then "-" else "+") ++
    String.ofList (List.replicate (2 - places.length) '0' ++ places)

end Decimal

end Kaleidoscope
