import Kaleidoscope.Decimal.Shortest

/-!
The two written forms of a double: `text` for people, `exactText` for constants in listings.
-/

namespace Kaleidoscope.Double

/-- The fewest digits that read back, all in place, with no exponent and no trailing `.0`. -/
def text (d : Double) : String :=
  if d.isNaN then
    "NaN"
  else if d.isFinite then
    d.shortest.positional
  else if d.negative then
    "-inf"
  else
    "inf"

def hexDigit (n : Nat) : Char := "0123456789ABCDEF".toList.getD n '0'

/-- The sixteen hexadecimal digits of the bits. -/
def hexDigits (d : Double) : List Char :=
  (List.range 16).map fun place => hexDigit (d.bits.toNat / Nat.pow 16 (15 - place) % 16)

/-- Seven digits and an exponent. -/
def sevenDigits (d : Double) : String :=
  if d.isZero then
    (if d.negative then "-" else "") ++ "0.000000e+00"
  else
    (d.rounded 7).scientific

/-- Seven digits and an exponent where that reads back as a number equal to `d`, the bits in hexadecimal
otherwise. -/
def exactText (d : Double) : String :=
  if d.isFinite && (Decimal.parse? d.sevenDigits.toList).any (·.toDouble.numEq d) then
    d.sevenDigits
  else
    "0x" ++ String.ofList d.hexDigits

end Kaleidoscope.Double
