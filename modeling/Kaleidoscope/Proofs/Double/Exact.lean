import Mathlib.Data.Nat.Bitwise
import Kaleidoscope.Proofs.Double.Text

/-!
Written constants lose nothing. Both forms tell the double they stand for: seven digits that read back as an equal
number have its sign as well, so that the zeros differ, and sixteen hexadecimal digits are its bits.
-/

namespace Kaleidoscope

namespace Double

variable {d e : Double}

private theorem negative_eq (d : Double) : d.negative = d.bits.toNat.testBit 63 := by
  have sign : d.bits &&& 0x8000000000000000 ≠ 0 ↔ d.bits.toNat.testBit 63 = true := by
    have word : (0x8000000000000000 : UInt64).toNat = 2 ^ 63 := by decide
    rw [ne_eq, ← UInt64.toNat_inj, UInt64.toNat_and, word, Nat.and_two_pow]
    cases d.bits.toNat.testBit 63 <;> simp
  rw [Bool.eq_iff_iff, ← sign, negative, bne_iff_ne]

private theorem toNat_magnitude (d : Double) : d.magnitude.toNat = d.bits.toNat % 2 ^ 63 := by
  rw [magnitude, UInt64.toNat_and, ← Nat.and_two_pow_sub_one_eq_mod]
  rfl

/-- The sign and the magnitude are all there is to a double. -/
theorem ext_magnitude (sign : d.negative = e.negative) (same : d.magnitude = e.magnitude) : d = e := by
  have bits : d.bits.toNat = e.bits.toNat := by
    have below := d.bits.toNat_lt
    have below' := e.bits.toNat_lt
    have rest := congrArg UInt64.toNat same
    rw [toNat_magnitude, toNat_magnitude] at rest
    rw [negative_eq, negative_eq, Nat.testBit_eq_decide_div_mod_eq, Nat.testBit_eq_decide_div_mod_eq,
      decide_eq_decide] at sign
    omega
  obtain ⟨bits⟩ := d
  exact congrArg mk (UInt64.toNat_inj.mp bits)

private theorem negative_ofMagnitude (negative : Bool) {magnitude : Nat} (small : magnitude < 2 ^ 63) :
    (ofMagnitude negative magnitude).negative = negative := by
  rw [negative_eq, ofMagnitude, UInt64.toNat_ofNat', Nat.testBit_eq_decide_div_mod_eq]
  cases negative with
  | false =>
    rw [if_neg Bool.false_ne_true, decide_eq_false_iff_not]
    omega
  | true =>
    rw [if_pos rfl, decide_eq_true_eq]
    omega

/-- Numbers that are equal and have the same sign are the same, zeros included. -/
theorem eq_of_numEq (equal : d.numEq e = true) (sign : d.negative = e.negative) : d = e := by
  simp only [numEq, Bool.and_eq_true, Bool.or_eq_true, beq_iff_eq] at equal
  rcases equal.2 with bits | ⟨zero, zero'⟩
  · obtain ⟨word⟩ := d
    exact congrArg mk bits
  · apply ext_magnitude sign
    rw [show d.magnitude = 0 by simpa [isZero] using zero, show e.magnitude = 0 by simpa [isZero] using zero']

end Double

namespace Decimal

private theorem negative_toDouble (decimal : Decimal) : decimal.toDouble.negative = decimal.negative := by
  apply Double.negative_ofMagnitude
  calc nearestMagnitude decimal.fraction.1 decimal.fraction.2
      ≤ Double.infinityWord.toNat := Nat.min_le_left _ _
    _ < 2 ^ 63 := by decide

private theorem negative_parse? {text : List Char} {decimal : Decimal} (reads : parse? text = some decimal) :
    decimal.negative = (readSign text).1 := by
  unfold parse? at reads
  dsimp only at reads
  split at reads
  · contradiction
  · obtain ⟨exponent, _, rfl⟩ := Option.map_eq_some_iff.mp reads
    rfl

/-- A minus is read only from a text that begins with one. -/
theorem readSign_append (negative : Bool) {digits : List Char} (nonempty : digits ≠ [])
    (run : ∀ c ∈ digits, isDigit c = true) (rest : List Char) :
    (readSign ((if negative then "-" else "").toList ++ (digits ++ rest))).1 = negative := by
  cases negative with
  | true => rfl
  | false =>
    obtain ⟨first, others, rfl⟩ := List.exists_cons_of_ne_nil nonempty
    have digit := run first List.mem_cons_self
    have noSign : first ≠ '-' := by
      rintro rfl
      contradiction
    simp [readSign, noSign]

private theorem readSign_scientific (decimal : Decimal) :
    (readSign decimal.scientific.toList).1 = decimal.negative := by
  have leading : (Nat.toDigits 10 decimal.digits).take 1 ≠ [] := by simp
  have digits : ∀ c ∈ (Nat.toDigits 10 decimal.digits).take 1, isDigit c = true := fun c member =>
    isDigit_toDigits decimal.digits c (List.mem_of_mem_take member)
  have read := readSign_append decimal.negative leading digits
  simp only [scientific, String.toList_append, String.toList_ofList, List.append_assoc]
  exact read _

end Decimal

namespace Double

variable {d e : Double}

private theorem negative_rounded (d : Double) (count : Nat) : (d.rounded count).negative = d.negative := by
  unfold rounded
  split
  · rfl
  · dsimp only
    split <;> rfl

private theorem readSign_sevenDigits (d : Double) : (Decimal.readSign d.sevenDigits.toList).1 = d.negative := by
  unfold sevenDigits
  split
  · have digit : ∀ c ∈ ['0'], Decimal.isDigit c = true := List.forall_mem_singleton.mpr rfl
    rw [String.toList_append]
    exact Decimal.readSign_append d.negative (List.cons_ne_nil _ _) digit ".000000e+00".toList
  · rw [Decimal.readSign_scientific, negative_rounded]

/-- What is read of the seven digits of `d` has the sign of `d`. -/
theorem negative_of_parse? {decimal : Decimal} (reads : Decimal.parse? d.sevenDigits.toList = some decimal) :
    decimal.toDouble.negative = d.negative := by
  rw [Decimal.negative_toDouble, Decimal.negative_parse? reads, readSign_sevenDigits]

/-- The number that hexadecimal digits stand for, the leading one first. -/
def hexValue (digits : List Char) : Nat :=
  digits.foldl (fun value c => value * 16 + "0123456789ABCDEF".toList.idxOf c) 0

private theorem hexDigit_mem : ∀ n < 16, hexDigit n ∈ "0123456789ABCDEF".toList := by decide

private theorem idxOf_hexDigit : ∀ n < 16, "0123456789ABCDEF".toList.idxOf (hexDigit n) = n := by decide

/-- The digits of `n` from the place of `16 ^ (count - 1)` down add that part of `n` to what was read before them. -/
theorem foldl_hexDigits (count n value : Nat) :
    ((List.range count).map fun place => hexDigit (n / 16 ^ (count - 1 - place) % 16)).foldl
      (fun value c => value * 16 + "0123456789ABCDEF".toList.idxOf c) value = value * 16 ^ count + n % 16 ^ count := by
  induction count generalizing value with
  | zero => simp [Nat.mod_one]
  | succ count ih =>
    have first : "0123456789ABCDEF".toList.idxOf (hexDigit (n / 16 ^ (count + 1 - 1 - 0) % 16)) =
        n / 16 ^ count % 16 := idxOf_hexDigit _ (Nat.mod_lt _ (by decide))
    have others : ((List.range count).map Nat.succ).map
          (fun place => hexDigit (n / 16 ^ (count + 1 - 1 - place) % 16)) =
        (List.range count).map fun place => hexDigit (n / 16 ^ (count - 1 - place) % 16) := by
      rw [List.map_map]
      apply List.map_congr_left
      intro place _
      have shifted : count + 1 - 1 - (place + 1) = count - 1 - place := by omega
      exact congrArg (fun exponent => hexDigit (n / 16 ^ exponent % 16)) shifted
    rw [List.range_succ_eq_map, List.map_cons, List.foldl_cons, others, first, ih, Nat.pow_succ, Nat.mod_mul,
      Nat.add_mul, Nat.mul_assoc, Nat.mul_comm 16, Nat.mul_comm (n / 16 ^ count % 16)]
    omega

private theorem hexValue_hexDigits (d : Double) : hexValue d.hexDigits = d.bits.toNat := by
  have small : d.bits.toNat < 16 ^ 16 := d.bits.toNat_lt
  have value := foldl_hexDigits 16 d.bits.toNat 0
  rw [Nat.zero_mul, Nat.zero_add, Nat.mod_eq_of_lt small] at value
  exact value

private theorem length_hexDigits (d : Double) : d.hexDigits.length = 16 := by simp [hexDigits]

private theorem mem_hexDigits (d : Double) : ∀ c ∈ d.hexDigits, c ∈ "0123456789ABCDEF".toList := by
  intro c member
  obtain ⟨place, _, rfl⟩ := List.mem_map.mp member
  exact hexDigit_mem _ (Nat.mod_lt _ (by decide))

/-- A double is written in one of two forms. -/
theorem exactText_cases (d : Double) :
    (∃ decimal, Decimal.parse? d.exactText.toList = some decimal ∧ decimal.toDouble.numEq d = true ∧
      decimal.toDouble.negative = d.negative) ∨ d.exactText = "0x" ++ String.ofList d.hexDigits := by
  unfold exactText
  split
  · next readable =>
    left
    obtain ⟨_, equal⟩ := Bool.and_eq_true_iff.mp readable
    obtain ⟨decimal, reads, equal⟩ := (Option.any_eq_true _ _).mp equal
    exact ⟨decimal, reads, equal, negative_of_parse? reads⟩
  · exact .inr rfl

/-- Hexadecimal digits behind `0x` are no decimal. -/
theorem parse?_hex (digits : List Char) : Decimal.parse? ("0x" ++ String.ofList digits).toList = none := by
  rw [String.toList_append, String.toList_ofList]
  rfl

private theorem exactText_injective (same : d.exactText = e.exactText) : d = e := by
  rcases d.exactText_cases with ⟨decimal, reads, equal, sign⟩ | hex
  · rcases e.exactText_cases with ⟨decimal', reads', equal', sign'⟩ | hex'
    · rw [same, reads'] at reads
      cases reads
      rw [← eq_of_numEq equal sign, ← eq_of_numEq equal' sign']
    · rw [same, hex', parse?_hex] at reads
      contradiction
  · rcases e.exactText_cases with ⟨decimal', reads', equal', sign'⟩ | hex'
    · rw [← same, hex, parse?_hex] at reads'
      contradiction
    · rw [hex, hex'] at same
      have digits : d.hexDigits = e.hexDigits := by simpa using congrArg String.toList same
      have bits : d.bits = e.bits := by
        apply UInt64.toNat_inj.mp
        rw [← hexValue_hexDigits, digits, hexValue_hexDigits]
      obtain ⟨word⟩ := d
      exact congrArg mk bits

/-- Different doubles are written differently, and each as a decimal that reads back as an equal number of the same sign
or as the sixteen hexadecimal digits of its bits. -/
theorem exactText_lossless (d : Double) :
    (∀ other : Double, d.exactText = other.exactText ↔ d = other) ∧
      ((∃ decimal, Decimal.parse? d.exactText.toList = some decimal ∧ decimal.toDouble.numEq d = true ∧
          decimal.toDouble.negative = d.negative) ∨
        ∃ digits : List Char, d.exactText = "0x" ++ String.ofList digits ∧ digits.length = 16 ∧
          (∀ c ∈ digits, c ∈ "0123456789ABCDEF".toList) ∧ hexValue digits = d.bits.toNat) := by
  constructor
  · intro other
    exact ⟨exactText_injective, congrArg exactText⟩
  · rcases d.exactText_cases with readable | hex
    · exact .inl readable
    · exact .inr ⟨d.hexDigits, hex, d.length_hexDigits, d.mem_hexDigits, d.hexValue_hexDigits⟩

end Double

end Kaleidoscope
