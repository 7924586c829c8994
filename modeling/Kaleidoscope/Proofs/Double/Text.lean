import Mathlib.Data.List.TakeWhile
import Kaleidoscope.Double.Text

/-!
The written form of a double reads back. A decimal that equals a double exactly is rounded to that double, moving zeros
between digits and exponent changes nothing, and the digits in place stand for the same decimal.
-/

namespace Kaleidoscope

private theorem roundQuotient_mul {factor : Nat} (positive : 0 < factor) (num den : Nat) :
    roundQuotient (factor * num) (factor * den) = roundQuotient num den := by
  have twice : 2 * (factor * num % (factor * den)) = factor * (2 * (num % den)) := by
    rw [Nat.mul_mod_mul_left, Nat.mul_left_comm]
  simp only [roundQuotient, Nat.mul_div_mul_left _ _ positive, twice, Nat.mul_lt_mul_left positive,
    Nat.mul_right_inj (Nat.ne_of_gt positive)]

private theorem roundQuotient_exact {den : Nat} (positive : 0 < den) (quotient : Nat) :
    roundQuotient (den * quotient) den = quotient := by
  have noTie : ¬ (0 : Nat) = den := Nat.ne_of_lt positive
  simp [roundQuotient, Nat.mul_div_cancel_left _ positive, noTie]

private theorem nearestMagnitude_mul {factor : Nat} (positive : 0 < factor) (num den : Nat) :
    nearestMagnitude (factor * num) (factor * den) = nearestMagnitude num den := by
  simp only [nearestMagnitude, Nat.mul_assoc, Nat.mul_div_mul_left _ _ positive, roundQuotient_mul positive]

namespace Double

private theorem ofMagnitude_magnitude {d : Double} (unsigned : d.negative = false) :
    ofMagnitude false d.magnitude.toNat = d := by
  have noSign : d.bits &&& 0x8000000000000000 = 0 := by simpa [negative] using unsigned
  have split : d.bits &&& (0x8000000000000000 ||| 0x7fffffffffffffff) =
      d.bits &&& 0x8000000000000000 ||| d.bits &&& 0x7fffffffffffffff :=
    UInt64.toBitVec_inj.mp BitVec.and_or_distrib_left
  have same : d.magnitude = d.bits := by
    calc d.magnitude
        = d.bits &&& 0x8000000000000000 ||| d.bits &&& 0x7fffffffffffffff := by rw [noSign, UInt64.zero_or, magnitude]
      _ = d.bits := split.symm.trans UInt64.and_neg_one
  simp [ofMagnitude, same]

/-- A magnitude is a number of units below the first exponent, or a fraction with a leading bit. -/
theorem units_cases (d : Double) :
    d.magnitude.toNat < binadeSize ∧ d.units = d.magnitude.toNat ∨
      ∃ exponent fraction, fraction < binadeSize ∧ d.magnitude.toNat = exponent * binadeSize + (binadeSize + fraction) ∧
        d.units = (binadeSize + fraction) * Nat.pow 2 exponent := by
  have whole := Nat.div_add_mod d.magnitude.toNat binadeSize
  have small : d.magnitude.toNat % binadeSize < binadeSize := Nat.mod_lt _ (by decide)
  by_cases subnormal : d.magnitude.toNat / binadeSize = 0
  · left
    rw [subnormal, Nat.mul_zero, Nat.zero_add] at whole
    refine ⟨whole ▸ small, ?_⟩
    simp only [units, if_pos subnormal, whole]
  · right
    obtain ⟨exponent, same⟩ := Nat.exists_eq_succ_of_ne_zero subnormal
    refine ⟨exponent, d.magnitude.toNat % binadeSize, small, ?_, ?_⟩
    · rw [same, Nat.mul_succ, Nat.mul_comm] at whole
      omega
    · simp only [units, same]
      rfl

private theorem log2_normal {exponent fraction : Nat} (small : fraction < binadeSize) :
    Nat.log2 ((binadeSize + fraction) * Nat.pow 2 exponent) = 52 + exponent := by
  have size : binadeSize = 2 ^ 52 := rfl
  have power : 0 < 2 ^ exponent := Nat.pow_pos (by decide)
  have nonzero : (binadeSize + fraction) * 2 ^ exponent ≠ 0 := Nat.ne_of_gt (Nat.mul_pos (by omega) power)
  rw [Nat.pow_eq, Nat.log2_eq_iff nonzero, Nat.add_right_comm, Nat.pow_add, Nat.pow_add]
  constructor
  · exact Nat.mul_le_mul_right _ (by omega)
  · exact Nat.mul_lt_mul_of_pos_right (by omega) power

/-- A fraction that equals a finite magnitude is rounded to it. -/
theorem nearestMagnitude_of_exact {d : Double} (finite : d.isFinite = true) {num den : Nat} (positive : 0 < den)
    (exact : num * unitsPerOne = den * d.units) : nearestMagnitude num den = d.magnitude.toNat := by
  have bounded : d.magnitude.toNat < infinityWord.toNat := by simpa [isFinite, UInt64.lt_iff_toNat_lt] using finite
  simp only [nearestMagnitude, exact, Nat.mul_div_cancel_left _ positive]
  -- The shift undoes the exponent, so what is rounded is the leading bit and the fraction, without a remainder.
  rcases d.units_cases with ⟨small, units⟩ | ⟨exponent, fraction, small, magnitude, units⟩
  · have shift : Nat.log2 d.units - 52 = 0 := by
      by_cases zero : d.units = 0
      · rw [zero]
        rfl
      · have below : Nat.log2 d.units < 52 := (Nat.log2_lt zero).mpr (units ▸ small)
        omega
    have rounded : roundQuotient (den * d.units) (den * Nat.pow 2 0) = d.units := by
      rw [show den * Nat.pow 2 0 = den from Nat.mul_one den, roundQuotient_exact positive]
    rw [shift, rounded]
    omega
  · have shift : Nat.log2 d.units - 52 = exponent := by
      rw [units, log2_normal small]
      omega
    have rounded : roundQuotient (den * d.units) (den * Nat.pow 2 exponent) = binadeSize + fraction := by
      rw [units, Nat.mul_comm (binadeSize + fraction), ← Nat.mul_assoc]
      exact roundQuotient_exact (Nat.mul_pos positive (Nat.pow_pos (by decide))) _
    rw [shift, rounded, ← magnitude]
    exact Nat.min_eq_right (Nat.le_of_lt bounded)

end Double

namespace Decimal

/-- Moving a zero from the digits into the exponent cancels a factor of ten. -/
theorem fraction_shift (negative : Bool) (digits : Nat) (exponent : Int) :
    fraction ⟨negative, 10 * digits, exponent⟩ = fraction ⟨negative, digits, exponent + 1⟩ ∨
      fraction ⟨negative, 10 * digits, exponent⟩ =
        (10 * (fraction ⟨negative, digits, exponent + 1⟩).1, 10 * (fraction ⟨negative, digits, exponent + 1⟩).2) := by
  cases exponent with
  | ofNat n =>
    left
    show (10 * digits * 10 ^ n, 1) = (digits * 10 ^ (n + 1), 1)
    rw [Nat.pow_succ', Nat.mul_left_comm, Nat.mul_assoc]
  | negSucc n =>
    right
    cases n with
    | zero => simp [fraction]
    | succ n =>
      show (10 * digits, 10 ^ (n + 1 + 1)) = (10 * digits, 10 * 10 ^ (n + 1))
      rw [Nat.pow_succ']

private theorem toDouble_shift (negative : Bool) (digits : Nat) (exponent : Int) :
    toDouble ⟨negative, 10 * digits, exponent⟩ = toDouble ⟨negative, digits, exponent + 1⟩ := by
  unfold toDouble
  rcases fraction_shift negative digits exponent with same | scaled
  · rw [same]
  · rw [scaled, nearestMagnitude_mul (by decide)]

private theorem toDouble_trim (d : Decimal) : d.trim.toDouble = d.toDouble := by
  induction d using trim.induct with
  | case1 d zeros ih =>
    rw [trim, dif_pos zeros, ih, ← toDouble_shift, Nat.mul_div_cancel' (Nat.dvd_of_mod_eq_zero zeros.2)]
  | case2 d zeros => rw [trim, dif_neg zeros]

private theorem negative_trim (d : Decimal) : d.trim.negative = d.negative := by
  induction d using trim.induct with
  | case1 d zeros ih => rw [trim, dif_pos zeros, ih]
  | case2 d zeros => rw [trim, dif_neg zeros]

end Decimal

namespace Double

private theorem toDouble_of_exact {d : Double} (finite : d.isFinite = true) (unsigned : d.negative = false)
    {decimal : Decimal}
    (positive : 0 < decimal.fraction.2) (exact : decimal.fraction.1 * unitsPerOne = decimal.fraction.2 * d.units)
    (sign : decimal.negative = d.negative) : decimal.toDouble = d := by
  rw [Decimal.toDouble, nearestMagnitude_of_exact finite positive exact, sign, unsigned, ofMagnitude_magnitude unsigned]

/-- A unit has as many decimal places as binary ones. Their number is a variable here, so that no power is computed. -/
theorem toDouble_places {d : Double} (finite : d.isFinite = true) (unsigned : d.negative = false) {places : Nat}
    (unit : unitsPerOne = Nat.pow 2 (places + 1)) :
    Decimal.toDouble ⟨d.negative, d.units * Nat.pow 5 (places + 1), Int.negSucc places⟩ = d := by
  apply toDouble_of_exact finite unsigned
  · exact Nat.pow_pos (by decide)
  · have tens : Nat.pow 5 (places + 1) * Nat.pow 2 (places + 1) = Nat.pow 10 (places + 1) := (Nat.mul_pow 5 2 _).symm
    rw [unit]
    show d.units * Nat.pow 5 (places + 1) * Nat.pow 2 (places + 1) = Nat.pow 10 (places + 1) * d.units
    rw [Nat.mul_assoc, tens, Nat.mul_comm]
  · rfl

private theorem toDouble_expansion {d : Double} (finite : d.isFinite = true) (unsigned : d.negative = false) :
    d.expansion.toDouble = d := by
  have places : 1074 = 1073 + 1 := rfl
  exact toDouble_places finite unsigned (congrArg (Nat.pow 2) places)

private theorem toDouble_neighbour? {d : Double} {count : Nat} {decimal : Decimal}
    (found : d.neighbour? count = some decimal) : decimal.toDouble = d ∧ decimal.negative = d.negative := by
  unfold neighbour? at found
  generalize d.scaledFraction (d.leadingExponent + 1 - count) = scaled at found
  dsimp only at found
  have reads := List.find?_some found
  have member := List.mem_of_find?_eq_some found
  refine ⟨of_decide_eq_true reads, ?_⟩
  split at member
  · rcases List.mem_cons.mp member with rfl | member
    · rfl
    · rw [List.mem_singleton.mp member]
  · rcases List.mem_cons.mp member with rfl | member
    · rfl
    · rw [List.mem_singleton.mp member]

private theorem toDouble_shortest {d : Double} (finite : d.isFinite = true) (unsigned : d.negative = false) :
    d.shortest.toDouble = d ∧ d.shortest.negative = false := by
  unfold shortest
  split
  · next zero =>
    have units : d.units = 0 := by
      have none : d.magnitude = 0 := by simpa [isZero] using zero
      simp [units, none]
    refine ⟨toDouble_of_exact finite unsigned Nat.one_pos ?_ rfl, unsigned⟩
    simp [Decimal.fraction, units]
  · split
    · next decimal found =>
      obtain ⟨count, _, found⟩ := List.exists_of_findSome?_eq_some found
      obtain ⟨same, sign⟩ := toDouble_neighbour? found
      rw [Decimal.toDouble_trim, Decimal.negative_trim, same, sign]
      exact ⟨rfl, unsigned⟩
    · rw [Decimal.toDouble_trim, Decimal.negative_trim]
      exact ⟨toDouble_expansion finite unsigned, unsigned⟩

end Double

namespace Decimal

private theorem natOfDigits_eq (text : List Char) : natOfDigits text = Nat.ofDigitChars 10 text 0 := rfl

theorem isDigit_toDigits (n : Nat) : ∀ c ∈ Nat.toDigits 10 n, isDigit c = true := by
  intro c member
  have digit := Nat.isDigit_of_mem_toDigits (by decide) (by decide) member
  simpa [Char.isDigit, isDigit, Char.le_def] using digit

/-- How digits are read that something else, or nothing, follows. -/
theorem parse?_append {whole : List Char} (nonempty : whole ≠ []) (digits : ∀ c ∈ whole, isDigit c = true)
    (rest : List Char) (taken : rest.takeWhile isDigit = []) (left : rest.dropWhile isDigit = rest) :
    parse? (whole ++ rest) =
      (readExponent? (readFraction rest).2).map fun exponent =>
        ⟨false, natOfDigits (whole ++ (readFraction rest).1), exponent - (readFraction rest).1.length⟩ := by
  have unsigned : readSign (whole ++ rest) = (false, whole ++ rest) := by
    unfold readSign
    split
    · next same =>
      obtain ⟨first, others, rfl⟩ := List.exists_cons_of_ne_nil nonempty
      cases same
      have sign := digits '-' List.mem_cons_self
      contradiction
    · rfl
  simp [parse?, unsigned, List.takeWhile_append_of_pos digits, List.dropWhile_append_of_pos digits, taken, left,
    nonempty]

theorem parse?_digits {whole : List Char} (nonempty : whole ≠ []) (digits : ∀ c ∈ whole, isDigit c = true) :
    parse? whole = some ⟨false, natOfDigits whole, 0⟩ := by
  have read := parse?_append nonempty digits [] rfl rfl
  simpa [readFraction, readExponent?] using read

private theorem parse?_point {whole fraction : List Char} (nonempty : whole ≠ [])
    (digits : ∀ c ∈ whole, isDigit c = true) (others : ∀ c ∈ fraction, isDigit c = true) :
    parse? (whole ++ '.' :: fraction) = some ⟨false, natOfDigits (whole ++ fraction), -fraction.length⟩ := by
  have taken : fraction.takeWhile isDigit = fraction := List.takeWhile_eq_self_iff.mpr others
  have left : fraction.dropWhile isDigit = [] := List.dropWhile_eq_nil_iff.mpr others
  have read := parse?_append nonempty digits ('.' :: fraction) rfl rfl
  simpa [readFraction, readExponent?, taken, left] using read

private theorem natOfDigits_zeros_append (count n : Nat) :
    natOfDigits (List.replicate count '0' ++ Nat.toDigits 10 n) = n := by
  rw [natOfDigits_eq, Nat.ofDigitChars_append, Nat.ofDigitChars_replicate_zero, Nat.mul_zero,
    Nat.ofDigitChars_ten_toDigits]

private theorem natOfDigits_append_zeros (n count : Nat) :
    natOfDigits (Nat.toDigits 10 n ++ List.replicate count '0') = n * Nat.pow 10 count := by
  rw [natOfDigits_eq, Nat.ofDigitChars_append, Nat.ofDigitChars_ten_toDigits, Nat.ofDigitChars_replicate_zero,
    Nat.mul_comm, Nat.pow_eq]

private theorem isDigit_replicate (count : Nat) : ∀ c ∈ List.replicate count '0', isDigit c = true := by
  intro c member
  rw [List.eq_of_mem_replicate member]
  rfl

/-- Digits and points that read as a decimal worth `d`. -/
structure Writes (text : List Char) (d : Double) : Prop where
  nonempty : text ≠ []
  plain : ∀ c ∈ text, isDigit c = true ∨ c = '.'
  reads : ∃ read, parse? text = some read ∧ read.toDouble = d

theorem writes_whole (digits n : Nat) :
    Writes (Nat.toDigits 10 digits ++ List.replicate n '0') (toDouble ⟨false, digits, .ofNat n⟩) := by
  have run : ∀ c ∈ Nat.toDigits 10 digits ++ List.replicate n '0', isDigit c = true :=
    List.forall_mem_append.mpr ⟨isDigit_toDigits digits, isDigit_replicate n⟩
  have nonempty : Nat.toDigits 10 digits ++ List.replicate n '0' ≠ [] := by simp
  have fraction : fraction ⟨false, digits * Nat.pow 10 n, 0⟩ = fraction ⟨false, digits, .ofNat n⟩ :=
    congrArg (·, 1) (Nat.mul_one _)
  refine ⟨nonempty, fun c member => .inl (run c member), _, parse?_digits nonempty run, ?_⟩
  rw [natOfDigits_append_zeros, toDouble, fraction, toDouble]

private theorem writes_point {whole fraction : List Char} (nonempty : whole ≠ [])
    (digits : ∀ c ∈ whole ++ fraction, isDigit c = true) :
    Writes (whole ++ '.' :: fraction) (toDouble ⟨false, natOfDigits (whole ++ fraction), -fraction.length⟩) := by
  obtain ⟨before, after⟩ := List.forall_mem_append.mp digits
  refine ⟨by simp, fun c member => ?_, _, parse?_point nonempty before after, rfl⟩
  rcases List.mem_append.mp member with early | late
  · exact .inl (before c early)
  · rcases List.mem_cons.mp late with rfl | late
    · exact .inr rfl
    · exact .inl (after c late)

/-- The digits in place stand for the same number. -/
theorem writes_positional {d : Decimal} (unsigned : d.negative = false) : Writes d.positional.toList d.toDouble := by
  obtain ⟨negative, digits, exponent⟩ := d
  subst unsigned
  cases exponent with
  | ofNat n =>
    have text : (positional ⟨false, digits, .ofNat n⟩).toList = Nat.toDigits 10 digits ++ List.replicate n '0' := by
      simp [positional]
    rw [text]
    exact writes_whole digits n
  | negSucc n =>
    generalize same : List.replicate (n + 2 - (Nat.toDigits 10 digits).length) '0' ++ Nat.toDigits 10 digits = padded
    have text : (positional ⟨false, digits, .negSucc n⟩).toList =
        padded.take (padded.length - (n + 1)) ++ '.' :: padded.drop (padded.length - (n + 1)) := by
      simp [positional, same]
    have run : ∀ c ∈ padded, isDigit c = true :=
      same ▸ List.forall_mem_append.mpr ⟨isDigit_replicate _, isDigit_toDigits digits⟩
    have long : n + 2 ≤ padded.length := by
      rw [← same, List.length_append, List.length_replicate]
      omega
    have nonempty : padded.take (padded.length - (n + 1)) ≠ [] := by
      rw [← List.length_pos_iff, List.length_take]
      omega
    have places : (padded.drop (padded.length - (n + 1))).length = n + 1 := by
      rw [List.length_drop]
      omega
    have writes := writes_point nonempty (by rwa [List.take_append_drop])
    rw [List.take_append_drop, places, ← same, natOfDigits_zeros_append, same] at writes
    rw [text]
    exact writes

end Decimal

/-- The written form of a finite number without a sign reads back. -/
theorem Double.writes_text {d : Double} (finite : d.isFinite = true) (unsigned : d.negative = false) :
    Decimal.Writes d.text.toList d := by
  have noNaN : d.isNaN = false := by
    simp only [isFinite, isNaN, decide_eq_true_eq, decide_eq_false_iff_not] at finite ⊢
    exact UInt64.lt_asymm finite
  obtain ⟨same, sign⟩ := toDouble_shortest finite unsigned
  have writes := Decimal.writes_positional sign
  rw [same] at writes
  simpa [text, noNaN, finite] using writes

end Kaleidoscope
