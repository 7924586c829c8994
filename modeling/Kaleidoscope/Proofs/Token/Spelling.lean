import Kaleidoscope.Expr.Prototype
import Kaleidoscope.Proofs.Token.Scan

/-!
What text can spell: no name is a number, and no symbol of an operator is part of a word. So the names of
operators, of other functions and of functions without a name are kept apart.
-/

namespace Kaleidoscope

/-- All digits, as the names of functions without a name are. -/
def Numbered (name : String) : Prop := ∀ c ∈ name.toList, Decimal.isDigit c = true

/-- A word, or digits and points that are no number. -/
structure Spellable (name : String) : Prop where
  run : (∀ c ∈ name.toList, Token.isWordPart c = true) ∨ (∀ c ∈ name.toList, Token.isNumeral c = true)
  unnumbered : ¬ Numbered name

theorem numbered_toString (n : Nat) : Numbered (toString n) := by
  intro c member
  rw [Nat.toString_eq_ofList_toDigits, String.toList_ofList] at member
  have digit := Nat.isDigit_of_mem_toDigits (by decide) (by decide) member
  simpa [Char.isDigit, Decimal.isDigit, Char.le_def] using digit

theorem toString_injective {m n : Nat} (same : toString m = toString n) : m = n := by
  rw [Nat.toString_eq_ofList_toDigits, Nat.toString_eq_ofList_toDigits] at same
  have digits := congrArg (Nat.ofDigitChars 10 ·.toList 0) same
  simpa [Nat.ofDigitChars_ten_toDigits] using digits

theorem Spellable.notEmpty {name : String} (spellable : Spellable name) : name.isEmpty = false := by
  cases same : name.isEmpty with
  | false => rfl
  | true =>
    rw [String.isEmpty_iff] at same
    subst same
    exact absurd (fun c member => by simp at member) spellable.unnumbered

namespace Prototype

theorem toList_binaryName (symbol : Char) : (binaryName symbol).toList = "binary".toList ++ [symbol] := by
  simp [binaryName]

private theorem toList_unaryName (symbol : Char) : (unaryName symbol).toList = "unary".toList ++ [symbol] := by
  simp [unaryName]

theorem unnumbered_binaryName (symbol : Char) : ¬ Numbered (binaryName symbol) := by
  intro numbered
  have digit := numbered 'b' (by rw [toList_binaryName]; simp)
  contradiction

theorem unnumbered_unaryName (symbol : Char) : ¬ Numbered (unaryName symbol) := by
  intro numbered
  have digit := numbered 'u' (by rw [toList_unaryName]; simp)
  contradiction

private theorem binaryName_ne_unaryName (op symbol : Char) : binaryName op ≠ unaryName symbol := by
  intro same
  have lengths := congrArg (·.toList.length) same
  simp only [toList_binaryName, toList_unaryName] at lengths
  simp at lengths

end Prototype

/-- What is spelled does not end in the symbol of an operator after a word. -/
theorem Spellable.ne_append {name : String} (spellable : Spellable name) (word : List Char) (letter : Char)
    {symbol : Char} (inside : letter ∈ word) (noNumeral : Token.isNumeral letter = false)
    (noWord : Token.isWordPart symbol = false) : name.toList ≠ word ++ [symbol] := by
  intro same
  rcases spellable.run with words | numerals
  · have last := words symbol (by simp [same])
    rw [noWord] at last
    contradiction
  · have early := numerals letter (by simp [same, inside])
    rw [noNumeral] at early
    contradiction

/-- Functions named like operators have as many parameters as the operators have operands. -/
def OperandCount (name : String) (count : Nat) : Prop :=
  ∀ symbol, Token.isWordPart symbol = false →
    (name = Prototype.binaryName symbol → count = 2) ∧ (name = Prototype.unaryName symbol → count = 1)

theorem Spellable.operandCount {name : String} (spellable : Spellable name) (count : Nat) :
    OperandCount name count := by
  intro symbol noWord
  constructor
  · rintro rfl
    exact absurd (Prototype.toList_binaryName symbol) (spellable.ne_append _ 'b' (by simp) (by decide) noWord)
  · rintro rfl
    exact absurd (Prototype.toList_unaryName symbol) (spellable.ne_append _ 'u' (by simp) (by decide) noWord)

theorem Numbered.operandCount {name : String} (numbered : Numbered name) (count : Nat) :
    OperandCount name count := by
  intro symbol _
  constructor
  · rintro rfl
    exact absurd numbered (Prototype.unnumbered_binaryName symbol)
  · rintro rfl
    exact absurd numbered (Prototype.unnumbered_unaryName symbol)

theorem operandCount_binary (op : Char) : OperandCount (Prototype.binaryName op) 2 :=
  fun symbol _ => ⟨fun _ => rfl, fun same => absurd same (Prototype.binaryName_ne_unaryName op symbol)⟩

theorem operandCount_unary (op : Char) : OperandCount (Prototype.unaryName op) 1 :=
  fun symbol _ => ⟨fun same => absurd same.symm (Prototype.binaryName_ne_unaryName symbol op), fun _ => rfl⟩

namespace Token

/-- A token that can come from text. -/
def Spelled : Token → Prop
  | ident name => Spellable name
  | operator symbol => isWordPart symbol = false
  | other symbol => isWordPart symbol = false
  | _ => True

/-- Digits alone are a number. -/
theorem parse?_digits {run : List Char} (nonempty : run ≠ []) (digits : ∀ c ∈ run, Decimal.isDigit c = true) :
    Decimal.parse? run ≠ none := by
  have unsigned : Decimal.readSign run = (false, run) := by
    unfold Decimal.readSign
    split
    · have sign := digits '-' List.mem_cons_self
      contradiction
    · rfl
  have whole : (run ++ []).takeWhile Decimal.isDigit = run ++ [] := List.takeWhile_append_of_pos digits
  have rest : (run ++ []).dropWhile Decimal.isDigit = [] := List.dropWhile_append_of_pos digits
  rw [List.append_nil] at whole rest
  simp [Decimal.parse?, unsigned, whole, rest, Decimal.readFraction, Decimal.readExponent?, nonempty]

private theorem spelled_ofNumeral {run : List Char} (nonempty : run ≠ []) (numerals : ∀ c ∈ run, isNumeral c = true) :
    (ofNumeral run).Spelled := by
  unfold ofNumeral
  split
  · trivial
  · next noNumber =>
    refine ⟨.inr (by simpa using numerals), fun numbered => ?_⟩
    exact parse?_digits nonempty (by simpa [Numbered] using numbered) noNumber

theorem not_isDigit_of_isWordStart {c : Char} (start : isWordStart c = true) : Decimal.isDigit c = false := by
  simp only [isWordStart, Decimal.isDigit, Char.le_def, UInt32.le_iff_toNat_le, Bool.or_eq_true, Bool.and_eq_true,
    decide_eq_true_eq, Bool.and_eq_false_iff, decide_eq_false_iff_not] at start ⊢
  rcases start with (⟨low, high⟩ | ⟨low, high⟩) | rfl
  · right
    have letter : ('a' : Char).val.toNat = 97 := rfl
    have digit : ('9' : Char).val.toNat = 57 := rfl
    omega
  · right
    have letter : ('A' : Char).val.toNat = 65 := rfl
    have digit : ('9' : Char).val.toNat = 57 := rfl
    omega
  · right
    decide

private theorem spelled_ofWord {c : Char} {run : List Char} (start : isWordStart c = true)
    (others : ∀ c ∈ run, isWordPart c = true) : (ofWord (c :: run)).Spelled := by
  unfold ofWord
  split
  · trivial
  · refine ⟨.inl ?_, fun numbered => ?_⟩
    · rw [String.toList_ofList]
      exact List.forall_mem_cons.mpr ⟨by simp [isWordPart, start], others⟩
    · have digit := numbered c (by simp)
      rw [not_isDigit_of_isWordStart start] at digit
      contradiction

private theorem spelled_ofSymbol {c : Char} (noNumeral : isNumeral c = false) (noStart : isWordStart c = false) :
    (ofSymbol c).Spelled := by
  have noPart : isWordPart c = false := by
    rw [isNumeral, Bool.or_eq_false_iff] at noNumeral
    rw [isWordPart, noStart, noNumeral.1]
    rfl
  unfold ofSymbol
  split
  · trivial
  · split
    · exact noPart
    · exact noPart

private theorem spelled_lexeme (c : Char) (text : List Char) : (lexeme c text).1.Spelled := by
  unfold lexeme
  split
  · next numeral =>
    refine spelled_ofNumeral (List.cons_ne_nil _ _) (List.forall_mem_cons.mpr ⟨numeral, fun _ member => ?_⟩)
    exact List.all_eq_true.mp (List.all_takeWhile) _ member
  · next noNumeral =>
    split
    · next start => exact spelled_ofWord start fun _ member => List.all_eq_true.mp (List.all_takeWhile) _ member
    · next noStart =>
      split
      · trivial
      · exact spelled_ofSymbol (by simpa using noNumeral) (by simpa using noStart)

private theorem spelled_scan (text : List Char) : ∀ token ∈ scan text, token.Spelled := by
  induction text using scan.induct with
  | case1 text none =>
    rw [scan_of_none none]
    exact List.forall_mem_nil _
  | case2 text token rest found ih =>
    rw [scan_of_some found]
    refine List.forall_mem_cons.mpr ⟨?_, ih⟩
    rw [next?_eq] at found
    split at found
    · contradiction
    · next c tail _ =>
      obtain rfl := congrArg Prod.fst (Option.some.inj found)
      exact spelled_lexeme c tail

theorem spelled_significant (source : String) : ∀ token ∈ significant source, token.Spelled :=
  fun token member => spelled_scan source.toList token (List.mem_filter.mp member).1

end Token

end Kaleidoscope
