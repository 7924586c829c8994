import Kaleidoscope.Proofs.Double.Text
import Kaleidoscope.Proofs.Token.Scan

/-!
How tokens are written: which text is one token and nothing else, and how a text is scanned that puts such pieces
together with blanks and brackets between them.
-/

namespace Kaleidoscope.Token

/-- The whole text is this one token. -/
def WrittenAs (token : Token) (text : String) : Prop := next? text.toList = some (token, [])

instance (token : Token) (text : String) : Decidable (token.WrittenAs text) :=
  inferInstanceAs (Decidable (next? text.toList = some (token, [])))

variable {token : Token} {text : String}

theorem WrittenAs.scan (written : token.WrittenAs text) : scan text.toList = [token] :=
  (scan_of_some written).trans (congrArg _ (scan_of_none rfl))

theorem writtenAs_keyword (word : Keyword) : (keyword word).WrittenAs word.text := by
  cases word <;> decide

theorem isPrintable_of_isNumeral {c : Char} (numeral : isNumeral c = true) : isPrintable c = true := by
  simp only [isNumeral, Decimal.isDigit, isPrintable, Char.le_def, UInt32.le_iff_toNat_le, Bool.or_eq_true,
    Bool.and_eq_true, decide_eq_true_eq] at numeral ⊢
  rcases numeral with ⟨low, high⟩ | rfl
  · have first : ('0' : Char).val.toNat = 48 := rfl
    have last : ('9' : Char).val.toNat = 57 := rfl
    have least : ('!' : Char).val.toNat = 33 := rfl
    have greatest : ('~' : Char).val.toNat = 126 := rfl
    omega
  · decide

theorem next?_cons {c : Char} (printable : isPrintable c = true) (rest : List Char) :
    next? (c :: rest) = some (lexeme c rest) := by
  simp [next?_eq, printable]

private theorem lexeme_numeral {c : Char} {run : List Char} (numerals : ∀ d ∈ c :: run, isNumeral d = true) :
    lexeme c run = (ofNumeral (c :: run), []) := by
  obtain ⟨first, others⟩ := List.forall_mem_cons.mp numerals
  have taken : run.takeWhile isNumeral = run := List.takeWhile_eq_self_iff.mpr others
  have left : run.dropWhile isNumeral = [] := List.dropWhile_eq_nil_iff.mpr others
  simp [lexeme, first, taken, left]

private theorem lexeme_word {c : Char} {run : List Char} (noNumeral : isNumeral c = false)
    (start : isWordStart c = true)
    (parts : ∀ d ∈ run, isWordPart d = true) : lexeme c run = (ofWord (c :: run), []) := by
  have taken : run.takeWhile isWordPart = run := List.takeWhile_eq_self_iff.mpr parts
  have left : run.dropWhile isWordPart = [] := List.dropWhile_eq_nil_iff.mpr parts
  simp [lexeme, noNumeral, start, taken, left]

theorem writtenAs_number {value : Double} (writes : Decimal.Writes text.toList value) :
    (number value).WrittenAs text := by
  obtain ⟨nonempty, plain, read, parsed, same⟩ := writes
  have numerals : ∀ c ∈ text.toList, isNumeral c = true := by simpa [isNumeral] using plain
  unfold WrittenAs
  cases begins : text.toList with
  | nil => contradiction
  | cons c run =>
    rw [begins] at parsed numerals
    have printable := isPrintable_of_isNumeral (numerals c List.mem_cons_self)
    rw [next?_cons printable, lexeme_numeral numerals, ofNumeral, parsed, ← same]

/-! Every name and every symbol that has been scanned is a token on its own. -/

/-- The text of a name or a symbol. -/
def text? : Token → Option String
  | ident name => some name
  | operator symbol => some symbol.toString
  | other symbol => some symbol.toString
  | _ => none

def Lexed (token : Token) : Prop := ∀ text, token.text? = some text → token.WrittenAs text

private theorem text?_ofNumeral {run : List Char} (same : (ofNumeral run).text? = some text) :
    text = String.ofList run := by
  unfold ofNumeral at same
  split at same
  · contradiction
  · exact (Option.some.inj same).symm

private theorem text?_ofWord {run : List Char} (same : (ofWord run).text? = some text) : text = String.ofList run := by
  unfold ofWord at same
  split at same
  · contradiction
  · exact (Option.some.inj same).symm

private theorem text?_ofSymbol {c : Char} (same : (ofSymbol c).text? = some text) : text = c.toString := by
  unfold ofSymbol at same
  split at same
  · contradiction
  · split at same <;> exact (Option.some.inj same).symm

private theorem lexed_lexeme {c : Char} (printable : isPrintable c = true) (rest : List Char) :
    (lexeme c rest).1.Lexed := by
  intro text same
  unfold WrittenAs
  unfold lexeme at same ⊢
  split at same
  · next numeral =>
    have run : ∀ d ∈ c :: rest.takeWhile isNumeral, isNumeral d = true :=
      List.forall_mem_cons.mpr ⟨numeral, fun d member => List.mem_takeWhile_imp member⟩
    rw [if_pos numeral, text?_ofNumeral same, String.toList_ofList, next?_cons printable, lexeme_numeral run]
  · next noNumeral =>
    rw [if_neg noNumeral]
    split at same
    · next start =>
      have run : ∀ d ∈ rest.takeWhile isWordPart, isWordPart d = true := fun d member =>
        List.mem_takeWhile_imp member
      rw [if_pos start, text?_ofWord same, String.toList_ofList, next?_cons printable,
        lexeme_word (by simpa using noNumeral) start run]
    · next noWord =>
      rw [if_neg noWord]
      split at same
      · contradiction
      · next noComment =>
        have alone : text.toList = [c] := by simp [text?_ofSymbol same]
        simp [alone, next?_cons printable, lexeme, noNumeral, noWord, noComment]

private theorem lexed_scan (text : List Char) : ∀ token ∈ scan text, token.Lexed := by
  induction text using scan.induct with
  | case1 text none =>
    rw [scan_of_none none]
    exact List.forall_mem_nil _
  | case2 text token rest found ih =>
    rw [scan_of_some found]
    refine List.forall_mem_cons.mpr ⟨?_, ih⟩
    rw [next?_eq] at found
    split at found
    · contradiction
    · next c tail begins =>
      obtain rfl := congrArg Prod.fst (Option.some.inj found)
      exact lexed_lexeme (isPrintable_of_begins begins) tail

theorem lexed_significant (source : String) : ∀ token ∈ significant source, token.Lexed :=
  fun token member => lexed_scan source.toList token (List.mem_filter.mp member).1

/-! Pieces of text put together. -/

theorem scan_blank (rest : List Char) : scan (' ' :: rest) = scan rest := scan_skip rfl rest

theorem scan_mark (m : Mark) (rest : List Char) : scan (m.symbol :: rest) = mark m :: scan rest := by
  cases m <;> exact scan_symbol rfl rfl rfl (by decide) rest

theorem WrittenAs.scan_append (written : token.WrittenAs text) (quiet : token.isComment = false) {c : Char}
    (cuts : Cuts c) (rest : List Char) : Token.scan (text.toList ++ c :: rest) = token :: Token.scan (c :: rest) := by
  have quiet : ∀ other ∈ Token.scan text.toList, other.isComment = false := by simpa [written.scan] using quiet
  rw [Token.scan_append cuts (.inr quiet), written.scan]
  rfl

private theorem operatorSymbol?_ofNumeral (run : List Char) : (ofNumeral run).operatorSymbol? = none := by
  unfold ofNumeral
  split <;> rfl

private theorem operatorSymbol?_ofWord (run : List Char) : (ofWord run).operatorSymbol? = none := by
  unfold ofWord
  split <;> rfl

/-- What the symbol of an operator is not. -/
structure IsSymbol (c : Char) : Prop extends Cuts c where
  printable : isPrintable c = true
  noComment : c ≠ '#'

theorem IsSymbol.scan {c : Char} (symbol : IsSymbol c) (rest : List Char) :
    scan (c :: rest) = ofSymbol c :: scan rest := by
  have noWord : isWordStart c = false := by simpa [isWordPart] using And.left (Bool.or_eq_false_iff.mp symbol.word)
  exact scan_symbol symbol.printable symbol.numeral noWord symbol.noComment rest

theorem WrittenAs.isSymbol {c : Char} (written : token.WrittenAs c.toString)
    (names : token.operatorSymbol? = some c) : IsSymbol c ∧ ofSymbol c = token := by
  have alone : next? [c] = some (token, []) := by simpa [WrittenAs] using written
  have printable : isPrintable c = true := by
    cases blank : isPrintable c with
    | true => rfl
    | false => simp [next?_eq, blank] at alone
  rw [next?_cons printable] at alone
  have read : (lexeme c []).1 = token := congrArg Prod.fst (Option.some.inj alone)
  unfold lexeme at read
  split at read
  · subst read
    rw [operatorSymbol?_ofNumeral] at names
    contradiction
  · next noNumeral =>
    split at read
    · subst read
      rw [operatorSymbol?_ofWord] at names
      contradiction
    · next noWord =>
      split at read
      · subst read
        contradiction
      · next noComment =>
        have noPart : isWordPart c = false := by
          simp only [isNumeral, Bool.not_eq_true, Bool.or_eq_false_iff] at noNumeral
          simpa [isWordPart, noNumeral] using noWord
        exact ⟨⟨⟨by simpa using noNumeral, noPart⟩, printable, noComment⟩, read⟩

/-- The symbol of an operator is a token whatever follows. -/
theorem WrittenAs.scan_cons {c : Char} (written : token.WrittenAs c.toString)
    (names : token.operatorSymbol? = some c) (rest : List Char) :
    Token.scan (c :: rest) = token :: Token.scan rest := by
  obtain ⟨symbol, same⟩ := written.isSymbol names
  rw [symbol.scan, same]

theorem scan_openParen (rest : List Char) : scan ('(' :: rest) = .mark .openParen :: scan rest :=
  scan_mark .openParen rest

theorem scan_closeParen : scan [')'] = [.mark .closeParen] :=
  (scan_mark .closeParen []).trans (congrArg _ (scan_of_none rfl))

theorem scan_equals (rest : List Char) : scan ('=' :: ' ' :: rest) = .operator '=' :: scan rest :=
  (scan_symbol rfl rfl rfl (by decide) _).trans (congrArg _ (scan_blank rest))

theorem scan_keyword (word : Keyword) (rest : List Char) :
    scan (word.text.toList ++ ' ' :: rest) = .keyword word :: scan rest := by
  rw [(writtenAs_keyword word).scan_append rfl ⟨rfl, rfl⟩, scan_blank]

theorem scan_name {name : String} (named : (ident name).WrittenAs name) (rest : List Char) :
    scan (name.toList ++ ' ' :: rest) = .ident name :: scan rest := by
  rw [named.scan_append rfl ⟨rfl, rfl⟩, scan_blank]

end Kaleidoscope.Token
