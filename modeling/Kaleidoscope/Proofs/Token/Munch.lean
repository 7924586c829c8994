import Mathlib.Data.List.Forall2
import Kaleidoscope.Proofs.Token.Spelling
import Kaleidoscope.Proofs.Token.Written

/-!
Scanning is maximal munch. Every text is cut in exactly one way into lexemes that the next character cannot prolong,
with gaps of unprintable characters around them. Scanning yields the token of each lexeme, in order, and then no more.
-/

namespace Kaleidoscope.Token

/-- The kinds of lexemes. -/
inductive Lexeme where
  /-- A run of digits and points. -/
  | numeral
  /-- A letter or underscore, and the letters, digits and underscores after it. -/
  | word
  /-- A number sign and the rest of its line. -/
  | comment
  /-- Any other printable character. -/
  | symbol
  deriving DecidableEq

namespace Lexeme

def starts : Lexeme → Char → Bool
  | numeral, c => '0' ≤ c && c ≤ '9' || c = '.'
  | word, c => 'a' ≤ c && c ≤ 'z' || 'A' ≤ c && c ≤ 'Z' || c = '_'
  | comment, c => c = '#'
  | symbol, c =>
    '!' ≤ c && c ≤ '~' && !('0' ≤ c && c ≤ '9' || c = '.') &&
      !('a' ≤ c && c ≤ 'z' || 'A' ≤ c && c ≤ 'Z' || c = '_') && c ≠ '#'

/-- Whether a lexeme goes on with this character. -/
def takes : Lexeme → Char → Bool
  | numeral, c => '0' ≤ c && c ≤ '9' || c = '.'
  | word, c => 'a' ≤ c && c ≤ 'z' || 'A' ≤ c && c ≤ 'Z' || c = '_' || '0' ≤ c && c ≤ '9'
  | comment, c => !(c = '\n' || c = '\r')
  | symbol, _ => false

/-- The whole text is one lexeme of this kind. -/
def Shapes (kind : Lexeme) : List Char → Prop
  | [] => False
  | first :: run => kind.starts first = true ∧ ∀ c ∈ run, kind.takes c = true

instance (kind : Lexeme) (text : List Char) : Decidable (kind.Shapes text) :=
  match text with
  | [] => inferInstanceAs (Decidable False)
  | first :: run =>
    decidable_of_iff (kind.starts first = true ∧ run.all kind.takes = true) (and_congr_right fun _ => List.all_eq_true)

end Lexeme

/-- What each lexeme stands for. Digits and points that are no number are a name, as words are that are no keyword. -/
inductive Denotes : List Char → Token → Prop where
  | number {run : List Char} {decimal : Decimal} (shaped : Lexeme.numeral.Shapes run)
      (reads : Decimal.parse? run = some decimal) : Denotes run (.number decimal.toDouble)
  | unread {run : List Char} (shaped : Lexeme.numeral.Shapes run) (fails : Decimal.parse? run = none) :
      Denotes run (.ident (String.ofList run))
  | keyword (word : Keyword) : Denotes word.text.toList (.keyword word)
  | name {run : List Char} (shaped : Lexeme.word.Shapes run) (free : ∀ word : Keyword, word.text.toList ≠ run) :
      Denotes run (.ident (String.ofList run))
  | comment {text : List Char} (inLine : ∀ c ∈ text, c ≠ '\n' ∧ c ≠ '\r') :
      Denotes ('#' :: text) (.comment (String.ofList text))
  | mark (m : Mark) : Denotes [m.symbol] (.mark m)
  | operator {c : Char} (builtIn : c ∈ ['+', '-', '*', '/', '%', '=', '<', '>']) : Denotes [c] (.operator c)
  | other {c : Char} (shaped : Lexeme.symbol.Shapes [c]) (noMark : ∀ m : Mark, m.symbol ≠ c)
      (noOperator : c ∉ ['+', '-', '*', '/', '%', '=', '<', '>']) : Denotes [c] (.other c)

/-- Characters between lexemes. -/
def IsGap (gap : List Char) : Prop := ∀ c ∈ gap, ¬ ('!' ≤ c ∧ c ≤ '~')

/-- A lexeme and the gap before it. -/
structure Piece where
  gap : List Char
  lexeme : List Char
  deriving DecidableEq

/-- A text cut into pieces and a last gap. No lexeme could take the character that follows it. -/
inductive Munches : List Char → List Piece → List Char → Prop where
  | last {gap : List Char} (blank : IsGap gap) : Munches gap [] gap
  | next {gap lexeme rest last : List Char} {kind : Lexeme} {pieces : List Piece} (blank : IsGap gap)
      (shaped : kind.Shapes lexeme) (maximal : ∀ c ∈ rest.head?, kind.takes c = false)
      (others : Munches rest pieces last) : Munches (gap ++ lexeme ++ rest) (⟨gap, lexeme⟩ :: pieces) last

namespace Lexeme

variable {kind other : Lexeme} {c : Char} {text lexeme rest : List Char}

/-- The token of a lexeme of this kind, as scanning makes it. -/
def token : Lexeme → List Char → Token
  | numeral, run => ofNumeral run
  | word, run => ofWord run
  | comment, run => .comment (String.ofList run.tail)
  | symbol, run => ofSymbol (run.headD '#')

/-- The classes of characters are those that scanning goes by. -/
theorem starts_eq (kind : Lexeme) (c : Char) :
    kind.starts c = match kind with
      | numeral => isNumeral c
      | word => isWordStart c
      | comment => c = '#'
      | symbol => isPrintable c && !isNumeral c && !isWordStart c && c ≠ '#' := by
  cases kind <;> rfl

private theorem isPrintable_of_isWordStart (start : isWordStart c = true) : isPrintable c = true := by
  simp only [isWordStart, isPrintable, Char.le_def, UInt32.le_iff_toNat_le, Bool.or_eq_true, Bool.and_eq_true,
    decide_eq_true_eq] at start ⊢
  have least : ('!' : Char).val.toNat = 33 := rfl
  have greatest : ('~' : Char).val.toNat = 126 := rfl
  rcases start with (⟨low, high⟩ | ⟨low, high⟩) | rfl
  · have first : ('a' : Char).val.toNat = 97 := rfl
    have last : ('z' : Char).val.toNat = 122 := rfl
    omega
  · have first : ('A' : Char).val.toNat = 65 := rfl
    have last : ('Z' : Char).val.toNat = 90 := rfl
    omega
  · decide

private theorem isPrintable_of_starts (starts : kind.starts c = true) : isPrintable c = true := by
  cases kind with
  | numeral => exact isPrintable_of_isNumeral starts
  | word => exact isPrintable_of_isWordStart starts
  | comment =>
    obtain rfl : c = '#' := of_decide_eq_true starts
    rfl
  | symbol =>
    simp only [starts_eq, Bool.and_eq_true] at starts
    exact starts.1.1.1

private theorem exists_starts (printable : isPrintable c = true) : ∃ kind : Lexeme, kind.starts c = true := by
  by_cases numeral : isNumeral c = true
  · exact ⟨.numeral, numeral⟩
  · by_cases start : isWordStart c = true
    · exact ⟨.word, start⟩
    · by_cases sign : c = '#'
      · exact ⟨.comment, decide_eq_true sign⟩
      · exact ⟨.symbol, by simp [starts_eq, printable, numeral, start, sign]⟩

private theorem not_isNumeral_of_isWordStart (start : isWordStart c = true) : isNumeral c = false := by
  have noPoint : c ≠ '.' := by
    rintro rfl
    contradiction
  simp [isNumeral, not_isDigit_of_isWordStart start, noPoint]

/-- The first character tells what kind of lexeme it is. -/
theorem starts_unique (one : kind.starts c = true) (two : other.starts c = true) : kind = other := by
  have apart : isWordStart c = true → isNumeral c = false := not_isNumeral_of_isWordStart
  have sign : c = '#' → isNumeral c = false ∧ isWordStart c = false := by
    rintro rfl
    decide
  cases kind <;> cases other <;> grind [starts_eq]

theorem Shapes.unique (one : kind.Shapes text) (two : other.Shapes text) : kind = other := by
  cases text with
  | nil => exact one.elim
  | cons first run => exact starts_unique one.1 two.1

/-- A lexeme that goes on as long as it can ends where its run ends. -/
theorem Shapes.span (shaped : kind.Shapes lexeme) (maximal : ∀ c ∈ rest.head?, kind.takes c = false) :
    ∃ first run, lexeme = first :: run ∧ kind.starts first = true ∧ (run ++ rest).takeWhile kind.takes = run ∧
      (run ++ rest).dropWhile kind.takes = rest := by
  cases lexeme with
  | nil => exact shaped.elim
  | cons first run =>
    obtain ⟨starts, taken⟩ := shaped
    refine ⟨first, run, rfl, starts, ?_⟩
    rw [List.takeWhile_append_of_pos taken, List.dropWhile_append_of_pos taken]
    cases rest with
    | nil => simp
    | cons c more =>
      have stops : kind.takes c = false := maximal c rfl
      simp [stops]

/-- Scanning takes in a lexeme of the kind that the first character starts, as far as it goes. -/
theorem lexeme_eq (starts : kind.starts c = true) (text : List Char) :
    Token.lexeme c text = (kind.token (c :: text.takeWhile kind.takes), text.dropWhile kind.takes) := by
  unfold Token.lexeme
  cases kind with
  | numeral => exact if_pos starts
  | word =>
    have noNumeral : ¬ isNumeral c = true := by simp [not_isNumeral_of_isWordStart starts]
    exact (if_neg noNumeral).trans (if_pos starts)
  | comment =>
    obtain rfl : c = '#' := of_decide_eq_true starts
    rfl
  | symbol =>
    simp only [starts_eq, Bool.and_eq_true, Bool.not_eq_true', decide_eq_true_eq] at starts
    obtain ⟨⟨⟨_, noNumeral⟩, noWord⟩, noComment⟩ := starts
    have left : text.dropWhile (takes .symbol) = text := by
      cases text with
      | nil => rfl
      | cons => rfl
    simp [noNumeral, noWord, noComment, token, left]

end Lexeme

open Lexeme

variable {lexeme text rest last last' : List Char} {kind : Lexeme} {token : Token} {pieces pieces' : List Piece}

private theorem denotes_ofNumeral (shaped : numeral.Shapes lexeme) : Denotes lexeme (ofNumeral lexeme) := by
  unfold ofNumeral
  split
  · next decimal reads => exact .number shaped reads
  · next fails => exact .unread shaped fails

private theorem denotes_ofWord (shaped : word.Shapes lexeme) : Denotes lexeme (ofWord lexeme) := by
  unfold ofWord Keyword.ofText?
  cases found : Keyword.all.find? fun keyword => keyword.text = String.ofList lexeme with
  | some word =>
    have spells : word.text = String.ofList lexeme := by simpa using List.find?_some found
    have same : word.text.toList = lexeme := by rw [spells, String.toList_ofList]
    rw [← same]
    exact .keyword word
  | none =>
    apply Denotes.name shaped
    intro word same
    have listed : word ∈ Keyword.all := by cases word <;> decide
    have differs := List.find?_eq_none.mp found word listed
    simp [← same] at differs

private theorem denotes_ofSymbol {c : Char} (shaped : symbol.Shapes [c]) : Denotes [c] (ofSymbol c) := by
  unfold ofSymbol Mark.ofSymbol?
  cases found : Mark.all.find? fun mark => mark.symbol = c with
  | some m =>
    have same : m.symbol = c := by simpa using List.find?_some found
    rw [← same]
    exact .mark m
  | none =>
    have noMark : ∀ m : Mark, m.symbol ≠ c := by
      intro m same
      have listed : m ∈ Mark.all := by cases m <;> decide
      have differs := List.find?_eq_none.mp found m listed
      simp [same] at differs
    have listed : isOperator c = true ↔ c ∈ ['+', '-', '*', '/', '%', '=', '<', '>'] := List.contains_iff_mem
    dsimp only
    by_cases operator : isOperator c = true
    · rw [if_pos operator]
      exact .operator (listed.mp operator)
    · rw [if_neg operator]
      exact .other shaped noMark fun member => operator (listed.mpr member)

/-- Every lexeme has a token. -/
theorem Lexeme.Shapes.denotes (shaped : kind.Shapes lexeme) : Denotes lexeme (kind.token lexeme) := by
  cases kind with
  | numeral => exact denotes_ofNumeral shaped
  | word => exact denotes_ofWord shaped
  | comment =>
    cases lexeme with
    | nil => exact shaped.elim
    | cons first run =>
      obtain ⟨starts, taken⟩ := shaped
      obtain rfl : first = '#' := of_decide_eq_true starts
      apply Denotes.comment
      intro c member
      have goesOn := taken c member
      simpa [takes] using goesOn
  | symbol =>
    obtain ⟨c, run, rfl⟩ : ∃ c run, lexeme = c :: run := by
      cases lexeme with
      | nil => exact shaped.elim
      | cons c run => exact ⟨c, run, rfl⟩
    cases run with
    | nil => exact denotes_ofSymbol shaped
    | cons d run =>
      have taken := shaped.2 d List.mem_cons_self
      contradiction

/-- And only the one that scanning gives it. -/
theorem Denotes.eq_token (denotes : Denotes lexeme token) :
    ∃ kind : Lexeme, kind.Shapes lexeme ∧ token = kind.token lexeme := by
  cases denotes with
  | number shaped reads => exact ⟨.numeral, shaped, by simp [Lexeme.token, ofNumeral, reads]⟩
  | unread shaped fails => exact ⟨.numeral, shaped, by simp [Lexeme.token, ofNumeral, fails]⟩
  | keyword word => exact ⟨.word, by cases word <;> decide, by cases word <;> rfl⟩
  | name shaped free =>
    refine ⟨.word, shaped, ?_⟩
    have none : Keyword.ofText? (String.ofList lexeme) = none := by
      apply List.find?_eq_none.mpr
      intro word _ same
      apply free word
      rw [of_decide_eq_true same, String.toList_ofList]
    simp [Lexeme.token, ofWord, none]
  | comment inLine =>
    refine ⟨.comment, ⟨rfl, fun c member => ?_⟩, rfl⟩
    simp [takes, inLine c member]
  | mark m => exact ⟨.symbol, by cases m <;> exact ⟨rfl, List.forall_mem_nil _⟩, by cases m <;> rfl⟩
  | operator builtIn =>
    simp only [List.mem_cons, List.not_mem_nil, or_false] at builtIn
    rcases builtIn with rfl | rfl | rfl | rfl | rfl | rfl | rfl | rfl <;>
      exact ⟨.symbol, ⟨rfl, List.forall_mem_nil _⟩, rfl⟩
  | @other c shaped noMark noOperator =>
    refine ⟨.symbol, shaped, ?_⟩
    have none : Mark.ofSymbol? c = none := by
      apply List.find?_eq_none.mpr
      intro m _ same
      exact noMark m (of_decide_eq_true same)
    have noOperator : isOperator c = false := by
      rw [← Bool.not_eq_true]
      exact fun member => noOperator (List.contains_iff_mem.mp member)
    simp [Lexeme.token, ofSymbol, none, noOperator]

private theorem denotes_iff (shaped : kind.Shapes lexeme) : Denotes lexeme token ↔ token = kind.token lexeme := by
  constructor
  · intro denotes
    obtain ⟨other, shaped', rfl⟩ := denotes.eq_token
    rw [shaped.unique shaped']
  · rintro rfl
    exact shaped.denotes

private theorem isGap_iff {gap : List Char} : IsGap gap ↔ ∀ c ∈ gap, isPrintable c = false := by
  simp only [IsGap, isPrintable, Bool.and_eq_false_iff, decide_eq_false_iff_not, not_and_or]

/-- A gap ends where a lexeme starts. -/
theorem IsGap.span {gap : List Char} (blank : IsGap gap) {first : Char} (starts : kind.starts first = true)
    (more : List Char) :
    (gap ++ first :: more).takeWhile (!isPrintable ·) = gap ∧
      (gap ++ first :: more).dropWhile (!isPrintable ·) = first :: more := by
  have skipped : ∀ c ∈ gap, (!isPrintable c) = true := fun c member => by rw [isGap_iff.mp blank c member]; rfl
  rw [List.takeWhile_append_of_pos skipped, List.dropWhile_append_of_pos skipped]
  simp [isPrintable_of_starts starts]

/-- What the first token and the rest are, if the text is cut after a gap and a lexeme. -/
theorem next?_piece {gap : List Char} (blank : IsGap gap) (shaped : kind.Shapes lexeme)
    (maximal : ∀ c ∈ rest.head?, kind.takes c = false) :
    next? (gap ++ lexeme ++ rest) = some (kind.token lexeme, rest) := by
  obtain ⟨first, run, rfl, starts, taken, left⟩ := shaped.span maximal
  have split : gap ++ (first :: run) ++ rest = gap ++ first :: (run ++ rest) := by simp
  rw [split, next?_eq, (blank.span starts _).2]
  dsimp only
  rw [lexeme_eq starts, taken, left]

private theorem next?_gap {gap : List Char} (blank : IsGap gap) : next? gap = none := by
  have skipped : gap.dropWhile (!isPrintable ·) = [] := by
    apply List.dropWhile_eq_nil_iff.mpr
    intro c member
    rw [isGap_iff.mp blank c member]
    rfl
  rw [next?_eq, skipped]

/-- Scanning gives each lexeme its token. -/
theorem Munches.denotes_iff (munches : Munches text pieces last) (tokens : List Token) :
    List.Forall₂ Denotes (pieces.map Piece.lexeme) tokens ↔ tokens = scan text := by
  induction munches generalizing tokens with
  | last blank => rw [scan_of_none (next?_gap blank), List.map_nil, List.forall₂_nil_left_iff]
  | next blank shaped maximal others ih =>
    rw [scan_of_some (next?_piece blank shaped maximal), List.map_cons, List.forall₂_cons_left_iff]
    constructor
    · rintro ⟨token, tokens, denotes, later, rfl⟩
      rw [(Token.denotes_iff shaped).mp denotes, (ih tokens).mp later]
    · rintro rfl
      exact ⟨_, _, shaped.denotes, (ih _).mpr rfl, rfl⟩

/-- There is a way to cut every text. -/
theorem exists_munches (text : List Char) : ∃ pieces last, Munches text pieces last := by
  induction text using scan.induct with
  | case1 text none =>
    refine ⟨[], text, .last (isGap_iff.mpr fun c member => ?_)⟩
    have skipped : text.dropWhile (!isPrintable ·) = [] := by
      rw [next?_eq] at none
      split at none
      · assumption
      · contradiction
    have blank := List.dropWhile_eq_nil_iff.mp skipped c member
    simpa using blank
  | case2 text token rest found ih =>
    obtain ⟨pieces, last, munches⟩ := ih
    rw [next?_eq] at found
    split at found
    · contradiction
    · next c tail begins =>
      obtain ⟨kind, starts⟩ := exists_starts (isPrintable_of_begins begins)
      rw [lexeme_eq starts] at found
      cases found
      have split : text =
          text.takeWhile (!isPrintable ·) ++ (c :: tail.takeWhile kind.takes) ++ tail.dropWhile kind.takes := by
        rw [List.append_assoc, List.cons_append, List.takeWhile_append_dropWhile, ← begins,
          List.takeWhile_append_dropWhile]
      rw [split]
      refine ⟨_, last, .next (isGap_iff.mpr fun d member => ?_) ⟨starts, fun d member => List.mem_takeWhile_imp member⟩
        (fun d first => ?_) munches⟩
      · have blank := List.mem_takeWhile_imp member
        simpa using blank
      · have stops := List.head?_dropWhile_not kind.takes tail
        rw [Option.mem_def.mp first] at stops
        simpa using stops

/-- And no other way. -/
theorem Munches.unique (one : Munches text pieces last) (two : Munches text pieces' last') :
    pieces' = pieces ∧ last' = last := by
  induction one generalizing pieces' last' with
  | last blank =>
    cases two with
    | last => exact ⟨rfl, rfl⟩
    | next blank' shaped' maximal' =>
      have found := next?_piece blank' shaped' maximal'
      rw [next?_gap blank] at found
      contradiction
  | @next gap lexeme rest last kind pieces blank shaped maximal others ih =>
    generalize whole : gap ++ lexeme ++ rest = text at two
    cases two with
    | last blank' =>
      have found := next?_piece blank shaped maximal
      rw [whole, next?_gap blank'] at found
      contradiction
    | @next gap' lexeme' rest' _ kind' pieces' blank' shaped' maximal' others' =>
      have found := next?_piece blank shaped maximal
      rw [whole, next?_piece blank' shaped' maximal'] at found
      obtain ⟨_, rfl⟩ := Prod.mk.inj (Option.some.inj found)
      -- Both cut the same text off, and the gap is all of it that is not printable.
      have taken := List.append_cancel_right whole
      obtain ⟨first, run, rfl, starts, _, _⟩ := shaped.span maximal
      obtain ⟨first', run', rfl, starts', _, _⟩ := shaped'.span maximal'
      have gaps := (blank.span starts run).1
      rw [taken, (blank'.span starts' run').1] at gaps
      subst gaps
      rw [List.append_cancel_left taken]
      obtain ⟨rfl, rfl⟩ := ih others'
      exact ⟨rfl, rfl⟩

/-- The tokens that are asked for one by one are those of the text, and there are none after them. -/
theorem next?_scanUpTo (count : Nat) (text : List Char) :
    (next? (scanUpTo count text).2).map Prod.fst = (scan text)[count]? := by
  induction count generalizing text with
  | zero =>
    rw [scanUpTo]
    cases found : next? text with
    | none => rw [scan_of_none found, Option.map_none, List.getElem?_nil]
    | some read => rw [scan_of_some found, Option.map_some, List.getElem?_cons_zero]
  | succ count ih =>
    rw [scanUpTo]
    cases found : next? text with
    | none =>
      rw [scan_of_none found]
      rfl
    | some read =>
      rw [scan_of_some found, List.getElem?_cons_succ]
      exact ih read.2

/-- There is exactly one way to cut a text into gaps and lexemes that go on as long as they can. Scanning gives each
lexeme the token it stands for, and asking for one token after the other gives these and then none, however often.
Reading does not fail on the way. -/
theorem scan_maximal_munch (text : List Char) : ∃ pieces last,
    (∀ pieces' last', Munches text pieces' last' ↔ pieces' = pieces ∧ last' = last) ∧
    (∀ tokens, List.Forall₂ Denotes (pieces.map Piece.lexeme) tokens ↔ tokens = scan text) ∧
    ∀ count, (next? (scanUpTo count text).2).map Prod.fst = (scan text)[count]? ∧
      ∃ found, read (scanUpTo count text).2 = .ok found := by
  obtain ⟨pieces, last, munches⟩ := exists_munches text
  refine ⟨pieces, last, fun pieces' last' => ?_, munches.denotes_iff,
    fun count => ⟨next?_scanUpTo count text, _, read_eq _⟩⟩
  constructor
  · intro other
    exact munches.unique other
  · rintro ⟨rfl, rfl⟩
    exact munches

end Kaleidoscope.Token
