import Kaleidoscope.Token.Scan

/-!
Reading a token never fails. Where text can be cut: scanning goes over the two parts of a text one after the other if
the second one begins with a character that no number, word or comment at the end of the first could take in.
-/

namespace Kaleidoscope.Token

/-- The token of a printable character on its own. -/
def ofSymbol (c : Char) : Token :=
  match Mark.ofSymbol? c with
  | some m => mark m
  | none => if isOperator c then operator c else other c

private theorem ofSymbol?_eq {c : Char} (printable : isPrintable c = true) : ofSymbol? c = some (ofSymbol c) := by
  unfold ofSymbol? ofSymbol
  cases Mark.ofSymbol? c with
  | some m => rfl
  | none =>
    dsimp only
    rw [if_pos printable]
    split <;> rfl

/-- The token that starts with the printable character `c`, and the text after it. -/
def lexeme (c : Char) (text : List Char) : Token × List Char :=
  if isNumeral c then
    (ofNumeral (c :: text.takeWhile isNumeral), text.dropWhile isNumeral)
  else if isWordStart c then
    (ofWord (c :: text.takeWhile isWordPart), text.dropWhile isWordPart)
  else if c = '#' then
    (comment (String.ofList (text.takeWhile (!isLineEnd ·))), text.dropWhile (!isLineEnd ·))
  else
    (ofSymbol c, text)

private theorem lexeme?_eq {c : Char} (printable : isPrintable c = true) (text : List Char) :
    lexeme? c text = some (lexeme c text) := by
  unfold lexeme? lexeme
  rw [ofSymbol?_eq printable]
  split
  · rfl
  · split
    · rfl
    · split <;> rfl

/-- What comes after all that is skipped is printable. -/
theorem isPrintable_of_begins {text rest : List Char} {c : Char}
    (begins : text.dropWhile (!isPrintable ·) = c :: rest) : isPrintable c = true := by
  have stops := List.head?_dropWhile_not (!isPrintable ·) text
  simpa [begins] using stops

/-- Reading never fails, since every printable character starts a token. -/
theorem read_eq (text : List Char) :
    read text = .ok (match text.dropWhile (!isPrintable ·) with
      | [] => none
      | c :: rest => some (lexeme c rest)) := by
  unfold read
  cases begins : text.dropWhile (!isPrintable ·) with
  | nil => rfl
  | cons c rest => simp only [lexeme?_eq (isPrintable_of_begins begins)]

theorem next?_eq (text : List Char) :
    next? text = match text.dropWhile (!isPrintable ·) with
      | [] => none
      | c :: rest => some (lexeme c rest) := by
  rw [next?, read_eq]

theorem scan_of_none {text : List Char} (none : next? text = none) : scan text = [] := by
  rw [scan.eq_def]
  split
  · rfl
  · next found =>
    rw [none] at found
    contradiction

theorem scan_of_some {text rest : List Char} {token : Token} (found : next? text = some (token, rest)) :
    scan text = token :: scan rest := by
  rw [scan.eq_def]
  split
  · next none =>
    rw [none] at found
    contradiction
  · next found' =>
    cases found.symm.trans found'
    rfl

private theorem scan_congr {text other : List Char} (same : next? text = next? other) : scan text = scan other := by
  cases found : next? other with
  | none => rw [scan_of_none (same.trans found), scan_of_none found]
  | some read => rw [scan_of_some (same.trans found), scan_of_some found]

/-- What is not printable is skipped. -/
theorem scan_skip {c : Char} (blank : isPrintable c = false) (rest : List Char) : scan (c :: rest) = scan rest := by
  apply scan_congr
  simp [next?_eq, blank]

theorem scan_cons {c : Char} (printable : isPrintable c = true) (rest : List Char) :
    scan (c :: rest) = (lexeme c rest).1 :: scan (lexeme c rest).2 := by
  apply scan_of_some
  simp [next?_eq, printable]

/-- Marks and operators are tokens whatever follows. -/
theorem scan_symbol {c : Char} (printable : isPrintable c = true) (noNumeral : isNumeral c = false)
    (noWord : isWordStart c = false) (noComment : c ≠ '#') (rest : List Char) :
    scan (c :: rest) = ofSymbol c :: scan rest := by
  rw [scan_cons printable]
  simp [lexeme, noNumeral, noWord, noComment]

section

variable {α : Type} (p : α → Bool) {stop : α}

private theorem takeWhile_append_stop (ends : p stop = false) (items more : List α) :
    (items ++ stop :: more).takeWhile p = items.takeWhile p := by
  rw [List.takeWhile_append]
  split
  · next whole =>
    rw [List.takeWhile_cons_of_neg (by simp [ends]), List.append_nil]
    exact ((List.takeWhile_prefix p).eq_of_length whole).symm
  · rfl

theorem dropWhile_append_stop (ends : p stop = false) (items more : List α) :
    (items ++ stop :: more).dropWhile p = items.dropWhile p ++ stop :: more := by
  rw [List.dropWhile_append]
  split
  · next whole =>
    rw [List.dropWhile_cons_of_neg (by simp [ends]), List.isEmpty_iff.mp whole, List.nil_append]
  · rfl

end

/-- A character at which every number and every word ends. -/
structure Cuts (c : Char) : Prop where
  numeral : isNumeral c = false
  word : isWordPart c = false

variable {c : Char} {text : List Char}

private theorem lexeme_append (cuts : Cuts c) {first : Char}
    (ends : isLineEnd c = true ∨ (lexeme first text).1.isComment = false) (rest : List Char) :
    lexeme first (text ++ c :: rest) = ((lexeme first text).1, (lexeme first text).2 ++ c :: rest) := by
  unfold lexeme at ends ⊢
  split
  · rw [takeWhile_append_stop _ cuts.numeral, dropWhile_append_stop _ cuts.numeral]
  · next noNumeral =>
    split
    · rw [takeWhile_append_stop _ cuts.word, dropWhile_append_stop _ cuts.word]
    · next noWord =>
      split
      · next comment =>
        rw [if_neg noNumeral, if_neg noWord, if_pos comment] at ends
        have lineEnd : (!isLineEnd c) = false := by simpa [isComment] using ends
        rw [takeWhile_append_stop (!isLineEnd ·) lineEnd, dropWhile_append_stop (!isLineEnd ·) lineEnd]
      · rfl

theorem scan_append (cuts : Cuts c) (ends : isLineEnd c = true ∨ ∀ token ∈ scan text, token.isComment = false)
    (rest : List Char) : scan (text ++ c :: rest) = scan text ++ scan (c :: rest) := by
  induction text using scan.induct with
  | case1 text none =>
    rw [scan_of_none none, List.nil_append]
    have blank : text.dropWhile (!isPrintable ·) = [] := by
      rw [next?_eq] at none
      split at none
      · assumption
      · contradiction
    apply scan_congr
    simp [next?_eq, List.dropWhile_append, blank]
  | case2 text token left found ih =>
    rw [scan_of_some found] at ends ⊢
    have onward : next? (text ++ c :: rest) = some (token, left ++ c :: rest) := by
      rw [next?_eq] at found
      split at found
      · contradiction
      · next first tail begins =>
        have read := Option.some.inj found
        have ends' : isLineEnd c = true ∨ (lexeme first tail).1.isComment = false := by
          rw [read]
          exact ends.imp_right fun quiet => quiet token List.mem_cons_self
        simp [next?_eq, List.dropWhile_append, begins, lexeme_append cuts ends', read]
    rw [scan_of_some onward, ih (ends.imp_right fun quiet other member => quiet other (List.mem_cons_of_mem _ member))]
    rfl

/-- A line end separates all tokens. -/
theorem scan_append_newline (text rest : List Char) : scan (text ++ '\n' :: rest) = scan text ++ scan rest := by
  rw [scan_append ⟨rfl, rfl⟩ (.inl rfl), scan_skip rfl]

/-- A semicolon on a line of its own is one more token between those of two sources. -/
theorem significant_append (before after : String) :
    significant (before ++ "\n;\n" ++ after) = significant before ++ .mark .semicolon :: significant after := by
  have alone : scan ([';'] ++ '\n' :: after.toList) = .mark .semicolon :: scan after.toList :=
    (scan_symbol rfl rfl rfl (by decide) _).trans (congrArg _ (scan_skip rfl _))
  have text : (before ++ "\n;\n" ++ after).toList = before.toList ++ '\n' :: ([';'] ++ '\n' :: after.toList) := by
    simp
  simp only [significant, text, scan_append_newline before.toList, alone, List.filter_append]
  rfl

end Kaleidoscope.Token
