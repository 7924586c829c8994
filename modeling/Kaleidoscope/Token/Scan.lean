import Kaleidoscope.Token.Basic

/-!
Splitting text into tokens. Characters outside printable ASCII separate tokens and are dropped; every
other character belongs to exactly one token, and runs are as long as they can be.
-/

namespace Kaleidoscope.Token

def isPrintable (c : Char) : Bool := '!' ≤ c && c ≤ '~'

def isNumeral (c : Char) : Bool := Decimal.isDigit c || c = '.'

def isWordStart (c : Char) : Bool := 'a' ≤ c && c ≤ 'z' || 'A' ≤ c && c ≤ 'Z' || c = '_'

def isWordPart (c : Char) : Bool := isWordStart c || Decimal.isDigit c

def isLineEnd (c : Char) : Bool := c = '\n' || c = '\r'

/-- A run of digits and points; one that is no number names an identifier. -/
def ofNumeral (run : List Char) : Token :=
  match Decimal.parse? run with
  | some decimal => number decimal.toDouble
  | none => ident (String.ofList run)

def ofWord (run : List Char) : Token :=
  match Keyword.ofText? (String.ofList run) with
  | some word => keyword word
  | none => ident (String.ofList run)

/-- The token of a character that is one on its own. -/
def ofSymbol? (c : Char) : Option Token :=
  match Mark.ofSymbol? c with
  | some m => some (mark m)
  | none =>
    if isOperator c then
      some (operator c)
    else if isPrintable c then
      some (other c)
    else
      none

/-- The token that starts with `c`, and the text after it. -/
def lexeme? (c : Char) (text : List Char) : Option (Token × List Char) :=
  if isNumeral c then
    some (ofNumeral (c :: text.takeWhile isNumeral), text.dropWhile isNumeral)
  else if isWordStart c then
    some (ofWord (c :: text.takeWhile isWordPart), text.dropWhile isWordPart)
  else if c = '#' then
    some (comment (String.ofList (text.takeWhile (!isLineEnd ·))), text.dropWhile (!isLineEnd ·))
  else
    match ofSymbol? c with
    | some token => some (token, text)
    | none => none

/-- Skips what is not printable and reads one token, unless that is the end of the text. Fails at a character that no
token starts with. -/
def read (text : List Char) : Except Char (Option (Token × List Char)) :=
  match text.dropWhile (!isPrintable ·) with
  | [] => .ok none
  | c :: rest =>
    match lexeme? c rest with
    | some found => .ok (some found)
    | none => .error c

/-- The first token of a text, and the text after it. A text that cannot be read on is at its end. -/
def next? (text : List Char) : Option (Token × List Char) :=
  match read text with
  | .ok found => found
  | .error _ => none

theorem length_dropWhile_le {α : Type} (p : α → Bool) (items : List α) :
    (items.dropWhile p).length ≤ items.length :=
  (List.dropWhile_sublist p).length_le

theorem length_lexeme?_le {c : Char} {text rest : List Char} {token : Token}
    (found : lexeme? c text = some (token, rest)) : rest.length ≤ text.length := by
  unfold lexeme? at found
  split at found
  · cases found
    exact length_dropWhile_le _ _
  · split at found
    · cases found
      exact length_dropWhile_le _ _
    · split at found
      · cases found
        exact length_dropWhile_le _ _
      · split at found
        · cases found
          exact Nat.le_refl _
        · contradiction

theorem next?_shorter {text rest : List Char} {token : Token} (found : next? text = some (token, rest)) :
    rest.length < text.length := by
  have dropped := length_dropWhile_le (!isPrintable ·) text
  unfold next? read at found
  split at found
  · next same =>
    split at same
    · cases same
      contradiction
    · next c tail begins =>
      split at same
      · next reads =>
        cases same
        cases found
        have left := length_lexeme?_le reads
        rw [begins, List.length_cons] at dropped
        omega
      · contradiction
  · contradiction

/-- All tokens of a text, comments included. -/
def scan (text : List Char) : List Token :=
  match _found : next? text with
  | none => []
  | some (token, rest) => token :: scan rest
termination_by text.length
decreasing_by exact next?_shorter ‹_›

/-- The first `count` tokens, fewer if the text ends, and the text after them. -/
def scanUpTo : Nat → List Char → List Token × List Char
  | 0, text => ([], text)
  | count + 1, text =>
    match next? text with
    | none => ([], [])
    | some (token, rest) =>
      let (tokens, rest) := scanUpTo count rest
      (token :: tokens, rest)

/-- The tokens the grammar sees. -/
def significant (source : String) : List Token :=
  (scan source.toList).filter (!·.isComment)

end Kaleidoscope.Token
