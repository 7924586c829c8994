import Kaleidoscope.Double.Text

/-!
Tokens of source text and how messages name them.
-/

namespace Kaleidoscope

inductive Keyword where
  | definition
  | external
  | condition
  | consequent
  | alternative
  | loop
  | within
  | binary
  | unary
  | variable
  deriving DecidableEq

namespace Keyword

def all : List Keyword :=
  [definition, external, condition, consequent, alternative, loop, within, binary, unary, .variable]

def text : Keyword → String
  | definition => "def"
  | external => "extern"
  | condition => "if"
  | consequent => "then"
  | alternative => "else"
  | loop => "for"
  | within => "in"
  | binary => "binary"
  | unary => "unary"
  | .variable => "var"

/-- The keyword a word spells, if it spells one. -/
def ofText? (word : String) : Option Keyword :=
  all.find? fun keyword => keyword.text = word

end Keyword

inductive Mark where
  | openParen
  | closeParen
  | openBracket
  | closeBracket
  | openBrace
  | closeBrace
  | comma
  | semicolon
  deriving DecidableEq

namespace Mark

def all : List Mark :=
  [openParen, closeParen, openBracket, closeBracket, openBrace, closeBrace, comma, semicolon]

def symbol : Mark → Char
  | openParen => '('
  | closeParen => ')'
  | openBracket => '['
  | closeBracket => ']'
  | openBrace => '\x7b'
  | closeBrace => '\x7d'
  | comma => ','
  | semicolon => ';'

def ofSymbol? (c : Char) : Option Mark := all.find? fun mark => mark.symbol = c

end Mark

inductive Token where
  | keyword (word : Keyword)
  | operator (symbol : Char)
  | mark (mark : Mark)
  | ident (name : String)
  | number (value : Double)
  | comment (text : String)
  | other (symbol : Char)
  deriving DecidableEq

namespace Token

def isOperator (c : Char) : Bool := "+-*/%=<>".toList.contains c

/-- The symbol of a token that can name an operator. -/
def operatorSymbol? : Token → Option Char
  | operator symbol => some symbol
  | other symbol => some symbol
  | _ => none

def describe : Token → String
  | keyword word => "keyword '" ++ word.text ++ "'"
  | operator symbol => "operator '" ++ symbol.toString ++ "'"
  | mark m => "'" ++ m.symbol.toString ++ "'"
  | ident name => "identifier '" ++ name ++ "'"
  | number value => "number " ++ value.text
  | comment _ => "comment"
  | other symbol => "'" ++ symbol.toString ++ "'"

def isComment : Token → Bool
  | comment _ => true
  | _ => false

/-- Tokens that begin a form or separate forms. -/
def isBoundary : Token → Bool
  | mark .semicolon => true
  | keyword .definition => true
  | keyword .external => true
  | _ => false

end Token

end Kaleidoscope
