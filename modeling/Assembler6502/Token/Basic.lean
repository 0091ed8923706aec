import Assembler6502.Text.Numeral

/-!
# Tokens

The words, literals and marks that a source text consists of, each with the position of its first
character. The ends of lines are tokens too, because a statement ends where its line ends.

## Main definitions

* `Position`: a line and a column of a source text
* `Punctuation`: the marks
* `Lexeme`: what a token is
* `Token`: a lexeme at a position
-/

namespace Assembler6502

/-- A line and a column, both counted from one. -/
structure Position where
  line : Nat
  column : Nat
  deriving DecidableEq, Repr, Inhabited

namespace Position

/-- The beginning of a text. -/
def start : Position :=
  ⟨1, 1⟩

/-- The position behind a character. -/
def past (p : Position) (c : Char) : Position :=
  if c = '\n' then ⟨p.line + 1, 1⟩ else ⟨p.line, p.column + 1⟩

/-- The position behind a text. -/
def pastAll (p : Position) (cs : List Char) : Position :=
  cs.foldl past p

def text (p : Position) : String :=
  Text.decimal p.line ++ ":" ++ Text.decimal p.column

end Position

/-- The marks of the source language. -/
inductive Punctuation where
  | hash
  | comma
  | backtick
  | lessThan
  | greaterThan
  | parenLeft
  | parenRight
  | colon
  | dot
  | plus
  | minus
  | star
  | slash
  | ampersand
  | pipe
  | caret
  | bracketLeft
  | bracketRight
  deriving DecidableEq, Repr

namespace Punctuation

/-- The character that a mark is written with. -/
def toChar : Punctuation → Char
  | hash => '#'
  | comma => ','
  | backtick => '\x60'
  | lessThan => '<'
  | greaterThan => '>'
  | parenLeft => '('
  | parenRight => ')'
  | colon => ':'
  | dot => '.'
  | plus => '+'
  | minus => '-'
  | star => '*'
  | slash => '/'
  | ampersand => '&'
  | pipe => '|'
  | caret => '^'
  | bracketLeft => '['
  | bracketRight => ']'

/-- The mark written with a character. -/
def ofChar? : Char → Option Punctuation
  | '#' => some hash
  | ',' => some comma
  | '\x60' => some backtick
  | '<' => some lessThan
  | '>' => some greaterThan
  | '(' => some parenLeft
  | ')' => some parenRight
  | ':' => some colon
  | '.' => some dot
  | '+' => some plus
  | '-' => some minus
  | '*' => some star
  | '/' => some slash
  | '&' => some ampersand
  | '|' => some pipe
  | '^' => some caret
  | '[' => some bracketLeft
  | ']' => some bracketRight
  | _ => none

end Punctuation

/-- What a token is. Numerals are kept as written, without the mark of their base. -/
inductive Lexeme where
  | hex (digits : List Char)
  | binary (digits : List Char)
  | octal (digits : List Char)
  | decimal (digits : List Char)
  /-- A character literal; a well-formed one holds one character. -/
  | character (text : List Char)
  /-- A string literal, without quotes and escapes. -/
  | string (text : List Char)
  /-- The name of a label, an operation, a directive or a register, in lower case. -/
  | identifier (name : String)
  | mark (punctuation : Punctuation)
  | endOfLine
  | endOfFile
  deriving DecidableEq, Repr, Inhabited

namespace Lexeme

/-- Whether a lexeme denotes a number. -/
def isNumber : Lexeme → Bool
  | hex _ | binary _ | octal _ | decimal _ | character _ => true
  | _ => false

/-- Whether a lexeme ends a statement. -/
def isLineEnd : Lexeme → Bool
  | endOfLine | endOfFile => true
  | _ => false

/-- What the lexeme holds, without the marks that tell its kind. -/
def literal : Lexeme → String
  | hex cs | binary cs | octal cs | decimal cs | character cs | string cs => String.ofList cs
  | identifier name => name
  | mark p => p.toChar.toString
  | endOfLine | endOfFile => ""

/-- The lexeme as messages show it. -/
def text : Lexeme → String
  | hex cs => "$" ++ String.ofList cs
  | binary cs => "%" ++ String.ofList cs
  | octal cs => "0" ++ String.ofList cs
  | character cs => "'" ++ String.ofList cs
  | string cs => "\"" ++ String.ofList cs ++ "\""
  | endOfLine => "<eol>"
  | endOfFile => "<eof>"
  | l => l.literal

end Lexeme

/-- A lexeme with the position of its first character. -/
structure Token where
  lexeme : Lexeme
  position : Position
  deriving DecidableEq, Repr, Inhabited

end Assembler6502
