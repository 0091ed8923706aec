import Assembler6502.Text.Lowercase
import Assembler6502.Token.Basic

/-!
# From characters to tokens

A cursor moves over the source text and yields one token after the other. Blanks and comments
between tokens are skipped. Scanning never stops at a fault: a faulty string still yields a token,
and the fault is handed out beside it.

## Main definitions

* `Cursor`: a position together with the characters from there on
* `Cursor.next`: the next token
* `Token.scan`: all tokens of a text, the end of the text included
-/

namespace Assembler6502

/-- A fault inside a token. -/
inductive LexError where
  | unterminatedString
  | backslashedNewline
  deriving DecidableEq, Repr

def LexError.message : LexError → String
  | unterminatedString => "Unterminated string constant"
  | backslashedNewline => "Backslashed newline"

/-- A place in a text: its position and the characters from there on. -/
structure Cursor where
  position : Position
  rest : List Char

/-- A token with the faults met while reading it and the place behind it. -/
structure Scanned where
  token : Token
  errors : List (Position × LexError)
  after : Cursor

namespace Cursor

/-- The beginning of a text. -/
def ofText (cs : List Char) : Cursor :=
  ⟨.start, cs⟩

/-- Moves past one character. -/
def pop (c : Cursor) : Cursor :=
  match c.rest with
  | [] => c
  | x :: rest => ⟨c.position.past x, rest⟩

/-- Moves past all leading characters with a property. -/
def skipWhile (p : Char → Bool) (c : Cursor) : Cursor :=
  ⟨c.position.pastAll (c.rest.takeWhile p), c.rest.dropWhile p⟩

/-- Moves past the blanks within a line. -/
def skipBlanks (c : Cursor) : Cursor :=
  c.skipWhile fun x => Text.isBlank x && x != '\n'

/-- Moves past blanks and, if one follows, past a comment, which leads to the end of its line. -/
def skipToToken (c : Cursor) : Cursor :=
  let c := c.skipBlanks
  match c.rest with
  | ';' :: _ => c.skipWhile (· != '\n')
  | _ => c

/-- The characters of words. A dot belongs to a word unless the word would start with it. -/
def isWordChar (x : Char) : Bool :=
  !Text.isBlank x && x != ';' && x != '"' && (x == '.' || (Punctuation.ofChar? x).isNone)

/-- What a word is, by its first character. A single zero is a decimal numeral, but a zero before
other characters marks an octal one. -/
def classify : List Char → Lexeme
  | ['0'] => .decimal ['0']
  | '$' :: rest => .hex rest
  | '%' :: rest => .binary rest
  | '0' :: rest => .octal rest
  | '\x27' :: rest => .character rest
  | word@(x :: _) =>
    if x.isDigit then .decimal word else .identifier (String.ofList (Text.lowercase word))
  | [] => .identifier ""

/-- The characters of a string literal behind its opening quote, the faults in it, and the place
behind it. A backslash takes the next character as it is. The end of the line ends the literal,
even behind a backslash. -/
def stringBody (p : Position) : List Char → List Char × List (Position × LexError) × Cursor
  | [] => ([], [(p, .unterminatedString)], ⟨p, []⟩)
  | x :: rest =>
    if x = '\n' then ([], [(p, .unterminatedString)], ⟨p, x :: rest⟩)
    else if x = '"' then ([], [], ⟨p.past x, rest⟩)
    else if x = '\\' then
      match rest with
      | [] =>
        ([], [(p, .backslashedNewline), (p.past x, .unterminatedString)], ⟨p.past x, []⟩)
      | y :: rest' =>
        if y = '\n' then
          ([], [(p, .backslashedNewline), (p.past x, .unterminatedString)],
            ⟨p.past x, y :: rest'⟩)
        else
          let (body, errors, after) := stringBody ((p.past x).past y) rest'
          (y :: body, errors, after)
    else
      let (body, errors, after) := stringBody (p.past x) rest
      (x :: body, errors, after)

/-- The next token. At the end of the text that is the end-of-file token, however often it is
asked for. -/
def next (c : Cursor) : Scanned :=
  let c := c.skipToToken
  match c.rest with
  | [] => ⟨⟨.endOfFile, c.position⟩, [], c⟩
  | x :: rest =>
    if x = '\n' then ⟨⟨.endOfLine, c.position⟩, [], c.pop⟩
    else if x = '"' then
      let (body, errors, after) := stringBody (c.position.past x) rest
      ⟨⟨.string body, c.position⟩, errors, after⟩
    else
      match Punctuation.ofChar? x with
      | some p => ⟨⟨.mark p, c.position⟩, [], c.pop⟩
      | none =>
        ⟨⟨classify (c.rest.takeWhile isWordChar), c.position⟩, [], c.skipWhile isWordChar⟩

end Cursor

/-- The next `fuel` tokens, or fewer if the text ends before. -/
def Token.scanFrom : Nat → Cursor → List Scanned
  | 0, _ => []
  | fuel + 1, c =>
    let s := c.next
    if s.token.lexeme = .endOfFile then [s] else s :: Token.scanFrom fuel s.after

/-- All tokens of a text, up to and including its end. Every other token takes at least one
character, so there are at most as many of them as there are characters. -/
def Token.scan (cs : List Char) : List Scanned :=
  Token.scanFrom (cs.length + 1) (Cursor.ofText cs)

end Assembler6502
