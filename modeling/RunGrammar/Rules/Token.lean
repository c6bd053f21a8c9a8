import RunGrammar.Alphabet
import RunGrammar.Rules.SyntaxError
import RunGrammar.Text.Blank
import RunGrammar.Text.Width

/-! Tokens of rule text. A token's slice is as long as its first character allows: a
comment runs up to the line feed, a name or an integer over all characters that can
continue it, and every other token is one character. The slices and the separators
between them make up the whole text. -/
namespace RunGrammar.Rules

inductive Token
  | name (text : String)
  | integer (value : Symbol)
  | comment (text : String)
  | equals
  | semicolon
  | bar
  | colon
  | comma
  | openParen
  | closeParen
  | openBrace
  | closeBrace
  | star
  | plus
  | question
deriving DecidableEq, Repr

/-- A token and the byte offset of its slice. -/
structure Lexeme where
  token : Token
  start : Nat
deriving DecidableEq, Repr

namespace Token

/-- The token as an error quotes it. An integer is quoted by value, without leading zeros. -/
def render : Token → String
  | name text => text
  | integer value => value.toNat.repr
  | comment text => "#" ++ text
  | equals => "="
  | semicolon => ";"
  | bar => "|"
  | colon => ":"
  | comma => ","
  | openParen => "("
  | closeParen => ")"
  | openBrace => "\x7b"
  | closeBrace => "\x7d"
  | star => "*"
  | plus => "+"
  | question => "?"

def isNameStart (c : Char) : Bool := c.isAlpha || c == '_'

def isNameChar (c : Char) : Bool := c.isAlphanum || c == '_'

/-- The one-character tokens. -/
def punctuation? : Char → Option Token
  | '=' => some equals
  | ';' => some semicolon
  | '|' => some bar
  | ':' => some colon
  | ',' => some comma
  | '(' => some openParen
  | ')' => some closeParen
  | '\x7b' => some openBrace
  | '\x7d' => some closeBrace
  | '*' => some star
  | '+' => some plus
  | '?' => some question
  | _ => none

/-- The characters after `c` that belong to the slice that `c` begins. -/
def tail (c : Char) (rest : List Char) : List Char :=
  if c == '#' then rest.takeWhile (· != '\n')
  else if isNameStart c then rest.takeWhile isNameChar
  else if c.isDigit then rest.takeWhile Char.isDigit
  else []

/-- The token of a slice that begins with `c`. There is none for a character that begins
no token and for digits whose value is no symbol. -/
def ofSlice? (c : Char) (rest : List Char) : Option Token :=
  if c == '#' then some (comment (String.ofList (Text.trim rest)))
  else if isNameStart c then some (name (String.ofList (c :: rest)))
  else if c.isDigit then
    let value := Nat.ofDigitChars 10 (c :: rest) 0
    if value < UInt32.size then some (integer (UInt32.ofNat value)) else none
  else punctuation? c

end Token

/-- Cuts a text into lexemes. `start` is the byte offset of its first character. -/
def lexemesFrom (start : Nat) : List Char → Except SyntaxError (List Lexeme)
  | [] => .ok []
  | c :: rest =>
    if Text.isSeparator c then lexemesFrom (start + c.utf8Size) rest
    else
      let tail := Token.tail c rest
      match Token.ofSlice? c tail with
      | some token =>
        match lexemesFrom (start + Text.width (c :: tail)) (rest.drop tail.length) with
        | .ok lexemes => .ok (⟨token, start⟩ :: lexemes)
        | .error e => .error e
      | none =>
        let fault := if c.isDigit then Fault.oversizedInteger else Fault.unknownCharacter
        .error ⟨fault, start, some (String.ofList (c :: tail))⟩
termination_by text => text.length

/-- The lexemes of a rule text. -/
def lexemes (text : String) : Except SyntaxError (List Lexeme) := lexemesFrom 0 text.toList

end RunGrammar.Rules
