/-! The ways in which rule text can be malformed. Every error carries the byte offset of
the offending text and the text itself, which is absent at the end of the input. -/
namespace RunGrammar.Rules

/-- What the grammar of rules asks for at a place where something else stands. -/
inductive Expected
  | ruleName
  | equals
  | operand
  | closeParen
  | semicolon
  | bounds
  | closeBrace
deriving DecidableEq, Repr

inductive Fault
  | unknownCharacter
  | oversizedInteger
  | missing (what : Expected)
  | invalidBounds
deriving DecidableEq, Repr

structure SyntaxError where
  fault : Fault
  position : Nat
  found : Option String
deriving DecidableEq, Repr

namespace Fault

def message : Fault → String
  | unknownCharacter => "unexpected character in rule text"
  | oversizedInteger => "integer literal does not fit a symbol"
  | missing .ruleName => "expected a rule name"
  | missing .equals => "expected `=` after rule name"
  | missing .operand => "expected an expression"
  | missing .closeParen => "expected `)` to close group"
  | missing .semicolon => "expected `;` after rule"
  | missing .bounds => "expected repetition bounds"
  | missing .closeBrace => "expected `\x7d` after repetition bounds"
  | invalidBounds => "invalid repetition bounds"

end Fault

namespace SyntaxError

/-- The sentence for a complaint at a place. -/
def describe (complaint : String) (position : Nat) (found : Option String) : String :=
  let seen := match found with
    | some text => "`" ++ text ++ "`"
    | none => "end of input"
  complaint ++ ", found " ++ seen ++ " at byte " ++ position.repr ++ " (zero-based)"

def message (e : SyntaxError) : String := describe e.fault.message e.position e.found

end SyntaxError

end RunGrammar.Rules
