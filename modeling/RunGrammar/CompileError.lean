import RunGrammar.Alphabet
import RunGrammar.Halt

/-! The causes for which a list of rules has no automaton, and their wording. -/
namespace RunGrammar

/-- Position and state identifiers are 32-bit words, so there are at most this many of each. -/
def identifierCount : Nat := UInt32.size

inductive CompileError
  | undefinedReference (name : String)
  | missingEntry
  | outOfAlphabet (range : RangeError)
  | invalidRepetition (min : Nat) (max : Option Nat)
  | positionLimit
  | stateLimit
deriving DecidableEq, Repr

/-- What compiling yields at one of its steps. -/
abbrev Compiled (α : Type) := Except (Halt CompileError) α

/-- The rule whose words the automaton accepts. -/
def entryRule : String := "Main"

/-- Bounds as they are written in rule text; an absent upper bound leaves its place empty. -/
def renderBounds (min : Nat) (max : Option Nat) : String :=
  let upper := match max with
    | none => ""
    | some n => n.repr
  "\x7b" ++ min.repr ++ "," ++ upper ++ "\x7d"

def CompileError.message : CompileError → String
  | undefinedReference name => "reference to undefined rule `" ++ name ++ "`"
  | missingEntry => "no `" ++ entryRule ++ "` rule defined"
  | outOfAlphabet range => range.message
  | invalidRepetition min max => "invalid repetition bounds " ++ renderBounds min max
  | positionLimit => "grammar exceeds " ++ (identifierCount - 1).repr ++ " leaf positions"
  | stateLimit => "automaton exceeds " ++ (identifierCount - 1).repr ++ " states"

end RunGrammar
