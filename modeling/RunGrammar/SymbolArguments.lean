import RunGrammar.Automaton
import RunGrammar.Failure
import RunGrammar.Text.Decimal

/-! Input symbols as arguments: each one is a code or the name of a symbol. -/
namespace RunGrammar

/-- The symbol that an argument gives by its code or by its name. A name that reads as a code
is a code. -/
def Automaton.argument? (a : Automaton) (text : String) : Option Symbol :=
  match Text.unsigned? UInt32.size text with
  | some code => some (UInt32.ofNat code)
  | none => a.symbol? text

/-- The symbols that the arguments give, or the first argument that gives none. -/
def Automaton.arguments (a : Automaton) : List String → Except Failure (List Symbol)
  | [] => .ok []
  | text :: rest =>
    match a.argument? text with
    | none => .error (.unknownSymbol text)
    | some code => (a.arguments rest).map (code :: ·)

end RunGrammar
