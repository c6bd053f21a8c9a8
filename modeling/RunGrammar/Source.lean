import RunGrammar.Failure
import RunGrammar.Platform

/-! A grammar in files: its rules, an optional symbol file, and an optional least alphabet
size. The symbol file is read first, then the rules, and only then is anything compiled. -/
namespace RunGrammar

/-- Where a grammar is found. -/
structure Source (Path : Type) where
  rules : Path
  symbols : Option Path := none
  alphabet : Option UInt64 := none
deriving DecidableEq

namespace Source

variable {Path : Type}

/-- The symbols of the symbol file. -/
def external (s : Source Path) (p : Platform Path) : Except Failure (List (String × Symbol)) :=
  match s.symbols with
  | none => .ok []
  | some path =>
    match p.files.text path with
    | .error e => .error (.file e)
    | .ok text =>
      match p.symbols text with
      | .ok symbols => .ok symbols.toList
      | .error cause => .error (.symbolFile (p.display path) cause)

/-- The texts of a grammar: its external symbols and its rules. -/
def texts (s : Source Path) (p : Platform Path) :
    Except Failure (List (String × Symbol) × String) := do
  let external ← s.external p
  let rules ← (p.files.text s.rules).mapError .file
  return (external, rules)

def compile (s : Source Path) (p : Platform Path) : Except (Halt Failure) Automaton := do
  let (external, rules) ← (s.texts p).mapError .returned
  let host : Host := ⟨external, s.alphabet.getD 0⟩
  (host.compileText rules).mapError (.map .rules)

end Source

end RunGrammar
