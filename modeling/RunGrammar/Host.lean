import RunGrammar.Bindings
import RunGrammar.Exploration

/-! From a rule list to an automaton. The host that runs the automaton may bring symbols of
its own, which are bound before the first rule is read, and may ask for an alphabet that
has room for more symbols than are named. -/
namespace RunGrammar

/-- What the host brings to a grammar. -/
structure Host where
  external : List (String × Symbol) := []
  minAlphabet : UInt64 := 0
deriving DecidableEq

/-- The expression whose positions make up the automaton: the entry rule and an end mark. -/
def Bindings.root (b : Bindings) : Except CompileError Expr :=
  b.entry.map fun body => .cat body .endMark

/-- The automaton of the entry rule. -/
def Bindings.build (b : Bindings) : Compiled Automaton := do
  let alphabet := b.alphabet.toNat
  let root ← b.root.mapError .returned
  let positions ← (Positions.ofExpr alphabet root).mapError .returned
  let exploration ← Exploration.ofPositions positions alphabet
  return .ofExploration positions alphabet exploration b.symbols

namespace Host

/-- The host with further symbols, bound after those it has. -/
def withExternal (h : Host) (external : List (String × Symbol)) : Host :=
  { h with external := h.external ++ external }

/-- The host with another least alphabet size. -/
def withMinAlphabet (h : Host) (size : UInt64) : Host := { h with minAlphabet := size }

/-- The bindings after a rule list. -/
def bindings (h : Host) (statements : List Statement) : Compiled Bindings := do
  let own ← Bindings.ofExternal h.external
  let b ← own.read statements
  return b.reserve h.minAlphabet

def compile (h : Host) (statements : List Statement) : Compiled Automaton :=
  (h.bindings statements).bind Bindings.build

end Host

end RunGrammar
