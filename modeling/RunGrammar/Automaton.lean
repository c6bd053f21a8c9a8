import RunGrammar.Alphabet
import Std.Data.ExtTreeMap
import Std.Data.ExtTreeSet

/-! Deterministic automata over an alphabet. State 0 is the failed state, which no word
leaves, and state 1 is the initial one. Symbol maps and tag sets are kept in order of
their names, so automata with the same content are equal. -/
namespace RunGrammar

def failed : Nat := 0

def initial : Nat := 1

structure Automaton where
  alphabet : Nat
  /-- The next states, a row of `alphabet` cells for each state. -/
  transitions : Array Nat
  accepting : Array Bool
  tags : Array (Std.ExtTreeSet String)
  symbols : Std.ExtTreeMap String Symbol
deriving DecidableEq

namespace Automaton

def stateCount (a : Automaton) : Nat := a.accepting.size

def acceptingCount (a : Automaton) : Nat := a.accepting.count true

/-- The state after `symbol` is read in `state`. There is none outside the alphabet or for
a number that is no state. -/
def transition? (a : Automaton) (state : Nat) (symbol : Symbol) : Option Nat :=
  if symbol.toNat < a.alphabet then a.transitions[state * a.alphabet + symbol.toNat]? else none

def isAccepting (a : Automaton) (state : Nat) : Bool := a.accepting[state]?.getD false

def tags? (a : Automaton) (state : Nat) : Option (Std.ExtTreeSet String) := a.tags[state]?

def symbol? (a : Automaton) (name : String) : Option Symbol := a.symbols[name]?

/-- The next state, where a missing one counts as failed. -/
def step (a : Automaton) (state : Nat) (symbol : Symbol) : Nat :=
  (a.transition? state symbol).getD failed

/-- The state that a word leads to from `state`. -/
def stateAfter (a : Automaton) (state : Nat) (word : List Symbol) : Nat := word.foldl a.step state

theorem stateAfter_concat (a : Automaton) (state : Nat) (word : List Symbol) (s : Symbol) :
    a.stateAfter state (word ++ [s]) = a.step (a.stateAfter state word) s :=
  List.foldl_append

end Automaton

end RunGrammar
