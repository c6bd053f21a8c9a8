/-! Symbols are codes chosen by the host; an alphabet of size `n` holds the codes
below `n`. A grammar and an input are both checked against the alphabet, and the
first code at or beyond its size is reported with the place where it stands. -/
namespace RunGrammar

/-- The code of one input symbol. -/
abbrev Symbol := UInt32

/-- A symbol at or beyond the alphabet size, and its index when it stands in an input. -/
structure RangeError where
  symbol : Symbol
  alphabet : Nat
  index : Option Nat
deriving DecidableEq, Repr

namespace RangeError

def message (e : RangeError) : String :=
  let place := match e.index with
    | none => ""
    | some index => "at index " ++ index.repr ++ " "
  "symbol " ++ e.symbol.toNat.repr ++ " " ++ place ++ "is outside the alphabet of size "
    ++ e.alphabet.repr

end RangeError

/-- The first symbol of an input that the alphabet does not hold. `index` is the place
of the head of the list in the whole input. -/
def firstOutside (alphabet : Nat) (index : Nat) : List Symbol → Option RangeError
  | [] => none
  | s :: rest =>
    if s.toNat < alphabet then firstOutside alphabet (index + 1) rest
    else some ⟨s, alphabet, some index⟩

theorem firstOutside_eq_none_iff {alphabet index : Nat} {input : List Symbol} :
    firstOutside alphabet index input = none ↔ ∀ s ∈ input, s.toNat < alphabet := by
  induction input generalizing index with
  | nil => simp [firstOutside]
  | cons s rest ih =>
    by_cases h : s.toNat < alphabet <;> simp [firstOutside, h, ih]

end RunGrammar
