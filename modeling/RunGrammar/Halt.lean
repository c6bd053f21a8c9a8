/-! How a call can end without a result. It returns an error, or the program panics: a count has
outgrown its word, or an array its memory. A panic is no error that a caller gets to see. -/
namespace RunGrammar

inductive Halt (ε : Type)
  | returned (e : ε)
  | panicked
deriving DecidableEq, Repr

/-- The same end with another error in place of the one that is returned. -/
def Halt.map {ε ε' : Type} (f : ε → ε') : Halt ε → Halt ε'
  | returned e => returned (f e)
  | panicked => panicked

end RunGrammar
