/-! Decimal numbers as arguments spell them: one or more digits, leading zeros allowed,
and an optional plus sign in front. -/
namespace RunGrammar.Text

/-- The value of a non-empty run of digits. -/
def digits? (text : List Char) : Option Nat :=
  if text ≠ [] ∧ text.all Char.isDigit then some (Nat.ofDigitChars 10 text 0) else none

/-- The value of a number below `bound`, with or without a plus sign. -/
def unsigned? (bound : Nat) (text : String) : Option Nat :=
  let value? := match text.toList with
    | '+' :: rest => digits? rest
    | plain => digits? plain
  value?.filter (· < bound)

theorem digits?_eq_some_iff {text : List Char} {n : Nat} :
    digits? text = some n ↔
      (text ≠ [] ∧ text.all Char.isDigit) ∧ Nat.ofDigitChars 10 text 0 = n := by
  unfold digits?
  split
  · next h => simp [h]
  · next h => exact iff_of_false nofun fun hn => h hn.1

theorem digits?_toDigits (n : Nat) : digits? (Nat.toDigits 10 n) = some n := by
  have hd : (Nat.toDigits 10 n).all Char.isDigit = true := by
    rw [List.all_eq_true]
    exact fun c hc => Nat.isDigit_of_mem_toDigits (by omega) (by omega) hc
  simp [digits?, hd]

end RunGrammar.Text
