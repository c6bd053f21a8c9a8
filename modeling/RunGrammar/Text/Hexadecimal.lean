/-! Hexadecimal digits, in lower case. -/
namespace RunGrammar.Text

/-- The hexadecimal digits of a number, without leading zeros. -/
def hex (n : Nat) : String := String.ofList (Nat.toDigits 16 n)

end RunGrammar.Text
