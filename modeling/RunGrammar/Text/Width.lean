/-! The width of a text is the number of its bytes in UTF-8, so a place in a text is the width
of what stands before it. -/
namespace RunGrammar.Text

def width : List Char → Nat
  | [] => 0
  | c :: rest => c.utf8Size + width rest

@[simp] theorem width_nil : width [] = 0 := rfl

@[simp] theorem width_cons (c : Char) (text : List Char) :
    width (c :: text) = c.utf8Size + width text := rfl

@[simp] theorem width_append (a b : List Char) : width (a ++ b) = width a + width b := by
  induction a with
  | nil => simp
  | cons c a ih =>
    rw [List.cons_append, width_cons, width_cons, ih]
    omega

theorem width_pos (c : Char) (text : List Char) : 0 < width (c :: text) := by
  have := c.utf8Size_pos
  rw [width_cons]
  omega

end RunGrammar.Text
