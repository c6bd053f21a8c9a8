import RunGrammar.Rules.Token
import RunGrammar.Text.Decimal

/-! Texts that are cut into known tokens. A name or an integer is cut off whole if the text
behind it does not go on with a letter, a digit or an underscore, and then the rest of the text is
cut as if it stood alone. -/
namespace RunGrammar.Rules

variable {slice rest : List Char} {c : Char} {t : Token} {tokens : List Token} {text : String}
  {p : Char → Bool} {start : Nat}

namespace Token

/-- Whether a text has the form `[A-Za-z_][A-Za-z0-9_]*`. -/
def isName (text : String) : Bool :=
  match text.toList with
  | [] => false
  | c :: rest => isNameStart c && rest.all isNameChar

theorem isNameChar_of_isDigit (hc : c.isDigit) : isNameChar c := by
  simp [isNameChar, Char.isAlphanum, hc]

theorem ne_hash_of_isNameStart (hc : isNameStart c) : c ≠ '#' := by
  rintro rfl
  cases hc

theorem ne_hash_of_isDigit (hc : c.isDigit) : c ≠ '#' := by
  rintro rfl
  cases hc

theorem isAlpha_of_isDigit (hc : c.isDigit) : c.isAlpha = false := by
  have hdigit : c.toNat ≤ 57 := (Char.isDigit_iff_toNat.mp hc).2
  apply Bool.eq_false_iff.mpr
  intro halpha
  rcases Bool.or_eq_true_iff.mp halpha with hupper | hlower
  · have hle : 65 ≤ c.toNat := (of_decide_eq_true hupper).1
    omega
  · have hle : 97 ≤ c.toNat := of_decide_eq_true (Bool.and_eq_true_iff.mp hlower).1
    omega

theorem isNameStart_of_isDigit (hc : c.isDigit) : isNameStart c = false := by
  have hne : c ≠ '_' := by
    rintro rfl
    cases hc
  simp [isNameStart, isAlpha_of_isDigit hc, hne]

/-- Whether a character goes on with the slice that `c` begins. -/
def continues (c : Char) : Char → Bool :=
  if c == '#' then (· != '\n')
  else if isNameStart c then isNameChar
  else if c.isDigit then Char.isDigit
  else fun _ => false

theorem tail_eq_takeWhile (c : Char) (rest : List Char) :
    tail c rest = rest.takeWhile (continues c) := by
  unfold tail continues
  split
  · rfl
  · split
    · rfl
    · split
      · rfl
      · cases rest <;> rfl

theorem drop_length_tail (c : Char) (rest : List Char) :
    rest.drop (tail c rest).length = rest.dropWhile (continues c) := by
  have h : (rest.takeWhile (continues c) ++ rest.dropWhile (continues c)).drop
      (rest.takeWhile (continues c)).length = rest.dropWhile (continues c) := List.drop_left
  rwa [List.takeWhile_append_dropWhile, ← tail_eq_takeWhile] at h

theorem ofSlice?_name (hc : isNameStart c) :
    ofSlice? c slice = some (name (String.ofList (c :: slice))) := by
  simp [ofSlice?, ne_hash_of_isNameStart hc, hc]

theorem ofSlice?_integer {s : Symbol} (hc : c.isDigit)
    (hs : Nat.ofDigitChars 10 (c :: slice) 0 = s.toNat) : ofSlice? c slice = some (integer s) := by
  simp [ofSlice?, ne_hash_of_isDigit hc, isNameStart_of_isDigit hc, hc, hs, s.toNat_lt_size]

theorem ofSlice?_punctuation (h : punctuation? c = some t) : ofSlice? c [] = some t := by
  unfold punctuation? at h
  split at h <;> first | exact h | cases h

/-- No token begins with a character that separates tokens. -/
theorem ofSlice?_eq_none_of_isSeparator (hc : Text.isSeparator c) : ofSlice? c slice = none := by
  simp only [Text.isSeparator, Bool.or_eq_true, beq_iff_eq] at hc
  rcases hc with (((rfl | rfl) | rfl) | rfl) | rfl <;> rfl

end Token

/-- A text before which a name or an integer ends. -/
def Ended (rest : List Char) : Prop := ∀ c ∈ rest.head?, Token.isNameChar c = false

theorem ended_cons (hc : Token.isNameChar c = false) : Ended (c :: rest) := by
  rintro _ ⟨⟩
  exact hc

theorem takeWhile_append_of_head? (hslice : ∀ c ∈ slice, p c) (hrest : ∀ c ∈ rest.head?, ¬ p c) :
    (slice ++ rest).takeWhile p = slice := by
  rw [List.takeWhile_append_of_pos hslice]
  cases rest with
  | nil => rw [List.takeWhile_nil, List.append_nil]
  | cons c rest => rw [List.takeWhile_cons_of_neg (hrest c rfl), List.append_nil]

theorem dropWhile_append_of_head? (hslice : ∀ c ∈ slice, p c) (hrest : ∀ c ∈ rest.head?, ¬ p c) :
    (slice ++ rest).dropWhile p = rest := by
  rw [List.dropWhile_append_of_pos hslice]
  cases rest with
  | nil => rfl
  | cons c rest => exact List.dropWhile_cons_of_neg (hrest c rfl)

theorem takeWhile_append_of_ended (hp : ∀ c, p c → Token.isNameChar c)
    (hslice : ∀ c ∈ slice, p c) (hrest : Ended rest) : (slice ++ rest).takeWhile p = slice := by
  refine takeWhile_append_of_head? hslice fun c hc hpc => ?_
  exact Bool.false_ne_true ((hrest c hc).symm.trans (hp c hpc))

namespace Token

theorem tail_name (hc : isNameStart c) (hslice : ∀ c ∈ slice, isNameChar c) (hrest : Ended rest) :
    tail c (slice ++ rest) = slice := by
  have htail : tail c (slice ++ rest) = (slice ++ rest).takeWhile isNameChar := by
    simp [tail, ne_hash_of_isNameStart hc, hc]
  rw [htail, takeWhile_append_of_ended (fun _ h => h) hslice hrest]

theorem tail_integer (hc : c.isDigit) (hslice : ∀ c ∈ slice, c.isDigit) (hrest : Ended rest) :
    tail c (slice ++ rest) = slice := by
  have htail : tail c (slice ++ rest) = (slice ++ rest).takeWhile Char.isDigit := by
    simp [tail, ne_hash_of_isDigit hc, isNameStart_of_isDigit hc, hc]
  rw [htail, takeWhile_append_of_ended (fun _ => isNameChar_of_isDigit) hslice hrest]

theorem tail_punctuation (h : punctuation? c = some t) : tail c rest = [] := by
  unfold punctuation? at h
  split at h <;> first | rfl | cases h

end Token

theorem exists_of_map_eq_ok {ε α β : Type} {m : Except ε α} {f : α → β} {v : β}
    (h : m.map f = .ok v) : ∃ u, m = .ok u ∧ f u = v := by
  cases m with
  | error err => cases h
  | ok u => exact ⟨u, rfl, Except.ok.inj h⟩

theorem lexemesFrom_separator (hc : Text.isSeparator c) :
    lexemesFrom start (c :: rest) = lexemesFrom (start + c.utf8Size) rest := by
  rw [lexemesFrom, if_pos hc]

theorem lexemesFrom_blanks_append {blanks : List Char} (h : ∀ c ∈ blanks, Text.isSeparator c)
    (start : Nat) (rest : List Char) :
    lexemesFrom start (blanks ++ rest) = lexemesFrom (start + Text.width blanks) rest := by
  induction blanks generalizing start with
  | nil => rfl
  | cons c blanks ih =>
    rw [List.forall_mem_cons] at h
    rw [List.cons_append, lexemesFrom_separator h.1, ih h.2, Text.width_cons, Nat.add_assoc]

theorem lexemesFrom_token {token : Token} (hc : ¬ Text.isSeparator c)
    (h : Token.ofSlice? c (Token.tail c rest) = some token) :
    lexemesFrom start (c :: rest) =
      (lexemesFrom (start + Text.width (c :: Token.tail c rest))
        (rest.dropWhile (Token.continues c))).map (⟨token, start⟩ :: ·) := by
  rw [lexemesFrom, if_neg hc]
  simp only [h, Token.drop_length_tail]
  cases lexemesFrom (start + Text.width (c :: Token.tail c rest))
    (rest.dropWhile (Token.continues c)) <;> rfl

theorem lexemesFrom_unknown (hc : ¬ Text.isSeparator c)
    (h : Token.ofSlice? c (Token.tail c rest) = none) :
    lexemesFrom start (c :: rest) =
      .error ⟨if c.isDigit then .oversizedInteger else .unknownCharacter, start,
        some (String.ofList (c :: Token.tail c rest))⟩ := by
  rw [lexemesFrom, if_neg hc]
  simp only [h]

/-- A text is cut from its beginning: a separator is skipped, a slice becomes a token, and a slice
that is none ends the cutting. -/
theorem lexing_induction {motive : Nat → List Char → Prop} (nil : ∀ start, motive start [])
    (separator : ∀ start c rest, Text.isSeparator c → motive (start + c.utf8Size) rest →
      motive start (c :: rest))
    (token : ∀ start c rest token, ¬ Text.isSeparator c →
      Token.ofSlice? c (Token.tail c rest) = some token →
      motive (start + Text.width (c :: Token.tail c rest)) (rest.dropWhile (Token.continues c)) →
      motive start (c :: rest))
    (unknown : ∀ start c rest, ¬ Text.isSeparator c →
      Token.ofSlice? c (Token.tail c rest) = none → motive start (c :: rest))
    (start : Nat) (text : List Char) : motive start text := by
  fun_induction lexemesFrom start text with
  | case1 start => exact nil start
  | case2 start c rest hc ih => exact separator start c rest hc ih
  | case3 start c rest hc tail t ht _ _ ih | case4 start c rest hc tail t ht _ _ ih =>
    exact token start c rest t hc ht (Token.drop_length_tail c rest ▸ ih)
  | case5 start c rest hc tail ht => exact unknown start c rest hc ht

/-- Whether the text is cut into these tokens, wherever it begins. -/
def Lexes (text : List Char) (tokens : List Token) : Prop :=
  ∀ start, ∃ ls, lexemesFrom start text = .ok ls ∧ ls.map Lexeme.token = tokens

namespace Lexes

theorem nil : Lexes [] [] := fun _ => ⟨[], by rw [lexemesFrom], rfl⟩

theorem separator (hc : Text.isSeparator c) (h : Lexes rest tokens) : Lexes (c :: rest) tokens := by
  intro start
  rw [lexemesFrom, if_pos hc]
  exact h _

theorem token (hslice : Token.tail c (slice ++ rest) = slice)
    (htoken : Token.ofSlice? c slice = some t) (h : Lexes rest tokens) :
    Lexes (c :: slice ++ rest) (t :: tokens) := by
  intro start
  obtain ⟨ls, hls, htokens⟩ := h (start + Text.width (c :: slice))
  have hseparator : ¬ Text.isSeparator c := by
    intro hc
    rw [Token.ofSlice?_eq_none_of_isSeparator hc] at htoken
    cases htoken
  refine ⟨⟨t, start⟩ :: ls, ?_, congrArg (t :: ·) htokens⟩
  rw [List.cons_append, lexemesFrom, if_neg hseparator]
  simp only [hslice, htoken, List.drop_left, hls]

theorem punctuation (hc : Token.punctuation? c = some t) (h : Lexes rest tokens) :
    Lexes (c :: rest) (t :: tokens) := by
  have hslice : Token.tail c ([] ++ rest) = [] := Token.tail_punctuation hc
  exact Lexes.token hslice (Token.ofSlice?_punctuation hc) h

theorem name (htext : Token.isName text) (hrest : Ended rest) (h : Lexes rest tokens) :
    Lexes (text.toList ++ rest) (.name text :: tokens) := by
  unfold Token.isName at htext
  split at htext
  · cases htext
  · next c slice hslice =>
    obtain ⟨hc, hall⟩ := Bool.and_eq_true_iff.mp htext
    have htoken : Token.ofSlice? c slice = some (.name (String.ofList (c :: slice))) :=
      Token.ofSlice?_name hc
    rw [← hslice, String.ofList_toList] at htoken
    rw [hslice]
    exact Lexes.token (Token.tail_name hc (List.all_eq_true.mp hall) hrest) htoken h

theorem integer (s : Symbol) (hrest : Ended rest) (h : Lexes rest tokens) :
    Lexes (s.toNat.repr.toList ++ rest) (.integer s :: tokens) := by
  obtain ⟨⟨hne, hall⟩, hvalue⟩ := Text.digits?_eq_some_iff.mp (Text.digits?_toDigits s.toNat)
  rw [Nat.toList_repr]
  cases hdigits : Nat.toDigits 10 s.toNat with
  | nil => exact absurd hdigits hne
  | cons c slice =>
    rw [hdigits] at hall hvalue
    obtain ⟨hc, hslice⟩ := List.forall_mem_cons.mp (List.all_eq_true.mp hall)
    exact Lexes.token (Token.tail_integer hc hslice hrest) (Token.ofSlice?_integer hc hvalue) h

end Lexes

end RunGrammar.Rules
