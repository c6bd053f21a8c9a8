import RunGrammar.Proofs.JsonReading
import RunGrammar.Proofs.Lexing
import Mathlib.Data.List.Forall2

/-! What JSON texts are cut into. A value is written without blanks: its text is cut into the tokens
of the value, so the value is read back from it. The text holds no control character, so it is one
line. -/
namespace RunGrammar.Json

/-- Whether a text has no control characters and is cut into the given tokens, whatever stands
behind it, unless that begins with a digit. -/
structure Writes (text : List Char) (ts : List Token) : Prop where
  cut : ∀ rest : List Char, (∀ c ∈ rest.head?, ¬ c.isDigit) →
    tokens? (text ++ rest) = (tokens? rest).map (ts ++ ·)
  printed : ∀ c ∈ text, 0x20 ≤ c.toNat

variable {text rest : List Char} {ts ts' : List Token} {c : Char} {t : Token}
  {pieces : List Piece}

theorem of_punctuation? (hc : punctuation? c = some t) :
    ¬ isBlank c ∧ ¬ c == '"' ∧ ¬ c.isDigit ∧ 0x20 ≤ c.toNat := by
  unfold punctuation? at hc
  split at hc <;> first | decide | cases hc

theorem tokens?_punctuation (hc : punctuation? c = some t) (rest : List Char) :
    tokens? (c :: rest) = (tokens? rest).map (t :: ·) := by
  obtain ⟨hblank, hquote, hdigit, -⟩ := of_punctuation? hc
  rw [tokens?, if_neg hblank, if_neg hquote, if_neg hdigit, hc]
  cases tokens? rest <;> rfl

/-! ### Numbers -/

theorem of_isDigit (hc : c.isDigit) : ¬ isBlank c ∧ ¬ c == '"' ∧ 0x20 ≤ c.toNat := by
  obtain ⟨hge, -⟩ : 48 ≤ c.toNat ∧ c.toNat ≤ 57 := Char.isDigit_iff_toNat.mp hc
  refine ⟨fun hblank => ?_, fun hquote => ?_, by omega⟩
  · simp only [isBlank, Bool.or_eq_true, beq_iff_eq] at hblank
    rcases hblank with ((rfl | rfl) | rfl) | rfl <;> cases hc
  · obtain rfl := eq_of_beq hquote
    cases hc

/-- Only zero begins with a zero. -/
theorem eq_nil_of_toDigits {n : Nat} {digits : List Char} (h : Nat.toDigits 10 n = '0' :: digits) :
    digits = [] := by
  induction n using Nat.strongRecOn generalizing digits with
  | ind n ih =>
    by_cases hn : n < 10
    · rw [Nat.toDigits_of_lt_base hn] at h
      exact (List.cons.inj h).2.symm
    · rw [Nat.toDigits_of_base_le (by decide) (Nat.not_lt.mp hn)] at h
      cases hfront : Nat.toDigits 10 (n / 10) with
      | nil => exact absurd hfront Nat.toDigits_ne_nil
      | cons c front =>
        rw [hfront, List.cons_append] at h
        obtain ⟨rfl, -⟩ := List.cons.inj h
        -- Without its last digit the number would be zero, but it is not below ten.
        obtain rfl := ih (n / 10) (by omega) hfront
        have hvalue := @Nat.ofDigitChars_ten_toDigits (n / 10)
        rw [hfront] at hvalue
        have hzero : Nat.ofDigitChars 10 ['0'] 0 = 0 := rfl
        omega

theorem tokens?_number {digits : List Char} (hc : c.isDigit) (hdigits : ∀ c ∈ digits, c.isDigit)
    (hzero : c = '0' → digits = []) (hrest : ∀ c ∈ rest.head?, ¬ c.isDigit) :
    tokens? (c :: digits ++ rest) =
      (tokens? rest).map (.number (Nat.ofDigitChars 10 (c :: digits) 0) :: ·) := by
  obtain ⟨hblank, hquote, -⟩ := of_isDigit hc
  have hcut := Rules.takeWhile_append_of_head? hdigits hrest
  have hplain : ¬ (c == '0' && !digits.isEmpty) := by
    intro h
    obtain ⟨hc, hne⟩ := Bool.and_eq_true_iff.mp h
    rw [hzero (eq_of_beq hc)] at hne
    cases hne
  rw [List.cons_append, tokens?, if_neg hblank, if_neg hquote, if_pos hc]
  simp only [hcut, if_neg hplain, List.drop_left]

/-! ### Strings -/

/-- What a character of a string is written as: behind a backslash, by its number if it is a control
character, or as it is. -/
theorem toList_quotedChar (c : Char) :
    (∃ e, (quotedChar c).toList = ['\\', e] ∧ escaped? e = some c) ∨
      (c.toNat < 0x20 ∧ (quotedChar c).toList =
        ['\\', 'u', '0', '0', Nat.digitChar (c.toNat / 16), Nat.digitChar (c.toNat % 16)]) ∨
      (0x20 ≤ c.toNat ∧ c ≠ '"' ∧ c ≠ '\\' ∧ (quotedChar c).toList = [c]) := by
  unfold quotedChar
  split
  case h_8 hquote hbackslash _ _ _ _ _ =>
    split
    · next hlt =>
      refine .inr (.inl ⟨by omega, ?_⟩)
      rw [String.toList_append, Text.hex, Nat.toDigits_of_lt_base hlt, Nat.div_eq_of_lt hlt,
        Nat.mod_eq_of_lt hlt, @String.toList_ofList [_]]
      rfl
    · next hge =>
      split
      · next hlt =>
        have hone : c.toNat / 16 = 1 := by omega
        refine .inr (.inl ⟨hlt, ?_⟩)
        rw [String.toList_append, Text.hex, Nat.toDigits_of_base_le (by decide) (Nat.not_lt.mp hge),
          hone, @String.toList_ofList (_ ++ _)]
        rfl
      · next hge =>
        exact .inr (.inr ⟨Nat.not_lt.mp hge, hquote, hbackslash, String.toList_singleton c⟩)
  all_goals exact .inl ⟨_, rfl, rfl⟩

theorem hexDigit?_digitChar : ∀ n < 16, hexDigit? (Nat.digitChar n) = some n := by decide

theorem printed_digitChar : ∀ n < 16, 0x20 ≤ (Nat.digitChar n).toNat := by decide

theorem unit?_digitChar {n : Nat} (hn : n < 0x20) :
    unit? '0' '0' (Nat.digitChar (n / 16)) (Nat.digitChar (n % 16)) = some n := by
  have hvalue : ((0 * 16 + 0) * 16 + n / 16) * 16 + n % 16 = n := by omega
  have hhigh := hexDigit?_digitChar (n / 16) (by omega)
  have hlow := hexDigit?_digitChar (n % 16) (by omega)
  have hzero : hexDigit? '0' = some 0 := by decide
  simp only [unit?, hzero, hhigh, hlow, Option.bind_eq_bind, Option.bind_some]
  exact congrArg some hvalue

theorem printed_quotedChar : ∀ d ∈ (quotedChar c).toList, 0x20 ≤ d.toNat := by
  rcases toList_quotedChar c with ⟨e, htext, he⟩ | ⟨hlt, htext⟩ | ⟨hge, -, -, htext⟩
  · have hprinted : 0x20 ≤ e.toNat := by
      unfold escaped? at he
      split at he <;> first | decide | cases he
    rw [htext]
    simpa using hprinted
  · rw [htext]
    have hhigh := printed_digitChar (c.toNat / 16) (by omega)
    have hlow := printed_digitChar (c.toNat % 16) (by omega)
    simpa using ⟨hhigh, hlow⟩
  · rw [htext]
    simpa using hge

/-- Whether a piece of a string stands for a character. -/
inductive Piece.Spells : Piece → Char → Prop
  | char (c : Char) : Spells (.char c) c
  | unit {c : Char} (hc : c.toNat < 0x20) : Spells (.unit c.toNat) c

theorem exists_spells (c : Char) :
    ∃ p : Piece, p.Spells c ∧ ∀ rest : List Char,
      pieces? ((quotedChar c).toList ++ rest) = (pieces? rest).map (Prod.map (p :: ·) id) := by
  rcases toList_quotedChar c with ⟨e, htext, he⟩ | ⟨hlt, htext⟩ | ⟨hge, hquote, hbackslash, htext⟩
  · refine ⟨.char c, .char c, fun rest => ?_⟩
    have hunit : e ≠ 'u' := by
      rintro rfl
      cases he
    rw [htext]
    change pieces? ('\\' :: e :: rest) = _
    -- What is left asks that the text does not go on as an escape by number.
    rw [pieces?, he]
    · cases pieces? rest <;> rfl
    · exact fun _ _ _ _ _ h _ => hunit h
  · refine ⟨.unit c.toNat, .unit hlt, fun rest => ?_⟩
    rw [htext]
    change pieces? ('\\' :: 'u' :: '0' :: '0' :: _ :: _ :: rest) = _
    rw [pieces?, unit?_digitChar hlt]
    cases pieces? rest <;> rfl
  · refine ⟨.char c, .char c, fun rest => ?_⟩
    rw [htext]
    change pieces? (c :: rest) = _
    rw [pieces?, if_neg (Nat.not_lt.mpr hge)]
    · cases pieces? rest <;> rfl
    · exact hquote
    · exact fun _ _ _ _ _ h _ => hbackslash h
    · exact fun _ _ h _ => hbackslash h

/-- A code unit in front of the surrogates is a character of its own. -/
theorem characters?_unit {code : Nat} (hcode : code < 0xD800) :
    characters? (.unit code :: pieces) = (characters? pieces).map (Char.ofNat code :: ·) := by
  have hhigh : ¬ isHighSurrogate code := by
    intro h
    have hle := of_decide_eq_true (Bool.and_eq_true_iff.mp h).1
    omega
  have hlow : ¬ isLowSurrogate code := by
    intro h
    have hle := of_decide_eq_true (Bool.and_eq_true_iff.mp h).1
    omega
  cases pieces with
  | nil => simp [characters?, hhigh, hlow]
  | cons p pieces => cases p <;> simp [characters?, hhigh, hlow]

theorem characters?_of_spells (h : List.Forall₂ Piece.Spells pieces text) :
    characters? pieces = some text := by
  induction h with
  | nil => rfl
  | @cons p c pieces text hp hpieces ih =>
    cases hp with
    | char =>
      rw [characters?, ih]
      rfl
    | unit hc =>
      rw [characters?_unit (by omega), ih, Char.ofNat_toNat]
      rfl

theorem exists_pieces?_quoted (text rest : List Char) :
    ∃ pieces, List.Forall₂ Piece.Spells pieces text ∧
      pieces? (text.flatMap (fun c => (quotedChar c).toList) ++ '"' :: rest) =
        some (pieces, rest) := by
  induction text with
  | nil => exact ⟨[], .nil, rfl⟩
  | cons c text ih =>
    obtain ⟨p, hp, hread⟩ := exists_spells c
    obtain ⟨pieces, hpieces, htext⟩ := ih
    refine ⟨p :: pieces, .cons hp hpieces, ?_⟩
    rw [List.flatMap_cons, List.append_assoc, hread, htext]
    rfl

theorem toList_quoted (text : String) :
    (quoted text).toList =
      '"' :: (text.toList.flatMap (fun c => (quotedChar c).toList) ++ ['"']) := by
  rw [quoted, String.toList_append, String.toList_append, String.toList_join, List.flatMap_map]
  rfl

theorem tokens?_quoted (text : String) (rest : List Char) :
    tokens? ((quoted text).toList ++ rest) = (tokens? rest).map (.string text :: ·) := by
  obtain ⟨pieces, hpieces, hread⟩ := exists_pieces?_quoted text.toList rest
  rw [toList_quoted, List.cons_append, List.append_assoc, List.singleton_append, tokens?,
    if_neg (by decide), if_pos (by decide)]
  split
  · next hnone =>
    rw [hread] at hnone
    cases hnone
  · next pieces' after hsome =>
    rw [hread] at hsome
    obtain ⟨rfl, rfl⟩ := Prod.mk.inj (Option.some.inj hsome)
    rw [characters?_of_spells hpieces]
    cases tokens? rest with
    | none => rfl
    | some ts => exact congrArg (fun name => some (.string name :: ts)) text.ofList_toList

namespace Writes

theorem nil : Writes [] [] where
  cut behind _ := by simp
  printed := List.forall_mem_nil _

theorem append (h : Writes text ts) (h' : Writes rest ts') (hrest : ∀ c ∈ rest.head?, ¬ c.isDigit) :
    Writes (text ++ rest) (ts ++ ts') where
  cut behind hbehind := by
    have hnext : ∀ c ∈ (rest ++ behind).head?, ¬ c.isDigit := by
      cases rest with
      | nil => exact hbehind
      | cons c rest => exact hrest
    rw [List.append_assoc, h.cut _ hnext, h'.cut _ hbehind, Option.map_map]
    simp only [Function.comp_def, List.append_assoc]
  printed := List.forall_mem_append.mpr ⟨h.printed, h'.printed⟩

theorem punctuation (hc : punctuation? c = some t) (h : Writes text ts) :
    Writes (c :: text) (t :: ts) where
  cut behind hbehind := by
    rw [List.cons_append, tokens?_punctuation hc, h.cut _ hbehind, Option.map_map]
    rfl
  printed := List.forall_mem_cons.mpr ⟨(of_punctuation? hc).2.2.2, h.printed⟩

/-- Texts with commas between them. -/
theorem separated {α : Type} {xs : List α} {f : α → List Char} {g : α → List Token}
    (h : ∀ x ∈ xs, Writes (f x) (g x)) :
    Writes ([','].intercalate (xs.map f)) ([.comma].intercalate (xs.map g)) := by
  induction xs with
  | nil => exact nil
  | cons x xs ih =>
    obtain ⟨hx, hxs⟩ := List.forall_mem_cons.mp h
    cases xs with
    | nil => simpa using hx
    | cons y xs =>
      have hcomma : ∀ c ∈ (',' :: [','].intercalate ((y :: xs).map f)).head?, ¬ c.isDigit := by
        rintro c ⟨⟩
        decide
      rw [List.map_cons, List.map_cons, List.map_cons, List.map_cons, List.intercalate_cons_cons,
        List.intercalate_cons_cons, List.append_assoc, List.append_assoc]
      exact hx.append ((ih hxs).punctuation rfl) hcomma

/-- What stands between two brackets. -/
theorem enclosed {c' : Char} {t' : Token} (hc : punctuation? c = some t) (h : Writes text ts)
    (hc' : punctuation? c' = some t') : Writes (c :: (text ++ [c'])) (t :: (ts ++ [t'])) := by
  have hclose : ∀ d ∈ [c'].head?, ¬ d.isDigit := by
    rintro d ⟨⟩
    exact (of_punctuation? hc').2.2.1
  exact (h.append (nil.punctuation hc') hclose).punctuation hc

theorem number (n : Nat) : Writes n.repr.toList [.number n] where
  cut behind hbehind := by
    have hvalue := @Nat.ofDigitChars_ten_toDigits n
    have hdigits : ∀ c ∈ Nat.toDigits 10 n, c.isDigit :=
      fun c => Nat.isDigit_of_mem_toDigits (by decide) (by decide)
    rw [Nat.toList_repr]
    cases htext : Nat.toDigits 10 n with
    | nil => exact absurd htext Nat.toDigits_ne_nil
    | cons c digits =>
      rw [htext] at hvalue hdigits
      obtain ⟨hc, hdigits⟩ := List.forall_mem_cons.mp hdigits
      rw [tokens?_number hc hdigits (fun h => eq_nil_of_toDigits (h ▸ htext)) hbehind, hvalue]
      rfl
  printed c hc := by
    rw [Nat.toList_repr] at hc
    exact (of_isDigit (Nat.isDigit_of_mem_toDigits (by decide) (by decide) hc)).2.2

theorem quoted (text : String) : Writes (quoted text).toList [.string text] where
  cut behind _ := tokens?_quoted text behind
  printed := by
    have hmark : 0x20 ≤ '"'.toNat := by decide
    rw [toList_quoted, List.forall_mem_cons, List.forall_mem_append, List.forall_mem_flatMap]
    exact ⟨hmark, fun c _ => printed_quotedChar, List.forall_mem_singleton.mpr hmark⟩

end Writes

/-! ## Values -/

theorem Value.writes (v : Value) : Writes v.render.toList v.tokens := by
  induction v with
  | number n =>
    rw [render, tokens]
    exact .number n
  | string text =>
    rw [render, tokens]
    exact .quoted text
  | list items ih =>
    rw [render, tokens, String.toList_append, String.toList_append, String.toList_intercalate,
      List.map_map]
    exact .enclosed rfl (.separated ih) rfl
  | object members ih =>
    have hmembers : ∀ m ∈ members, Writes (quoted m.1 ++ (":" ++ m.2.render)).toList
        (.string m.1 :: .colon :: m.2.tokens) := by
      intro m hm
      rw [String.toList_append, String.toList_append]
      refine (Writes.quoted m.1).append ((ih m hm).punctuation rfl) ?_
      rintro c ⟨⟩
      decide
    rw [render, tokens, String.toList_append, String.toList_append, String.toList_intercalate,
      List.map_map]
    exact .enclosed rfl (.separated hmembers) rfl

/-- Every value is read back from its text. -/
theorem decode?_render (v : Value) : decode? v.render.toList = some v := by
  have hcut := v.writes.cut [] (by simp)
  rw [List.append_nil, tokens?, Option.map_some, List.append_nil] at hcut
  exact decode?_eq_some_iff.mpr hcut

/-- A written value is one line. -/
theorem newline_notMem_render (v : Value) : '\n' ∉ v.render.toList := by
  intro h
  exact absurd (v.writes.printed _ h) (by decide)

end RunGrammar.Json
