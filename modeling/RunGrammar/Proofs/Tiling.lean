import RunGrammar.Proofs.Lexing
import Mathlib.Data.List.TakeWhile

/-! Texts as sequences of slices. A lexed text is tiled: runs of separators and slices of tokens take
turns, and a slice goes on as long as it can. A text that is not lexed is tiled up to the place that
is reported, and there stand digits whose value is no symbol, or a character that begins no token. -/
namespace RunGrammar.Rules

/-! ## Slices -/

/-- Whether `trimmed` is left of a text when the blanks at its two ends are taken away. -/
def Trims (text trimmed : List Char) : Prop :=
  ∃ front back, text = front ++ trimmed ++ back ∧ (∀ c ∈ front, Text.isBlank c) ∧
    (∀ c ∈ back, Text.isBlank c) ∧ (∀ c ∈ trimmed.head?, ¬ Text.isBlank c) ∧
    ∀ c ∈ trimmed.getLast?, ¬ Text.isBlank c

/-- Whether a slice that `rest` stands behind is all of a token. -/
inductive IsSlice : List Char → Token → List Char → Prop
  | comment {body trimmed rest : List Char} (hbody : ∀ c ∈ body, c ≠ '\n')
    (hrest : ∀ c ∈ rest.head?, c = '\n') (htrim : Trims body trimmed) :
    IsSlice ('#' :: body) (.comment (String.ofList trimmed)) rest
  | name {c : Char} {body rest : List Char} (hc : Token.isNameStart c)
    (hbody : ∀ c ∈ body, Token.isNameChar c) (hrest : ∀ c ∈ rest.head?, ¬ Token.isNameChar c) :
    IsSlice (c :: body) (.name (String.ofList (c :: body))) rest
  | integer {c : Char} {body rest : List Char} {n : Symbol} (hc : c.isDigit)
    (hbody : ∀ c ∈ body, c.isDigit) (hrest : ∀ c ∈ rest.head?, ¬ c.isDigit)
    (hn : Nat.ofDigitChars 10 (c :: body) 0 = n.toNat) : IsSlice (c :: body) (.integer n) rest
  | punctuation {c : Char} {t : Token} {rest : List Char} (ht : Token.punctuation? c = some t) :
    IsSlice [c] t rest

variable {c : Char} {slice rest text trimmed : List Char} {t : Token} {p : Char → Bool}
  {start position : Nat} {ls : List Lexeme} {e : SyntaxError}

theorem not_of_mem_head?_dropWhile (h : c ∈ (text.dropWhile p).head?) : ¬ p c := by
  have hnot := List.head?_dropWhile_not p text
  rw [Option.mem_def.mp h] at hnot
  simpa using hnot

theorem trims_trim (text : List Char) : Trims text (Text.trim text) := by
  have hsplit := List.takeWhile_append_dropWhile (p := Text.isBlank) (l := text)
  have hback := List.takeWhile_append_dropWhile (p := Text.isBlank)
    (l := (text.dropWhile Text.isBlank).reverse)
  have hmiddle : text.dropWhile Text.isBlank = Text.trim text ++
      ((text.dropWhile Text.isBlank).reverse.takeWhile Text.isBlank).reverse := by
    rw [Text.trim, ← List.reverse_append, hback, List.reverse_reverse]
  refine ⟨text.takeWhile Text.isBlank,
    ((text.dropWhile Text.isBlank).reverse.takeWhile Text.isBlank).reverse, ?_, fun _ => List.mem_takeWhile_imp, fun c hc => ?_,
    fun c hc => ?_, fun c hc => ?_⟩
  · rw [List.append_assoc, ← hmiddle, hsplit]
  · exact List.mem_takeWhile_imp (List.mem_reverse.mp hc)
  · have hhead : c ∈ (text.dropWhile Text.isBlank).head? := by
      rw [hmiddle, List.head?_append, Option.mem_def.mp hc]
      rfl
    exact not_of_mem_head?_dropWhile hhead
  · rw [Text.trim, List.getLast?_reverse] at hc
    exact not_of_mem_head?_dropWhile hc

theorem Trims.eq_trim (h : Trims text trimmed) : Text.trim text = trimmed := by
  obtain ⟨front, back, rfl, hfront, hback, hhead, hlast⟩ := h
  rw [Text.trim, List.append_assoc]
  cases trimmed with
  | nil =>
    have hblank : ∀ c ∈ front ++ back, Text.isBlank c := List.forall_mem_append.mpr ⟨hfront, hback⟩
    rw [List.nil_append, List.dropWhile_eq_nil_iff.mpr hblank]
    rfl
  | cons c trimmed =>
    have hstop : ∀ d ∈ (c :: trimmed ++ back).head?, ¬ Text.isBlank d := hhead
    rw [dropWhile_append_of_head? hfront hstop, List.reverse_append,
      dropWhile_append_of_head? (fun c hc => hback c (List.mem_reverse.mp hc)),
      List.reverse_reverse]
    rwa [List.head?_reverse]

namespace Token

theorem continues_name (hc : isNameStart c) : continues c = isNameChar := by
  simp [continues, ne_hash_of_isNameStart hc, hc]

theorem continues_integer (hc : c.isDigit) : continues c = Char.isDigit := by
  simp [continues, ne_hash_of_isDigit hc, isNameStart_of_isDigit hc, hc]

end Token

theorem isSlice_cons_iff :
    IsSlice (c :: slice) t rest ↔
      (∀ d ∈ slice, Token.continues c d) ∧ (∀ d ∈ rest.head?, ¬ Token.continues c d) ∧
        Token.ofSlice? c slice = some t := by
  constructor
  · intro h
    cases h with
    | comment hbody hrest htrim =>
      refine ⟨fun d hd => bne_iff_ne.mpr (hbody d hd), fun d hd => ?_, ?_⟩
      · rw [hrest d hd]
        exact Bool.false_ne_true
      · rw [← htrim.eq_trim]
        rfl
    | name hc hbody hrest =>
      rw [Token.continues_name hc]
      exact ⟨hbody, hrest, Token.ofSlice?_name hc⟩
    | integer hc hbody hrest hn =>
      rw [Token.continues_integer hc]
      exact ⟨hbody, hrest, Token.ofSlice?_integer hc hn⟩
    | punctuation ht =>
      refine ⟨List.forall_mem_nil _, fun d _ hd => ?_, Token.ofSlice?_punctuation ht⟩
      have htail : Token.tail c [d] = [] := Token.tail_punctuation ht
      rw [Token.tail_eq_takeWhile, List.takeWhile_cons_of_pos hd] at htail
      cases htail
  · rintro ⟨hbody, hrest, h⟩
    unfold Token.ofSlice? at h
    split at h
    · next hc =>
      obtain rfl := eq_of_beq hc
      obtain rfl := Option.some.inj h
      refine .comment (fun d hd => bne_iff_ne.mp (hbody d hd)) (fun d hd => ?_) (trims_trim slice)
      simpa [Token.continues] using hrest d hd
    · split at h
      · next hc =>
        obtain rfl := Option.some.inj h
        rw [Token.continues_name hc] at hbody hrest
        exact .name hc hbody hrest
      · split at h
        · next hc =>
          rw [Token.continues_integer hc] at hbody hrest
          simp only at h
          split at h
          · next hlt =>
            obtain rfl := Option.some.inj h
            exact .integer hc hbody hrest (by rw [UInt32.toNat_ofNat', Nat.mod_eq_of_lt hlt])
          · cases h
        · next hhash hname hdigit =>
          have hnone : ∀ d, ¬ Token.continues c d := by simp [Token.continues, hhash, hname, hdigit]
          obtain rfl := List.eq_nil_iff_forall_not_mem.mpr fun d hd => hnone d (hbody d hd)
          exact .punctuation h

/-! ## Tilings -/

/-- Whether a text that begins at the byte offset `start`, and that `rest` stands behind, is made up
of runs of separators and of the slices of `ls` between them. -/
inductive Tiled : Nat → List Char → List Lexeme → List Char → Prop
  | blanks {start : Nat} {blanks rest : List Char} (hblanks : ∀ c ∈ blanks, Text.isSeparator c) :
    Tiled start blanks [] rest
  | token {start : Nat} {blanks slice text rest : List Char} {t : Token} {ls : List Lexeme}
    (hblanks : ∀ c ∈ blanks, Text.isSeparator c) (hslice : IsSlice slice t (text ++ rest))
    (htext : Tiled (start + Text.width blanks + Text.width slice) text ls rest) :
    Tiled start (blanks ++ slice ++ text) (⟨t, start + Text.width blanks⟩ :: ls) rest

/-- Whether a text that begins at `position` cannot be lexed there. -/
inductive Refused : Nat → List Char → SyntaxError → Prop
  | integer {position : Nat} {digits rest : List Char} (hne : digits ≠ [])
    (hdigits : ∀ c ∈ digits, c.isDigit) (hrest : ∀ c ∈ rest.head?, ¬ c.isDigit)
    (hvalue : UInt32.size ≤ Nat.ofDigitChars 10 digits 0) :
    Refused position (digits ++ rest) ⟨.oversizedInteger, position, some (String.ofList digits)⟩
  | character {position : Nat} {c : Char} {rest : List Char} (hseparator : ¬ Text.isSeparator c)
    (hslice : ∀ slice t rest, ¬ IsSlice (c :: slice) t rest) :
    Refused position (c :: rest) ⟨.unknownCharacter, position, some (String.singleton c)⟩

theorem Tiled.separator (hc : Text.isSeparator c) (h : Tiled (start + c.utf8Size) text ls rest) :
    Tiled start (c :: text) ls rest := by
  cases h with
  | blanks hblanks => exact .blanks (List.forall_mem_cons.mpr ⟨hc, hblanks⟩)
  | @token _ blanks slice text _ t ls hblanks hslice htext =>
    have hcons := @Tiled.token start _ _ _ _ _ _ (List.forall_mem_cons.mpr ⟨hc, hblanks⟩) hslice
      (by rwa [Text.width_cons, ← Nat.add_assoc])
    rwa [Text.width_cons, ← Nat.add_assoc] at hcons

theorem exists_cons_of_isSlice (h : IsSlice slice t rest) : ∃ c tail, slice = c :: tail := by
  cases h <;> exact ⟨_, _, rfl⟩

theorem lexemesFrom_slice (h : IsSlice slice t rest) (start : Nat) :
    lexemesFrom start (slice ++ rest) =
      (lexemesFrom (start + Text.width slice) rest).map (⟨t, start⟩ :: ·) := by
  obtain ⟨c, tail, rfl⟩ := exists_cons_of_isSlice h
  obtain ⟨htail, hrest, ht⟩ := isSlice_cons_iff.mp h
  have hseparator : ¬ Text.isSeparator c := by
    intro hc
    rw [Token.ofSlice?_eq_none_of_isSeparator hc] at ht
    cases ht
  have hcut : Token.tail c (tail ++ rest) = tail := by
    rw [Token.tail_eq_takeWhile, takeWhile_append_of_head? htail hrest]
  rw [List.cons_append, lexemesFrom_token hseparator (hcut.symm ▸ ht), hcut,
    dropWhile_append_of_head? htail hrest]

/-- A tiling is what the lexer finds, whatever it finds behind it. -/
theorem Tiled.lexemesFrom_append (h : Tiled start text ls rest) :
    lexemesFrom start (text ++ rest) =
      (lexemesFrom (start + Text.width text) rest).map (ls ++ ·) := by
  induction h with
  | @blanks start blanks rest hblanks =>
    rw [lexemesFrom_blanks_append hblanks]
    cases lexemesFrom (start + Text.width blanks) rest <;> rfl
  | @token start blanks slice text rest t ls hblanks hslice _ ih =>
    rw [List.append_assoc, List.append_assoc, lexemesFrom_blanks_append hblanks,
      lexemesFrom_slice hslice, ih, Text.width_append, Text.width_append, ← Nat.add_assoc,
      ← Nat.add_assoc]
    cases lexemesFrom (start + Text.width blanks + Text.width slice + Text.width text) rest <;> rfl

theorem Token.ofSlice?_eq_none_iff (hc : ¬ c.isDigit) :
    Token.ofSlice? c slice = none ↔
      c ≠ '#' ∧ ¬ Token.isNameStart c ∧ Token.punctuation? c = none := by
  by_cases hhash : c = '#'
  · simp [Token.ofSlice?, hhash]
  · by_cases hname : Token.isNameStart c <;> simp [Token.ofSlice?, hhash, hname, hc]

/-- A single digit is a symbol. -/
theorem ofSlice?_digit_ne_none (hc : c.isDigit) : Token.ofSlice? c [] ≠ none := by
  have hle : c.toNat ≤ 57 := (Char.isDigit_iff_toNat.mp hc).2
  have hlt : Nat.ofDigitChars 10 [c] 0 < UInt32.size := by
    rw [Nat.ofDigitChars_cons, Nat.ofDigitChars_nil, UInt32.size]
    omega
  simp [Token.ofSlice?, Token.ne_hash_of_isDigit hc, Token.isNameStart_of_isDigit hc, hc, hlt]

theorem forall_not_isSlice_iff :
    (∀ slice t rest, ¬ IsSlice (c :: slice) t rest) ↔
      ¬ c.isDigit ∧ ∀ slice, Token.ofSlice? c slice = none := by
  constructor
  · intro h
    have hnone : Token.ofSlice? c [] = none := by
      rw [Option.eq_none_iff_forall_ne_some]
      intro t ht
      exact h [] t [] (isSlice_cons_iff.mpr ⟨List.forall_mem_nil _, nofun, ht⟩)
    -- Digits are refused by their value, so what fails for all slices is no digit.
    have hdigit : ¬ c.isDigit := fun hc => ofSlice?_digit_ne_none hc hnone
    refine ⟨hdigit, fun slice => ?_⟩
    rw [Token.ofSlice?_eq_none_iff hdigit] at hnone ⊢
    exact hnone
  · rintro ⟨-, hnone⟩ slice t rest h
    have ht := (isSlice_cons_iff.mp h).2.2
    rw [hnone slice] at ht
    cases ht

theorem Refused.lexemesFrom_eq (h : Refused position rest e) :
    lexemesFrom position rest = .error e := by
  cases h with
  | @integer digits rest hne hdigits hrest hvalue =>
    obtain ⟨c, body, rfl⟩ := List.exists_cons_of_ne_nil hne
    obtain ⟨hc, hbody⟩ := List.forall_mem_cons.mp hdigits
    have hcut : Token.tail c (body ++ rest) = body := by
      rw [Token.tail_eq_takeWhile, Token.continues_integer hc, takeWhile_append_of_head? hbody hrest]
    have hnone : Token.ofSlice? c body = none := by
      simp [Token.ofSlice?, Token.ne_hash_of_isDigit hc, Token.isNameStart_of_isDigit hc, hc,
        Nat.not_lt.mpr hvalue]
    have hseparator : ¬ Text.isSeparator c := by
      intro hblank
      exact ofSlice?_digit_ne_none hc (Token.ofSlice?_eq_none_of_isSeparator hblank)
    rw [List.cons_append, lexemesFrom_unknown hseparator (hcut.symm ▸ hnone), hcut, if_pos hc]
  | @character c rest hseparator hslice =>
    obtain ⟨hdigit, hnone⟩ := forall_not_isSlice_iff.mp hslice
    obtain ⟨hhash, hname, -⟩ := (Token.ofSlice?_eq_none_iff hdigit).mp (hnone [])
    have hcut : Token.tail c rest = [] := by simp [Token.tail, hhash, hname, hdigit]
    rw [lexemesFrom_unknown hseparator (hnone _), hcut, if_neg hdigit]
    rfl

theorem Refused.ne_nil (h : Refused position rest e) : rest ≠ [] := by
  cases h with
  | integer hne => exact List.append_ne_nil_of_left_ne_nil hne _
  | character => exact List.cons_ne_nil _ _

theorem Refused.position_eq (h : Refused position rest e) : e.position = position := by
  cases h <;> rfl

theorem exists_refused (hc : ¬ Text.isSeparator c)
    (h : Token.ofSlice? c (Token.tail c rest) = none) (position : Nat) :
    ∃ e, Refused position (c :: rest) e := by
  by_cases hdigit : c.isDigit
  · have hsplit := List.takeWhile_append_dropWhile (p := Char.isDigit) (l := c :: rest)
    have hdigits : (c :: rest).takeWhile Char.isDigit = c :: Token.tail c rest := by
      rw [List.takeWhile_cons_of_pos hdigit, Token.tail_eq_takeWhile, Token.continues_integer hdigit]
    have hvalue : UInt32.size ≤ Nat.ofDigitChars 10 (c :: Token.tail c rest) 0 := by
      by_contra hlt
      simp [Token.ofSlice?, Token.ne_hash_of_isDigit hdigit, Token.isNameStart_of_isDigit hdigit,
        hdigit, Nat.not_le.mp hlt] at h
    rw [← hdigits] at hvalue
    have hrefused := @Refused.integer position _ ((c :: rest).dropWhile Char.isDigit)
      (by simp [hdigits]) (fun _ => List.mem_takeWhile_imp)
      (fun _ => not_of_mem_head?_dropWhile) hvalue
    rw [hsplit] at hrefused
    exact ⟨_, hrefused⟩
  · refine ⟨_, .character hc (forall_not_isSlice_iff.mpr ⟨hdigit, fun slice => ?_⟩)⟩
    rw [Token.ofSlice?_eq_none_iff hdigit] at h ⊢
    exact h

/-- Every text is tiled up to its end or up to a place that is refused. -/
theorem exists_tiled (start : Nat) (text : List Char) :
    ∃ front ls rest, text = front ++ rest ∧ Tiled start front ls rest ∧
      (rest = [] ∨ ∃ e, Refused (start + Text.width front) rest e) := by
  induction start, text using lexing_induction with
  | nil start => exact ⟨[], [], [], rfl, .blanks (List.forall_mem_nil _), .inl rfl⟩
  | separator start c rest hc ih =>
    obtain ⟨front, ls, rest, rfl, htiled, hend⟩ := ih
    refine ⟨c :: front, ls, rest, rfl, htiled.separator hc, ?_⟩
    rwa [Text.width_cons, ← Nat.add_assoc]
  | token start c rest t hc ht ih =>
    obtain ⟨front, ls, back, hsplit, htiled, hend⟩ := ih
    -- Whether the slice goes on is asked of all that stands behind it, not of the tiled part only.
    have hslice : IsSlice (c :: Token.tail c rest) t (front ++ back) := by
      rw [← hsplit, isSlice_cons_iff]
      refine ⟨fun d hd => ?_, fun d => not_of_mem_head?_dropWhile, ht⟩
      rw [Token.tail_eq_takeWhile] at hd
      exact List.mem_takeWhile_imp hd
    refine ⟨c :: Token.tail c rest ++ front, _, back, ?_,
      .token (List.forall_mem_nil _) hslice htiled, ?_⟩
    · rw [List.append_assoc, ← hsplit, Token.tail_eq_takeWhile, List.cons_append,
        List.takeWhile_append_dropWhile]
    · rwa [Text.width_append, ← Nat.add_assoc]
  | unknown start c rest hc ht =>
    exact ⟨[], [], c :: rest, rfl, .blanks (List.forall_mem_nil _), .inr (exists_refused hc ht _)⟩

theorem lexemesFrom_eq_ok_iff : lexemesFrom start text = .ok ls ↔ Tiled start text ls [] := by
  constructor
  · intro h
    obtain ⟨front, found, rest, rfl, htiled, hend⟩ := exists_tiled start text
    rw [htiled.lexemesFrom_append] at h
    rcases hend with rfl | ⟨e, he⟩
    · rw [lexemesFrom] at h
      obtain rfl : found ++ [] = ls := Except.ok.inj h
      rwa [List.append_nil, List.append_nil]
    · rw [he.lexemesFrom_eq] at h
      cases h
  · intro h
    have happend := h.lexemesFrom_append
    rw [List.append_nil, lexemesFrom] at happend
    rw [happend]
    exact congrArg Except.ok (List.append_nil ls)

theorem lexemesFrom_eq_error_iff :
    lexemesFrom start text = .error e ↔ ∃ front ls rest, text = front ++ rest ∧
      Tiled start front ls rest ∧ Refused (start + Text.width front) rest e := by
  constructor
  · intro h
    obtain ⟨front, ls, rest, rfl, htiled, hend⟩ := exists_tiled start text
    rw [htiled.lexemesFrom_append] at h
    rcases hend with rfl | ⟨e', he'⟩
    · rw [lexemesFrom] at h
      cases h
    · rw [he'.lexemesFrom_eq] at h
      obtain rfl := Except.error.inj h
      exact ⟨front, ls, rest, rfl, htiled, he'⟩
  · rintro ⟨front, ls, rest, rfl, htiled, he⟩
    rw [htiled.lexemesFrom_append, he.lexemesFrom_eq]
    rfl

/-! ## Places -/

/-- The tokens of a tiling begin one behind the other, each of them inside the text. -/
theorem Tiled.starts (h : Tiled start text ls rest) :
    ls.Pairwise (·.start < ·.start) ∧ ∀ l ∈ ls, ∃ front back,
      text = front ++ back ∧ back ≠ [] ∧ l.start = start + Text.width front := by
  induction h with
  | blanks => exact ⟨.nil, List.forall_mem_nil _⟩
  | @token start blanks slice text rest t ls hblanks hslice _ ih =>
    obtain ⟨hpairwise, hplaces⟩ := ih
    obtain ⟨c, tail, rfl⟩ := exists_cons_of_isSlice hslice
    have hpos := Text.width_pos c tail
    constructor
    · refine hpairwise.cons fun l hl => ?_
      obtain ⟨front, -, -, -, hstart⟩ := hplaces l hl
      change start + Text.width blanks < l.start
      rw [hstart]
      omega
    · rw [List.forall_mem_cons]
      refine ⟨⟨blanks, c :: tail ++ text, ?_, List.cons_ne_nil _ _, rfl⟩, fun l hl => ?_⟩
      · rw [List.append_assoc]
      · obtain ⟨front, back, rfl, hne, hstart⟩ := hplaces l hl
        refine ⟨blanks ++ (c :: tail) ++ front, back, by simp only [List.append_assoc], hne, ?_⟩
        rw [hstart, Text.width_append, Text.width_append]
        omega

theorem utf8ByteSize_ofList (text : List Char) :
    (String.ofList text).utf8ByteSize = Text.width text := by
  induction text with
  | nil => rw [String.ofList_nil, String.utf8ByteSize_empty, Text.width_nil]
  | cons c text ih =>
    rw [String.ofList_cons, String.utf8ByteSize_append, String.utf8ByteSize_singleton, ih,
      Text.width_cons]

/-- Whether a byte offset is a boundary between characters of a text, in front of its end. -/
def IsPlace (text : String) (position : Nat) : Prop :=
  (⟨position⟩ : String.Pos.Raw).IsValid text ∧ position < text.utf8ByteSize

theorem isPlace_width {text : String} {front back : List Char} (h : text.toList = front ++ back)
    (hne : back ≠ []) : IsPlace text (Text.width front) := by
  obtain ⟨c, tail, rfl⟩ := List.exists_cons_of_ne_nil hne
  have htext : text = String.ofList front ++ String.ofList (c :: tail) := by
    rw [← String.ofList_append, ← h, String.ofList_toList]
  constructor
  · refine String.Pos.Raw.isValid_iff_exists_append.mpr ⟨_, _, htext, ?_⟩
    rw [String.Pos.Raw.ext_iff]
    exact (utf8ByteSize_ofList front).symm
  · have := Text.width_pos c tail
    rw [htext, String.utf8ByteSize_append, utf8ByteSize_ofList, utf8ByteSize_ofList]
    omega

/-- The lexer loses nothing. Its tokens are those of a tiling of the text, and it fails exactly where
a tiling of what stands before ends in front of something that is refused. The places of the tokens
ascend, and they and the place of a failure are boundaries inside the text. -/
theorem lexemes_tiled (text : String) :
    (∀ ls, lexemes text = .ok ls ↔ Tiled 0 text.toList ls []) ∧
      (∀ e, lexemes text = .error e ↔ ∃ front ls rest, text.toList = front ++ rest ∧
        Tiled 0 front ls rest ∧ Refused (Text.width front) rest e) ∧
      (∀ ls, lexemes text = .ok ls →
        ls.Pairwise (·.start < ·.start) ∧ ∀ l ∈ ls, IsPlace text l.start) ∧
      ∀ e, lexemes text = .error e → IsPlace text e.position := by
  have herror (e : SyntaxError) : lexemes text = .error e ↔ ∃ front ls rest,
      text.toList = front ++ rest ∧ Tiled 0 front ls rest ∧ Refused (Text.width front) rest e := by
    rw [lexemes, lexemesFrom_eq_error_iff]
    simp only [Nat.zero_add]
  refine ⟨fun ls => lexemesFrom_eq_ok_iff, herror, fun ls h => ?_, fun e h => ?_⟩
  · obtain ⟨hpairwise, hplaces⟩ := (lexemesFrom_eq_ok_iff.mp h).starts
    refine ⟨hpairwise, fun l hl => ?_⟩
    obtain ⟨front, back, htext, hne, hstart⟩ := hplaces l hl
    rw [hstart, Nat.zero_add]
    exact isPlace_width htext hne
  · obtain ⟨front, ls, rest, htext, -, hrefused⟩ := (herror e).mp h
    rw [hrefused.position_eq]
    exact isPlace_width htext hrefused.ne_nil

/-! Leading zeros and a wide character, and an integer that is no symbol behind a comment. -/

def paddedText : String := "ab =\t007;# ü "

def overlongText : String := "# ü \n 0042949672960b"

theorem lexemes_paddedText :
    (∃ ls, lexemes paddedText = .ok ls ∧
        ls = [⟨.name "ab", 0⟩, ⟨.equals, 3⟩, ⟨.integer 7, 5⟩, ⟨.semicolon, 8⟩, ⟨.comment "ü", 9⟩] ∧
        ls.Pairwise (·.start < ·.start) ∧ ∀ l ∈ ls, IsPlace paddedText l.start) ∧
      lexemes overlongText = .error ⟨.oversizedInteger, 7, some "0042949672960"⟩ ∧
      IsPlace overlongText 7 := by
  have hpadded : lexemes paddedText = .ok
      [⟨.name "ab", 0⟩, ⟨.equals, 3⟩, ⟨.integer 7, 5⟩, ⟨.semicolon, 8⟩, ⟨.comment "ü", 9⟩] := by
    decide +kernel
  have hoverlong :
      lexemes overlongText = .error ⟨.oversizedInteger, 7, some "0042949672960"⟩ := by
    decide +kernel
  obtain ⟨hpairwise, hplaces⟩ := (lexemes_tiled paddedText).2.2.1 _ hpadded
  exact ⟨⟨_, hpadded, rfl, hpairwise, hplaces⟩, hoverlong,
    (lexemes_tiled overlongText).2.2.2 _ hoverlong⟩

end RunGrammar.Rules
