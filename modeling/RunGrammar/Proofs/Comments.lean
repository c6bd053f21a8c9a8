import RunGrammar.Proofs.RenderedRules

/-! Comments of rule text. A comment runs from its `#` to the end of the line. It may be
overwritten with blanks: the rules and every error stay as they are, with their places. The
statements hold each comment once, in order, and one inside a rule behind that rule. -/
namespace RunGrammar

def Statement.comment? : Statement → Option String
  | comment text => some text
  | assign _ _ => none

namespace Rules

open Grammar

variable {c : Char} {rest text : List Char} {ls : List Lexeme} {statements : List Statement}
  {token : Token} {start stop : Nat} {p : Char → Bool}

namespace Token

/-- A slice other than a comment ends before a blank and before a comment. -/
theorem not_continues (hc : c ≠ '#') : ¬ continues c ' ' ∧ ¬ continues c '#' := by
  rw [continues, if_neg (by simpa using hc)]
  split
  · decide
  · split
    · decide
    · exact ⟨Bool.false_ne_true, Bool.false_ne_true⟩

theorem not_isComment_of_ofSlice? {slice : List Char} (hc : c ≠ '#')
    (h : ofSlice? c slice = some token) : ¬ token.isComment := by
  rw [ofSlice?, if_neg (by simpa using hc)] at h
  split at h
  · cases h
    exact Bool.false_ne_true
  · split at h
    · simp only [Option.ite_none_right_eq_some, Option.some.injEq] at h
      obtain ⟨-, rfl⟩ := h
      exact Bool.false_ne_true
    · unfold punctuation? at h
      split at h <;> cases h <;> exact Bool.false_ne_true

theorem ne_hash_of_isSeparator (hc : Text.isSeparator c) : c ≠ '#' := by
  rintro rfl
  cases hc

theorem ne_hash_of_ofSlice?_eq_none {slice : List Char} (h : ofSlice? c slice = none) :
    c ≠ '#' := by
  rintro rfl
  cases h

def comment? : Token → Option String
  | comment text => some text
  | name _ | integer _ | equals | semicolon | bar | colon | comma | openParen | closeParen
  | openBrace | closeBrace | star | plus | question => none

theorem comment?_eq_none (h : ¬ token.isComment) : token.comment? = none := by
  cases token <;> first | rfl | exact absurd rfl h

end Token

/-! ## The text -/

/-- The text with every comment replaced by as many blanks as it has bytes. -/
def blankComments : List Char → List Char
  | [] => []
  | c :: rest =>
    if c = '#' then
      List.replicate (Text.width (c :: rest.takeWhile (· != '\n'))) ' ' ++
        blankComments (rest.dropWhile (· != '\n'))
    else c :: blankComments rest
termination_by text => text.length
decreasing_by
  · exact Nat.lt_succ_of_le (List.dropWhile_sublist _).length_le
  · exact Nat.lt_succ_self _

/-- The comments of a text, each trimmed and at the byte offset of its `#`. `start` is the byte
offset of the first character. -/
def commentsFrom (start : Nat) : List Char → List Lexeme
  | [] => []
  | c :: rest =>
    if c = '#' then
      ⟨.comment (String.ofList (Text.trim (rest.takeWhile (· != '\n')))), start⟩ ::
        commentsFrom (start + Text.width (c :: rest.takeWhile (· != '\n')))
          (rest.dropWhile (· != '\n'))
    else commentsFrom (start + c.utf8Size) rest
termination_by text => text.length
decreasing_by
  · exact Nat.lt_succ_of_le (List.dropWhile_sublist _).length_le
  · exact Nat.lt_succ_self _

theorem blankComments_cons (hc : c ≠ '#') :
    blankComments (c :: rest) = c :: blankComments rest := by
  rw [blankComments, if_neg hc]

theorem commentsFrom_cons (hc : c ≠ '#') :
    commentsFrom start (c :: rest) = commentsFrom (start + c.utf8Size) rest := by
  rw [commentsFrom, if_neg hc]

theorem width_replicate_blank (n : Nat) : Text.width (List.replicate n ' ') = n := by
  induction n with
  | zero => rfl
  | succ n ih =>
    rw [List.replicate_succ, Text.width_cons, ih, Nat.add_comm]
    rfl

theorem width_blankComments (text : List Char) :
    Text.width (blankComments text) = Text.width text := by
  fun_induction blankComments text with
  | case1 => rfl
  | case2 rest ih =>
    rw [Text.width_append, width_replicate_blank, ih, ← Text.width_append, List.cons_append,
      List.takeWhile_append_dropWhile]
  | case3 c rest hc ih => rw [Text.width_cons, Text.width_cons, ih]

/-- What a slice other than a comment takes from a text is not touched. -/
theorem takeWhile_blankComments (hblank : ¬ p ' ') (hhash : ¬ p '#') (text : List Char) :
    (blankComments text).takeWhile p = text.takeWhile p ∧
      (blankComments text).dropWhile p = blankComments (text.dropWhile p) := by
  induction text with
  | nil => simp [blankComments]
  | cons c rest ih =>
    by_cases hc : p c
    · have hne : c ≠ '#' := fun h => hhash (h ▸ hc)
      simpa [blankComments_cons hne, hc] using ih
    · obtain ⟨d, text, hblanked, hd⟩ : ∃ d text, blankComments (c :: rest) = d :: text ∧ ¬ p d := by
        by_cases hne : c = '#'
        · rw [blankComments, if_pos hne, Text.width_cons, Nat.add_comm, hne]
          exact ⟨' ', _, rfl, hblank⟩
        · exact ⟨c, _, blankComments_cons hne, hc⟩
      rw [List.takeWhile_cons_of_neg hc, List.dropWhile_cons_of_neg hc, hblanked]
      exact ⟨List.takeWhile_cons_of_neg hd, List.dropWhile_cons_of_neg hd⟩

theorem Token.blankComments_slice (hc : c ≠ '#') (rest : List Char) :
    tail c (blankComments rest) = tail c rest ∧
      (blankComments rest).dropWhile (continues c) =
        blankComments (rest.dropWhile (continues c)) := by
  obtain ⟨hblank, hhash⟩ := not_continues hc
  rw [tail_eq_takeWhile, tail_eq_takeWhile]
  exact takeWhile_blankComments hblank hhash rest

theorem commentsFrom_dropWhile (hhash : ¬ p '#') (start : Nat) (text : List Char) :
    commentsFrom start text =
      commentsFrom (start + Text.width (text.takeWhile p)) (text.dropWhile p) := by
  induction text generalizing start with
  | nil => simp [commentsFrom]
  | cons c rest ih =>
    by_cases hc : p c
    · have hne : c ≠ '#' := fun h => hhash (h ▸ hc)
      rw [commentsFrom_cons hne, ih, List.takeWhile_cons_of_pos hc, List.dropWhile_cons_of_pos hc,
        Text.width_cons, Nat.add_assoc]
    · rw [List.takeWhile_cons_of_neg hc, List.dropWhile_cons_of_neg hc, Text.width_nil,
        Nat.add_zero]

/-! ## The lexemes -/

theorem lexemesFrom_blanks (start n : Nat) (text : List Char) :
    lexemesFrom start (List.replicate n ' ' ++ text) = lexemesFrom (start + n) text := by
  have hblanks : ∀ c ∈ List.replicate n ' ', Text.isSeparator c := by
    intro c hc
    rw [List.eq_of_mem_replicate hc]
    rfl
  rw [lexemesFrom_blanks_append hblanks, width_replicate_blank]

/-- The lexemes of a text with blanks in place of the comments are those of the text without the
comments, and where one cannot be cut, the other cannot either. -/
theorem lexemesFrom_blankComments (start : Nat) (text : List Char) :
    lexemesFrom start (blankComments text) =
      (lexemesFrom start text).map (List.filter fun l => !l.token.isComment) := by
  induction start, text using lexing_induction with
  | nil start =>
    rw [blankComments, lexemesFrom]
    rfl
  | separator start c rest hc ih =>
    rw [blankComments_cons (Token.ne_hash_of_isSeparator hc), lexemesFrom_separator hc,
      lexemesFrom_separator hc, ih]
  | token start c rest token hc htoken ih =>
    rw [lexemesFrom_token hc htoken]
    by_cases hne : c = '#'
    · subst hne
      obtain rfl : Token.comment _ = token := Option.some.inj htoken
      rw [blankComments, if_pos rfl, lexemesFrom_blanks]
      refine ih.trans ?_
      cases lexemesFrom (start + Text.width ('#' :: Token.tail '#' rest))
        (rest.dropWhile (Token.continues '#')) <;> rfl
    · obtain ⟨htail, hrest⟩ := Token.blankComments_slice hne rest
      rw [blankComments_cons hne, lexemesFrom_token hc (htail.symm ▸ htoken), htail, hrest, ih]
      have hkept : (!token.isComment) = true := by
        simpa using Token.not_isComment_of_ofSlice? hne htoken
      cases lexemesFrom (start + Text.width (c :: Token.tail c rest))
        (rest.dropWhile (Token.continues c)) with
      | error e => rfl
      | ok ls => simp only [Except.map, List.filter_cons, if_pos hkept]
  | unknown start c rest hc htoken =>
    have hne := Token.ne_hash_of_ofSlice?_eq_none htoken
    obtain ⟨htail, -⟩ := Token.blankComments_slice hne rest
    rw [blankComments_cons hne, lexemesFrom_unknown hc htoken,
      lexemesFrom_unknown hc (htail.symm ▸ htoken), htail]
    rfl

/-- The comments among the lexemes of a text are its comments. -/
theorem filter_isComment_lexemesFrom (h : lexemesFrom start text = .ok ls) :
    ls.filter (fun l => l.token.isComment) = commentsFrom start text := by
  induction start, text using lexing_induction generalizing ls with
  | nil start =>
    rw [lexemesFrom] at h
    cases h
    rw [commentsFrom]
    rfl
  | separator start c rest hc ih =>
    rw [lexemesFrom_separator hc] at h
    rw [commentsFrom_cons (Token.ne_hash_of_isSeparator hc), ih h]
  | token start c rest token hc htoken ih =>
    rw [lexemesFrom_token hc htoken] at h
    obtain ⟨ls, hls, rfl⟩ := exists_of_map_eq_ok h
    by_cases hne : c = '#'
    · subst hne
      obtain rfl : Token.comment _ = token := Option.some.inj htoken
      rw [commentsFrom, if_pos rfl]
      exact congrArg (_ :: ·) (ih hls)
    · obtain ⟨-, hhash⟩ := Token.not_continues hne
      rw [List.filter_cons, if_neg (Token.not_isComment_of_ofSlice? hne htoken), ih hls,
        commentsFrom_cons hne, commentsFrom_dropWhile hhash _ rest, ← Token.tail_eq_takeWhile,
        Text.width_cons, Nat.add_assoc]
  | unknown start c rest hc htoken =>
    rw [lexemesFrom_unknown hc htoken] at h
    cases h

/-! ## The statements -/

/-- The texts of the comments among lexemes. -/
def commentTexts (ls : List Lexeme) : List String := ls.filterMap fun l => l.token.comment?

theorem commentTexts_cons_comment (text : String) (start : Nat) (ls : List Lexeme) :
    commentTexts (⟨.comment text, start⟩ :: ls) = text :: commentTexts ls := rfl

theorem commentTexts_cons (h : ¬ token.isComment) (start : Nat) (ls : List Lexeme) :
    commentTexts (⟨token, start⟩ :: ls) = commentTexts ls :=
  List.filterMap_cons_none (Token.comment?_eq_none h)

theorem commentTexts_filter (ls : List Lexeme) :
    commentTexts (ls.filter fun l => l.token.isComment) = commentTexts ls := by
  induction ls with
  | nil => rfl
  | cons l ls ih =>
    obtain ⟨token, start⟩ := l
    by_cases h : token.isComment
    · obtain ⟨text, rfl⟩ := Token.exists_comment h
      exact congrArg (text :: ·) ih
    · rw [List.filter_cons, if_neg h, ih, commentTexts_cons h]

/-- Without the comments the lexemes are read as the same rules, or refused in the same way. -/
theorem statementsFrom_filter (stop : Nat) (r : Reader) (deferred : List String)
    (ls : List Lexeme) :
    statementsFrom stop r [] (ls.filter fun l => !l.token.isComment) =
      (statementsFrom stop r deferred ls).map fun statements =>
        (assignments statements).map fun rule => .assign rule.1 rule.2 := by
  induction ls generalizing r deferred with
  | nil =>
    rw [List.filter_nil, statementsFrom, statementsFrom]
    by_cases hidle : r = .idle
    · rw [if_pos hidle]
      rfl
    · rw [if_neg hidle]
      rfl
  | cons l ls ih =>
    obtain ⟨token, start⟩ := l
    by_cases hcomment : token.isComment
    · obtain ⟨text, rfl⟩ := Token.exists_comment hcomment
      rw [List.filter_cons_of_neg Bool.false_ne_true, statementsFrom]
      by_cases hidle : r = .idle
      · rw [if_pos hidle, ih r deferred]
        cases statementsFrom stop r deferred ls <;> rfl
      · rw [if_neg hidle, ih]
    · rw [List.filter_cons_of_pos (by simpa using hcomment), statementsFrom_cons hcomment,
        statementsFrom_cons hcomment]
      cases r.next start token with
      | error e => rfl
      | ok o =>
        cases o with
        | more r => exact ih r deferred
        | rule name body =>
          simp only [ih .idle []]
          cases statementsFrom stop .idle [] ls with
          | error e => rfl
          | ok statements => simp [assignments, assignments_comments, Except.map]

/-- The statements that lexemes say, in the order of the text. A comment between two rules stands
where it is, and the comments inside a rule, between its name and its semicolon, follow it. -/
inductive Arranged : List Lexeme → List Statement → Prop
  | nil : Arranged [] []
  | comment {ls : List Lexeme} {statements : List Statement} (text : String) (start : Nat)
    (more : Arranged ls statements) :
    Arranged (⟨.comment text, start⟩ :: ls) (.comment text :: statements)
  | rule {inside ls : List Lexeme} {statements : List Statement} {name : String} {body : Expr}
    {start stop : Nat}
    (rule : RuleList Expr.Counted (.name name :: (significant inside ++ [.semicolon]))
      [(name, body)])
    (more : Arranged ls statements) :
    Arranged (⟨.name name, start⟩ :: (inside ++ ⟨.semicolon, stop⟩ :: ls))
      (.assign name body :: ((commentTexts inside).map .comment ++ statements))

theorem filterMap_comment?_comments (texts : List String) :
    (texts.map Statement.comment).filterMap Statement.comment? = texts := by
  rw [List.filterMap_map]
  exact List.filterMap_some

/-- The comments among the statements are those among the lexemes, in the same order. -/
theorem Arranged.filterMap_comment? (h : Arranged ls statements) :
    statements.filterMap Statement.comment? = commentTexts ls := by
  induction h with
  | nil => rfl
  | comment text start _ ih => exact congrArg (text :: ·) ih
  | @rule inside ls statements name body start stop _ _ ih =>
    have hinside : commentTexts (inside ++ ⟨.semicolon, stop⟩ :: ls) =
        commentTexts inside ++ commentTexts ls := List.filterMap_append
    have hname : ¬ (Token.name name).isComment := Bool.false_ne_true
    rw [commentTexts_cons hname, hinside, ← ih, List.filterMap_cons_none rfl,
      List.filterMap_append, filterMap_comment?_comments]

/-- Inside a rule the lexemes are read to its semicolon. -/
theorem exists_rule_of_statementsFrom {r : Reader} {deferred : List String} (hr : r ≠ .idle)
    (h : statementsFrom stop r deferred ls = .ok statements) :
    ∃ inside start rest name body later, ls = inside ++ ⟨.semicolon, start⟩ :: rest ∧
      r.Completes Expr.Counted (significant inside ++ [.semicolon]) [(name, body)] ∧
      statementsFrom stop .idle [] rest = .ok later ∧
      statements = .assign name body ::
        ((deferred ++ commentTexts inside).map .comment ++ later) := by
  induction ls generalizing r deferred with
  | nil =>
    rw [statementsFrom, if_neg hr] at h
    cases h
  | cons l ls ih =>
    obtain ⟨token, start⟩ := l
    by_cases hcomment : token.isComment
    · obtain ⟨text, rfl⟩ := Token.exists_comment hcomment
      rw [statementsFrom, if_neg hr] at h
      obtain ⟨inside, last, rest, name, body, later, rfl, hrule, hlater, rfl⟩ := ih hr h
      refine ⟨⟨.comment text, start⟩ :: inside, last, rest, name, body, later, rfl, hrule, hlater,
        ?_⟩
      rw [commentTexts_cons_comment, List.append_assoc, List.singleton_append]
    · rw [statementsFrom_cons hcomment] at h
      split at h
      · cases h
      · next r' hnext =>
        obtain ⟨_, ⟨⟩, hr'⟩ | ⟨-, _, _, ⟨⟩⟩ := Reader.next_cases hnext
        obtain ⟨inside, last, rest, name, body, later, rfl, hrule, hlater, rfl⟩ := ih hr' h
        refine ⟨⟨token, start⟩ :: inside, last, rest, name, body, later, rfl, ?_, hlater, ?_⟩
        · rw [significant_cons hcomment]
          exact (r.completes_cons_iff start).mpr ⟨_, hnext, hrule⟩
        · rw [commentTexts_cons hcomment]
      · next name body hnext =>
        obtain ⟨_, ⟨⟩, -⟩ | ⟨rfl, -⟩ := Reader.next_cases hnext
        split at h
        · next later hlater =>
          cases h
          refine ⟨[], start, ls, name, body, later, rfl, ?_, hlater, ?_⟩
          · exact (r.completes_cons_iff start).mpr ⟨_, hnext, [], .nil, rfl⟩
          · rw [show commentTexts [] = [] from rfl, List.append_nil]
        · cases h

theorem name_of_ruleList {ts : List Token} {text name : String} {body : Expr}
    {rules : List (String × Expr)}
    (h : RuleList Expr.Counted (.name text :: ts) ((name, body) :: rules)) : name = text := by
  cases h
  rfl

/-- What is read is arranged, by induction on the number of lexemes: a rule takes at least one. -/
theorem arranged_of_statementsFrom {ls : List Lexeme} {statements : List Statement}
    (h : statementsFrom stop .idle [] ls = .ok statements) : Arranged ls statements := by
  match ls, h with
  | [], h =>
    cases h
    exact .nil
  | ⟨token, start⟩ :: ls, h =>
    by_cases hcomment : token.isComment
    · obtain ⟨text, rfl⟩ := Token.exists_comment hcomment
      rw [statementsFrom, if_pos rfl] at h
      split at h
      · next later hlater =>
        cases h
        exact .comment text start (arranged_of_statementsFrom hlater)
      · cases h
    · rw [statementsFrom_cons hcomment] at h
      cases token with
      | name text =>
        obtain ⟨inside, last, rest, name, body, later, rfl, hrule, hlater, rfl⟩ :=
          exists_rule_of_statementsFrom (r := .named text) (by rintro ⟨⟩) h
        obtain rfl : name = text := name_of_ruleList hrule
        exact .rule hrule (arranged_of_statementsFrom hlater)
      | _ => cases h
termination_by ls.length

theorem statements_ofList_blankComments (text : String) :
    Rules.statements (String.ofList (blankComments text.toList)) =
      (Rules.statements text).map fun statements =>
        (assignments statements).map fun rule => .assign rule.1 rule.2 := by
  rw [Rules.statements, Rules.statements, lexemes, lexemes, String.toList_ofList,
    lexemesFrom_blankComments, width_blankComments]
  cases lexemesFrom 0 text.toList with
  | error e => rfl
  | ok ls => exact statementsFrom_filter _ .idle [] ls

/-- With blanks in place of its comments a text has the same rules or the same error. Its comments
stand among the statements in the order of the text, and one inside a rule behind that rule. -/
theorem statements_blankComments (text : String) :
    (∀ statements, Rules.statements text = .ok statements →
      Rules.statements (String.ofList (blankComments text.toList)) =
          .ok ((assignments statements).map fun rule => .assign rule.1 rule.2) ∧
        statements.filterMap Statement.comment? = commentTexts (commentsFrom 0 text.toList) ∧
        ∃ ls, lexemes text = .ok ls ∧
          ls.filter (fun l => l.token.isComment) = commentsFrom 0 text.toList ∧
          Arranged ls statements) ∧
    ∀ e, Rules.statements text = .error e →
      Rules.statements (String.ofList (blankComments text.toList)) = .error e := by
  rw [statements_ofList_blankComments]
  refine ⟨fun statements h => ⟨by rw [h, Except.map], ?_⟩, fun e h => by rw [h, Except.map]⟩
  rw [Rules.statements] at h
  cases hls : lexemes text with
  | error e =>
    rw [hls] at h
    cases h
  | ok ls =>
    rw [hls] at h
    have hcomments := filter_isComment_lexemesFrom hls
    have harranged := arranged_of_statementsFrom h
    refine ⟨?_, ls, rfl, hcomments, harranged⟩
    rw [← hcomments, commentTexts_filter, harranged.filterMap_comment?]

/-! Comments between rules, inside a rule and behind the last one, and an error behind a comment. -/

def remarkedText : String := "# é\nMain = 0 # b=;\n | 1; # c"

def brokenText : String := "Main = 0 # é\n | # b\n ;"

theorem statements_remarkedText :
    Rules.statements remarkedText =
        .ok [.comment "é", .assign "Main" (.alt (.lit 0) (.lit 1)), .comment "b=;", .comment "c"] ∧
      Rules.statements "    \nMain = 0      \n | 1;    " =
        .ok [.assign "Main" (.alt (.lit 0) (.lit 1))] ∧
      Rules.statements brokenText = .error ⟨.missing .operand, 22, some ";"⟩ ∧
      Rules.statements "Main = 0     \n |    \n ;" =
        .error ⟨.missing .operand, 22, some ";"⟩ := by
  have hread : Rules.statements remarkedText = .ok
      [.comment "é", .assign "Main" (.alt (.lit 0) (.lit 1)), .comment "b=;", .comment "c"] := by
    decide +kernel
  have hbroken : Rules.statements brokenText = .error ⟨.missing .operand, 22, some ";"⟩ := by
    decide +kernel
  have hblank : String.ofList (blankComments remarkedText.toList) =
      "    \nMain = 0      \n | 1;    " := by decide +kernel
  have hblank' : String.ofList (blankComments brokenText.toList) =
      "Main = 0     \n |    \n ;" := by decide +kernel
  refine ⟨hread, ?_, hbroken, ?_⟩
  · rw [← hblank]
    exact ((statements_blankComments remarkedText).1 _ hread).1
  · rw [← hblank']
    exact (statements_blankComments brokenText).2 _ hbroken

end Rules

end RunGrammar
