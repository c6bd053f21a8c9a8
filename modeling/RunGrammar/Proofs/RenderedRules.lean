import RunGrammar.Expr.Render
import RunGrammar.Proofs.Lexing
import RunGrammar.Proofs.Reading

/-! A written rule is read back. The written form of an expression is cut into tokens one operand
after the other, since a blank, a parenthesis or a quantifier ends each name and each number. The
tokens of an expression are a phrase of the level that its rank says, and an operand of a lower
rank is a phrase of the innermost level by its parentheses. -/
namespace RunGrammar

open Rules

variable {e : Expr} {ts : List Token} {text name : String}

def Quantifier.token : Quantifier → Token
  | star => .star
  | plus => .plus
  | opt => .question

namespace Expr

/-- Whether the expression has no tag and no end mark, and only references that can be written. -/
inductive Plain : Expr → Prop
  | lit (s : Symbol) : Plain (lit s)
  | ref {name : String} (hname : Token.isName name) : Plain (ref name)
  | alt {x y : Expr} (hx : Plain x) (hy : Plain y) : Plain (alt x y)
  | cat {x y : Expr} (hx : Plain x) (hy : Plain y) : Plain (cat x y)
  | rep {e : Expr} (q : Quantifier) (he : Plain e) : Plain (rep e q)

/-- The tokens of an operand where only expressions of rank `least` or more stand bare. -/
def enclosed (least : Nat) (e : Expr) (ts : List Token) : List Token :=
  if e.rank < least then .openParen :: ts ++ [.closeParen] else ts

/-- The tokens of the written form. Tags and end marks are written without tokens. -/
def tokens : Expr → List Token
  | lit s => [.integer s]
  | ref name => [.name name]
  | alt x y => x.enclosed 0 x.tokens ++ .bar :: y.enclosed 1 y.tokens
  | cat x y => x.enclosed 1 x.tokens ++ y.enclosed 2 y.tokens
  | rep e q => e.enclosed 2 e.tokens ++ [q.token]
  | tag _ | endMark => []

theorem mem_enclosed {least : Nat} {t : Token} (h : t ∈ e.enclosed least ts) :
    t = .openParen ∨ t ∈ ts ∨ t = .closeParen := by
  unfold enclosed at h
  split at h
  · simpa using h
  · exact .inr (.inl h)

theorem not_isComment_of_mem_enclosed {least : Nat} (h : ∀ t ∈ ts, ¬ t.isComment) :
    ∀ t ∈ e.enclosed least ts, ¬ t.isComment := by
  intro t ht
  rcases mem_enclosed ht with rfl | ht | rfl
  · exact Bool.false_ne_true
  · exact h t ht
  · exact Bool.false_ne_true

theorem not_isComment_of_mem_tokens (e : Expr) : ∀ t ∈ e.tokens, ¬ t.isComment := by
  induction e with
  | lit _ | ref _ => simp [tokens, Token.isComment]
  | tag _ | endMark => simp [tokens]
  | alt x y ihx ihy =>
    exact List.forall_mem_append.mpr ⟨not_isComment_of_mem_enclosed ihx,
      List.forall_mem_cons.mpr ⟨Bool.false_ne_true, not_isComment_of_mem_enclosed ihy⟩⟩
  | cat x y ihx ihy =>
    exact List.forall_mem_append.mpr
      ⟨not_isComment_of_mem_enclosed ihx, not_isComment_of_mem_enclosed ihy⟩
  | rep e q ih =>
    refine List.forall_mem_append.mpr ⟨not_isComment_of_mem_enclosed ih, ?_⟩
    cases q <;> simp [Quantifier.token, Token.isComment]

end Expr

/-! ## The text of an expression -/

/-- Whether a text is cut into these tokens in front of each text that ends a name. -/
def Spells (text : String) (ts : List Token) : Prop :=
  ∀ {rest : List Char} {more : List Token}, Ended rest → Lexes rest more →
    Lexes (text.toList ++ rest) (ts ++ more)

theorem Spells.enclose (h : Spells text ts) (least : Nat) (e : Expr) :
    Spells (e.enclose least text) (e.enclosed least ts) := by
  intro rest more hrest hmore
  unfold Expr.enclose Expr.enclosed
  split
  · have hclose : Lexes (')' :: rest) (.closeParen :: more) := hmore.punctuation rfl
    have hopen := (h (ended_cons rfl) hclose).punctuation (c := '(') rfl
    simpa using hopen
  · exact h hrest hmore

theorem Expr.Plain.spells (he : e.Plain) : Spells e.render e.tokens := by
  induction he with
  | lit s => exact fun hrest hmore => hmore.integer s hrest
  | ref hname => exact fun hrest hmore => hmore.name hname hrest
  | @alt x y _ _ ihx ihy =>
    intro rest more hrest hmore
    have hright := ihy.enclose 1 y hrest hmore
    have hbar := ((hright.separator (c := ' ') rfl).punctuation (c := '|') rfl).separator
      (c := ' ') rfl
    have hleft := ihx.enclose 0 x (ended_cons rfl) hbar
    simpa [render, tokens] using hleft
  | @cat x y _ _ ihx ihy =>
    intro rest more hrest hmore
    have hright := ihy.enclose 2 y hrest hmore
    have hleft := ihx.enclose 1 x (ended_cons rfl) (hright.separator (c := ' ') rfl)
    simpa [render, tokens] using hleft
  | @rep e q _ ih =>
    intro rest more hrest hmore
    have hsign : Lexes (q.sign :: rest) (q.token :: more) :=
      hmore.punctuation (by cases q <;> rfl)
    have hbody := ih.enclose 2 e (ended_cons (by cases q <;> rfl)) hsign
    simpa [render, tokens] using hbody

/-! ## The phrase of an expression -/

namespace Rules.Grammar

variable {Repeats : Expr → Nat → Option Nat → Expr → Prop} {mid rest : List Token}
  {e' e'' : Expr} {es : List Expr} {m n : Nat}

theorem Branches.concat (h : Branches Repeats ts es (.bar :: mid)) (he : Chain Repeats mid e rest) :
    Branches Repeats ts (es ++ [e]) rest := by
  induction es generalizing ts with
  | nil =>
    cases h
    exact .cons he (.nil rest)
  | cons first es ih => cases h with
    | cons hfirst more => exact .cons hfirst (ih more)

theorem Items.concat (h : Items Repeats ts es mid) (he : Item Repeats mid e rest) :
    Items Repeats ts (es ++ [e]) rest := by
  induction es generalizing ts with
  | nil =>
    cases h
    exact .cons he (.nil rest)
  | cons first es ih => cases h with
    | cons hfirst more => exact .cons hfirst (ih more)

theorem Suffixes.concat (h : Suffixes Repeats e ts e' mid) (he : Suffix Repeats e' mid e'' rest) :
    Suffixes Repeats e ts e'' rest := by
  induction h with
  | nil => exact .cons he (.nil _ _)
  | cons suffix _ ih => exact .cons suffix (ih he)

theorem suffix_token (e : Expr) (q : Quantifier) (rest : List Token) :
    Suffix Repeats e (q.token :: rest) (.rep e q) rest := by
  cases q with
  | star => exact .star rest
  | plus => exact .plus rest
  | opt => exact .question rest

theorem Core.head?_ne_colon (h : Core Repeats ts e rest) : ts.head? ≠ some .colon := by
  cases h <;> simp

/-- Phrases whose outermost operator binds at least as tightly as the rank says. -/
def Phrase (Repeats : Expr → Nat → Option Nat → Expr → Prop) :
    Nat → List Token → Expr → List Token → Prop
  | 0, ts, e, rest => Choice Repeats ts e rest
  | 1, ts, e, rest => Chain Repeats ts e rest
  | 2, ts, e, rest => ∃ core mid, Core Repeats ts core mid ∧ Suffixes Repeats core mid e rest
  | _ + 3, ts, e, rest => Core Repeats ts e rest

namespace Phrase

theorem weaken (h : Phrase Repeats (n + 1) ts e rest) : Phrase Repeats n ts e rest := by
  match n, h with
  | 0, hchain => exact .mk hchain (.nil rest)
  | 1, ⟨_, _, hcore, hsuffixes⟩ => exact .mk (.operand hcore hsuffixes) (.nil rest)
  | 2, hcore => exact ⟨e, rest, hcore, .nil e rest⟩
  | _ + 3, hcore => exact hcore

theorem mono (hmn : m ≤ n) (h : Phrase Repeats n ts e rest) : Phrase Repeats m ts e rest := by
  induction hmn with
  | refl => exact h
  | step _ ih => exact ih h.weaken

theorem alt (hx : Phrase Repeats 0 ts e (.bar :: mid)) (hy : Phrase Repeats 1 mid e' rest) :
    Phrase Repeats 0 ts (.alt e e') rest := by
  cases hx with
  | @mk _ _ _ _ es first more =>
    have hall := Choice.mk first (more.concat hy)
    rwa [List.foldl_append] at hall

theorem cat (hx : Phrase Repeats 1 ts e mid) (hy : Phrase Repeats 2 mid e' rest) :
    Phrase Repeats 1 ts (.cat e e') rest := by
  obtain ⟨_, _, hcore, hsuffixes⟩ := hy
  cases hx with
  | @mk _ _ _ _ es first more =>
    have hall := Chain.mk first (more.concat (.operand hcore hsuffixes))
    rwa [List.foldl_append] at hall

theorem rep {q : Quantifier} (h : Phrase Repeats 2 ts e (q.token :: rest)) :
    Phrase Repeats 2 ts (.rep e q) rest := by
  obtain ⟨core, mid, hcore, hsuffixes⟩ := h
  exact ⟨core, mid, hcore, hsuffixes.concat (suffix_token e q rest)⟩

/-- An operand is bare if it binds tightly enough, and a group otherwise. -/
theorem enclosed (h : ∀ rest : List Token, rest.head? ≠ some .colon →
      Phrase Repeats e.rank (ts ++ rest) e rest)
    (hn : n ≤ 3) (hrest : rest.head? ≠ some .colon) :
    Phrase Repeats n (e.enclosed n ts ++ rest) e rest := by
  unfold Expr.enclosed
  split
  · have hchoice : Phrase Repeats 0 (ts ++ .closeParen :: rest) e (.closeParen :: rest) :=
      (h _ (by simp)).mono (Nat.zero_le _)
    have hgroup : Phrase Repeats 3 (.openParen :: (ts ++ .closeParen :: rest)) e rest :=
      .group hchoice
    simpa using hgroup.mono hn
  · next hrank => exact (h rest hrest).mono (Nat.le_of_not_lt hrank)

end Phrase

/-- The tokens of an expression are a phrase of its rank, unless a colon makes a name a tag. -/
theorem phrase_tokens (he : e.Plain) (hrest : rest.head? ≠ some .colon) :
    Phrase Repeats e.rank (e.tokens ++ rest) e rest := by
  induction he generalizing rest with
  | lit s => exact .integer s rest
  | ref hname => exact .name _ hrest
  | @alt x y _ _ ihx ihy =>
    have hy : Phrase Repeats 1 (y.enclosed 1 y.tokens ++ rest) y rest :=
      .enclosed (fun _ h => ihy h) (by decide) hrest
    have hx : Phrase Repeats 0 (x.enclosed 0 x.tokens ++ .bar :: (y.enclosed 1 y.tokens ++ rest)) x
        (.bar :: (y.enclosed 1 y.tokens ++ rest)) :=
      .enclosed (fun _ h => ihx h) (by decide) nofun
    rw [Expr.tokens, List.append_assoc, List.cons_append]
    exact hx.alt hy
  | @cat x y _ _ ihx ihy =>
    have hy : Phrase Repeats 2 (y.enclosed 2 y.tokens ++ rest) y rest :=
      .enclosed (fun _ h => ihy h) (by decide) hrest
    -- A name at the end of `x` would be a tag if the text of `y` began with a colon.
    have hcolon : (y.enclosed 2 y.tokens ++ rest).head? ≠ some .colon := by
      obtain ⟨_, _, hcore, -⟩ := hy
      exact hcore.head?_ne_colon
    have hx : Phrase Repeats 1 (x.enclosed 1 x.tokens ++ (y.enclosed 2 y.tokens ++ rest)) x
        (y.enclosed 2 y.tokens ++ rest) :=
      .enclosed (fun _ h => ihx h) (by decide) hcolon
    rw [Expr.tokens, List.append_assoc]
    exact hx.cat hy
  | @rep e q _ ih =>
    have hbody : Phrase Repeats 2 (e.enclosed 2 e.tokens ++ q.token :: rest) e (q.token :: rest) :=
      .enclosed (fun _ h => ih h) (by decide) (by cases q <;> nofun)
    rw [Expr.tokens, List.append_assoc, List.singleton_append]
    exact hbody.rep

end Rules.Grammar

/-! ## A rule -/

namespace Rules

open Grammar

/-- Lexemes without comments are read as assignments only. -/
theorem statementsFrom_eq_map {stop : Nat} {r : Reader} {ls : List Lexeme}
    {statements : List Statement} (hls : ∀ l ∈ ls, ¬ l.token.isComment)
    (h : statementsFrom stop r [] ls = .ok statements) :
    statements = (assignments statements).map fun rule => .assign rule.1 rule.2 := by
  induction ls generalizing r statements with
  | nil =>
    rw [statementsFrom] at h
    split at h
    · cases h
      rfl
    · cases h
  | cons l ls ih =>
    obtain ⟨token, start⟩ := l
    obtain ⟨htoken, hls⟩ := List.forall_mem_cons.mp hls
    rw [statementsFrom_cons htoken] at h
    split at h
    · cases h
    · exact ih hls h
    · split at h
      · next later hlater =>
        cases h
        exact congrArg (_ :: ·) (ih hls hlater)
      · cases h

theorem lexes_render (hname : Token.isName name) (he : e.Plain) :
    Lexes (name ++ " = " ++ e.render ++ ";").toList
      (.name name :: .equals :: (e.tokens ++ [.semicolon])) := by
  have hbody := he.spells (ended_cons rfl) (Lexes.nil.punctuation (c := ';') rfl)
  have hequals := ((hbody.separator (c := ' ') rfl).punctuation (c := '=') rfl).separator
    (c := ' ') rfl
  simpa using hequals.name hname (ended_cons rfl)

/-- An expression that is written as a rule is read back as it is. -/
theorem statements_render (hname : Token.isName name) (he : e.Plain) :
    Rules.statements (name ++ " = " ++ e.render ++ ";") = .ok [.assign name e] := by
  obtain ⟨ls, hls, htokens⟩ := lexes_render hname he 0
  have hcomments : ∀ l ∈ ls, ¬ l.token.isComment := by
    rw [← List.forall_mem_map (f := Lexeme.token) (P := fun t => ¬ t.isComment), htokens]
    exact List.forall_mem_cons.mpr ⟨Bool.false_ne_true,
      List.forall_mem_cons.mpr ⟨Bool.false_ne_true, List.forall_mem_append.mpr
        ⟨e.not_isComment_of_mem_tokens, List.forall_mem_singleton.mpr Bool.false_ne_true⟩⟩⟩
  -- No token is a comment, so all of them count for the grammar.
  have hrules : RuleList Expr.Counted (significant ls) [(name, e)] := by
    have hsignificant : significant ls = ls.map Lexeme.token :=
      List.filter_eq_self.mpr (by simpa using hcomments)
    rw [hsignificant, htokens]
    exact .cons name ((phrase_tokens he (by simp)).mono (Nat.zero_le _)) .nil
  rw [Rules.statements, lexemes, hls]
  obtain ⟨statements, hok, hassigned⟩ := (statementsFrom_iff _ .idle [] ls).mpr hrules
  rw [statementsFrom_eq_map hcomments hok, hassigned] at hok
  exact hok

/-! Each operand that needs parentheses, and some that do not. -/

def nestedBody : Expr :=
  .alt (.cat (.rep (.alt (.ref "a") (.lit 0)) .star)
    (.cat (.lit 1) (.rep (.rep (.ref "_b2") .opt) .plus))) (.alt (.lit 2) (.lit 10))

theorem statements_render_nestedBody :
    nestedBody.Plain ∧ nestedBody.render = "(a | 0)* (1 _b2?+) | (2 | 10)" ∧
      Rules.statements "Main = (a | 0)* (1 _b2?+) | (2 | 10);" =
        .ok [.assign "Main" nestedBody] := by
  have hplain : nestedBody.Plain :=
    .alt (.cat (.rep _ (.alt (.ref (by decide)) (.lit 0)))
      (.cat (.lit 1) (.rep _ (.rep _ (.ref (by decide)))))) (.alt (.lit 2) (.lit 10))
  have hrender : nestedBody.render = "(a | 0)* (1 _b2?+) | (2 | 10)" := by decide +kernel
  have hname : Token.isName "Main" := by decide
  have hread := statements_render hname hplain
  rw [hrender] at hread
  exact ⟨hplain, hrender, hread⟩

end Rules

end RunGrammar
