import RunGrammar.Proofs.Reading
import RunGrammar.Proofs.Tiling

/-! Where a text is refused. The tokens before the place of a syntax error begin some rule list,
and with the token at that place none begins, whatever the values of the bounds are. Bounds that
cannot be expanded are reported at the first group that has such bounds. -/
namespace RunGrammar

/-- `e'` is `e` repeated within the bounds, or `e` itself if there is no such expression. -/
def Expr.Loose (e : Expr) (min : Nat) (max : Option Nat) (e' : Expr) : Prop :=
  match e.repetition min max with
  | .ok expanded => e' = expanded
  | .error _ => e' = e

namespace Rules

open Grammar

variable {Repeats Repeats' : Expr → Nat → Option Nat → Expr → Prop} {ts rest : List Token}
  {e e' : Expr} {es : List Expr} {rules : List (String × Expr)} {token : Token} {r : Reader}
  {o : Outcome} {ls : List Lexeme} {err : SyntaxError} {start stop : Nat}

/-! ## The shape of a rule list -/

/-- A rule list if the values of bounds are ignored. -/
def Sentence (ts : List Token) : Prop := ∃ rules, RuleList (fun _ _ _ _ => True) ts rules

namespace Grammar

theorem Suffixes.reshape (htotal : ∀ e min max, ∃ e', Repeats' e min max e')
    (h : Suffixes Repeats e ts e' rest) (x : Expr) : ∃ x', Suffixes Repeats' x ts x' rest := by
  induction h generalizing x with
  | nil => exact ⟨x, .nil x _⟩
  | cons suffix _ ih =>
    cases suffix with
    | star =>
      obtain ⟨x', hx⟩ := ih (.rep x .star)
      exact ⟨x', .cons (.star _) hx⟩
    | plus =>
      obtain ⟨x', hx⟩ := ih (.rep x .plus)
      exact ⟨x', .cons (.plus _) hx⟩
    | question =>
      obtain ⟨x', hx⟩ := ih (.rep x .opt)
      exact ⟨x', .cons (.question _) hx⟩
    | @bounds _ _ min max _ limits _ =>
      obtain ⟨y, hy⟩ := htotal x min max
      obtain ⟨x', hx⟩ := ih y
      exact ⟨x', .cons (.bounds limits hy) hx⟩

/-- Which token lists are phrases does not depend on what bounds make of an operand, as long as
they make something of it. The induction is on the derivation. -/
theorem Choice.reshape (htotal : ∀ e min max, ∃ e', Repeats' e min max e')
    (h : Choice Repeats ts e rest) : ∃ x, Choice Repeats' ts x rest := by
  refine @Choice.rec Repeats (fun ts _ rest _ => ∃ x, Choice Repeats' ts x rest)
    (fun ts _ rest _ => ∃ xs, Branches Repeats' ts xs rest)
    (fun ts _ rest _ => ∃ x, Chain Repeats' ts x rest)
    (fun ts _ rest _ => ∃ xs, Items Repeats' ts xs rest)
    (fun ts _ rest _ => ∃ x, Item Repeats' ts x rest)
    (fun ts _ rest _ => ∃ x, Core Repeats' ts x rest) ?choice ?noBranch ?branch ?chain ?noItem
    ?item ?operand ?tagged ?integer ?name ?group _ _ _ h
  case choice => exact fun _ _ ⟨_, hfirst⟩ ⟨_, hmore⟩ => ⟨_, .mk hfirst hmore⟩
  case noBranch => exact fun ts => ⟨[], .nil ts⟩
  case branch => exact fun _ _ ⟨_, hfirst⟩ ⟨_, hmore⟩ => ⟨_, .cons hfirst hmore⟩
  case chain => exact fun _ _ ⟨_, hfirst⟩ ⟨_, hmore⟩ => ⟨_, .mk hfirst hmore⟩
  case noItem => exact fun ts => ⟨[], .nil ts⟩
  case item => exact fun _ _ ⟨_, hfirst⟩ ⟨_, hmore⟩ => ⟨_, .cons hfirst hmore⟩
  case operand =>
    intro _ _ _ _ _ _ more ⟨x, hcore⟩
    obtain ⟨x', hx⟩ := more.reshape htotal x
    exact ⟨x', .operand hcore hx⟩
  case tagged => exact fun name _ ⟨_, hitem⟩ => ⟨_, .tagged name hitem⟩
  case integer => exact fun n rest => ⟨_, .integer n rest⟩
  case name => exact fun text hcolon => ⟨_, .name text hcolon⟩
  case group => exact fun _ ⟨_, hchoice⟩ => ⟨_, .group hchoice⟩

theorem RuleList.reshape (htotal : ∀ e min max, ∃ e', Repeats' e min max e')
    (h : RuleList Repeats ts rules) : ∃ rules', RuleList Repeats' ts rules' := by
  induction h with
  | nil => exact ⟨[], .nil⟩
  | cons name choice _ ih =>
    obtain ⟨_, hchoice⟩ := choice.reshape htotal
    obtain ⟨_, hrules⟩ := ih
    exact ⟨_, .cons name hchoice hrules⟩

end Grammar

/-! ## What a state admits -/

theorem exists_loose (e : Expr) (min : Nat) (max : Option Nat) : ∃ e', e.Loose min max e' := by
  unfold Expr.Loose
  split <;> exact ⟨_, rfl⟩

/-- Whether `ts` continues what has been read to a rule list, apart from the values of bounds. -/
def Reader.Admits (r : Reader) (ts : List Token) : Prop := ∃ rules, r.Completes Expr.Loose ts rules

theorem admits_idle_iff : Reader.idle.Admits ts ↔ Sentence ts :=
  ⟨fun ⟨_, h⟩ => h.reshape fun _ _ _ => ⟨.endMark, trivial⟩, fun ⟨_, h⟩ => h.reshape exists_loose⟩

/-- The state in which the next lexeme is read. -/
def Outcome.reader : Outcome → Reader
  | more r => r
  | rule _ _ => .idle

theorem exists_completes_iff :
    (∃ rules, o.Completes Expr.Loose ts rules) ↔ o.reader.Admits ts := by
  cases o with
  | more r => exact Iff.rfl
  | rule name body =>
    exact ⟨fun ⟨_, rules, h, _⟩ => ⟨rules, h⟩, fun ⟨rules, h⟩ => ⟨_, rules, h, rfl⟩⟩

namespace Reader

theorem accept_eq_error {o? : Option Outcome} (h : r.accept start token o? = .error err) :
    err = r.refuse start (some token) := by
  cases o? with
  | none => exact (Except.error.inj h).symm
  | some o => cases h

/-- A token is refused at its own place, or it closes a group whose bounds are refused. -/
theorem next_error_cases (h : r.next start token = .error err) :
    err = r.refuse start (some token) ∨
      ∃ site e brace read min max, r = within site (.bounds e brace read) ∧
        token = .closeBrace ∧ read.close? = some (min, max) ∧
        (∀ e', e.repetition min max ≠ .ok e') ∧
        err = ⟨.invalidBounds, brace, some (renderBounds min max)⟩ := by
  cases r with
  | idle => cases token <;> cases h <;> exact .inl rfl
  | named rule => cases token <;> cases h <;> exact .inl rfl
  | within site focus =>
    cases focus with
    | operand => exact .inl (accept_eq_error h)
    | name text =>
      by_cases hcolon : token = .colon
      · subst hcolon
        cases h
      · rw [next_name hcolon] at h
        exact .inl (accept_eq_error h)
    | core e => exact .inl (accept_eq_error h)
    | bounds e brace read =>
      by_cases hclose : token = .closeBrace
      · subst hclose
        cases hlimits : read.close? with
        | none => exact .inl (by simpa [next, hlimits, eq_comm] using h)
        | some limits =>
          obtain ⟨min, max⟩ := limits
          cases he : e.repetition min max with
          | ok e' => simp [next, hlimits, closeBounds, he] at h
          | error _ =>
            refine .inr ⟨site, e, brace, read, min, max, rfl, rfl, hlimits, fun e' => ?_, ?_⟩
            · rw [he]
              rintro ⟨⟩
            · simpa [next, hlimits, closeBounds, he, eq_comm] using h
      · rw [next_bounds hclose] at h
        exact .inl (accept_eq_error h)

/-- A token that is refused for itself and not for the values of bounds is not admitted. -/
theorem admits_cons_iff (h : ∀ err, r.next start token = .error err → err.fault ≠ .invalidBounds) :
    r.Admits (token :: ts) ↔ ∃ o, r.next start token = .ok o ∧ o.reader.Admits ts := by
  -- Only a closing brace looks at values, and bounds that cannot be expanded are excluded.
  have hrepeats : ∀ {site e brace read}, r = within site (.bounds e brace read) →
      ∀ min max, token = .closeBrace → read.close? = some (min, max) →
        ∀ e', e.Loose min max e' ↔ e.repetition min max = .ok e' := by
    rintro site e brace read rfl min max rfl hclose e'
    cases he : e.repetition min max with
    | ok expanded => simp [Expr.Loose, he, eq_comm]
    | error _ =>
      have hnext : (within site (.bounds e brace read)).next start .closeBrace =
          .error ⟨.invalidBounds, brace, some (renderBounds min max)⟩ := by
        simp [next, hclose, closeBounds, he]
      exact absurd rfl (h _ hnext)
  constructor
  · rintro ⟨rules, hcompletes⟩
    obtain ⟨o, hnext, ho⟩ := (r.completes_cons_iff_of_repeats start hrepeats).mp hcompletes
    exact ⟨o, hnext, exists_completes_iff.mp ⟨rules, ho⟩⟩
  · rintro ⟨o, hnext, hadmits⟩
    obtain ⟨rules, ho⟩ := exists_completes_iff.mpr hadmits
    exact ⟨rules, (r.completes_cons_iff_of_repeats start hrepeats).mpr ⟨o, hnext, ho⟩⟩

theorem admits_nil_iff : r.Admits [] ↔ r = .idle :=
  ⟨fun ⟨_, h⟩ => (completes_nil_iff.mp h).1, fun h => ⟨[], completes_nil_iff.mpr ⟨h, rfl⟩⟩⟩

end Reader

theorem Site.afterCore_of_ends {site : Site}
    (h : Ends Repeats site.rule site.outer (site.level.choice e) ts rules) :
    site.AfterCore Repeats e ts rules :=
  afterCore_iff.mpr (.inr (afterItem_iff.mpr (.inr (.inr h))))

/-- Behind an operand the open parentheses may be closed, and then the rule. -/
theorem exists_afterCore (site : Site) (e : Expr) :
    ∃ ts rules, site.AfterCore Expr.Loose e ts rules := by
  obtain ⟨rule, outer, level⟩ := site
  induction outer generalizing e level with
  | nil =>
    exact ⟨[.semicolon], [(rule, level.choice e)],
      Site.afterCore_of_ends (Site.ends_nil_iff.mpr ⟨[], [], rfl, .nil, rfl⟩)⟩
  | cons outermost outer ih =>
    obtain ⟨ts, rules, h⟩ := ih (level.choice e) outermost
    exact ⟨.closeParen :: ts, rules,
      Site.afterCore_of_ends (Site.ends_cons_iff.mpr ⟨ts, rfl, h⟩)⟩

theorem exists_atItem (site : Site) : ∃ ts rules, site.AtItem Expr.Loose ts rules := by
  obtain ⟨ts, rules, h⟩ := exists_afterCore site (.lit 0)
  exact ⟨.integer 0 :: ts, rules, Site.atItem_cons_iff.mpr ⟨_, rfl, h⟩⟩

theorem Bounds.exists_closes (read : Bounds) :
    ∃ ts min max, ∀ rest, read.Closes (ts ++ rest) min max rest := by
  cases read with
  | start => exact ⟨[.comma, .closeBrace], 0, none, fun rest => .next _ rfl (.close rfl)⟩
  | lower n => exact ⟨[.closeBrace], n, some n, fun rest => .close rfl⟩
  | comma min => exact ⟨[.closeBrace], min.getD 0, none, fun rest => .close rfl⟩
  | upper min max => exact ⟨[.closeBrace], min.getD 0, some max, fun rest => .close rfl⟩

/-- What has been read can always be continued to a rule list. -/
theorem Reader.exists_admits (r : Reader) : ∃ ts, r.Admits ts := by
  cases r with
  | idle => exact ⟨[], admits_nil_iff.mpr rfl⟩
  | named rule =>
    obtain ⟨ts, rules, h⟩ := exists_atItem ⟨rule, [], {}⟩
    exact ⟨.equals :: ts, rules, ruleList_cons_iff.mpr h⟩
  | within site focus =>
    cases focus with
    | operand => exact exists_atItem site
    | name text =>
      obtain ⟨ts, rules, h⟩ := exists_atItem { site with level := site.level.prefixTag text }
      exact ⟨.colon :: ts, rules, Site.atItem_name_iff.mpr (.inl ⟨ts, rfl, h⟩)⟩
    | core e => exact exists_afterCore site e
    | bounds e brace read =>
      obtain ⟨group, min, max, hcloses⟩ := read.exists_closes
      obtain ⟨e', he⟩ := exists_loose e min max
      obtain ⟨ts, rules, h⟩ := exists_afterCore site e'
      exact ⟨group ++ ts, rules, min, max, e', ts, hcloses ts, he, h⟩

/-- Reading fails at the first lexeme or behind it. -/
theorem statementsFrom_cons_error {deferred : List String}
    (h : statementsFrom stop r deferred (⟨token, start⟩ :: ls) = .error err) :
    (token.isComment ∧ ∃ deferred, statementsFrom stop r deferred ls = .error err) ∨
      ¬ token.isComment ∧ (r.next start token = .error err ∨
        ∃ o deferred, r.next start token = .ok o ∧
          statementsFrom stop o.reader deferred ls = .error err) := by
  by_cases hcomment : token.isComment
  · obtain ⟨text, rfl⟩ := Token.exists_comment hcomment
    refine .inl ⟨hcomment, ?_⟩
    rw [statementsFrom] at h
    split at h
    · split at h
      · cases h
      · next e he => exact ⟨deferred, he.trans h⟩
    · exact ⟨_, h⟩
  · refine .inr ⟨hcomment, ?_⟩
    rw [statementsFrom_cons hcomment] at h
    split at h
    · next e hnext =>
      obtain rfl := Except.error.inj h
      exact .inl hnext
    · next r' hnext => exact .inr ⟨.more r', deferred, hnext, h⟩
    · next name body hnext =>
      split at h
      · cases h
      · next e he => exact .inr ⟨.rule name body, [], hnext, he.trans h⟩

/-! ## The first token that cannot continue -/

/-- The lexemes up to the place of an error begin some rule list. With the lexeme that stands there
none begins, or they are all there are and make up none. -/
theorem exists_split_of_statementsFrom_error {deferred : List String}
    (h : statementsFrom stop r deferred ls = .error err) (herr : err.fault ≠ .invalidBounds) :
    ∃ front back, ls = front ++ back ∧ (∃ more, r.Admits (significant front ++ more)) ∧
      (back = [] ∧ err.position = stop ∧ err.found = none ∧ ¬ r.Admits (significant front) ∨
        ∃ l later, back = l :: later ∧ ¬ l.token.isComment ∧ err.position = l.start ∧
          err.found = some l.token.render ∧
          ∀ more, ¬ r.Admits (significant front ++ l.token :: more)) := by
  induction ls generalizing r deferred with
  | nil =>
    rw [statementsFrom] at h
    split at h
    · cases h
    · next hidle =>
      cases h
      exact ⟨[], [], rfl, r.exists_admits,
        .inl ⟨rfl, rfl, rfl, fun hnil => hidle (Reader.admits_nil_iff.mp hnil)⟩⟩
  | cons l ls ih =>
    obtain ⟨token, start⟩ := l
    obtain ⟨hcomment, _, hrest⟩ | ⟨hcomment, hnext | ⟨o, _, hnext, hrest⟩⟩ :=
      statementsFrom_cons_error h
    · obtain ⟨text, rfl⟩ := Token.exists_comment hcomment
      obtain ⟨front, back, rfl, hmore, hstop⟩ := ih hrest
      exact ⟨⟨.comment text, start⟩ :: front, back, rfl, hmore, hstop⟩
    · have hvalid : ∀ err, r.next start token = .error err → err.fault ≠ .invalidBounds := by
        intro err' hnext'
        exact Except.error.inj (hnext.symm.trans hnext') ▸ herr
      obtain rfl | ⟨_, _, _, _, _, _, _, _, _, _, rfl⟩ := Reader.next_error_cases hnext
      · refine ⟨[], _, rfl, r.exists_admits,
          .inr ⟨⟨token, start⟩, ls, rfl, hcomment, rfl, rfl, fun more hadmits => ?_⟩⟩
        obtain ⟨o, ho, -⟩ := (Reader.admits_cons_iff hvalid).mp hadmits
        rw [hnext] at ho
        cases ho
      · exact absurd rfl herr
    · have hadmits : ∀ ts, r.Admits (token :: ts) ↔ o.reader.Admits ts := by
        intro ts
        rw [Reader.admits_cons_iff (by rw [hnext]; rintro _ ⟨⟩), hnext]
        simp
      obtain ⟨front, back, rfl, ⟨more, hmore⟩, hstop⟩ := ih hrest
      refine ⟨⟨token, start⟩ :: front, back, rfl, ⟨more, ?_⟩, ?_⟩
      · rw [significant_cons hcomment]
        exact (hadmits _).mpr hmore
      · simpa only [significant_cons hcomment, List.cons_append, hadmits] using hstop

/-! ## The first group of bounds that cannot be expanded -/

/-- Behind an opening brace: bounds and a closing brace, where the upper bound is zero or below
the lower one. -/
def RejectedGroup (ls : List Lexeme) : Prop :=
  ∃ min max rest, Limits (significant ls) min max rest ∧ ∃ n ∈ max, n = 0 ∨ n < min

/-- The first closed bounds group that is rejected has its opening brace at `position`. -/
inductive FirstRejected (position : Nat) : List Lexeme → Prop
  | here {ls : List Lexeme} (h : RejectedGroup ls) :
    FirstRejected position (⟨.openBrace, position⟩ :: ls)
  | later {l : Lexeme} {ls : List Lexeme} (h : l.token = .openBrace → ¬ RejectedGroup ls)
    (more : FirstRejected position ls) : FirstRejected position (l :: ls)

/-- Whether the tokens close a group with bounds that are rejected. -/
def Bounds.Rejects (read : Bounds) (ts : List Token) : Prop :=
  ∃ min max rest, read.Closes ts min max rest ∧ ∃ n ∈ max, n = 0 ∨ n < min

/-- Whether a group is open since `position` and is closed with bounds that are rejected. -/
def Reader.Rejects (r : Reader) (position : Nat) (ts : List Token) : Prop :=
  match r with
  | within _ (.bounds _ brace read) => brace = position ∧ read.Rejects ts
  | idle | named _ | within _ .operand | within _ (.name _) | within _ (.core _) => False

theorem not_exists_repetition_iff {min : Nat} {max : Option Nat} :
    (∀ e', e.repetition min max ≠ .ok e') ↔ ∃ n ∈ max, n = 0 ∨ n < min := by
  rw [← not_exists, Expr.exists_repetition_iff]
  push Not
  exact exists_congr fun n => and_congr_right fun _ => by omega

theorem Bounds.rejects_start_iff : Bounds.start.Rejects (significant ls) ↔ RejectedGroup ls := by
  simp only [Rejects, RejectedGroup, closes_start_iff]

theorem Site.not_rejects_of_begin? {site : Site} {position : Nat}
    (h : site.begin? token = some o) : ¬ o.reader.Rejects position ts := by
  cases token <;> cases h
  all_goals exact id

theorem Site.not_rejects_of_continue? {site : Site} {position : Nat}
    (h : site.continue? e start token = some o) (hbrace : token ≠ .openBrace) :
    ¬ o.reader.Rejects position ts := by
  obtain ⟨rule, outer, level⟩ := site
  cases token with
  | closeParen | semicolon =>
    cases outer <;> cases h
    exact id
  | openBrace => exact absurd rfl hbrace
  | comment | equals | colon | comma | closeBrace => cases h
  | _ =>
    cases h
    exact id

namespace Reader

/-- A group is opened where none is open. -/
theorem rejects_of_next_openBrace (ts : List Token) (h : r.next start .openBrace = .ok o) :
    (∀ position, ¬ r.Rejects position (.openBrace :: ts)) ∧
      ∀ position, o.reader.Rejects position ts ↔ start = position ∧ Bounds.start.Rejects ts := by
  cases r with
  | idle | named rule => cases h
  | within site focus =>
    cases focus with
    | operand => cases h
    | name text | core e =>
      cases h
      exact ⟨fun _ => id, fun _ => Iff.rfl⟩
    | bounds e brace read => cases read <;> cases h

/-- Any other token that is read leaves it open whether the group will be rejected. -/
theorem rejects_cons_iff {position : Nat} (h : r.next start token = .ok o)
    (hbrace : token ≠ .openBrace) :
    r.Rejects position (token :: ts) ↔ o.reader.Rejects position ts := by
  cases r with
  | idle | named rule =>
    cases token <;> cases h
    exact Iff.rfl
  | within site focus =>
    cases focus with
    | operand => exact iff_of_false id (Site.not_rejects_of_begin? (accept_eq_ok_iff.mp h))
    | name text =>
      refine iff_of_false id ?_
      by_cases hcolon : token = .colon
      · subst hcolon
        cases h
        exact id
      · rw [next_name hcolon, accept_eq_ok_iff] at h
        exact Site.not_rejects_of_continue? h hbrace
    | core e =>
      exact iff_of_false id (Site.not_rejects_of_continue? (accept_eq_ok_iff.mp h) hbrace)
    | bounds e brace read =>
      by_cases hclose : token = .closeBrace
      · subst hclose
        obtain ⟨min, max, e', hlimits, he, rfl⟩ := next_closeBrace h
        refine iff_of_false ?_ id
        rintro ⟨-, min', max', rest, hcloses, hrejected⟩
        rcases Bounds.closes_cons_iff.mp hcloses with ⟨-, hlimits', -⟩ | ⟨read', hnext, -⟩
        · obtain ⟨rfl, rfl⟩ : min = min' ∧ max = max' := by
            simpa using hlimits.symm.trans hlimits'
          exact not_exists_repetition_iff.mpr hrejected e' he
        · cases read <;> cases hnext
      · rw [next_bounds hclose, accept_eq_ok_iff, Option.map_eq_some_iff] at h
        obtain ⟨read', hread, rfl⟩ := h
        refine and_congr_right fun _ => exists₃_congr fun min max rest => and_congr_left fun _ => ?_
        rw [Bounds.closes_cons_iff]
        simp [hclose, hread]

end Reader

/-- Refused bounds are those of the group that is open, or else of the first one to come. -/
theorem rejects_or_firstRejected {deferred : List String}
    (h : statementsFrom stop r deferred ls = .error err) (herr : err.fault = .invalidBounds) :
    r.Rejects err.position (significant ls) ∨
      (∀ position, ¬ r.Rejects position (significant ls)) ∧ FirstRejected err.position ls := by
  induction ls generalizing r deferred with
  | nil =>
    rw [statementsFrom] at h
    split at h
    · cases h
    · cases h
      cases herr
  | cons l ls ih =>
    obtain ⟨token, start⟩ := l
    obtain ⟨hcomment, _, hrest⟩ | ⟨hcomment, hnext | ⟨o, _, hnext, hrest⟩⟩ :=
      statementsFrom_cons_error h
    · obtain ⟨text, rfl⟩ := Token.exists_comment hcomment
      exact (ih hrest).imp_right (.imp_right (.later (by rintro ⟨⟩)))
    · rw [significant_cons hcomment]
      obtain rfl | ⟨site, e, brace, read, min, max, rfl, rfl, hlimits, he, rfl⟩ :=
        Reader.next_error_cases hnext
      · cases herr
      · exact .inl ⟨rfl, min, max, _, .close hlimits, not_exists_repetition_iff.mp he⟩
    · rw [significant_cons hcomment]
      by_cases hbrace : token = .openBrace
      · subst hbrace
        obtain ⟨hnone, hopen⟩ := Reader.rejects_of_next_openBrace (significant ls) hnext
        refine .inr ⟨hnone, ?_⟩
        rcases ih hrest with hrejects | ⟨hclosed, hfirst⟩
        · obtain ⟨rfl, hgroup⟩ := (hopen _).mp hrejects
          exact .here (Bounds.rejects_start_iff.mp hgroup)
        · refine .later (fun _ hgroup => hclosed start ?_) hfirst
          exact (hopen _).mpr ⟨rfl, Bounds.rejects_start_iff.mpr hgroup⟩
      · simp only [Reader.rejects_cons_iff hnext hbrace]
        exact (ih hrest).imp_right (.imp_right (.later fun h => absurd h hbrace))

/-! ## Places -/

/-- Lexemes stand in a text one behind the other. -/
theorem starts_of_lexemesFrom {text : List Char} (h : lexemesFrom start text = .ok ls) :
    (∀ l ∈ ls, start ≤ l.start ∧ l.start < start + Text.width text) ∧
      ls.Pairwise fun l l' => l.start < l'.start := by
  obtain ⟨hpairwise, hplaces⟩ := (lexemesFrom_eq_ok_iff.mp h).starts
  refine ⟨fun l hl => ?_, hpairwise⟩
  obtain ⟨front, back, rfl, hne, hstart⟩ := hplaces l hl
  obtain ⟨c, tail, rfl⟩ := List.exists_cons_of_ne_nil hne
  have hpos := Text.width_pos c tail
  rw [hstart, Text.width_append]
  omega

/-- The tokens before a place, comments left out. -/
def tokensBefore (position : Nat) (ls : List Lexeme) : List Token :=
  significant (ls.filter fun l => l.start < position)

theorem tokensBefore_append {front later : List Lexeme} {l : Lexeme}
    (h : (front ++ l :: later).Pairwise fun l l' => l.start < l'.start) :
    tokensBefore l.start (front ++ l :: later) = significant front := by
  obtain ⟨-, hback, hfront⟩ := List.pairwise_append.mp h
  have hlater : ∀ l' ∈ later, l.start < l'.start := (List.pairwise_cons.mp hback).1
  have hkept : front.filter (fun l' => l'.start < l.start) = front :=
    List.filter_eq_self.mpr fun l' hl' => decide_eq_true (hfront l' hl' l (List.mem_cons_self ..))
  have hleft : (l :: later).filter (fun l' => l'.start < l.start) = [] := by
    refine List.filter_eq_nil_iff.mpr fun l' hl' => ?_
    rcases List.mem_cons.mp hl' with rfl | hl'
    · simp
    · simpa using Nat.le_of_lt (hlater l' hl')
  rw [tokensBefore, List.filter_append, hkept, hleft, List.append_nil]

theorem tokensBefore_width (h : ∀ l ∈ ls, l.start < stop) :
    tokensBefore stop ls = significant ls := by
  rw [tokensBefore, List.filter_eq_self.mpr fun l hl => decide_eq_true (h l hl)]

/-- A syntax error stands at the first token that cannot continue a rule list: the tokens before
it begin one, and with that token, or at the end of the text, there is none. Rejected bounds stand
at the opening brace of the first group that has such bounds. -/
theorem position_of_statements_error {text : String} (hls : lexemes text = .ok ls)
    (h : Rules.statements text = .error err) :
    (err.fault ≠ .invalidBounds →
      (∃ more, Sentence (tokensBefore err.position ls ++ more)) ∧
      (∀ found, err.found = some found →
        ∃ l ∈ ls, ¬ l.token.isComment ∧ err.position = l.start ∧ found = l.token.render ∧
          ∀ more, ¬ Sentence (tokensBefore err.position ls ++ l.token :: more)) ∧
      (err.found = none →
        err.position = Text.width text.toList ∧ (∀ l ∈ ls, l.start < err.position) ∧
          ¬ Sentence (tokensBefore err.position ls))) ∧
    (err.fault = .invalidBounds → FirstRejected err.position ls) := by
  obtain ⟨hbounds, hpairwise⟩ := starts_of_lexemesFrom hls
  rw [Rules.statements, hls] at h
  constructor
  · intro herr
    obtain ⟨front, back, rfl, ⟨more, hmore⟩, ⟨rfl, hposition, hfound, hnone⟩ |
      ⟨l, later, rfl, hcomment, hposition, hfound, hnone⟩⟩ :=
      exists_split_of_statementsFrom_error h herr
    · rw [List.append_nil] at hbounds ⊢
      have hbefore : ∀ l ∈ front, l.start < err.position := by
        intro l hl
        have hl := (hbounds l hl).2
        omega
      rw [tokensBefore_width hbefore, hfound]
      refine ⟨⟨more, admits_idle_iff.mp hmore⟩, ?_, fun _ =>
        ⟨hposition, hbefore, fun hsentence => hnone (admits_idle_iff.mpr hsentence)⟩⟩
      rintro found ⟨⟩
    · rw [hposition, tokensBefore_append hpairwise, hfound]
      refine ⟨⟨more, admits_idle_iff.mp hmore⟩, ?_, by rintro ⟨⟩⟩
      rintro found ⟨⟩
      exact ⟨l, List.mem_append_right _ (List.mem_cons_self ..), hcomment, rfl, rfl,
        fun more hsentence => hnone more (admits_idle_iff.mpr hsentence)⟩
  · intro herr
    rcases rejects_or_firstRejected h herr with hidle | ⟨-, hfirst⟩
    · exact hidle.elim
    · exact hfirst

/-! A token that cannot continue, an end that is too early, and bounds that cannot be expanded. -/

theorem position_of_statements_error_cases :
    Rules.statements "Main = # x\n|" = .error ⟨.missing .operand, 11, some "|"⟩ ∧
      (∀ more, ¬ Sentence (.name "Main" :: .equals :: .bar :: more)) ∧
      Rules.statements "Main = 0" = .error ⟨.missing .semicolon, 8, none⟩ ∧
      ¬ Sentence [.name "Main", .equals, .integer 0] ∧
      Rules.statements "Main = 0 \x7b2,1\x7d;" =
        .error ⟨.invalidBounds, 9, some "\x7b2,1\x7d"⟩ ∧
      FirstRejected 9 [⟨.name "Main", 0⟩, ⟨.equals, 5⟩, ⟨.integer 0, 7⟩, ⟨.openBrace, 9⟩,
        ⟨.integer 2, 10⟩, ⟨.comma, 11⟩, ⟨.integer 1, 12⟩, ⟨.closeBrace, 13⟩, ⟨.semicolon, 14⟩] := by
  have hbar : Rules.statements "Main = # x\n|" = .error ⟨.missing .operand, 11, some "|"⟩ := by
    decide +kernel
  have hend : Rules.statements "Main = 0" = .error ⟨.missing .semicolon, 8, none⟩ := by
    decide +kernel
  have hbounds : Rules.statements "Main = 0 \x7b2,1\x7d;" =
      .error ⟨.invalidBounds, 9, some "\x7b2,1\x7d"⟩ := by decide +kernel
  have hlexed : lexemes "Main = # x\n|" =
      .ok [⟨.name "Main", 0⟩, ⟨.equals, 5⟩, ⟨.comment "x", 7⟩, ⟨.bar, 11⟩] := by decide +kernel
  refine ⟨hbar, fun more hsentence => ?_, hend, ?_, hbounds, ?_⟩
  · obtain ⟨l, hl, -, hstart, -, hnone⟩ :=
      ((position_of_statements_error hlexed hbar).1 nofun).2.1 "|" rfl
    simp only [List.mem_cons, List.not_mem_nil, or_false] at hl
    rcases hl with rfl | rfl | rfl | rfl
    case inr.inr.inr => exact hnone more hsentence
    all_goals cases hstart
  · have hlexed : lexemes "Main = 0" =
        .ok [⟨.name "Main", 0⟩, ⟨.equals, 5⟩, ⟨.integer 0, 7⟩] := by decide +kernel
    exact (((position_of_statements_error hlexed hend).1 nofun).2.2 rfl).2.2
  · exact (position_of_statements_error (by decide +kernel) hbounds).2 rfl

end Rules

end RunGrammar
