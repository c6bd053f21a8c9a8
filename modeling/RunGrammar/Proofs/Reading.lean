import Mathlib.Data.List.Basic
import RunGrammar.Rules.Reader
import RunGrammar.Proofs.Resolution
import RunGrammar.Proofs.RuleGrammar

/-! The reader accepts exactly the rule lists and returns their trees. At every lexeme the
reader promises something about the tokens to come: that they finish the item it is in, then
the levels of parentheses around it, then the rule, and that more rules follow. Reading one
token keeps the promise, so the promise of the first state is kept by the whole list. -/
namespace RunGrammar

/-- `e'` is `e` repeated within bounds of which the upper one is neither zero nor below the
lower one. -/
def Expr.Counted (e : Expr) (min : Nat) (max : Option Nat) (e' : Expr) : Prop :=
  (∀ n ∈ max, 1 ≤ n ∧ min ≤ n) ∧ e.repetition min max = .ok e'

theorem Expr.exists_repetition_iff {e : Expr} {min : Nat} {max : Option Nat} :
    (∃ e', e.repetition min max = .ok e') ↔ ∀ n ∈ max, 1 ≤ n ∧ min ≤ n := by
  constructor
  · rintro ⟨e', h⟩ n rfl
    rw [repetition] at h
    split at h
    · cases h
    · rename_i hany
      simp only [Option.any_some, Bool.or_eq_true, decide_eq_true_eq, beq_iff_eq] at hany
      omega
  · intro h
    have hvalid : ¬ max.any fun n => n < min || n == 0 := by
      cases max with
      | none => exact Bool.false_ne_true
      | some n =>
        have hn := h n rfl
        simp only [Option.any_some, Bool.or_eq_true, decide_eq_true_eq, beq_iff_eq]
        omega
    have hcopies : copies e min max ≠ [] := by
      cases max with
      | none => exact List.append_ne_nil_of_right_ne_nil _ (List.cons_ne_nil _ _)
      | some n =>
        have hn := h n rfl
        simp only [copies, ne_eq, List.append_eq_nil_iff, List.replicate_eq_nil_iff]
        omega
    obtain ⟨x, xs, hxs⟩ := List.exists_cons_of_ne_nil hcopies
    rw [repetition, if_neg hvalid, hxs]
    exact ⟨_, rfl⟩

theorem Expr.counted_iff {e e' : Expr} {min : Nat} {max : Option Nat} :
    e.Counted min max e' ↔ e.repetition min max = .ok e' :=
  ⟨And.right, fun h => ⟨exists_repetition_iff.mp ⟨e', h⟩, h⟩⟩

namespace Rules

open Grammar

variable {Repeats : Expr → Nat → Option Nat → Expr → Prop} {ts rest : List Token} {e e' : Expr}
  {rules : List (String × Expr)} {token : Token}

/-! ## What a state promises -/

/-- The level with a finished last alternative. -/
def Level.close (l : Level) (chain : Expr) : Expr := l.branches.elim chain fun e => .alt e chain

theorem Level.close_chain (l : Level) (core : Expr) : l.close (l.chain core) = l.choice core := by
  unfold close choice
  cases l.branches <;> rfl

section

variable (Repeats)

/-- Behind the item `e` the level is finished by more items and more alternatives. -/
def Level.Closes (l : Level) (e : Expr) (ts : List Token) (e' : Expr) (rest : List Token) : Prop :=
  ∃ es mid bs, Items Repeats ts es mid ∧ Branches Repeats mid bs rest ∧
    e' = bs.foldl .alt (l.close (es.foldl .cat (l.chain e)))

/-- Behind the finished level `e` the levels around it are finished, from the inside out, and
then the rule. -/
def Ends (rule : String) : List Level → Expr → List Token → List (String × Expr) → Prop
  | [], e, ts, rules => ∃ ts' rules', ts = .semicolon :: ts' ∧ RuleList Repeats ts' rules' ∧
      rules = (rule, e) :: rules'
  | level :: outer, e, ts, rules => ∃ ts' item mid e' rest, ts = .closeParen :: ts' ∧
      Suffixes Repeats e ts' item mid ∧ level.Closes Repeats item mid e' rest ∧
      Ends rule outer e' rest rules

namespace Site

def AfterItem (site : Site) (e : Expr) (ts : List Token) (rules : List (String × Expr)) : Prop :=
  ∃ e' rest, site.level.Closes Repeats e ts e' rest ∧
    Ends Repeats site.rule site.outer e' rest rules

def AfterCore (site : Site) (e : Expr) (ts : List Token) (rules : List (String × Expr)) : Prop :=
  ∃ item mid, Suffixes Repeats e ts item mid ∧ site.AfterItem Repeats item mid rules

def AtItem (site : Site) (ts : List Token) (rules : List (String × Expr)) : Prop :=
  ∃ item mid, Item Repeats ts item mid ∧ site.AfterItem Repeats item mid rules

end Site

end

/-- The tokens that take a bounds group from what has been read of it to its end. -/
inductive Bounds.Closes : Bounds → List Token → Nat → Option Nat → List Token → Prop
  | close {read : Bounds} {min : Nat} {max : Option Nat} {rest : List Token}
    (h : read.close? = some (min, max)) : Closes read (.closeBrace :: rest) min max rest
  | next {read read' : Bounds} {ts rest : List Token} {min : Nat} {max : Option Nat}
    (token : Token) (h : read.next? token = some read') (more : Closes read' ts min max rest) :
    Closes read (token :: ts) min max rest

/-- The promise: `ts` continues what `r` has read to a rule list, of which `rules` are the
rules that were not complete before. A name that may still be a tag promises what it promises
in front of the tokens. -/
def Reader.Completes (Repeats : Expr → Nat → Option Nat → Expr → Prop) (r : Reader)
    (ts : List Token) (rules : List (String × Expr)) : Prop :=
  match r with
  | idle => RuleList Repeats ts rules
  | named rule => RuleList Repeats (.name rule :: ts) rules
  | within site .operand => site.AtItem Repeats ts rules
  | within site (.name text) => site.AtItem Repeats (.name text :: ts) rules
  | within site (.core e) => site.AfterCore Repeats e ts rules
  | within site (.bounds e _ read) => ∃ min max e' rest, read.Closes ts min max rest ∧
      Repeats e min max e' ∧ site.AfterCore Repeats e' rest rules

def Outcome.Completes (Repeats : Expr → Nat → Option Nat → Expr → Prop) (o : Outcome)
    (ts : List Token) (rules : List (String × Expr)) : Prop :=
  match o with
  | more r => r.Completes Repeats ts rules
  | rule name body => ∃ rules', RuleList Repeats ts rules' ∧ rules = (name, body) :: rules'

/-! ## One token -/

theorem exists_suffix_cons_iff {P : Expr → List Token → Prop} :
    (∃ e' rest, Suffix Repeats e (token :: ts) e' rest ∧ P e' rest) ↔
      token = .star ∧ P (.rep e .star) ts ∨ token = .plus ∧ P (.rep e .plus) ts ∨
        token = .question ∧ P (.rep e .opt) ts ∨
        token = .openBrace ∧ ∃ min max e' rest, Limits ts min max rest ∧
          Repeats e min max e' ∧ P e' rest := by
  constructor
  · rintro ⟨_, _, suffix, h⟩
    cases suffix with
    | star => exact .inl ⟨rfl, h⟩
    | plus => exact .inr (.inl ⟨rfl, h⟩)
    | question => exact .inr (.inr (.inl ⟨rfl, h⟩))
    | bounds limits he => exact .inr (.inr (.inr ⟨rfl, _, _, _, _, limits, he, h⟩))
  · rintro (⟨rfl, h⟩ | ⟨rfl, h⟩ | ⟨rfl, h⟩ | ⟨rfl, _, _, _, _, limits, he, h⟩)
    · exact ⟨_, _, .star ts, h⟩
    · exact ⟨_, _, .plus ts, h⟩
    · exact ⟨_, _, .question ts, h⟩
    · exact ⟨_, _, .bounds limits he, h⟩

theorem choice_iff :
    Choice Repeats ts e rest ↔
      ∃ item mid, Item Repeats ts item mid ∧ Level.Closes Repeats {} item mid e rest := by
  constructor
  · rintro ⟨⟨first, items⟩, branches⟩
    exact ⟨_, _, first, _, _, _, items, branches, rfl⟩
  · rintro ⟨_, _, first, _, _, _, items, branches, rfl⟩
    exact .mk (.mk first items) branches

namespace Site

variable {site : Site}

theorem afterCore_iff :
    site.AfterCore Repeats e ts rules ↔
      (∃ e₁ mid, Suffix Repeats e ts e₁ mid ∧ site.AfterCore Repeats e₁ mid rules) ∨
        site.AfterItem Repeats e ts rules := by
  constructor
  · rintro ⟨item, mid, hsuffixes, hitem⟩
    rcases suffixes_iff.mp hsuffixes with ⟨e₁, mid₁, hsuffix, hmore⟩ | ⟨rfl, rfl⟩
    · exact .inl ⟨e₁, mid₁, hsuffix, item, mid, hmore, hitem⟩
    · exact .inr hitem
  · rintro (⟨e₁, mid₁, hsuffix, item, mid, hmore, hitem⟩ | hitem)
    · exact ⟨item, mid, .cons hsuffix hmore, hitem⟩
    · exact ⟨e, ts, .nil e ts, hitem⟩

/-- Behind an item comes another item, another alternative or the end of the level. -/
theorem afterItem_iff :
    site.AfterItem Repeats e ts rules ↔
      AtItem Repeats { site with level := site.level.append e } ts rules ∨
        (∃ ts', ts = .bar :: ts' ∧
          AtItem Repeats { site with level := site.level.branch e } ts' rules) ∨
        Ends Repeats site.rule site.outer (site.level.choice e) ts rules := by
  constructor
  · rintro ⟨_, rest, ⟨es, mid, bs, hitems, hbranches, rfl⟩, hends⟩
    rcases items_iff.mp hitems with ⟨_, _, _, hfirst, hmore, rfl⟩ | ⟨rfl, rfl⟩
    · exact .inl ⟨_, _, hfirst, _, rest, ⟨_, mid, bs, hmore, hbranches, rfl⟩, hends⟩
    -- no item is left, so the alternative is complete as the reader has it
    rw [List.foldl_nil, Level.close_chain] at hends
    rcases branches_iff.mp hbranches with
      ⟨_, _, _, _, rfl, ⟨hfirst, hitems⟩, hmore, rfl⟩ | ⟨rfl, rfl⟩
    · exact .inr (.inl ⟨_, rfl, _, _, hfirst, _, rest, ⟨_, _, _, hitems, hmore, rfl⟩, hends⟩)
    · exact .inr (.inr hends)
  · rintro (⟨_, _, hfirst, _, rest, ⟨_, mid, bs, hmore, hbranches, rfl⟩, hends⟩ |
      ⟨_, rfl, _, _, hfirst, _, rest, ⟨_, _, _, hitems, hmore, rfl⟩, hends⟩ | hends)
    · exact ⟨_, rest, ⟨_, mid, bs, .cons hfirst hmore, hbranches, rfl⟩, hends⟩
    · refine ⟨_, rest, ⟨[], _, _, .nil _, .cons (.mk hfirst hitems) hmore, rfl⟩, ?_⟩
      rwa [List.foldl_nil, Level.close_chain]
    · refine ⟨_, ts, ⟨[], ts, [], .nil ts, .nil ts, rfl⟩, ?_⟩
      rwa [List.foldl_nil, List.foldl_nil, Level.close_chain]

theorem ends_nil_iff {rule : String} :
    Ends Repeats rule [] e ts rules ↔
      ∃ ts' rules', ts = .semicolon :: ts' ∧ RuleList Repeats ts' rules' ∧
        rules = (rule, e) :: rules' :=
  Iff.rfl

theorem ends_cons_iff {rule : String} {level : Level} {outer : List Level} :
    Ends Repeats rule (level :: outer) e ts rules ↔
      ∃ ts', ts = .closeParen :: ts' ∧ AfterCore Repeats ⟨rule, outer, level⟩ e ts' rules := by
  constructor
  · rintro ⟨ts', item, mid, e', rest, rfl, hsuffixes, hcloses, hends⟩
    exact ⟨ts', rfl, item, mid, hsuffixes, e', rest, hcloses, hends⟩
  · rintro ⟨ts', rfl, item, mid, hsuffixes, e', rest, hcloses, hends⟩
    exact ⟨ts', item, mid, e', rest, rfl, hsuffixes, hcloses, hends⟩

/-- An operand is begun by an integer, a name or an open parenthesis. -/
theorem atItem_cons_iff :
    site.AtItem Repeats (token :: ts) rules ↔
      ∃ o, site.begin? token = some o ∧ o.Completes Repeats ts rules := by
  cases token with
  | integer n => simp only [AtItem, AfterCore, item_integer_iff, begin?, Option.some.injEq,
      exists_eq_left', Outcome.Completes, Reader.Completes]
  | name text => simp only [begin?, Option.some.injEq, exists_eq_left', Outcome.Completes,
      Reader.Completes]
  | openParen =>
    simp only [begin?, Option.some.injEq, exists_eq_left', Outcome.Completes, Reader.Completes]
    constructor
    · rintro ⟨item, mid, hitem, hafter⟩
      obtain ⟨c, ts', hchoice, hsuffixes⟩ := item_openParen_iff.mp hitem
      obtain ⟨first, mid', hfirst, hcloses⟩ := choice_iff.mp hchoice
      exact ⟨first, mid', hfirst, c, _, hcloses,
        ends_cons_iff.mpr ⟨ts', rfl, item, mid, hsuffixes, hafter⟩⟩
    · rintro ⟨first, mid', hfirst, c, _, hcloses, hends⟩
      obtain ⟨ts', rfl, item, mid, hsuffixes, hafter⟩ := ends_cons_iff.mp hends
      exact ⟨item, mid,
        item_openParen_iff.mpr ⟨c, ts', choice_iff.mpr ⟨first, mid', hfirst, hcloses⟩, hsuffixes⟩,
        hafter⟩
  | _ =>
    constructor
    · rintro ⟨_, _, h, -⟩
      cases h with
      | operand core _ => cases core
    · rintro ⟨_, h, -⟩
      cases h

theorem not_atItem_nil : ¬ site.AtItem Repeats [] rules := by
  rintro ⟨_, _, h, -⟩
  cases h with
  | operand core _ => cases core

theorem not_afterCore_nil : ¬ site.AfterCore Repeats e [] rules := by
  rw [afterCore_iff, afterItem_iff]
  rintro (⟨_, _, h, -⟩ | h | ⟨_, h, -⟩ | h)
  · cases h
  · exact not_atItem_nil h
  · cases h
  · obtain ⟨rule, outer, level⟩ := site
    cases outer <;> obtain ⟨_, _, h⟩ := h <;> simp at h

theorem begin?_eq_some {o : Outcome} (h : site.begin? token = some o) :
    ∃ site focus, o = .more (.within site focus) := by
  cases token <;> cases h <;> exact ⟨_, _, rfl⟩

theorem continue?_eq_some {start : Nat} {o : Outcome} (h : site.continue? e start token = some o) :
    (∃ site focus, o = .more (.within site focus)) ∨
      token = .semicolon ∧ ∃ name body, o = .rule name body := by
  obtain ⟨rule, outer, level⟩ := site
  cases token with
  | closeParen =>
    cases outer <;> cases h
    exact .inl ⟨_, _, rfl⟩
  | semicolon =>
    cases outer <;> cases h
    exact .inr ⟨rfl, _, _, rfl⟩
  | comment | equals | colon | comma | closeBrace => cases h
  | _ =>
    cases h
    exact .inl ⟨_, _, rfl⟩

end Site

namespace Bounds

variable {read : Bounds} {min : Nat} {max : Option Nat}

theorem closes_cons_iff :
    read.Closes (token :: ts) min max rest ↔
      token = .closeBrace ∧ read.close? = some (min, max) ∧ rest = ts ∨
        ∃ read', read.next? token = some read' ∧ read'.Closes ts min max rest := by
  constructor
  · intro h
    cases h with
    | close h => exact .inl ⟨rfl, h, rfl⟩
    | next _ h more => exact .inr ⟨_, h, more⟩
  · rintro (⟨rfl, h, rfl⟩ | ⟨read', h, more⟩)
    · exact .close h
    · exact .next token h more

theorem limits_of_closes_comma {m : Option Symbol}
    (h : (comma (m.map UInt32.toNat)).Closes ts min max rest) :
    Limits (bound m ++ .comma :: ts) min max rest := by
  cases h with
  | close h =>
    cases h
    exact .range m none rest
  | next token h more =>
    match token, h with
    | .integer n, rfl =>
      cases more with
      | close h =>
        cases h
        exact .range m (some n) rest
      | next _ h _ => cases h

theorem limits_of_closes_lower {n : Symbol} (h : (lower n.toNat).Closes ts min max rest) :
    Limits (.integer n :: ts) min max rest := by
  cases h with
  | close h =>
    cases h
    exact .exactly n rest
  | next token h more =>
    match token, h with
    | .comma, rfl => exact limits_of_closes_comma (m := some n) more

/-- From its beginning a bounds group is read to the end exactly if it has the form of one. -/
theorem closes_start_iff : start.Closes ts min max rest ↔ Limits ts min max rest := by
  constructor
  · intro h
    cases h with
    | close h => cases h
    | next token h more =>
      match token, h with
      | .integer n, rfl => exact limits_of_closes_lower more
      | .comma, rfl => exact limits_of_closes_comma (m := none) more
  · intro h
    cases h with
    | exactly n rest => exact .next _ rfl (.close rfl)
    | range m n rest =>
      have hcomma : (comma (m.map UInt32.toNat)).Closes (bound n ++ .closeBrace :: rest)
          ((m.map UInt32.toNat).getD 0) (n.map UInt32.toNat) rest := by
        cases n with
        | none => exact .close rfl
        | some n => exact .next _ rfl (.close rfl)
      cases m with
      | none => exact .next _ rfl hcomma
      | some m => exact .next _ rfl (.next _ rfl hcomma)

end Bounds

theorem Site.afterCore_cons_iff (site : Site) (start : Nat) :
    site.AfterCore Repeats e (token :: ts) rules ↔
      ∃ o, site.continue? e start token = some o ∧ o.Completes Repeats ts rules := by
  obtain ⟨rule, outer, level⟩ := site
  rw [afterCore_iff, afterItem_iff, atItem_cons_iff, exists_suffix_cons_iff]
  cases outer with
  | nil =>
    rw [ends_nil_iff]
    cases token <;> simp [continue?, begin?, Outcome.Completes, Reader.Completes,
      Bounds.closes_start_iff]
  | cons level outer =>
    rw [ends_cons_iff]
    cases token <;> simp [continue?, begin?, Outcome.Completes, Reader.Completes,
      Bounds.closes_start_iff]

theorem Site.atItem_name_iff {site : Site} {text : String} :
    site.AtItem Repeats (.name text :: ts) rules ↔
      (∃ ts', ts = .colon :: ts' ∧
        AtItem Repeats { site with level := site.level.prefixTag text } ts' rules) ∨
        ts.head? ≠ some .colon ∧ site.AfterCore Repeats (.ref text) ts rules := by
  constructor
  · rintro ⟨item, mid, hitem, hafter⟩
    rcases item_name_iff.mp hitem with ⟨ts', e', rfl, hitem', rfl⟩ | ⟨hhead, hsuffixes⟩
    · exact .inl ⟨ts', rfl, e', mid, hitem', hafter⟩
    · exact .inr ⟨hhead, item, mid, hsuffixes, hafter⟩
  · rintro (⟨ts', rfl, e', mid, hitem', hafter⟩ | ⟨hhead, item, mid, hsuffixes, hafter⟩)
    · exact ⟨e'.tagged text, mid, .tagged text hitem', hafter⟩
    · exact ⟨item, mid, item_name_iff.mpr (.inr ⟨hhead, hsuffixes⟩), hafter⟩

theorem ruleList_cons_iff {name : String} :
    RuleList Repeats (.name name :: .equals :: ts) rules ↔
      Site.AtItem Repeats ⟨name, [], {}⟩ ts rules := by
  constructor
  · intro h
    cases h with
    | cons _ hchoice hmore =>
    obtain ⟨item, mid, hitem, hcloses⟩ := choice_iff.mp hchoice
    exact ⟨item, mid, hitem, _, _, hcloses, _, _, rfl, hmore, rfl⟩
  · rintro ⟨item, mid, hitem, _, _, hcloses, _, _, rfl, hmore, rfl⟩
    exact .cons name (choice_iff.mpr ⟨item, mid, hitem, hcloses⟩) hmore

namespace Reader

theorem accept_eq_ok_iff {r : Reader} {start : Nat} {o : Outcome} {o? : Option Outcome} :
    r.accept start token o? = .ok o ↔ o? = some o := by
  cases o? <;> simp [accept]

theorem next_bounds {site : Site} {read : Bounds} {brace start : Nat} (h : token ≠ .closeBrace) :
    (within site (.bounds e brace read)).next start token =
      (within site (.bounds e brace read)).accept start token
        ((read.next? token).map fun read => .more (.within site (.bounds e brace read))) := by
  cases token with
  | closeBrace => exact absurd rfl h
  | _ => rfl

theorem next_name {site : Site} {text : String} {start : Nat} (h : token ≠ .colon) :
    (within site (.name text)).next start token =
      (within site (.name text)).accept start token (site.continue? (.ref text) start token) := by
  cases token with
  | colon => exact absurd rfl h
  | _ => rfl

/-- A bounds group that is closed has bounds and is expanded. -/
theorem next_closeBrace {site : Site} {brace start : Nat} {read : Bounds} {o : Outcome}
    (h : (within site (.bounds e brace read)).next start .closeBrace = .ok o) :
    ∃ min max e', read.close? = some (min, max) ∧ e.repetition min max = .ok e' ∧
      o = .more (.within site (.core e')) := by
  cases hclose : read.close? with
  | none => simp [next, hclose] at h
  | some limits =>
    obtain ⟨min, max⟩ := limits
    cases he : e.repetition min max with
    | error => simp [next, hclose, closeBounds, he] at h
    | ok e' =>
      exact ⟨min, max, e', rfl, he, by simpa [next, hclose, closeBounds, he, eq_comm] using h⟩

/-- A token leads further into a rule, or it is the semicolon that ends it. -/
theorem next_cases {r : Reader} {start : Nat} {o : Outcome} (h : r.next start token = .ok o) :
    (∃ r', o = .more r' ∧ r' ≠ .idle) ∨ token = .semicolon ∧ ∃ name body, o = .rule name body := by
  cases r with
  | idle =>
    cases token <;> cases h
    exact .inl ⟨_, rfl, nofun⟩
  | named rule =>
    cases token <;> cases h
    exact .inl ⟨_, rfl, nofun⟩
  | within site focus =>
    suffices hwithin : (∃ site focus, o = .more (.within site focus)) ∨
        token = .semicolon ∧ ∃ name body, o = .rule name body by
      refine hwithin.imp_left ?_
      rintro ⟨_, _, rfl⟩
      exact ⟨_, rfl, nofun⟩
    cases focus with
    | operand => exact .inl (Site.begin?_eq_some (accept_eq_ok_iff.mp h))
    | name text =>
      by_cases hcolon : token = .colon
      · subst hcolon
        cases h
        exact .inl ⟨_, _, rfl⟩
      · rw [next_name hcolon, accept_eq_ok_iff] at h
        exact Site.continue?_eq_some h
    | core e => exact Site.continue?_eq_some (accept_eq_ok_iff.mp h)
    | bounds e brace read =>
      by_cases hclose : token = .closeBrace
      · subst hclose
        obtain ⟨_, _, _, -, -, rfl⟩ := next_closeBrace h
        exact .inl ⟨_, _, rfl⟩
      · rw [next_bounds hclose, accept_eq_ok_iff, Option.map_eq_some_iff] at h
        obtain ⟨_, -, rfl⟩ := h
        exact .inl ⟨_, _, rfl⟩

/-- A bounds group is left at its closing brace, and only if its bounds can be expanded. -/
theorem completes_bounds_iff {site : Site} {read : Bounds} {brace : Nat} (start : Nat)
    (hrepeats : ∀ min max, token = .closeBrace → read.close? = some (min, max) →
      ∀ e', Repeats e min max e' ↔ e.repetition min max = .ok e') :
    (within site (.bounds e brace read)).Completes Repeats (token :: ts) rules ↔
      ∃ o, (within site (.bounds e brace read)).next start token = .ok o ∧
        o.Completes Repeats ts rules := by
  by_cases h : token = .closeBrace
  · subst h
    constructor
    · rintro ⟨min, max, e', rest, hcloses, he, hafter⟩
      rcases Bounds.closes_cons_iff.mp hcloses with ⟨-, hclose, rfl⟩ | ⟨read', hnext, -⟩
      · refine ⟨.more (.within site (.core e')), ?_, hafter⟩
        simp [next, hclose, closeBounds, (hrepeats min max rfl hclose e').mp he]
      · cases read <;> cases hnext
    · rintro ⟨o, hnext, ho⟩
      obtain ⟨min, max, e', hclose, he, rfl⟩ := next_closeBrace hnext
      exact ⟨min, max, e', ts, .close hclose, (hrepeats min max rfl hclose e').mpr he, ho⟩
  · rw [next_bounds h]
    constructor
    · rintro ⟨min, max, e', rest, hcloses, he, hafter⟩
      rcases Bounds.closes_cons_iff.mp hcloses with ⟨rfl, -⟩ | ⟨read', hnext, hmore⟩
      · exact absurd rfl h
      · refine ⟨.more (.within site (.bounds e brace read')), ?_, min, max, e', rest, hmore, he,
          hafter⟩
        rw [hnext]
        rfl
    · rintro ⟨o, hnext, ho⟩
      obtain ⟨read', hread, rfl⟩ := Option.map_eq_some_iff.mp (accept_eq_ok_iff.mp hnext)
      obtain ⟨min, max, e', rest, hmore, he, hafter⟩ := ho
      exact ⟨min, max, e', rest, .next token hread hmore, he, hafter⟩

/-- Reading a token keeps the promise, and a refused token breaks it, if a bounds group that the
token closes is repeated as the reader expands it. -/
theorem completes_cons_iff_of_repeats (r : Reader) (start : Nat)
    (hrepeats : ∀ {site e brace read}, r = within site (.bounds e brace read) →
      ∀ min max, token = .closeBrace → read.close? = some (min, max) →
        ∀ e', Repeats e min max e' ↔ e.repetition min max = .ok e') :
    r.Completes Repeats (token :: ts) rules ↔
      ∃ o, r.next start token = .ok o ∧ o.Completes Repeats ts rules := by
  cases r with
  | idle =>
    cases token with
    | name text => simp [next, Completes, Outcome.Completes]
    | _ =>
      constructor
      · nofun
      · rintro ⟨_, h, -⟩
        cases h
  | named rule =>
    cases token with
    | equals => simp [next, Completes, Outcome.Completes, ruleList_cons_iff]
    | _ =>
      constructor
      · nofun
      · rintro ⟨_, h, -⟩
        cases h
  | within site focus =>
    cases focus with
    | operand => simp only [Completes, next, accept_eq_ok_iff, Site.atItem_cons_iff]
    | name text =>
      rw [Completes, Site.atItem_name_iff]
      cases token with
      | colon => simp [next, Completes, Outcome.Completes]
      | _ => simp [next, accept_eq_ok_iff, Site.afterCore_cons_iff _ start]
    | core e => simp only [Completes, next, accept_eq_ok_iff, Site.afterCore_cons_iff _ start]
    | bounds e brace read => exact completes_bounds_iff start (hrepeats rfl)

theorem completes_cons_iff (r : Reader) (start : Nat) :
    r.Completes Expr.Counted (token :: ts) rules ↔
      ∃ o, r.next start token = .ok o ∧ o.Completes Expr.Counted ts rules :=
  r.completes_cons_iff_of_repeats start fun _ _ _ _ _ _ => Expr.counted_iff

/-- At the end of the text nothing is promised between two rules only. -/
theorem completes_nil_iff {r : Reader} :
    r.Completes Repeats [] rules ↔ r = .idle ∧ rules = [] := by
  cases r with
  | idle =>
    constructor
    · intro h
      cases h
      exact ⟨rfl, rfl⟩
    · rintro ⟨-, rfl⟩
      exact .nil
  | named rule => exact ⟨nofun, nofun⟩
  | within site focus =>
    refine ⟨fun h => ?_, nofun⟩
    cases focus with
    | operand => exact (Site.not_atItem_nil h).elim
    | name text =>
      rcases Site.atItem_name_iff.mp h with ⟨_, hnil, -⟩ | ⟨-, h⟩
      · cases hnil
      · exact (Site.not_afterCore_nil h).elim
    | core e => exact (Site.not_afterCore_nil h).elim
    | bounds e brace read =>
      obtain ⟨_, _, _, _, h, -⟩ := h
      cases h

end Reader

/-! ## All tokens -/

theorem Token.exists_comment (h : token.isComment) : ∃ text, token = .comment text := by
  cases token <;> cases h
  exact ⟨_, rfl⟩

theorem statementsFrom_cons {stop start : Nat} {r : Reader} {deferred : List String}
    {lexemes : List Lexeme} (h : ¬ token.isComment) :
    statementsFrom stop r deferred (⟨token, start⟩ :: lexemes) =
      match r.next start token with
      | .error e => .error e
      | .ok (.more r) => statementsFrom stop r deferred lexemes
      | .ok (.rule name body) =>
        match statementsFrom stop .idle [] lexemes with
        | .ok statements =>
          .ok (.assign name body :: (deferred.map Statement.comment ++ statements))
        | .error e => .error e := by
  cases token with
  | comment => exact absurd rfl h
  | _ => rfl

theorem significant_cons {start : Nat} {lexemes : List Lexeme} (h : ¬ token.isComment) :
    significant (⟨token, start⟩ :: lexemes) = token :: significant lexemes := by
  rw [significant, List.map_cons, List.filter_cons_of_pos (by simpa using h)]
  rfl

/-- The reader gets to the end of the lexemes exactly if their tokens keep the promise of the
state it begins in, and then returns the promised rules. -/
theorem statementsFrom_iff (stop : Nat) (r : Reader) (deferred : List String)
    (lexemes : List Lexeme) :
    (∃ statements, statementsFrom stop r deferred lexemes = .ok statements ∧
        assignments statements = rules) ↔
      r.Completes Expr.Counted (significant lexemes) rules := by
  induction lexemes generalizing r deferred rules with
  | nil =>
    rw [statementsFrom, show significant [] = [] from rfl, Reader.completes_nil_iff]
    by_cases hidle : r = .idle <;> simp [hidle, assignments, eq_comm]
  | cons lexeme lexemes ih =>
    obtain ⟨token, start⟩ := lexeme
    by_cases hcomment : token.isComment
    · obtain ⟨text, rfl⟩ := Token.exists_comment hcomment
      change _ ↔ r.Completes Expr.Counted (significant lexemes) rules
      by_cases hidle : r = .idle
      · rw [statementsFrom, if_pos hidle, ← ih r deferred]
        cases statementsFrom stop r deferred lexemes with
        | error e => simp
        | ok statements => simp [assignments]
      · rw [statementsFrom, if_neg hidle]
        exact ih r (deferred ++ [text])
    · rw [statementsFrom_cons hcomment, significant_cons hcomment, r.completes_cons_iff start]
      cases r.next start token with
      | error e => simp
      | ok o =>
        simp only [Except.ok.injEq, exists_eq_left']
        cases o with
        | more r => exact ih r deferred
        | rule name body =>
          change _ ↔ ∃ rules', Reader.Completes Expr.Counted .idle (significant lexemes) rules' ∧
            rules = (name, body) :: rules'
          simp only [← ih .idle []]
          cases statementsFrom stop .idle [] lexemes with
          | error e => simp
          | ok statements => simp [assignments, assignments_comments, eq_comm]

/-- A text is read exactly if its tokens without the comments are a rule list, which is then
unambiguous, and the assignments that are read are the trees of its rules in order. -/
theorem statements_eq_ok_iff_ruleList {text : String} {ls : List Lexeme}
    (h : lexemes text = .ok ls) :
    ((∃ statements, Rules.statements text = .ok statements) ↔
      ∃ rules, RuleList Expr.Counted (significant ls) rules) ∧
    ∀ statements, Rules.statements text = .ok statements →
      ∀ rules, RuleList Expr.Counted (significant ls) rules ↔ rules = assignments statements := by
  have hread (rules) : (∃ statements, Rules.statements text = .ok statements ∧
      assignments statements = rules) ↔ RuleList Expr.Counted (significant ls) rules := by
    rw [Rules.statements, h]
    exact statementsFrom_iff _ .idle [] ls
  refine ⟨⟨fun ⟨statements, hok⟩ => ⟨_, (hread _).mp ⟨statements, hok, rfl⟩⟩, ?_⟩, ?_⟩
  · rintro ⟨rules, hrules⟩
    obtain ⟨statements, hok, -⟩ := (hread rules).mpr hrules
    exact ⟨statements, hok⟩
  · intro statements hok rules
    rw [← hread, hok]
    simp [eq_comm]

/-! A tag takes the suffixes behind its item with it, and a comment inside a rule is no part of
it. -/

def sampleText : String := "Main = a:(0|1)+ 2\x7b1,2\x7d # run\n;"

def sampleLexemes : List Lexeme :=
  [⟨.name "Main", 0⟩, ⟨.equals, 5⟩, ⟨.name "a", 7⟩, ⟨.colon, 8⟩, ⟨.openParen, 9⟩,
    ⟨.integer 0, 10⟩, ⟨.bar, 11⟩, ⟨.integer 1, 12⟩, ⟨.closeParen, 13⟩, ⟨.plus, 14⟩,
    ⟨.integer 2, 16⟩, ⟨.openBrace, 17⟩, ⟨.integer 1, 18⟩, ⟨.comma, 19⟩, ⟨.integer 2, 20⟩,
    ⟨.closeBrace, 21⟩, ⟨.comment "run", 23⟩, ⟨.semicolon, 29⟩]

def sampleBody : Expr :=
  .cat (.tagged "a" (.rep (.alt (.lit 0) (.lit 1)) .plus)) (.cat (.lit 2) (.rep (.lit 2) .opt))

theorem ruleList_sampleLexemes :
    lexemes sampleText = .ok sampleLexemes ∧
    Rules.statements sampleText = .ok [.assign "Main" sampleBody, .comment "run"] ∧
    ∀ rules, RuleList Expr.Counted (significant sampleLexemes) rules ↔
      rules = [("Main", sampleBody)] := by
  have hlexemes : lexemes sampleText = .ok sampleLexemes := by decide +kernel
  have hstatements : Rules.statements sampleText =
      .ok [.assign "Main" sampleBody, .comment "run"] := by decide +kernel
  exact ⟨hlexemes, hstatements, (statements_eq_ok_iff_ruleList hlexemes).2 _ hstatements⟩

end Rules

end RunGrammar
