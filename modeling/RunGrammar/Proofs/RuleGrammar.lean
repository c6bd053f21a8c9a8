import RunGrammar.Rules.Token
import RunGrammar.Expr

/-! The grammar of rule lists, as derivations. A derivation `N ts e rest` says that `ts` is a
phrase of the nonterminal `N` followed by `rest`, and that `e` is the tree of the phrase. What
a bounds group makes of its operand is left open as `Repeats`, so that the shape of the token
list can be told from the values of the bounds. -/
namespace RunGrammar.Rules

def Token.isComment : Token → Bool
  | comment _ => true
  | _ => false

/-- The tokens of the lexemes without the comments. -/
def significant (lexemes : List Lexeme) : List Token :=
  (lexemes.map Lexeme.token).filter fun token => !token.isComment

namespace Grammar

/-- A bound that may be left out. -/
def bound (n : Option Symbol) : List Token := (n.map Token.integer).toList

/-- `n '}' | m? ',' n? '}'` with the lower and the upper bound. -/
inductive Limits : List Token → Nat → Option Nat → List Token → Prop
  | exactly (n : Symbol) (rest : List Token) :
    Limits (.integer n :: .closeBrace :: rest) n.toNat (some n.toNat) rest
  | range (m n : Option Symbol) (rest : List Token) :
    Limits (bound m ++ .comma :: (bound n ++ .closeBrace :: rest))
      ((m.map UInt32.toNat).getD 0) (n.map UInt32.toNat) rest

section

variable (Repeats : Expr → Nat → Option Nat → Expr → Prop)

/-- `'*' | '+' | '?' | '{' limits`, and what it makes of the operand `e`. -/
inductive Suffix (e : Expr) : List Token → Expr → List Token → Prop
  | star (rest : List Token) : Suffix e (.star :: rest) (.rep e .star) rest
  | plus (rest : List Token) : Suffix e (.plus :: rest) (.rep e .plus) rest
  | question (rest : List Token) : Suffix e (.question :: rest) (.rep e .opt) rest
  | bounds {ts rest : List Token} {min : Nat} {max : Option Nat} {e' : Expr}
    (limits : Limits ts min max rest) (he : Repeats e min max e') :
    Suffix e (.openBrace :: ts) e' rest

/-- `suffix*`, applied to the operand `e` from left to right. -/
inductive Suffixes : Expr → List Token → Expr → List Token → Prop
  | nil (e : Expr) (ts : List Token) : Suffixes e ts e ts
  | cons {e e₁ e' : Expr} {ts mid rest : List Token} (suffix : Suffix Repeats e ts e₁ mid)
    (more : Suffixes e₁ mid e' rest) : Suffixes e ts e' rest

mutual

/-- `choice ::= chain ('|' chain)*`, grouped to the left. -/
inductive Choice : List Token → Expr → List Token → Prop
  | mk {ts mid rest : List Token} {e : Expr} {es : List Expr} (first : Chain ts e mid)
    (more : Branches mid es rest) : Choice ts (es.foldl .alt e) rest

/-- `('|' chain)*` -/
inductive Branches : List Token → List Expr → List Token → Prop
  | nil (ts : List Token) : Branches ts [] ts
  | cons {ts mid rest : List Token} {e : Expr} {es : List Expr} (first : Chain ts e mid)
    (more : Branches mid es rest) : Branches (.bar :: ts) (e :: es) rest

/-- `chain ::= item item*`, grouped to the left. -/
inductive Chain : List Token → Expr → List Token → Prop
  | mk {ts mid rest : List Token} {e : Expr} {es : List Expr} (first : Item ts e mid)
    (more : Items mid es rest) : Chain ts (es.foldl .cat e) rest

/-- `item*` -/
inductive Items : List Token → List Expr → List Token → Prop
  | nil (ts : List Token) : Items ts [] ts
  | cons {ts mid rest : List Token} {e : Expr} {es : List Expr} (first : Item ts e mid)
    (more : Items mid es rest) : Items ts (e :: es) rest

/-- `item ::= core suffix* | name ':' item` -/
inductive Item : List Token → Expr → List Token → Prop
  | operand {ts mid rest : List Token} {e e' : Expr} (core : Core ts e mid)
    (more : Suffixes Repeats e mid e' rest) : Item ts e' rest
  | tagged {ts rest : List Token} {e : Expr} (name : String) (item : Item ts e rest) :
    Item (.name name :: .colon :: ts) (e.tagged name) rest

/-- `core ::= integer | name | '(' choice ')'`, where no colon follows the name. -/
inductive Core : List Token → Expr → List Token → Prop
  | integer (n : Symbol) (rest : List Token) : Core (.integer n :: rest) (.lit n) rest
  | name {rest : List Token} (text : String) (h : rest.head? ≠ some .colon) :
    Core (.name text :: rest) (.ref text) rest
  | group {ts rest : List Token} {e : Expr} (choice : Choice ts e (.closeParen :: rest)) :
    Core (.openParen :: ts) e rest

end

/-- `rules ::= (name '=' choice ';')*` with the assignments in order. -/
inductive RuleList : List Token → List (String × Expr) → Prop
  | nil : RuleList [] []
  | cons {ts rest : List Token} {e : Expr} {rules : List (String × Expr)} (name : String)
    (choice : Choice Repeats ts e (.semicolon :: rest)) (more : RuleList rest rules) :
    RuleList (.name name :: .equals :: ts) ((name, e) :: rules)

end

/-! What a phrase begins with decides how it is derived. -/

section

variable {Repeats : Expr → Nat → Option Nat → Expr → Prop} {ts rest : List Token} {e e' : Expr}
  {es : List Expr}

theorem suffixes_iff :
    Suffixes Repeats e ts e' rest ↔
      (∃ e₁ mid, Suffix Repeats e ts e₁ mid ∧ Suffixes Repeats e₁ mid e' rest) ∨
        e' = e ∧ rest = ts := by
  constructor
  · intro h
    cases h with
    | nil => exact .inr ⟨rfl, rfl⟩
    | cons suffix more => exact .inl ⟨_, _, suffix, more⟩
  · rintro (⟨_, _, suffix, more⟩ | ⟨rfl, rfl⟩)
    · exact .cons suffix more
    · exact .nil _ _

theorem items_iff :
    Items Repeats ts es rest ↔
      (∃ e mid es', Item Repeats ts e mid ∧ Items Repeats mid es' rest ∧ es = e :: es') ∨
        es = [] ∧ rest = ts := by
  constructor
  · intro h
    cases h with
    | nil => exact .inr ⟨rfl, rfl⟩
    | cons first more => exact .inl ⟨_, _, _, first, more, rfl⟩
  · rintro (⟨_, _, _, first, more, rfl⟩ | ⟨rfl, rfl⟩)
    · exact .cons first more
    · exact .nil _

theorem branches_iff :
    Branches Repeats ts es rest ↔
      (∃ ts' e mid es', ts = .bar :: ts' ∧ Chain Repeats ts' e mid ∧
        Branches Repeats mid es' rest ∧ es = e :: es') ∨ es = [] ∧ rest = ts := by
  constructor
  · intro h
    cases h with
    | nil => exact .inr ⟨rfl, rfl⟩
    | cons first more => exact .inl ⟨_, _, _, _, rfl, first, more, rfl⟩
  · rintro (⟨_, _, _, _, rfl, first, more, rfl⟩ | ⟨rfl, rfl⟩)
    · exact .cons first more
    · exact .nil _

theorem item_integer_iff {n : Symbol} :
    Item Repeats (.integer n :: ts) e rest ↔ Suffixes Repeats (.lit n) ts e rest := by
  constructor
  · intro h
    cases h with
    | operand core more => cases core with
      | integer => exact more
  · exact fun more => .operand (.integer n ts) more

theorem item_openParen_iff :
    Item Repeats (.openParen :: ts) e rest ↔
      ∃ c mid, Choice Repeats ts c (.closeParen :: mid) ∧ Suffixes Repeats c mid e rest := by
  constructor
  · intro h
    cases h with
    | operand core more => cases core with
      | group choice => exact ⟨_, _, choice, more⟩
  · rintro ⟨_, _, choice, more⟩
    exact .operand (.group choice) more

theorem item_name_iff {name : String} :
    Item Repeats (.name name :: ts) e rest ↔
      (∃ ts' e', ts = .colon :: ts' ∧ Item Repeats ts' e' rest ∧ e = e'.tagged name) ∨
        ts.head? ≠ some .colon ∧ Suffixes Repeats (.ref name) ts e rest := by
  constructor
  · intro h
    cases h with
    | tagged _ item => exact .inl ⟨_, _, rfl, item, rfl⟩
    | operand core more => cases core with
      | name _ h => exact .inr ⟨h, more⟩
  · rintro (⟨_, _, rfl, item, rfl⟩ | ⟨h, more⟩)
    · exact .tagged name item
    · exact .operand (.name name h) more

end

end Grammar

end RunGrammar.Rules
