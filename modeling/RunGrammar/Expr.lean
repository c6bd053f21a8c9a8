import RunGrammar.CompileError

/-! Rule expressions. A word of an expression is a sequence of symbols; a tag stands
between symbols and consumes none. `tagged`, `sequence`, `choice` and `repetition`
are abbreviations: each expands to the seven constructors when it is applied. -/
namespace RunGrammar

/-- How often a repeated expression may occur. -/
inductive Quantifier
  | star
  | plus
  | opt
deriving DecidableEq, Repr

namespace Quantifier

/-- Whether no occurrence at all is allowed, whatever is repeated. -/
def nullable : Quantifier → Bool
  | star | opt => true
  | plus => false

/-- Whether a further occurrence may follow an occurrence. -/
def loops : Quantifier → Bool
  | star | plus => true
  | opt => false

def sign : Quantifier → Char
  | star => '*'
  | plus => '+'
  | opt => '?'

end Quantifier

inductive Expr
  | lit (symbol : Symbol)
  | tag (name : String)
  | endMark
  | ref (name : String)
  | alt (left right : Expr)
  | cat (left right : Expr)
  | rep (body : Expr) (q : Quantifier)
deriving DecidableEq, Repr

namespace Expr

/-- Whether the empty word belongs to the expression. A reference stands for an unknown
rule and counts as not nullable, and `+` never is. -/
def nullable : Expr → Bool
  | lit _ | endMark | ref _ => false
  | tag _ => true
  | alt a b => a.nullable || b.nullable
  | cat a b => a.nullable && b.nullable
  | rep _ q => q.nullable

/-- The referenced names from left to right, a name as often as it is written. -/
def references : Expr → List String
  | ref name => [name]
  | alt a b | cat a b => a.references ++ b.references
  | rep e _ => e.references
  | lit _ | tag _ | endMark => []

/-- An expression without references. -/
def Closed (e : Expr) : Prop := e.references = []

instance (e : Expr) : Decidable e.Closed := inferInstanceAs (Decidable (_ = _))

@[simp] theorem closed_alt {a b : Expr} : (alt a b).Closed ↔ a.Closed ∧ b.Closed :=
  List.append_eq_nil_iff

@[simp] theorem closed_cat {a b : Expr} : (cat a b).Closed ↔ a.Closed ∧ b.Closed :=
  List.append_eq_nil_iff

@[simp] theorem closed_rep {e : Expr} {q : Quantifier} : (rep e q).Closed ↔ e.Closed := Iff.rfl

/-- An expression that is reported under `name`: the tag stands behind it. -/
def tagged (name : String) (e : Expr) : Expr := cat e (tag name)

/-- Juxtaposition of all items, grouped to the left. -/
def sequence : List Expr → Option Expr
  | [] => none
  | e :: es => some (es.foldl cat e)

/-- Alternation of all items, grouped to the left. -/
def choice : List Expr → Option Expr
  | [] => none
  | e :: es => some (es.foldl alt e)

/-- The copies that `repetition` juxtaposes: `min` mandatory ones, then a starred one or
as many optional ones as the upper bound leaves. -/
def copies (e : Expr) (min : Nat) : Option Nat → List Expr
  | none => List.replicate min e ++ [rep e .star]
  | some max => List.replicate min e ++ List.replicate (max - min) (rep e .opt)

/-- At least `min` and at most `max` occurrences. An upper bound that is zero or below
the lower one is refused. -/
def repetition (e : Expr) (min : Nat) (max : Option Nat) : Except CompileError Expr :=
  if max.any (fun n => n < min || n == 0) then .error (.invalidRepetition min max)
  else match sequence (copies e min max) with
    | some expanded => .ok expanded
    | none => .error (.invalidRepetition min max)

end Expr

/-- One entry of a rule list. -/
inductive Statement
  | assign (name : String) (body : Expr)
  | comment (text : String)
deriving DecidableEq, Repr

end RunGrammar
