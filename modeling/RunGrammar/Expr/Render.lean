import RunGrammar.Expr

/-! The written form of an expression. Alternation binds loosest, then juxtaposition,
then the postfix quantifiers; parentheses appear only where the grouping would
otherwise be read differently, so a right operand of the same level keeps them. -/
namespace RunGrammar.Expr

/-- How tightly the outermost operator binds. -/
def rank : Expr → Nat
  | alt .. => 0
  | cat .. => 1
  | rep .. => 2
  | lit _ | tag _ | endMark | ref _ => 3

/-- The text of an operand where only expressions of rank `least` or more stand bare. -/
def enclose (least : Nat) (e : Expr) (text : String) : String :=
  if e.rank < least then "(" ++ text ++ ")" else text

def render : Expr → String
  | lit s => s.toNat.repr
  | tag name => "<" ++ name ++ ">"
  | endMark => "#"
  | ref name => name
  | alt a b => enclose 0 a a.render ++ " | " ++ enclose 1 b b.render
  | cat a b => enclose 1 a a.render ++ " " ++ enclose 2 b b.render
  | rep e q => enclose 2 e e.render ++ String.singleton q.sign

end RunGrammar.Expr
