import RunGrammar.Expr
import RunGrammar.Rules.Token

/-! Rule lists from lexemes. The reader looks at one lexeme at a time and remembers the
open parentheses on a stack, so what it has read is always the beginning of some rule
list, and it stops at the first lexeme that no rule list can continue with.

Grammar of the tokens, comments left out:

    rules   ::=  (name '=' choice ';')*
    choice  ::=  chain ('|' chain)*
    chain   ::=  item item*
    item    ::=  core postfix*  |  name ':' item
    core    ::=  integer  |  name  |  '(' choice ')'
    postfix ::=  '*'  |  '+'  |  '?'  |  '{' n '}'  |  '{' m? ',' n? '}' -/
namespace RunGrammar.Rules

/-- What precedes the item being read on one level of parentheses. -/
structure Level where
  /-- The alternatives that a bar has closed. -/
  branches : Option Expr := none
  /-- The finished items of the current alternative. -/
  items : Option Expr := none
  /-- The tags in front of the current item, the innermost first. -/
  tags : List String := []
deriving DecidableEq, Repr

namespace Level

/-- The current alternative with its last item. -/
def chain (l : Level) (core : Expr) : Expr :=
  let item := l.tags.foldl (fun e name => e.tagged name) core
  match l.items with
  | none => item
  | some items => .cat items item

/-- The whole level with the last item of its last alternative. -/
def choice (l : Level) (core : Expr) : Expr :=
  match l.branches with
  | none => l.chain core
  | some branches => .alt branches (l.chain core)

/-- The level with a tag in front of the current item, inside the tags read before it. -/
def prefixTag (l : Level) (name : String) : Level := { l with tags := name :: l.tags }

/-- The level after an item that another item follows. -/
def append (l : Level) (core : Expr) : Level := ⟨l.branches, some (l.chain core), []⟩

/-- The level after an alternative that another alternative follows. -/
def branch (l : Level) (core : Expr) : Level := ⟨some (l.choice core), none, []⟩

end Level

/-- The part of a bounds group that has been read. -/
inductive Bounds
  | start
  | lower (min : Nat)
  | comma (min : Option Nat)
  | upper (min : Option Nat) (max : Nat)
deriving DecidableEq, Repr

namespace Bounds

def next? : Bounds → Token → Option Bounds
  | start, .integer n => some (lower n.toNat)
  | start, .comma => some (comma none)
  | lower min, .comma => some (comma (some min))
  | comma min, .integer n => some (upper min n.toNat)
  | _, _ => none

/-- The two bounds, if the group may be closed here. A single number is both of them; a
lower bound that is left out is zero, and an upper bound that is left out is infinite. -/
def close? : Bounds → Option (Nat × Option Nat)
  | start => none
  | lower n => some (n, some n)
  | comma min => some (min.getD 0, none)
  | upper min max => some (min.getD 0, some max)

end Bounds

/-- What has been read of the current item. -/
inductive Focus
  /-- Nothing: an operand has to come. -/
  | operand
  /-- A name, which is a tag if a colon follows and a reference otherwise. -/
  | name (text : String)
  /-- An operand with the postfix operators so far. -/
  | core (e : Expr)
  /-- An operand and a bounds group that was opened at the byte offset `start`. -/
  | bounds (e : Expr) (start : Nat) (read : Bounds)
deriving DecidableEq, Repr

/-- The rule that is being read, without its current item: its name, the levels outside
the innermost open parenthesis, and the innermost level. -/
structure Site where
  rule : String
  outer : List Level
  level : Level
deriving DecidableEq, Repr

inductive Reader
  /-- Between two rules. -/
  | idle
  /-- Behind the name of a rule. -/
  | named (rule : String)
  /-- Inside the expression of a rule. -/
  | within (site : Site) (focus : Focus)
deriving DecidableEq, Repr

/-- What a lexeme leads to: the reader goes on, or a rule is complete. -/
inductive Outcome
  | more (reader : Reader)
  | rule (name : String) (body : Expr)
deriving DecidableEq, Repr

namespace Site

/-- Begins an operand. -/
def begin? (site : Site) : Token → Option Outcome
  | .integer n => some (.more (.within site (.core (.lit n))))
  | .name text => some (.more (.within site (.name text)))
  | .openParen => some (.more (.within ⟨site.rule, site.level :: site.outer, {}⟩ .operand))
  | .comment _ | .equals | .semicolon | .bar | .colon | .comma | .closeParen | .openBrace
  | .closeBrace | .star | .plus | .question => none

/-- Continues behind an operand: a postfix operator, the next item, the next alternative,
the end of the group or the end of the rule. -/
def continue? (site : Site) (core : Expr) (start : Nat) : Token → Option Outcome
  | .star => some (.more (.within site (.core (.rep core .star))))
  | .plus => some (.more (.within site (.core (.rep core .plus))))
  | .question => some (.more (.within site (.core (.rep core .opt))))
  | .openBrace => some (.more (.within site (.bounds core start .start)))
  | .bar => some (.more (.within { site with level := site.level.branch core } .operand))
  | .closeParen =>
    match site.outer with
    | [] => none
    | level :: outer =>
      some (.more (.within ⟨site.rule, outer, level⟩ (.core (site.level.choice core))))
  | .semicolon =>
    if site.outer.isEmpty then some (.rule site.rule (site.level.choice core)) else none
  | token => begin? { site with level := site.level.append core } token

end Site

namespace Reader

/-- What has to come next where a lexeme cannot be read. -/
def expected : Reader → Expected
  | idle => .ruleName
  | named _ => .equals
  | within _ .operand => .operand
  | within site (.name _) | within site (.core _) =>
    if site.outer.isEmpty then .semicolon else .closeParen
  | within _ (.bounds _ _ .start) => .bounds
  | within _ (.bounds ..) => .closeBrace

/-- The complaint about a lexeme, or about the end of the text. -/
def refuse (r : Reader) (position : Nat) (found : Option Token) : SyntaxError :=
  ⟨.missing r.expected, position, found.map Token.render⟩

/-- Takes an outcome if there is one and complains about the token otherwise. -/
def accept (r : Reader) (start : Nat) (token : Token) : Option Outcome → Except SyntaxError Outcome
  | some outcome => .ok outcome
  | none => .error (r.refuse start (some token))

/-- Closes the bounds group that was opened at `brace`. -/
def closeBounds (site : Site) (e : Expr) (brace min : Nat) (max : Option Nat) :
    Except SyntaxError Outcome :=
  match e.repetition min max with
  | .ok expanded => .ok (.more (.within site (.core expanded)))
  | .error _ => .error ⟨.invalidBounds, brace, some (renderBounds min max)⟩

/-- Reads one token that is no comment and begins at `start`. Whether it is refused depends
on the kinds of the tokens alone, except for a closed bounds group, where the values count. -/
def next (r : Reader) (start : Nat) (token : Token) : Except SyntaxError Outcome :=
  match r, token with
  | idle, .name text => .ok (.more (.named text))
  | named rule, .equals => .ok (.more (.within ⟨rule, [], {}⟩ .operand))
  | within site .operand, token => r.accept start token (site.begin? token)
  | within site (.name text), .colon =>
    .ok (.more (.within { site with level := site.level.prefixTag text } .operand))
  | within site (.name text), token => r.accept start token (site.continue? (.ref text) start token)
  | within site (.core e), token => r.accept start token (site.continue? e start token)
  | within site (.bounds e brace read), .closeBrace =>
    match read.close? with
    | some (min, max) => closeBounds site e brace min max
    | none => .error (r.refuse start (some token))
  | within site (.bounds e brace read), token =>
    r.accept start token ((read.next? token).map fun read => .more (.within site (.bounds e brace read)))
  | _, token => .error (r.refuse start (some token))

end Reader

/-- The statements of the lexemes that follow what `r` has read. A comment between rules
stands where it is written; a comment inside a rule is `deferred` until the rule is
complete. `stop` is the byte offset of the end of the text. -/
def statementsFrom (stop : Nat) (r : Reader) (deferred : List String) :
    List Lexeme → Except SyntaxError (List Statement)
  | [] => if r = .idle then .ok [] else .error (r.refuse stop none)
  | ⟨.comment text, _⟩ :: rest =>
    if r = .idle then
      match statementsFrom stop r deferred rest with
      | .ok statements => .ok (.comment text :: statements)
      | .error e => .error e
    else statementsFrom stop r (deferred ++ [text]) rest
  | ⟨token, start⟩ :: rest =>
    match r.next start token with
    | .error e => .error e
    | .ok (.more r) => statementsFrom stop r deferred rest
    | .ok (.rule name body) =>
      match statementsFrom stop .idle [] rest with
      | .ok statements =>
        .ok (.assign name body :: (deferred.map Statement.comment ++ statements))
      | .error e => .error e

/-- Reads a rule text. -/
def statements (text : String) : Except SyntaxError (List Statement) :=
  match lexemes text with
  | .ok lexemes => statementsFrom (Text.width text.toList) .idle [] lexemes
  | .error e => .error e

end RunGrammar.Rules
