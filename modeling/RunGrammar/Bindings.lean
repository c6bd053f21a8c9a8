import RunGrammar.Expr
import Std.Data.ExtTreeMap

/-! Named rules. A rule list is read once, in order: each body has its references replaced
by the rules bound so far, so a stored rule has no references and none is recursive. A
name whose rule is a bare literal also names a symbol of the alphabet, and each name that
becomes a symbol for the first time adds one to the alphabet size. -/
namespace RunGrammar

structure Bindings where
  rules : Std.ExtTreeMap String Expr := ∅
  symbols : Std.ExtTreeMap String Symbol := ∅
  /-- The alphabet size, counted in 64-bit words. -/
  alphabet : UInt64 := 0
deriving DecidableEq

namespace Bindings

/-- An alphabet size with one added to it. The addition is checked, and the program panics when
the sum is no word. -/
def oneMore (size : UInt64) : Compiled UInt64 :=
  if size.toNat + 1 < UInt64.size then .ok (size + 1) else .error .panicked

/-- Binds a name to a symbol. -/
def bindSymbol (b : Bindings) (name : String) (code : Symbol) : Compiled Bindings :=
  (if name ∈ b.symbols then .ok b.alphabet else oneMore b.alphabet).map fun size => {
    rules := b.rules.insert name (.lit code)
    symbols := b.symbols.insert name code
    alphabet := size }

/-- Binds the symbols that the host brings along, a later pair over an earlier one. -/
def ofExternal (external : List (String × Symbol)) : Compiled Bindings :=
  external.foldlM (fun b (name, code) => b.bindSymbol name code) {}

/-- Binds a name to an expression without references. -/
def bind (b : Bindings) (name : String) : Expr → Compiled Bindings
  | .lit code => b.bindSymbol name code
  | body => .ok { b with rules := b.rules.insert name body }

/-- Replaces every reference by the rule of that name. -/
def resolve (b : Bindings) : Expr → Except CompileError Expr
  | .ref name =>
    match b.rules[name]? with
    | some body => .ok body
    | none => .error (.undefinedReference name)
  | .alt x y => do return .alt (← b.resolve x) (← b.resolve y)
  | .cat x y => do return .cat (← b.resolve x) (← b.resolve y)
  | .rep e q => do return .rep (← b.resolve e) q
  | .lit s => .ok (.lit s)
  | .tag name => .ok (.tag name)
  | .endMark => .ok .endMark

/-- The references that no rule answers, from left to right and as often as written. -/
def unbound (b : Bindings) (e : Expr) : List String :=
  e.references.filter fun name => name ∉ b.rules

/-- Takes one assignment into the bindings. -/
def assign (b : Bindings) (name : String) (body : Expr) : Compiled Bindings :=
  match b.resolve body with
  | .ok resolved => b.bind name resolved
  | .error e => .error (.returned e)

/-- Takes the statements in order. The first assignment that does not resolve ends the reading, and
what was bound before it stays bound. A panic ends it as well. -/
def process (b : Bindings) : List Statement → Bindings × Option (Halt CompileError)
  | [] => (b, none)
  | .comment _ :: rest => b.process rest
  | .assign name body :: rest =>
    match b.assign name body with
    | .ok extended => extended.process rest
    | .error halt => (b, some halt)

/-- The bindings after a whole list. -/
def read (b : Bindings) (statements : List Statement) : Compiled Bindings :=
  match b.process statements with
  | (b, none) => .ok b
  | (_, some halt) => .error halt

/-- Makes room for at least `size` symbols, named or not. -/
def reserve (b : Bindings) (size : UInt64) : Bindings :=
  { b with alphabet := max b.alphabet size }

def rule? (b : Bindings) (name : String) : Option Expr := b.rules[name]?

def symbol? (b : Bindings) (name : String) : Option Symbol := b.symbols[name]?

/-- The expression of the entry rule. -/
def entry (b : Bindings) : Except CompileError Expr :=
  match b.rule? entryRule with
  | some body => .ok body
  | none => .error .missingEntry

end Bindings

end RunGrammar
