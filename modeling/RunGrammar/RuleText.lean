import RunGrammar.Host
import RunGrammar.Rules.Reader

/-! Compilation of rule text. A text that is malformed anywhere is refused before its first
rule is bound. -/
namespace RunGrammar

inductive RuleError
  | malformed (e : Rules.SyntaxError)
  | uncompilable (e : CompileError)
deriving DecidableEq, Repr

def RuleError.message : RuleError → String
  | malformed e => e.message
  | uncompilable e => e.message

namespace Host

def compileText (h : Host) (text : String) : Except (Halt RuleError) Automaton :=
  match Rules.statements text with
  | .ok statements => (h.compile statements).mapError (.map .uncompilable)
  | .error e => .error (.returned (.malformed e))

end Host

end RunGrammar
