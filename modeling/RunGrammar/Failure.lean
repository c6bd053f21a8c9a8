import RunGrammar.Files
import RunGrammar.RuleText

/-! The causes for which the command fails, and their wording. What went wrong in the rules or
in the input is told in the same words here as where it is found. -/
namespace RunGrammar

inductive Failure
  | badSetting (complaint : String)
  | rules (e : RuleError)
  | symbolFile (path cause : String)
  | unknownSymbol (text : String)
  | outOfAlphabet (e : RangeError)
  | file (e : FileError)
deriving DecidableEq, Repr

namespace Failure

def message : Failure → String
  | badSetting complaint => "invalid configuration: " ++ complaint
  | rules e => e.message
  | symbolFile path cause => "invalid symbols file " ++ path ++ ": " ++ cause
  | unknownSymbol text => "unknown symbol `" ++ text ++ "`"
  | outOfAlphabet e => e.message
  | file e => "I/O error: " ++ e.message

/-- The complaint about a text that names no level of the log. -/
def unknownLogLevel (text : String) : Failure :=
  badSetting ("unknown log level '" ++ text ++
    "', expected one of: trace, debug, info, warn, error")

/-- Whether the settings are at fault. -/
def isSetting : Failure → Bool
  | badSetting _ => true
  | _ => false

end Failure

end RunGrammar
