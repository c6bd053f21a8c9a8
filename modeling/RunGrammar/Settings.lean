import RunGrammar.Failure

/-! Settings of the command. The level of the log is `warn` unless the environment or an
option sets it; an option wins over the environment. -/
namespace RunGrammar

inductive LogLevel
  | trace
  | debug
  | info
  | warn
  | error
deriving DecidableEq, Repr

namespace LogLevel

def name : LogLevel → String
  | trace => "trace"
  | debug => "debug"
  | info => "info"
  | warn => "warn"
  | error => "error"

/-- Reads a level in any mixture of cases; `warning` is another word for `warn`. No letter
outside ASCII has one of the letters of these words as its lower case. -/
def parse? (text : String) : Option LogLevel :=
  match String.ofList (text.toList.map Char.toLower) with
  | "trace" => some trace
  | "debug" => some debug
  | "info" => some info
  | "warn" | "warning" => some warn
  | "error" => some error
  | _ => none

/-- The words for a level. -/
def words : LogLevel → List String
  | trace => ["trace"]
  | debug => ["debug"]
  | info => ["info"]
  | warn => ["warn", "warning"]
  | error => ["error"]

/-- A text names a level exactly if it is one of its words but for the case of its letters. -/
theorem parse?_eq_some_iff {text : String} {level : LogLevel} :
    parse? text = some level ↔
      String.ofList (text.toList.map Char.toLower) ∈ level.words := by
  unfold parse?
  constructor
  · intro h
    split at h <;> cases h <;> simp_all [words]
  · intro h
    cases level <;> simp [words] at h <;> grind

end LogLevel

structure Settings where
  logLevel : LogLevel := .warn
deriving DecidableEq, Repr

namespace Settings

/-- The settings of an environment with this value in the variable that gives the level. A value
that is no Unicode text counts as none. -/
def ofEnvironment (value : Option ByteArray) : Except Failure Settings :=
  match value.bind String.fromUTF8? with
  | none => .ok {}
  | some text =>
    match LogLevel.parse? text with
    | some level => .ok { logLevel := level }
    | none => .error (.unknownLogLevel text)

def withLogLevel (s : Settings) (level : LogLevel) : Settings := { s with logLevel := level }

/-- The settings under an option, which may be absent. -/
def override (s : Settings) (level? : Option LogLevel) : Settings :=
  { s with logLevel := level?.getD s.logLevel }

end Settings

end RunGrammar
