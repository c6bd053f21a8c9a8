import RunGrammar.Command.Request
import RunGrammar.Report
import RunGrammar.SymbolArguments

/-! What the command does: its exit code, its output and the last error in its log. Nothing is
printed unless everything that can fail has succeeded. -/
namespace RunGrammar.Command

/-- An error as it is handed to the log, with the field `error` if it has one. -/
structure Record where
  message : String
  error : Option String := none
deriving DecidableEq, Repr

structure Outcome where
  exit : UInt32
  output : String
  error : Option Record
deriving DecidableEq, Repr

namespace Outcome

def success (output : String) : Outcome := ⟨0, output, none⟩

def failure (exit : UInt32) (error : Record) : Outcome := ⟨exit, "", some error⟩

/-- A panic ends the process before the log gets an error. -/
def panic : Outcome := ⟨101, "", none⟩

end Outcome

/-- A failure with what led to it. The cause of an error in a file is named a second time. -/
def explain (context : String) (f : Failure) : String :=
  let cause := match f with
    | .file e => ": " ++ e.message
    | .symbolFile _ cause => ": " ++ cause
    | .badSetting _ | .rules _ | .unknownSymbol _ | .outOfAlphabet _ => ""
  context ++ ": " ++ f.message ++ cause

variable {Path : Type}

/-- The automaton of a source. -/
def Task.automaton (source : Source Path) (p : Platform Path) : Except (Halt String) Automaton :=
  (source.compile p).mapError (.map (explain ("failed to compile " ++ p.display source.rules)))

/-- The output of a scan. -/
def Task.runs (a : Automaton) (arguments : List String) : Except String String := do
  let input ← (a.arguments arguments).mapError (explain "failed to read input symbols")
  let runs ← (a.runs input).mapError fun e =>
    explain "input does not fit the grammar" (.outOfAlphabet e)
  return Run.jsonLines runs

/-- The output of a task. -/
def Task.output (p : Platform Path) : Task Path → Except (Halt String) String
  | .check source => (Task.automaton source p).map Automaton.summary
  | .scan source arguments => do
    let a ← Task.automaton source p
    (Task.runs a arguments).mapError .returned

/-- The outcome of a request. -/
def run (p : Platform Path) (r : Request Path) : Outcome :=
  match r.settings p with
  | .error f => .failure 2 ⟨"invalid configuration", some f.message⟩
  | .ok _ =>
    match r.task.output p with
    | .ok output => .success output
    | .error (.returned error) => .failure 1 ⟨error, none⟩
    | .error .panicked => .panic

end RunGrammar.Command
