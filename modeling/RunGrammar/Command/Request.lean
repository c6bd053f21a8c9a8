import RunGrammar.Settings
import RunGrammar.Source

/-! What the command is asked for, once the parser of the arguments has understood them. -/
namespace RunGrammar.Command

/-- What to do with a grammar. -/
inductive Task (Path : Type)
  | check (source : Source Path)
  | scan (source : Source Path) (symbols : List String)
deriving DecidableEq

structure Request (Path : Type) where
  logLevel : Option LogLevel := none
  task : Task Path
deriving DecidableEq

/-- The settings under which a request is carried out. -/
def Request.settings {Path : Type} (r : Request Path) (p : Platform Path) :
    Except Failure Settings :=
  (Settings.ofEnvironment p.logLevel).map (·.override r.logLevel)

end RunGrammar.Command
