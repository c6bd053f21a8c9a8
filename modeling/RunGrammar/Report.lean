import RunGrammar.Json.Quoted
import RunGrammar.Scanner

/-! What the command prints: the size of an automaton with its named symbols, and runs as one
JSON object a line. -/
namespace RunGrammar

/-- The size of an automaton, line by line, and its symbols in the order of their names. -/
def Automaton.summary (a : Automaton) : String :=
  let symbols := a.symbols.toList.map fun (name, code) =>
    "  " ++ name ++ " = " ++ code.toNat.repr ++ "\n"
  let named := if symbols.isEmpty then "" else "symbols:\n" ++ String.join symbols
  "states: " ++ a.stateCount.repr ++ "\nalphabet: " ++ a.alphabet.repr ++
    "\naccepting: " ++ a.acceptingCount.repr ++ "\n" ++ named

/-- A run as a JSON object. -/
def Run.json (r : Run) : String :=
  "\x7b\"start\":" ++ r.first.repr ++ ",\"end\":" ++ r.last.repr ++
    ",\"tags\":[" ++ ",".intercalate (r.tags.toList.map Json.quoted) ++ "]\x7d"

/-- The lines of a list of runs. -/
def Run.jsonLines (runs : List Run) : String :=
  String.join (runs.map fun r => r.json ++ "\n")

theorem Run.jsonLines_cons (r : Run) (runs : List Run) :
    Run.jsonLines (r :: runs) = r.json ++ "\n" ++ Run.jsonLines runs := by
  rw [jsonLines, List.map_cons, String.join_cons, jsonLines]

/-- Writes the line of each run before the next run is looked for, and counts the lines. -/
def Scanner.report (a : Automaton) (scan : Scanner) (text : String) (count : Nat) : String × Nat :=
  match h : scan.next a with
  | (some run, after) =>
    have : after.budget < scan.budget := by
      simpa [h] using budget_next_lt a scan run (by rw [h])
    after.report a (text ++ run.json ++ "\n") (count + 1)
  | (none, _) => (text, count)
termination_by scan.budget

/-- The lines of the runs of an input, and their number. -/
def Automaton.report (a : Automaton) (input : List Symbol) : Except RangeError (String × Nat) :=
  (a.scan input).map fun scan => scan.report a "" 0

end RunGrammar
