import RunGrammar.Automaton

/-! Runs of an input. A scan feeds the symbols to the automaton one by one. When a symbol
fails, the run so far is reported up to its last accepting symbol, with the tags of the
state before the failing symbol, and that symbol is tried again as the first one of a new
run. At the end of the input the open run is reported with the tags of the final state. -/
namespace RunGrammar

/-- A reported part of an input: the indices of its first and its last symbol, and the tags
of the state that it is reported from. -/
structure Run where
  first : Nat
  last : Nat
  tags : Std.ExtTreeSet String
deriving DecidableEq

namespace Run

def length (r : Run) : Nat := r.last - r.first + 1

def hasTag (r : Run) (name : String) : Bool := r.tags.contains name

/-- The symbols of a run, unless it reaches beyond the input. -/
def slice? (r : Run) (input : List Symbol) : Option (List Symbol) :=
  if r.first ≤ r.last + 1 ∧ r.last < input.length
  then some ((input.drop r.first).take (r.last + 1 - r.first))
  else none

/-- A run that ends inside the input and does not begin behind its end has its symbols. -/
theorem slice?_eq_some_iff {r : Run} {input symbols : List Symbol} :
    r.slice? input = some symbols ↔
      (r.first ≤ r.last + 1 ∧ r.last < input.length) ∧
        symbols = (input.drop r.first).take (r.last + 1 - r.first) := by
  unfold slice?
  split
  · next h => simp [h, eq_comm]
  · next h => simp [h]

end Run

/-- A place between two symbols of an input, and what the scan knows there. -/
structure Cursor where
  /-- The index of the next symbol. -/
  index : Nat := 0
  state : Nat := initial
  /-- The index of the first symbol of the open run. -/
  start : Option Nat := none
  /-- The index of the last symbol that led to an accepting state. It may lie before the
  open run, which has not been accepted then. -/
  accepted : Option Nat := none
deriving DecidableEq

namespace Cursor

/-- The open run with the tags of `state`, if it has been accepted. -/
def pending (a : Automaton) (c : Cursor) (state : Nat) : Option Run :=
  match c.start, c.accepted with
  | some first, some last =>
    if first ≤ last then some ⟨first, last, (a.tags? state).getD ∅⟩ else none
  | _, _ => none

/-- Reads a symbol in the open run, or in a new one if the open run cannot continue with it.
In the second case the open run is reported. -/
def feed (a : Automaton) (c : Cursor) (s : Symbol) : Option Run × Cursor :=
  let continued := a.step c.state s
  let broken := continued == failed
  let state := if broken then a.step initial s else continued
  let start := if broken then none else c.start
  let report := if broken then c.pending a c.state else none
  (report, {
    index := c.index + 1
    state := if state == failed then initial else state
    start := if state == failed then start else some (start.getD c.index)
    accepted := if a.isAccepting state then some c.index else c.accepted })

/-- Reads symbols until a run is reported or none is left. -/
def feedAll (a : Automaton) (c : Cursor) : List Symbol → Option Run × List Symbol × Cursor
  | [] => (none, [], c)
  | s :: rest =>
    match c.feed a s with
    | (some run, c) => (some run, rest, c)
    | (none, c) => c.feedAll a rest

end Cursor

/-- A scan that stands between two reports. -/
structure Scanner where
  rest : List Symbol
  cursor : Cursor := {}
  /-- Whether the run that was open at the end of the input has been reported. -/
  flushed : Bool := false
deriving DecidableEq

namespace Scanner

/-- The next run, and the scan behind it. -/
def next (a : Automaton) (scan : Scanner) : Option Run × Scanner :=
  match scan.cursor.feedAll a scan.rest with
  | (some run, rest, cursor) => (some run, ⟨rest, cursor, scan.flushed⟩)
  | (none, rest, cursor) =>
    let report := if scan.flushed then none else cursor.pending a cursor.state
    (report, ⟨rest, cursor, true⟩)

/-- A bound on the number of runs to come. -/
def budget (scan : Scanner) : Nat := scan.rest.length + if scan.flushed then 0 else 1

theorem length_feedAll_lt (a : Automaton) (c : Cursor) (input : List Symbol) (run : Run)
    (h : (c.feedAll a input).1 = some run) : (c.feedAll a input).2.1.length < input.length := by
  induction input generalizing c with
  | nil => simp [Cursor.feedAll] at h
  | cons s rest ih =>
    unfold Cursor.feedAll at h ⊢
    split at h
    · simp
    · next heq => simpa [heq] using Nat.lt_succ_of_lt (ih _ h)

theorem length_feedAll_le (a : Automaton) (c : Cursor) (input : List Symbol) :
    (c.feedAll a input).2.1.length ≤ input.length := by
  induction input generalizing c with
  | nil => simp [Cursor.feedAll]
  | cons s rest ih =>
    unfold Cursor.feedAll
    split
    · simp
    · exact Nat.le_succ_of_le (ih _)

theorem budget_next_lt (a : Automaton) (scan : Scanner) (run : Run)
    (h : (scan.next a).1 = some run) : (scan.next a).2.budget < scan.budget := by
  have hlt := length_feedAll_lt a scan.cursor scan.rest
  have hle := length_feedAll_le a scan.cursor scan.rest
  unfold next at h ⊢
  rcases hf : scan.cursor.feedAll a scan.rest with ⟨_ | found, rest, cursor⟩
  · rw [hf] at h hle
    cases hs : scan.flushed with
    | true =>
      rw [hs] at h
      cases h
    | false =>
      simp only [budget, hs, Bool.false_eq_true, if_false, if_true] at hle ⊢
      omega
  · rw [hf] at hlt
    have := hlt found rfl
    simp only [budget] at this ⊢
    omega

/-- The runs to come. -/
def runs (a : Automaton) (scan : Scanner) : List Run :=
  match h : scan.next a with
  | (some run, after) =>
    have : after.budget < scan.budget := by
      simpa [h] using budget_next_lt a scan run (by rw [h])
    run :: after.runs a
  | (none, _) => []
termination_by scan.budget

end Scanner

namespace Automaton

/-- A scan of an input whose symbols all lie in the alphabet. -/
def scan (a : Automaton) (input : List Symbol) : Except RangeError Scanner :=
  match firstOutside a.alphabet 0 input with
  | none => .ok { rest := input }
  | some e => .error e

/-- All runs of an input. -/
def runs (a : Automaton) (input : List Symbol) : Except RangeError (List Run) :=
  (a.scan input).map (Scanner.runs a)

end Automaton

end RunGrammar
