import RunGrammar.Automaton
import RunGrammar.Positions

/-! The subset construction. A state is the set of positions that can be read next, and the
states are found breadth first from the initial one, each set getting the next free
number when it first appears. Sets without positions are not numbered: they are the
failed state 0. -/
namespace RunGrammar

/-- The states found so far and their transitions. -/
structure Exploration where
  states : Array PositionSet
  /-- The next states, row by row; a cell that is not written yet holds the failed state. -/
  table : Array Nat
  /-- The numbers of the states by their positions in ascending order. -/
  numbers : Std.ExtTreeMap (List Nat) Nat
  size_le : states.size ≤ identifierCount
  numbers_eq : ∀ set : PositionSet, numbers[set.toList]? = states.findIdx? (· == set)

namespace Exploration

/-- Gives a number to a set of positions. -/
def numbered (numbers : Std.ExtTreeMap (List Nat) Nat) (set : PositionSet) (number : Nat) :
    Std.ExtTreeMap (List Nat) Nat :=
  numbers.insert set.toList number

theorem getElem?_numbered {numbers : Std.ExtTreeMap (List Nat) Nat} {set other : PositionSet}
    {number : Nat} :
    (numbered numbers set number)[other.toList]? =
      if set = other then some number else numbers[other.toList]? := by
  simp [numbered, Std.ExtTreeMap.getElem?_insert, Std.ExtTreeSet.toList_inj]

/-- The greatest number of bytes in an array. -/
def byteLimit : Nat := UInt64.size / 2 - 1

/-- The number of bytes that are set aside for a table of two or more rows. A cell takes four of
them. There is room for two rows at first and for twice as many rows as before when it runs out. -/
def tableBytes (alphabet rows : Nat) : Nat := 4 * (alphabet <<< ((rows - 1).log2 + 1))

/-- Whether an array can hold a table with so many rows. -/
def TableFits (alphabet rows : Nat) : Prop := tableBytes alphabet rows ≤ byteLimit

instance (alphabet rows : Nat) : Decidable (TableFits alphabet rows) :=
  inferInstanceAs (Decidable (_ ≤ _))

theorem TableFits.mono {alphabet rows fewer : Nat} (h : TableFits alphabet rows)
    (hle : fewer ≤ rows) : TableFits alphabet fewer := by
  have hlog : (fewer - 1).log2 ≤ (rows - 1).log2 := by
    by_cases hzero : fewer - 1 = 0
    · rw [hzero]
      exact Nat.zero_le _
    · refine (Nat.le_log2 (by omega)).mpr (Nat.le_trans (Nat.log2_self_le hzero) ?_)
      exact Nat.sub_le_sub_right hle 1
  refine Nat.le_trans (Nat.mul_le_mul_left 4 ?_) h
  rw [Nat.shiftLeft_eq, Nat.shiftLeft_eq]
  exact Nat.mul_le_mul_left alphabet
    (Nat.pow_le_pow_right Nat.two_pos (Nat.add_le_add_right hlog 1))

/-- The failed state and the initial one, which holds `first`. -/
def start (alphabet : Nat) (first : PositionSet) : Compiled Exploration :=
  if TableFits alphabet 2 then
    .ok {
      states := #[∅, first]
      table := Array.replicate (2 * alphabet) failed
      numbers := numbered (numbered ∅ first initial) ∅ failed
      size_le := by simp [identifierCount, UInt32.size]
      numbers_eq set := by
        simp only [getElem?_numbered, List.findIdx?_toArray, List.findIdx?_cons, beq_iff_eq]
        by_cases h₀ : ∅ = set <;> by_cases h₁ : first = set <;> simp [h₀, h₁, failed, initial] }
  else .error .panicked

/-- The number of a state with the given positions, if it has been found. -/
def number? (x : Exploration) (set : PositionSet) : Option Nat := x.numbers[set.toList]?

theorem number?_eq (x : Exploration) (set : PositionSet) :
    x.number? set = x.states.findIdx? (· == set) := x.numbers_eq set

/-- Records that reading `s` in `state` leads to `targets`, which becomes a new state with an
empty row if it is none yet. The number of a new state is looked for before the row is added. -/
def record (x : Exploration) (alphabet state : Nat) (s : Symbol) (targets : PositionSet) :
    Compiled Exploration :=
  let cell := state * alphabet + s.toNat
  match hnumber : x.number? targets with
  | some known => .ok { x with table := x.table.setIfInBounds cell known }
  | none =>
    if h : x.states.size < identifierCount then
      if TableFits alphabet (x.states.size + 1) then
        .ok {
          states := x.states.push targets
          table := (x.table ++ Array.replicate alphabet failed).setIfInBounds cell x.states.size
          numbers := numbered x.numbers targets x.states.size
          size_le := by rw [Array.size_push]; exact h
          numbers_eq set := by
            rw [number?_eq] at hnumber
            rw [getElem?_numbered, x.numbers_eq, Array.findIdx?_push]
            by_cases hset : targets = set
            · subst hset
              simp [hnumber]
            · simp [hset] }
      else .error .panicked
    else .error (.returned .stateLimit)

/-- Records the moves of one state in ascending order of their symbols. -/
def expand (x : Exploration) (alphabet state : Nat) :
    List (Symbol × PositionSet) → Compiled Exploration
  | [] => .ok x
  | (s, targets) :: rest =>
    match x.record alphabet state s targets with
    | .ok next => next.expand alphabet state rest
    | .error halt => .error halt

/-- Expands the states from the number `state` on, those included that appear meanwhile. -/
def expandFrom (ps : Positions) (alphabet : Nat) (x : Exploration) (state : Nat) :
    Compiled Exploration :=
  if h : state < x.states.size then
    match x.expand alphabet state (ps.moves x.states[state]) with
    | .ok next => next.expandFrom ps alphabet (state + 1)
    | .error halt => .error halt
  else .ok x
termination_by identifierCount - state
decreasing_by
  have := x.size_le
  omega

/-- All states that the positions reach. -/
def ofPositions (ps : Positions) (alphabet : Nat) : Compiled Exploration :=
  (start alphabet ps.first).bind fun x => x.expandFrom ps alphabet initial

theorem ofPositions_of_not_tableFits {ps : Positions} {alphabet : Nat}
    (h : ¬ TableFits alphabet 2) : ofPositions ps alphabet = .error .panicked := by
  rw [ofPositions, start, if_neg h]
  rfl

/-- Whether the table has one row for each state. -/
def Shaped (x : Exploration) (alphabet : Nat) : Prop := x.table.size = x.states.size * alphabet

theorem start_eq_ok {alphabet : Nat} {first : PositionSet} {x : Exploration}
    (h : start alphabet first = .ok x) :
    TableFits alphabet 2 ∧ x.states = #[∅, first] ∧
      x.table = Array.replicate (2 * alphabet) failed := by
  unfold start at h
  split at h
  · next hfits =>
    obtain rfl := Except.ok.inj h
    exact ⟨hfits, rfl, rfl⟩
  · cases h

theorem shaped_start {alphabet : Nat} {first : PositionSet} {x : Exploration}
    (h : start alphabet first = .ok x) : x.Shaped alphabet := by
  obtain ⟨-, hstates, htable⟩ := start_eq_ok h
  simp [Shaped, hstates, htable]

theorem Shaped.record {x y : Exploration} {alphabet state : Nat} {s : Symbol}
    {targets : PositionSet} (hx : x.Shaped alphabet)
    (h : x.record alphabet state s targets = .ok y) : y.Shaped alphabet := by
  unfold Exploration.record at h
  simp only at h
  split at h
  · obtain rfl := Except.ok.inj h
    simpa [Shaped] using hx
  · split at h
    · split at h
      · obtain rfl := Except.ok.inj h
        rw [Shaped] at hx ⊢
        simp [hx, Nat.add_mul]
      · cases h
    · cases h

/-- What every record keeps is kept where the moves of a state are recorded. -/
theorem expand_induction {p : Exploration → Prop} {x y : Exploration} {alphabet state : Nat}
    {moves : List (Symbol × PositionSet)} (hx : p x)
    (hrecord : ∀ {x y : Exploration}, ∀ m ∈ moves, p x →
      x.record alphabet state m.1 m.2 = .ok y → p y)
    (h : x.expand alphabet state moves = .ok y) : p y := by
  induction moves generalizing x with
  | nil => exact Except.ok.inj h ▸ hx
  | cons move rest ih =>
    unfold Exploration.expand at h
    split at h
    · next hr =>
      refine ih (hrecord move List.mem_cons_self hx hr) (fun m hm => ?_) h
      exact hrecord m (List.mem_cons_of_mem move hm)
    · cases h

/-- What every row keeps is kept by the exploration. -/
theorem expandFrom_induction {p : Exploration → Prop} {ps : Positions} {x y : Exploration}
    {alphabet state : Nat} (hx : p x)
    (hexpand : ∀ {x y : Exploration} {state : Nat} {set : PositionSet},
      x.states[state]? = some set → p x → x.expand alphabet state (ps.moves set) = .ok y → p y)
    (h : x.expandFrom ps alphabet state = .ok y) : p y := by
  fun_induction Exploration.expandFrom ps alphabet x state with
  | case1 x state hlt next he ih =>
    exact ih (hexpand (Array.getElem?_eq_getElem hlt) hx he) h
  | case2 => cases h
  | case3 => exact Except.ok.inj h ▸ hx

theorem Shaped.expand {x y : Exploration} {alphabet state : Nat}
    {moves : List (Symbol × PositionSet)} (hx : x.Shaped alphabet)
    (h : x.expand alphabet state moves = .ok y) : y.Shaped alphabet :=
  expand_induction (p := fun x => x.Shaped alphabet) hx (fun _ _ hx h => hx.record h) h

end Exploration

/-- The automaton of an exploration. A state accepts if an end mark can come next, and it
carries the tags that can come next. -/
def Automaton.ofExploration (ps : Positions) (alphabet : Nat) (x : Exploration)
    (symbols : Std.ExtTreeMap String Symbol) : Automaton where
  alphabet := alphabet
  transitions := x.table
  accepting := x.states.map ps.ends
  tags := x.states.map ps.tags
  symbols := symbols

end RunGrammar
