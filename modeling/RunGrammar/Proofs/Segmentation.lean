import RunGrammar.Scanner

/-! The division of an input into runs, as a function of the input alone. A run ends before the
first symbol over which the automaton fails, and it is reported up to the last symbol over
which the automaton accepts. -/
namespace RunGrammar

variable {a : Automaton} {input : List Symbol} {i j k : Nat}

/-- The symbols with indices from `i` on below `j`. -/
def symbolsBetween (input : List Symbol) (i j : Nat) : List Symbol := (input.drop i).take (j - i)

@[simp] theorem symbolsBetween_self : symbolsBetween input i i = [] := by
  rw [symbolsBetween, Nat.sub_self, List.take_zero]

theorem mem_of_mem_symbolsBetween {s : Symbol} (hs : s ∈ symbolsBetween input i j) : s ∈ input :=
  List.mem_of_mem_drop (List.mem_of_mem_take hs)

theorem symbolsBetween_succ (hij : i ≤ j) (hj : j < input.length) :
    symbolsBetween input i (j + 1) = symbolsBetween input i j ++ [input[j]] := by
  have hnext : (input.drop i)[j - i]? = some input[j] := by
    rw [List.getElem?_drop, Nat.add_sub_of_le hij, List.getElem?_eq_getElem hj]
  rw [symbolsBetween, Nat.succ_sub hij, List.take_add_one, hnext]
  rfl

namespace Automaton

/-- The state that the symbols between two indices lead to from the initial one. -/
def stateOver (a : Automaton) (input : List Symbol) (i j : Nat) : Nat :=
  a.stateAfter initial (symbolsBetween input i j)

/-- The index of the first symbol behind `i` over which a run that begins at `i` fails, or the
length of the input. -/
def runEnd (a : Automaton) (input : List Symbol) (i : Nat) : Nat :=
  ((List.range' (i + 1) (input.length - (i + 1))).find? fun j =>
    a.stateOver input i (j + 1) == failed).getD input.length

/-- The greatest index from `i` on below `j` over which a run that begins at `i` is accepted. -/
def lastAccepted (a : Automaton) (input : List Symbol) (i j : Nat) : Option Nat :=
  ((List.range' i (j - i)).filter fun k => a.isAccepting (a.stateOver input i (k + 1))).getLast?

@[simp] theorem stateOver_self : a.stateOver input i i = initial := by
  rw [stateOver, symbolsBetween_self]
  rfl

theorem stateOver_succ (hij : i ≤ j) (hj : j < input.length) :
    a.stateOver input i (j + 1) = a.step (a.stateOver input i j) input[j] := by
  rw [stateOver, symbolsBetween_succ hij hj, stateAfter_concat, stateOver]

theorem stateOver_first (hi : i < input.length) :
    a.stateOver input i (i + 1) = a.step initial input[i] := by
  rw [stateOver_succ (Nat.le_refl i) hi, stateOver_self]

/-- A run ends where it fails for the first time, or at the end of the input. -/
theorem runEnd_spec (a : Automaton) (hi : i < input.length) :
    i < a.runEnd input i ∧ a.runEnd input i ≤ input.length ∧
      (a.runEnd input i < input.length →
        a.stateOver input i (a.runEnd input i + 1) = failed) ∧
      ∀ k, i < k → k < a.runEnd input i → a.stateOver input i (k + 1) ≠ failed := by
  unfold runEnd
  cases hfind : (List.range' (i + 1) (input.length - (i + 1))).find? fun j =>
      a.stateOver input i (j + 1) == failed with
  | none =>
    rw [List.find?_range'_eq_none] at hfind
    rw [Option.getD_none]
    refine ⟨hi, Nat.le_refl _, fun h => absurd h (Nat.lt_irrefl _), ?_⟩
    intro k hik hk
    simpa using hfind k hik (by omega)
  | some m =>
    rw [List.find?_range'_eq_some, List.mem_range'_1, beq_iff_eq] at hfind
    obtain ⟨hm, hmem, hbefore⟩ := hfind
    rw [Option.getD_some]
    refine ⟨by omega, by omega, fun _ => hm, ?_⟩
    intro k hik hk
    simpa using hbefore k hik hk

theorem runEnd_eq (hij : i < j) (hj : j ≤ input.length)
    (hfail : j < input.length → a.stateOver input i (j + 1) = failed)
    (hbefore : ∀ k, i < k → k < j → a.stateOver input i (k + 1) ≠ failed) :
    a.runEnd input i = j := by
  obtain ⟨hi, hle, hend, hfirst⟩ := runEnd_spec a (Nat.lt_of_lt_of_le hij hj)
  rcases Nat.lt_trichotomy (a.runEnd input i) j with h | h | h
  · exact absurd (hend (by omega)) (hbefore _ hi h)
  · exact h
  · exact absurd (hfail (by omega)) (hfirst j hij h)

@[simp] theorem lastAccepted_self : a.lastAccepted input i i = none := by
  rw [lastAccepted, Nat.sub_self]
  rfl

theorem lastAccepted_succ (hij : i ≤ j) :
    a.lastAccepted input i (j + 1) =
      if a.isAccepting (a.stateOver input i (j + 1)) then some j
      else a.lastAccepted input i j := by
  have hlast : i + (j - i) = j := Nat.add_sub_of_le hij
  rw [lastAccepted, Nat.succ_sub hij, List.range'_1_concat, hlast, List.filter_append,
    List.getLast?_append]
  split
  · next h => simp [h]
  · next h => simp [h, lastAccepted]

theorem lastAccepted_eq_some_iff (hij : i ≤ j) :
    a.lastAccepted input i j = some k ↔ (i ≤ k ∧ k < j) ∧
      a.isAccepting (a.stateOver input i (k + 1)) = true ∧
      ∀ l, k < l → l < j → a.isAccepting (a.stateOver input i (l + 1)) = false := by
  induction hij with
  | refl =>
    rw [lastAccepted_self]
    refine iff_of_false (fun h => by cases h) ?_
    rintro ⟨⟨hik, hki⟩, -⟩
    omega
  | @step j hij ih =>
    change i ≤ j at hij
    rw [lastAccepted_succ hij]
    split
    · next haccept =>
      rw [Option.some_inj]
      constructor
      · rintro rfl
        exact ⟨⟨hij, Nat.lt_succ_self j⟩, haccept, fun l hjl hl => by omega⟩
      · rintro ⟨⟨-, hk⟩, -, hlater⟩
        rcases Nat.lt_succ_iff_lt_or_eq.mp hk with hlt | rfl
        · have hfalse := hlater j hlt (Nat.lt_succ_self j)
          rw [haccept] at hfalse
          cases hfalse
        · rfl
    · next hreject =>
      rw [ih]
      constructor
      · rintro ⟨⟨hik, hk⟩, haccept, hlater⟩
        refine ⟨⟨hik, by omega⟩, haccept, fun l hkl hl => ?_⟩
        rcases Nat.lt_succ_iff_lt_or_eq.mp hl with hlt | rfl
        · exact hlater l hkl hlt
        · exact Bool.eq_false_iff.mpr hreject
      · rintro ⟨⟨hik, hk⟩, haccept, hlater⟩
        have hne : k ≠ j := fun h => hreject (h ▸ haccept)
        exact ⟨⟨hik, by omega⟩, haccept, fun l hkl hl => hlater l hkl (by omega)⟩

/-- The runs of the input from index `i` on. A symbol over which the automaton fails at once is
left out. -/
def segments (a : Automaton) (input : List Symbol) (i : Nat) : List Run :=
  if h : i < input.length then
    if a.step initial input[i] = failed then a.segments input (i + 1)
    else
      let j := a.runEnd input i
      let report := (a.lastAccepted input i j).map fun k =>
        { first := i, last := k, tags := (a.tags? (a.stateOver input i j)).getD ∅ : Run }
      report.toList ++ a.segments input j
  else []
termination_by input.length - i
decreasing_by
  · omega
  · have := (runEnd_spec a h).1
    omega

theorem segments_of_ge (hi : input.length ≤ i) : a.segments input i = [] := by
  rw [segments, dif_neg (Nat.not_lt_of_le hi)]

theorem segments_of_failed (hi : i < input.length) (h : a.step initial input[i] = failed) :
    a.segments input i = a.segments input (i + 1) := by
  rw [segments, dif_pos hi, if_pos h]

theorem segments_of_run (hi : i < input.length) (h : a.step initial input[i] ≠ failed)
    (hj : a.runEnd input i = j) :
    a.segments input i =
      ((a.lastAccepted input i j).map fun k =>
        { first := i, last := k, tags := (a.tags? (a.stateOver input i j)).getD ∅ : Run }).toList ++
      a.segments input j := by
  rw [segments, dif_pos hi, if_neg h, hj]

end Automaton

end RunGrammar
