import RunGrammar.Halt

/-! Results of computations that may fail. -/
namespace RunGrammar

variable {ε ε' α β : Type}

theorem bind_eq_ok {m : Except ε α} {k : α → Except ε β} {v : β} :
    m.bind k = .ok v ↔ ∃ u, m = .ok u ∧ k u = .ok v := by
  cases m with
  | error err =>
    refine iff_of_false (fun h => by cases h) ?_
    rintro ⟨_, h, -⟩
    cases h
  | ok u =>
    constructor
    · exact fun h => ⟨u, rfl, h⟩
    · rintro ⟨_, h, hk⟩
      exact Except.ok.inj h ▸ hk

theorem map_eq_ok {m : Except ε α} {f : α → β} {v : β} :
    m.map f = .ok v ↔ ∃ u, m = .ok u ∧ f u = v := by
  cases m with
  | error err =>
    refine iff_of_false (fun h => by cases h) ?_
    rintro ⟨_, h, -⟩
    cases h
  | ok u =>
    constructor
    · exact fun h => ⟨u, rfl, Except.ok.inj h⟩
    · rintro ⟨_, h, rfl⟩
      exact Except.ok.inj h ▸ rfl

theorem map_eq_error {m : Except ε α} {f : α → β} {e : ε} : m.map f = .error e ↔ m = .error e := by
  cases m with
  | error err => exact Iff.of_eq (by rw [Except.map, Except.error.injEq, Except.error.injEq])
  | ok u => exact iff_of_false (fun h => by cases h) (fun h => by cases h)

theorem mapError_eq_ok {m : Except ε α} {f : ε → ε'} {v : α} :
    m.mapError f = .ok v ↔ m = .ok v := by
  cases m with
  | error err => exact iff_of_false (by rintro ⟨⟩) (by rintro ⟨⟩)
  | ok u => exact ⟨fun h => congrArg _ (Except.ok.inj h), fun h => congrArg _ (Except.ok.inj h)⟩

/-- A computation that is run gives a result that is as the test says. -/
theorem exists_of_map_decide_eq_ok {m : Except ε α} {p : α → Prop} [DecidablePred p]
    (h : m.map (fun v => decide (p v)) = .ok true) : ∃ v, m = .ok v ∧ p v := by
  obtain ⟨v, hv, hp⟩ := map_eq_ok.mp h
  exact ⟨v, hv, of_decide_eq_true hp⟩

end RunGrammar
