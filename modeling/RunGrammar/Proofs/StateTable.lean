import RunGrammar.Exploration
import RunGrammar.Proofs.Results

/-! The table of the subset construction. Each cell of a finished exploration holds the number
of the set that its symbol leads to from the set of its row. While the rows are written the
cells without an entry hold the failed state, which is the state of the empty set, so a
symbol that leads nowhere needs no entry. -/
namespace RunGrammar.Exploration

variable {ps : Positions} {x y : Exploration} {alphabet state : Nat} {s : Symbol}
  {set targets : PositionSet} {written : Nat → Symbol → Prop} {halt : Halt CompileError}

/-- Whether the cell of a state and a symbol holds the number of `targets`. -/
def Leads (x : Exploration) (alphabet state : Nat) (s : Symbol) (targets : PositionSet) : Prop :=
  ∃ n, x.table[state * alphabet + s.toNat]? = some n ∧ x.states[n]? = some targets

/-- What holds while the cells for which `written` holds have got their entries. -/
structure Sound (ps : Positions) (alphabet : Nat) (x : Exploration)
    (written : Nat → Symbol → Prop) : Prop where
  shaped : x.Shaped alphabet
  states_failed : x.states[failed]? = some ∅
  states_initial : x.states[initial]? = some ps.first
  eq_failed : ∀ n : Nat, x.states[n]? = some ∅ → n = failed
  entry : ∀ (n : Nat) set s, x.states[n]? = some set → s.toNat < alphabet → written n s →
    x.Leads alphabet n s (ps.after set s)
  blank : ∀ (n : Nat) set s, x.states[n]? = some set → s.toNat < alphabet → ¬ written n s →
    x.Leads alphabet n s ∅

theorem number?_eq_none_iff :
    x.number? targets = none ↔ ∀ n : Nat, x.states[n]? ≠ some targets := by
  rw [number?_eq, Array.findIdx?_eq_none_iff]
  constructor
  · intro h n hset
    have := h targets (Array.mem_of_getElem? hset)
    simp at this
  · intro h other hmem
    obtain ⟨n, hlt, rfl⟩ := Array.mem_iff_getElem.mp hmem
    rw [beq_eq_false_iff_ne]
    rintro rfl
    exact h n (Array.getElem?_eq_getElem hlt)

/-- A record either finds the number of its targets or gives them the next one and an empty row,
for which there has to be room. -/
theorem record_eq_ok (h : x.record alphabet state s targets = .ok y) :
    (∃ n, x.states[n]? = some targets ∧ y.states = x.states ∧
      y.table = x.table.setIfInBounds (state * alphabet + s.toNat) n) ∨
    ((∀ n : Nat, x.states[n]? ≠ some targets) ∧ TableFits alphabet (x.states.size + 1) ∧
      y.states = x.states.push targets ∧
      y.table = (x.table ++ Array.replicate alphabet failed).setIfInBounds
        (state * alphabet + s.toNat) x.states.size) := by
  unfold record at h
  simp only at h
  split at h
  · next n hn =>
    obtain rfl := Except.ok.inj h
    rw [number?_eq, Array.findIdx?_eq_some_iff_getElem] at hn
    obtain ⟨hlt, heq, -⟩ := hn
    refine .inl ⟨n, ?_, rfl, rfl⟩
    rw [Array.getElem?_eq_getElem hlt, eq_of_beq heq]
  · next hn =>
    split at h
    · split at h
      · next hfits =>
        obtain rfl := Except.ok.inj h
        exact .inr ⟨number?_eq_none_iff.mp hn, hfits, rfl, rfl⟩
      · cases h
    · cases h

/-- A record fails if its targets are a new state and there is no number left for them, or else no
room for their row. -/
theorem record_eq_error (h : x.record alphabet state s targets = .error halt) :
    (∀ n : Nat, x.states[n]? ≠ some targets) ∧
      ((halt = .returned .stateLimit ∧ x.states.size = identifierCount) ∨
        (halt = .panicked ∧ x.states.size < identifierCount ∧
          ¬ TableFits alphabet (x.states.size + 1))) := by
  unfold record at h
  simp only at h
  split at h
  · cases h
  · next hn =>
    refine ⟨number?_eq_none_iff.mp hn, ?_⟩
    split at h
    · next hlt =>
      split at h
      · cases h
      · next hfits => exact .inr ⟨(Except.error.inj h).symm, hlt, hfits⟩
    · next hge =>
      exact .inl ⟨(Except.error.inj h).symm, Nat.le_antisymm x.size_le (Nat.le_of_not_lt hge)⟩

theorem cell_lt {n size c : Nat} (hn : n < size) (hc : c < alphabet) :
    n * alphabet + c < size * alphabet := by
  calc n * alphabet + c < n * alphabet + alphabet := Nat.add_lt_add_left hc _
    _ = (n + 1) * alphabet := (Nat.succ_mul n alphabet).symm
    _ ≤ size * alphabet := Nat.mul_le_mul_right alphabet hn

theorem cell_inj {n m c d : Nat} (hc : c < alphabet) (hd : d < alphabet)
    (h : n * alphabet + c = m * alphabet + d) : n = m ∧ c = d := by
  have hpos : 0 < alphabet := Nat.zero_lt_of_lt hc
  have hn : n = m := by
    have := congrArg (· / alphabet) h
    simpa [Nat.mul_comm _ alphabet, Nat.mul_add_div hpos, Nat.div_eq_of_lt hc,
      Nat.div_eq_of_lt hd] using this
  subst hn
  exact ⟨rfl, Nat.add_left_cancel h⟩

theorem states_record {n : Nat} (h : x.record alphabet state s targets = .ok y)
    (hn : x.states[n]? = some set) : y.states[n]? = some set := by
  rcases record_eq_ok h with ⟨_, -, hstates, -⟩ | ⟨-, -, hstates, -⟩
  · rw [hstates, hn]
  · obtain ⟨hlt, -⟩ := Array.getElem?_eq_some_iff.mp hn
    rw [hstates, Array.getElem?_push_lt hlt, ← hn, Array.getElem?_eq_getElem hlt]

theorem states_expand {n : Nat} {moves : List (Symbol × PositionSet)}
    (h : x.expand alphabet state moves = .ok y) (hn : x.states[n]? = some set) :
    y.states[n]? = some set :=
  expand_induction (p := fun x => x.states[n]? = some set) hn (fun _ _ hn h => states_record h hn) h

theorem tableFits_record (hx : TableFits alphabet x.states.size)
    (h : x.record alphabet state s targets = .ok y) : TableFits alphabet y.states.size := by
  rcases record_eq_ok h with ⟨_, -, hstates, -⟩ | ⟨-, hfits, hstates, -⟩
  · rwa [hstates]
  · rwa [hstates, Array.size_push]

theorem tableFits_expand {moves : List (Symbol × PositionSet)}
    (hx : TableFits alphabet x.states.size) (h : x.expand alphabet state moves = .ok y) :
    TableFits alphabet y.states.size :=
  expand_induction (p := fun x => TableFits alphabet x.states.size) hx
    (fun _ _ hx h => tableFits_record hx h) h

theorem states_of_record {n : Nat} (h : x.record alphabet state s targets = .ok y)
    (hn : y.states[n]? = some set) :
    x.states[n]? = some set ∨ (n = x.states.size ∧ set = targets) := by
  rcases record_eq_ok h with ⟨_, -, hstates, -⟩ | ⟨-, -, hstates, -⟩
  · exact .inl (hstates ▸ hn)
  · rw [hstates, Array.getElem?_push] at hn
    split at hn
    · next hlast => exact .inr ⟨hlast, (Option.some.inj hn).symm⟩
    · exact .inl hn

theorem leads_record (hx : x.Shaped alphabet) (hstate : state < x.states.size)
    (hs : s.toNat < alphabet) (h : x.record alphabet state s targets = .ok y) :
    y.Leads alphabet state s targets := by
  have hcell : state * alphabet + s.toNat < x.table.size := by
    rw [hx]
    exact cell_lt hstate hs
  rcases record_eq_ok h with ⟨n, hn, hstates, htable⟩ | ⟨-, -, hstates, htable⟩
  · refine ⟨n, ?_, hstates ▸ hn⟩
    rw [htable, Array.getElem?_setIfInBounds_self_of_lt hcell]
  · refine ⟨x.states.size, ?_, ?_⟩
    · rw [htable, Array.getElem?_setIfInBounds_self_of_lt]
      rw [Array.size_append]
      omega
    · rw [hstates, Array.getElem?_push_size]

theorem Leads.record {n : Nat} {c : Symbol} (hc : c.toNat < alphabet) (hs : s.toNat < alphabet)
    (hne : ¬ (n = state ∧ c = s)) (hlead : x.Leads alphabet n c set)
    (h : x.record alphabet state s targets = .ok y) : y.Leads alphabet n c set := by
  obtain ⟨m, hm, hset⟩ := hlead
  refine ⟨m, ?_, states_record h hset⟩
  have hcell : state * alphabet + s.toNat ≠ n * alphabet + c.toNat := by
    intro heq
    obtain ⟨hn, hcs⟩ := cell_inj hs hc heq
    exact hne ⟨hn.symm, UInt32.toNat_inj.mp hcs.symm⟩
  rcases record_eq_ok h with ⟨_, -, -, htable⟩ | ⟨-, -, -, htable⟩
  · rw [htable, Array.getElem?_setIfInBounds_ne hcell, hm]
  · obtain ⟨hlt, -⟩ := Array.getElem?_eq_some_iff.mp hm
    rw [htable, Array.getElem?_setIfInBounds_ne hcell, Array.getElem?_append_left hlt, hm]

theorem leads_record_new {c : Symbol} (hx : x.Shaped alphabet) (hstate : state < x.states.size)
    (hc : c.toNat < alphabet) (hs : s.toNat < alphabet) (hfailed : x.states[failed]? = some ∅)
    (hnew : y.states[x.states.size]? = some targets)
    (h : x.record alphabet state s targets = .ok y) :
    y.Leads alphabet x.states.size c ∅ := by
  refine ⟨failed, ?_, states_record h hfailed⟩
  rcases record_eq_ok h with ⟨_, -, hstates, -⟩ | ⟨-, -, -, htable⟩
  · rw [hstates, Array.getElem?_eq_none (Nat.le_refl _)] at hnew
    cases hnew
  · have hcell : state * alphabet + s.toNat ≠ x.states.size * alphabet + c.toNat := by
      intro heq
      have := (cell_inj hs hc heq).1
      omega
    rw [htable, Array.getElem?_setIfInBounds_ne hcell, ← hx,
      Array.getElem?_append_right (Nat.le_add_right _ _), Nat.add_sub_cancel_left,
      Array.getElem?_replicate, if_pos hc]

namespace Sound

theorem start (hfirst : ps.first ≠ ∅) (h : Exploration.start alphabet ps.first = .ok x) :
    x.Sound ps alphabet (fun n _ => n < initial) := by
  obtain ⟨-, hstates, htable⟩ := start_eq_ok h
  have hfailed : x.states[failed]? = some ∅ := by rw [hstates]; rfl
  have hinitial : x.states[initial]? = some ps.first := by rw [hstates]; rfl
  have hblank : ∀ n s, n < 2 → s.toNat < alphabet → x.Leads alphabet n s ∅ := by
    intro n s hn hs
    refine ⟨failed, ?_, hfailed⟩
    rw [htable, Array.getElem?_replicate, if_pos (cell_lt hn hs)]
  refine ⟨shaped_start h, hfailed, hinitial, ?_, ?_, ?_⟩
  · rintro (_ | _ | n) hn
    · rfl
    · exact absurd (Option.some.inj (hinitial.symm.trans hn)) hfirst
    · simp [hstates] at hn
  · intro n set s hset hs hn
    obtain rfl : n = failed := Nat.lt_one_iff.mp hn
    obtain rfl : ∅ = set := Option.some.inj (hfailed.symm.trans hset)
    exact hblank failed s (by decide) hs
  · intro n set s hset hs _
    obtain ⟨hn, -⟩ := Array.getElem?_eq_some_iff.mp hset
    rw [hstates] at hn
    exact hblank n s hn hs

/-- A cell may count as written or not if its symbol leads nowhere. -/
theorem congr {other : Nat → Symbol → Prop} (hx : x.Sound ps alphabet written)
    (h : ∀ (n : Nat) set s, x.states[n]? = some set →
      (written n s ↔ other n s) ∨ ps.after set s = ∅) :
    x.Sound ps alphabet other := by
  refine ⟨hx.shaped, hx.states_failed, hx.states_initial, hx.eq_failed, ?_, ?_⟩
  · intro n set s hset hs ho
    rcases h n set s hset with hiff | hempty
    · exact hx.entry n set s hset hs (hiff.mpr ho)
    · by_cases hw : written n s
      · exact hx.entry n set s hset hs hw
      · exact hempty ▸ hx.blank n set s hset hs hw
  · intro n set s hset hs ho
    rcases h n set s hset with hiff | hempty
    · exact hx.blank n set s hset hs fun hw => ho (hiff.mp hw)
    · by_cases hw : written n s
      · exact hempty ▸ hx.entry n set s hset hs hw
      · exact hx.blank n set s hset hs hw

theorem record (hx : x.Sound ps alphabet written) (hset : x.states[state]? = some set)
    (hs : s.toNat < alphabet) (hne : ps.after set s ≠ ∅)
    (hopen : ∀ n c, state < n → ¬ written n c)
    (h : x.record alphabet state s (ps.after set s) = .ok y) :
    y.Sound ps alphabet (fun n c => written n c ∨ (n = state ∧ c = s)) := by
  obtain ⟨hstate, -⟩ := Array.getElem?_eq_some_iff.mp hset
  refine ⟨hx.shaped.record h, states_record h hx.states_failed, states_record h hx.states_initial,
    ?_, ?_, ?_⟩
  · intro n hn
    rcases states_of_record h hn with hn | ⟨-, hempty⟩
    · exact hx.eq_failed n hn
    · exact absurd hempty.symm hne
  · intro n other c hother hc hw
    by_cases hcell : n = state ∧ c = s
    · obtain ⟨rfl, rfl⟩ := hcell
      obtain rfl : set = other := Option.some.inj ((states_record h hset).symm.trans hother)
      exact leads_record hx.shaped hstate hs h
    · -- No cell in the row of a new state is written yet.
      rcases states_of_record h hother with hold | ⟨rfl, -⟩
      · exact (hx.entry n other c hold hc (hw.resolve_right hcell)).record hc hs hcell h
      · exact absurd (hw.resolve_right hcell) (hopen _ c hstate)
  · intro n other c hother hc hw
    rcases states_of_record h hother with hold | ⟨rfl, rfl⟩
    · exact (hx.blank n other c hold hc fun hn => hw (.inl hn)).record hc hs
        (fun hcell => hw (.inr hcell)) h
    · exact leads_record_new hx.shaped hstate hc hs hx.states_failed hother h

/-- Recording moves one after the other adds their cells to the written ones. -/
theorem expand {moves : List (Symbol × PositionSet)} (hx : x.Sound ps alphabet written)
    (hset : x.states[state]? = some set)
    (hmoves : ∀ m ∈ moves, m.1.toNat < alphabet ∧ m.2 = ps.after set m.1 ∧ m.2 ≠ ∅)
    (hopen : ∀ n c, state < n → ¬ written n c)
    (h : x.expand alphabet state moves = .ok y) :
    y.Sound ps alphabet (fun n c => written n c ∨ (n = state ∧ c ∈ moves.map Prod.fst)) := by
  induction moves generalizing x written with
  | nil =>
    obtain rfl := Except.ok.inj h
    exact hx.congr fun n _ c _ => .inl (by simp)
  | cons move rest ih =>
    rw [List.forall_mem_cons] at hmoves
    obtain ⟨⟨hs, htargets, hne⟩, hrest⟩ := hmoves
    unfold Exploration.expand at h
    split at h
    · next next hrecord =>
      rw [htargets] at hrecord hne
      have hnext := hx.record hset hs hne hopen hrecord
      refine (ih hnext (states_record hrecord hset) hrest ?_ h).congr fun n _ c _ => .inl ?_
      · rintro n c hn (hw | ⟨rfl, -⟩)
        · exact hopen n c hn hw
        · exact Nat.lt_irrefl n hn
      · rw [List.map_cons, List.mem_cons, or_assoc, ← and_or_left]
    · cases h

/-- Expanding a state completes its row, since its moves are all symbols that lead somewhere. -/
theorem expand_moves (hx : x.Sound ps alphabet (fun n _ => n < state))
    (hsymbols : ∀ p s, ps.symbol? p = some s → s.toNat < alphabet)
    (hset : x.states[state]? = some set)
    (h : x.expand alphabet state (ps.moves set) = .ok y) :
    y.Sound ps alphabet (fun n _ => n < state + 1) := by
  have hmoves : ∀ m ∈ ps.moves set, m.1.toNat < alphabet ∧ m.2 = ps.after set m.1 ∧ m.2 ≠ ∅ := by
    rintro ⟨s, targets⟩ hm
    obtain ⟨rfl, hne⟩ := Positions.mem_moves.mp hm
    obtain ⟨q, hq⟩ := Positions.exists_mem_of_ne_empty hne
    obtain ⟨p, -, hp, -⟩ := Positions.mem_after.mp hq
    exact ⟨hsymbols p s hp, rfl, hne⟩
  refine (hx.expand hset hmoves (fun n _ hn => Nat.lt_asymm hn) h).congr fun n other c hother => ?_
  by_cases hn : n = state
  · obtain rfl : set = other :=
      Option.some.inj ((states_expand h hset).symm.trans (hn ▸ hother))
    by_cases hempty : ps.after set c = ∅
    · exact .inr hempty
    · have hc : c ∈ (ps.moves set).map Prod.fst :=
        List.mem_map.mpr ⟨(c, ps.after set c), Positions.mem_moves.mpr ⟨rfl, hempty⟩, rfl⟩
      exact .inl (iff_of_true (.inr ⟨hn, hc⟩) (by omega))
  · refine .inl ⟨?_, fun hlt => .inl (by omega)⟩
    rintro (hlt | ⟨heq, -⟩)
    · exact Nat.lt_succ_of_lt hlt
    · exact absurd heq hn

theorem expandFrom (hx : x.Sound ps alphabet (fun n _ => n < state))
    (hsymbols : ∀ p s, ps.symbol? p = some s → s.toNat < alphabet)
    (h : x.expandFrom ps alphabet state = .ok y) :
    y.Sound ps alphabet (fun _ _ => True) := by
  fun_induction Exploration.expandFrom ps alphabet x state with
  | case1 x state hlt next hnext ih =>
    exact ih (hx.expand_moves hsymbols (Array.getElem?_eq_getElem hlt) hnext) h
  | case2 => cases h
  | case3 x state hge =>
    obtain rfl := Except.ok.inj h
    refine hx.congr fun n set _ hset => .inl (iff_of_true ?_ trivial)
    obtain ⟨hlt, -⟩ := Array.getElem?_eq_some_iff.mp hset
    omega

end Sound

theorem tableFits_start {first : PositionSet} (h : start alphabet first = .ok x) :
    TableFits alphabet x.states.size := by
  obtain ⟨hfits, hstates, -⟩ := start_eq_ok h
  rwa [hstates]

/-- The table of a finished exploration has room for all its rows. -/
theorem tableFits_ofPositions (h : ofPositions ps alphabet = .ok x) :
    TableFits alphabet x.states.size := by
  obtain ⟨y, hstart, h⟩ := bind_eq_ok.mp h
  exact expandFrom_induction (p := fun x => TableFits alphabet x.states.size)
    (tableFits_start hstart) (fun _ hx h => tableFits_expand hx h) h

/-- The cells of a finished exploration all lead where their symbols lead. -/
theorem sound_ofPositions (hfirst : ps.first ≠ ∅)
    (hsymbols : ∀ p s, ps.symbol? p = some s → s.toNat < alphabet)
    (h : ofPositions ps alphabet = .ok x) : x.Sound ps alphabet (fun _ _ => True) := by
  obtain ⟨y, hstart, h⟩ := bind_eq_ok.mp h
  exact (Sound.start hfirst hstart).expandFrom hsymbols h

end RunGrammar.Exploration
