import RunGrammar.Proofs.PositionSets
import RunGrammar.Proofs.StateTable
import Mathlib.Data.Set.Card

/-! The sets of the states. No two states have the same set, so an exploration finds at most as
many states as there are sets that words lead to. It runs out of numbers only if there are more
sets than numbers, and out of room only if a table with a row for each set is too large. -/
namespace RunGrammar

/-- The empty set and the sets of positions that words lead to. -/
def Positions.reachedSets (ps : Positions) : Set PositionSet :=
  {set | set = ∅ ∨ ∃ w, set = ps.afterWord w}

theorem Positions.after_empty (ps : Positions) (s : Symbol) : ps.after ∅ s = ∅ := by
  refine Std.ExtTreeSet.eq_empty_iff_forall_not_mem.mpr fun q hq => ?_
  obtain ⟨p, hp, -⟩ := mem_after.mp hq
  exact Std.ExtTreeSet.not_mem_empty hp

theorem Positions.after_mem_reachedSets {ps : Positions} {set : PositionSet} (s : Symbol)
    (h : set ∈ ps.reachedSets) : ps.after set s ∈ ps.reachedSets := by
  rcases h with rfl | ⟨w, rfl⟩
  · exact .inl (ps.after_empty s)
  · exact .inr ⟨w ++ [s], by rw [afterWord, afterWord, List.foldl_concat]⟩

/-- Sets of positions are subsets of the leaves and the end mark. -/
theorem Expr.encard_reachedSets_le (e : Expr) :
    e.positions.reachedSets.encard ≤ (2 ^ (e.leaves.length + 1) : Nat) := by
  let members (set : PositionSet) : Finset Nat := set.toList.toFinset
  have hmem : ∀ set p, p ∈ members set ↔ p ∈ set := fun set p => by
    rw [List.mem_toFinset, Std.ExtTreeSet.mem_toList]
  have hinj : Set.InjOn members e.positions.reachedSets := by
    intro a _ b _ hab
    refine Std.ExtTreeSet.ext_mem fun p => ?_
    rw [← hmem, ← hmem, hab]
  have hmaps : Set.MapsTo members e.positions.reachedSets
      (Finset.range (e.leaves.length + 1)).powerset := by
    intro set hset
    refine Finset.mem_coe.mpr (Finset.mem_powerset.mpr fun p hp => Finset.mem_range.mpr ?_)
    rw [hmem] at hp
    rcases hset with rfl | ⟨w, rfl⟩
    · exact absurd hp Std.ExtTreeSet.not_mem_empty
    · obtain ⟨l, hl⟩ := exists_leaf?_of_mem_afterWord hp
      obtain ⟨hlt, -⟩ := Array.getElem?_eq_some_iff.mp hl
      have hsize := Fragment.size_leaves_ofExpr 0 (cat e .endMark)
      rw [leaves, List.length_append] at hsize
      exact hsize ▸ hlt
  have hle := Set.encard_le_encard_of_injOn hmaps hinj
  rwa [Set.encard_coe_eq_coe_finsetCard, Finset.card_powerset, Finset.card_range] at hle

theorem Expr.ncard_reachedSets_le (e : Expr) :
    e.positions.reachedSets.ncard ≤ 2 ^ (e.leaves.length + 1) :=
  ENat.toNat_le_of_le_natCast e.encard_reachedSets_le

/-- How an exploration of so many sets comes to an early end: there are more of them than numbers,
or there is no room for the row of one that still has a number. -/
def Shortage (alphabet : Nat) (count : ℕ∞) (halt : Halt CompileError) : Prop :=
  (halt = .returned .stateLimit ∧ identifierCount < count ∧
    Exploration.TableFits alphabet identifierCount) ∨
  (halt = .panicked ∧ ∃ rows : Nat, rows ≤ identifierCount ∧ rows ≤ count ∧
    ¬ Exploration.TableFits alphabet rows)

/-- The number of sets and the size of the alphabet decide which end it is. -/
theorem Shortage.unique {alphabet : Nat} {count : ℕ∞} {halt other : Halt CompileError}
    (h : Shortage alphabet count halt) (h' : Shortage alphabet count other) : halt = other := by
  rcases h with ⟨rfl, -, hfits⟩ | ⟨rfl, rows, hrows, -, hunfit⟩ <;>
    rcases h' with ⟨rfl, -, hfits'⟩ | ⟨rfl, rows', hrows', -, hunfit'⟩
  · rfl
  · exact absurd (hfits.mono hrows') hunfit'
  · exact absurd (hfits'.mono hrows) hunfit
  · rfl

theorem not_shortage {alphabet count : Nat} {halt : Halt CompileError}
    (hcount : count ≤ identifierCount) (hfits : Exploration.TableFits alphabet count) :
    ¬ Shortage alphabet count halt := by
  rintro (⟨-, hlt, -⟩ | ⟨-, rows, -, hle, hunfit⟩)
  · exact Nat.not_lt.mpr hcount (by exact_mod_cast hlt)
  · exact hunfit (hfits.mono (by exact_mod_cast hle))

namespace Exploration

variable {ps : Positions} {x y : Exploration} {alphabet state : Nat} {s : Symbol}
  {targets : PositionSet} {found : Set PositionSet} {moves : List (Symbol × PositionSet)}
  {halt : Halt CompileError}

/-- Whether the states have different sets, each of them one of those in `found`. -/
structure Distinct (found : Set PositionSet) (x : Exploration) : Prop where
  nodup : x.states.toList.Nodup
  subset : ∀ set ∈ x.states, set ∈ found

theorem length_le_encard {sets : List PositionSet} (hnodup : sets.Nodup)
    (hsub : ∀ set ∈ sets, set ∈ found) : sets.length ≤ found.encard := by
  have hle : {set | set ∈ sets}.encard ≤ found.encard := Set.encard_le_encard hsub
  rwa [← List.coe_toFinset, Set.encard_coe_eq_coe_finsetCard,
    List.toFinset_card_of_nodup hnodup] at hle

theorem Distinct.start (hempty : ∅ ∈ found) (hfirst : ps.first ∈ found) (hne : ps.first ≠ ∅)
    (h : Exploration.start alphabet ps.first = .ok x) : x.Distinct found := by
  obtain ⟨-, hstates, -⟩ := start_eq_ok h
  refine ⟨?_, ?_⟩
  · simp [hstates, hne.symm]
  · simp [hstates, hempty, hfirst]

theorem start_eq_error (hempty : ∅ ∈ found) (hfirst : ps.first ∈ found) (hne : ps.first ≠ ∅)
    (h : Exploration.start alphabet ps.first = .error halt) :
    Shortage alphabet found.encard halt := by
  unfold Exploration.start at h
  split at h
  · cases h
  · next hunfit =>
    have hnodup : [∅, ps.first].Nodup := by simp [hne.symm]
    have hsub : ∀ set ∈ [∅, ps.first], set ∈ found := by simp [hempty, hfirst]
    exact .inr ⟨(Except.error.inj h).symm, 2, by decide, length_le_encard hnodup hsub, hunfit⟩

theorem Distinct.nodup_push (hx : x.Distinct found)
    (hfresh : ∀ n : Nat, x.states[n]? ≠ some targets) :
    (x.states.push targets).toList.Nodup := by
  rw [Array.toList_push, List.nodup_append]
  refine ⟨hx.nodup, List.nodup_singleton _, fun set hset other hother heq => ?_⟩
  obtain ⟨n, hn⟩ := List.mem_iff_getElem?.mp hset
  rw [List.mem_singleton.mp hother] at heq
  exact hfresh n (by rw [← Array.getElem?_toList, hn, heq])

theorem Distinct.subset_push (hx : x.Distinct found) (htargets : targets ∈ found) :
    ∀ set ∈ x.states.push targets, set ∈ found := by
  intro set hset
  exact (Array.mem_push.mp hset).elim (hx.subset set) fun heq => heq ▸ htargets

theorem Distinct.record (hx : x.Distinct found) (htargets : targets ∈ found)
    (h : x.record alphabet state s targets = .ok y) : y.Distinct found := by
  rcases record_eq_ok h with ⟨_, -, hstates, -⟩ | ⟨hfresh, -, hstates, -⟩
  · exact ⟨hstates ▸ hx.nodup, hstates ▸ hx.subset⟩
  · exact ⟨hstates ▸ hx.nodup_push hfresh, hstates ▸ hx.subset_push htargets⟩

/-- A new state lacks a number or a row only if there are as many sets. -/
theorem Distinct.record_error (hx : x.Distinct found) (hfits : TableFits alphabet x.states.size)
    (htargets : targets ∈ found) (h : x.record alphabet state s targets = .error halt) :
    Shortage alphabet found.encard halt := by
  obtain ⟨hfresh, hend⟩ := record_eq_error h
  have hcount : ((x.states.size + 1 : Nat) : ℕ∞) ≤ found.encard := by
    rw [← Array.size_push targets, ← Array.length_toList]
    refine length_le_encard (hx.nodup_push hfresh) fun set hset => ?_
    exact hx.subset_push htargets set (Array.mem_toList_iff.mp hset)
  rcases hend with ⟨hhalt, hsize⟩ | ⟨hhalt, hsize, hunfit⟩
  · rw [hsize] at hfits hcount
    exact .inl ⟨hhalt, lt_of_lt_of_le (by exact_mod_cast Nat.lt_succ_self _) hcount, hfits⟩
  · exact .inr ⟨hhalt, x.states.size + 1, hsize, hcount, hunfit⟩

theorem Distinct.expand (hx : x.Distinct found) (hmoves : ∀ m ∈ moves, m.2 ∈ found)
    (h : x.expand alphabet state moves = .ok y) : y.Distinct found :=
  expand_induction hx (fun m hm hx h => hx.record (hmoves m hm) h) h

theorem Distinct.expand_error (hx : x.Distinct found) (hfits : TableFits alphabet x.states.size)
    (hmoves : ∀ m ∈ moves, m.2 ∈ found) (h : x.expand alphabet state moves = .error halt) :
    Shortage alphabet found.encard halt := by
  induction moves generalizing x with
  | nil => cases h
  | cons move rest ih =>
    rw [List.forall_mem_cons] at hmoves
    unfold Exploration.expand at h
    split at h
    · next hrecord =>
      exact ih (hx.record hmoves.1 hrecord) (tableFits_record hfits hrecord) hmoves.2 h
    · next hrecord =>
      obtain rfl := Except.error.inj h
      exact hx.record_error hfits hmoves.1 hrecord

theorem moves_subset (hafter : ∀ {set} s, set ∈ found → ps.after set s ∈ found)
    {set : PositionSet} (hset : set ∈ found) : ∀ m ∈ ps.moves set, m.2 ∈ found := by
  rintro ⟨s, targets⟩ hm
  obtain ⟨rfl, -⟩ := Positions.mem_moves.mp hm
  exact hafter s hset

theorem Distinct.expandFrom (hx : x.Distinct found)
    (hafter : ∀ {set} s, set ∈ found → ps.after set s ∈ found)
    (h : x.expandFrom ps alphabet state = .ok y) : y.Distinct found :=
  expandFrom_induction hx (fun hset hx h =>
    hx.expand (moves_subset hafter (hx.subset _ (Array.mem_of_getElem? hset))) h) h

theorem Distinct.expandFrom_error (hx : x.Distinct found) (hfits : TableFits alphabet x.states.size)
    (hafter : ∀ {set} s, set ∈ found → ps.after set s ∈ found)
    (h : x.expandFrom ps alphabet state = .error halt) : Shortage alphabet found.encard halt := by
  fun_induction Exploration.expandFrom ps alphabet x state with
  | case1 x state hlt next hnext ih =>
    refine ih (hx.expand (moves_subset hafter (hx.subset _ (Array.getElem_mem hlt))) hnext) ?_ h
    exact tableFits_expand hfits hnext
  | case2 x state hlt halt' herror =>
    obtain rfl := Except.error.inj h
    exact hx.expand_error hfits (moves_subset hafter (hx.subset _ (Array.getElem_mem hlt))) herror
  | case3 => cases h

theorem distinct_ofPositions (hne : ps.first ≠ ∅) (h : ofPositions ps alphabet = .ok x) :
    x.Distinct ps.reachedSets := by
  obtain ⟨y, hstart, h⟩ := bind_eq_ok.mp h
  exact (Distinct.start (.inl rfl) (.inr ⟨[], rfl⟩) hne hstart).expandFrom
    Positions.after_mem_reachedSets h

/-- An exploration fails only for lack of numbers or of room. -/
theorem ofPositions_eq_error (hne : ps.first ≠ ∅) (h : ofPositions ps alphabet = .error halt) :
    Shortage alphabet ps.reachedSets.encard halt := by
  rw [ofPositions] at h
  cases hstart : Exploration.start alphabet ps.first with
  | error halt' =>
    rw [hstart] at h
    obtain rfl : halt' = halt := Except.error.inj h
    exact start_eq_error (.inl rfl) (.inr ⟨[], rfl⟩) hne hstart
  | ok y =>
    rw [hstart] at h
    exact (Distinct.start (.inl rfl) (.inr ⟨[], rfl⟩) hne hstart).expandFrom_error
      (tableFits_start hstart) Positions.after_mem_reachedSets h

theorem exists_state_of_mem_reachedSets (hne : ps.first ≠ ∅)
    (hsymbols : ∀ p s, ps.symbol? p = some s → s.toNat < alphabet)
    (h : ofPositions ps alphabet = .ok x) {set : PositionSet} (hset : set ∈ ps.reachedSets) :
    ∃ n : Nat, x.states[n]? = some set := by
  have hx := sound_ofPositions hne hsymbols h
  rcases hset with rfl | ⟨w, rfl⟩
  · exact ⟨failed, hx.states_failed⟩
  · induction w using List.reverseRecOn with
    | nil => exact ⟨initial, hx.states_initial⟩
    | append_singleton w s ih =>
      obtain ⟨n, hn⟩ := ih
      rw [Positions.afterWord, List.foldl_concat, ← Positions.afterWord]
      by_cases hempty : ps.after (ps.afterWord w) s = ∅
      · exact ⟨failed, hempty ▸ hx.states_failed⟩
      · obtain ⟨q, hq⟩ := Positions.exists_mem_of_ne_empty hempty
        obtain ⟨p, -, hp, -⟩ := Positions.mem_after.mp hq
        obtain ⟨m, -, hm⟩ := hx.entry n _ s hn (hsymbols p s hp) trivial
        exact ⟨m, hm⟩

/-- A finished exploration has as many states as there are sets. -/
theorem encard_reachedSets_of_ofPositions (hne : ps.first ≠ ∅)
    (hsymbols : ∀ p s, ps.symbol? p = some s → s.toNat < alphabet)
    (h : ofPositions ps alphabet = .ok x) : ps.reachedSets.encard = x.states.size := by
  have hx := distinct_ofPositions hne h
  have heq : ps.reachedSets = {set | set ∈ x.states.toList} := by
    ext set
    constructor
    · intro hset
      obtain ⟨n, hn⟩ := exists_state_of_mem_reachedSets hne hsymbols h hset
      exact Array.mem_toList_iff.mpr (Array.mem_of_getElem? hn)
    · exact fun hset => hx.subset set (Array.mem_toList_iff.mp hset)
  rw [heq, ← List.coe_toFinset, Set.encard_coe_eq_coe_finsetCard,
    List.toFinset_card_of_nodup hx.nodup, Array.length_toList]

/-- An exploration comes to an end exactly if there are numbers for all sets and there is room for
all rows. -/
theorem exists_ofPositions_iff (hne : ps.first ≠ ∅)
    (hsymbols : ∀ p s, ps.symbol? p = some s → s.toNat < alphabet) :
    (∃ x, ofPositions ps alphabet = .ok x) ↔
      ps.reachedSets.encard ≤ identifierCount ∧ TableFits alphabet ps.reachedSets.ncard := by
  constructor
  · rintro ⟨x, h⟩
    have hcount := encard_reachedSets_of_ofPositions hne hsymbols h
    rw [Set.ncard, hcount, ENat.toNat_natCast]
    exact ⟨by exact_mod_cast x.size_le, tableFits_ofPositions h⟩
  · rintro ⟨hle, hfits⟩
    cases h : ofPositions ps alphabet with
    | ok x => exact ⟨x, rfl⟩
    | error halt =>
      have hfinite : ps.reachedSets.Finite := Set.finite_of_encard_le_coe hle
      have hshort := ofPositions_eq_error hne h
      rw [← hfinite.cast_ncard_eq] at hle hshort
      exact absurd hshort (not_shortage (by exact_mod_cast hle) hfits)

/-- Without room for all rows the exploration panics, unless it runs out of numbers. -/
theorem ofPositions_eq_panicked (hne : ps.first ≠ ∅)
    (hsymbols : ∀ p s, ps.symbol? p = some s → s.toNat < alphabet)
    (hle : ps.reachedSets.encard ≤ identifierCount)
    (hunfit : ¬ TableFits alphabet ps.reachedSets.ncard) :
    ofPositions ps alphabet = .error .panicked := by
  cases h : ofPositions ps alphabet with
  | ok x => exact absurd ((exists_ofPositions_iff hne hsymbols).mp ⟨x, h⟩).2 hunfit
  | error halt =>
    rcases ofPositions_eq_error hne h with ⟨-, hlt, -⟩ | ⟨rfl, -⟩
    · exact absurd hlt (not_lt.mpr hle)
    · rfl

end Exploration

end RunGrammar
