import RunGrammar.Proofs.Discovery
import Mathlib.Data.Set.Function

/-! The numbers of the states. They say nothing but the order in which the rows of the table meet
the states. So two automata whose states correspond one to one, step by step, number them alike,
and they are equal if states that correspond accept alike and carry the same tags. -/
namespace RunGrammar

namespace Automaton

variable {a b : Automaton} {pairs : Nat → Nat → Prop} {n m : Nat} {s : Symbol}

/-- Whether the numbers behind the initial one appear in ascending order when the rows are read
one after the other, each number first in the row of a smaller one. -/
def NumberedInOrder (a : Automaton) : Prop :=
  ∀ n, initial < n → n < a.stateCount → ∃ source s, source < n ∧
    a.transition? source s = some n ∧
    ∀ m c k, m < source ∨ (m = source ∧ c < s) → a.transition? m c = some k → k < n

/-- What is common to the automata that explorations yield. -/
structure Canonical (a : Automaton) : Prop where
  initial_lt : initial < a.stateCount
  size_transitions : a.transitions.size = a.stateCount * a.alphabet
  size_tags : a.tags.size = a.stateCount
  exists_transition : ∀ (n : Nat) (s : Symbol), n < a.stateCount → s.toNat < a.alphabet →
    ∃ m < a.stateCount, a.transition? n s = some m
  /-- In columns that belong to no symbol there is nothing but the failed state. -/
  column : ∀ (cell n : Nat), a.transitions[cell]? = some n → n ≠ failed →
    ∃ source, ∃ s : Symbol, source < a.stateCount ∧ s.toNat < a.alphabet ∧
      cell = source * a.alphabet + s.toNat
  failed_row : ∀ s n, a.transition? failed s = some n → n = failed
  numberedInOrder : a.NumberedInOrder

theorem transition?_eq_some_iff :
    a.transition? n s = some m ↔
      s.toNat < a.alphabet ∧ a.transitions[n * a.alphabet + s.toNat]? = some m := by
  unfold transition?
  split
  · next h => exact (and_iff_right h).symm
  · next h => exact iff_of_false nofun fun h' => h h'.1

/-! ## Automata whose states correspond -/

/-- A one-to-one correspondence between states that every step keeps. -/
structure Pairing (a b : Automaton) (pairs : Nat → Nat → Prop) : Prop where
  alphabet : a.alphabet = b.alphabet
  lt : ∀ {n m}, pairs n m → n < a.stateCount ∧ m < b.stateCount
  pairs_failed : pairs failed failed
  pairs_initial : pairs initial initial
  right_unique : ∀ {n m m'}, pairs n m → pairs n m' → m = m'
  left_unique : ∀ {n n' m}, pairs n m → pairs n' m → n = n'
  step : ∀ {n m s}, pairs n m → s.toNat < a.alphabet → ∃ n' m',
    a.transition? n s = some n' ∧ b.transition? m s = some m' ∧ pairs n' m'

theorem Pairing.flip (hp : Pairing a b pairs) : Pairing b a fun m n => pairs n m where
  alphabet := hp.alphabet.symm
  lt h := (hp.lt h).symm
  pairs_failed := hp.pairs_failed
  pairs_initial := hp.pairs_initial
  right_unique := hp.left_unique
  left_unique := hp.right_unique
  step h hs := by
    obtain ⟨n', m', hn, hm, h'⟩ := hp.step h (hp.alphabet ▸ hs)
    exact ⟨m', n', hm, hn, h'⟩

/-- While all smaller numbers are paired with themselves, a cell of their rows that holds `n` in
one table holds no smaller number in the other one. -/
theorem Pairing.exists_le (hp : Pairing a b pairs) {source : Nat}
    (hsmaller : ∀ k < n, pairs k k) (hsource : source < n) (hs : a.transition? source s = some n) :
    ∃ m, b.transition? source s = some m ∧ pairs n m ∧ n ≤ m := by
  obtain ⟨n', m, hn', hm, hnm⟩ :=
    hp.step (hsmaller source hsource) (transition?_eq_some_iff.mp hs).1
  obtain rfl : n = n' := Option.some.inj (hs.symm.trans hn')
  refine ⟨m, hm, hnm, Nat.le_of_not_lt fun hlt => ?_⟩
  exact absurd (hp.left_unique hnm (hsmaller m hlt)) (Nat.ne_of_gt hlt)

theorem cell_trichotomy (n : Nat) (s : Symbol) (m : Nat) (c : Symbol) :
    (n < m ∨ n = m ∧ s < c) ∨ (n = m ∧ s = c) ∨ (m < n ∨ m = n ∧ c < s) := by
  rw [UInt32.lt_iff_toNat_lt, UInt32.lt_iff_toNat_lt, ← UInt32.toNat_inj]
  omega

/-- A number that is met first in the same cell of both tables is paired with itself. Otherwise the
earlier one of the two cells would hold a number in the other table that is met there too early. -/
theorem Pairing.self (hp : Pairing a b pairs) (ha : a.NumberedInOrder) (hb : b.NumberedInOrder) :
    ∀ n < a.stateCount, pairs n n := by
  intro n
  induction n using Nat.strongRecOn with
  | ind n ih =>
    intro hn
    have hsmaller : ∀ k < n, pairs k k := fun k hk => ih k hk (Nat.lt_trans hk hn)
    by_cases hinitial : initial < n
    · obtain ⟨source, s, hsource, hs, hfirst⟩ := ha n hinitial hn
      obtain ⟨m, hm, hnm, hle⟩ := hp.exists_le hsmaller hsource hs
      obtain ⟨source', c, hsource', hc, hfirst'⟩ :=
        hb n hinitial (Nat.lt_of_le_of_lt hle (hp.lt hnm).2)
      obtain ⟨k, hk, -, hle'⟩ := hp.flip.exists_le hsmaller hsource' hc
      rcases cell_trichotomy source s source' c with h | ⟨rfl, rfl⟩ | h
      · exact absurd (hfirst' source s m h hm) (Nat.not_lt.mpr hle)
      · obtain rfl := Option.some.inj (hm.symm.trans hc)
        exact hnm
      · exact absurd (hfirst source' c k h hk) (Nat.not_lt.mpr hle')
    · rcases Nat.le_one_iff_eq_zero_or_eq_one.mp (Nat.le_of_not_lt hinitial) with rfl | rfl
      · exact hp.pairs_failed
      · exact hp.pairs_initial

theorem Pairing.stateCount_eq (hp : Pairing a b pairs) (ha : a.NumberedInOrder)
    (hb : b.NumberedInOrder) : a.stateCount = b.stateCount := by
  apply Nat.le_antisymm
  · exact Nat.le_of_not_lt fun hlt => Nat.lt_irrefl _ (hp.lt (hp.self ha hb _ hlt)).2
  · exact Nat.le_of_not_lt fun hlt => Nat.lt_irrefl _ (hp.lt (hp.flip.self hb ha _ hlt)).1

theorem Pairing.transition?_eq (hp : Pairing a b pairs) (ha : a.NumberedInOrder)
    (hb : b.NumberedInOrder) (hn : n < a.stateCount) (hs : s.toNat < a.alphabet) :
    a.transition? n s = b.transition? n s := by
  obtain ⟨n', m', hn', hm', h⟩ := hp.step (hp.self ha hb n hn) hs
  have hself := hp.self ha hb n' (hp.lt h).1
  rw [hn', hm', hp.right_unique h hself]

/-- Tables with the same transitions are equal, since they differ in no other column either. -/
theorem Canonical.transitions_eq (ha : a.Canonical) (hb : b.Canonical)
    (halphabet : a.alphabet = b.alphabet) (hcount : a.stateCount = b.stateCount)
    (h : ∀ n s, n < a.stateCount → s.toNat < a.alphabet →
      a.transition? n s = b.transition? n s) : a.transitions = b.transitions := by
  have hcell : ∀ source (s : Symbol), source < a.stateCount → s.toNat < a.alphabet →
      a.transitions[source * a.alphabet + s.toNat]? =
        b.transitions[source * a.alphabet + s.toNat]? := by
    intro source s hsource hs
    have := h source s hsource hs
    rwa [transition?, transition?, ← halphabet, if_pos hs, if_pos hs] at this
  have hsize : a.transitions.size = b.transitions.size := by
    rw [ha.size_transitions, hb.size_transitions, hcount, halphabet]
  refine Array.ext hsize fun cell hlt hlt' => ?_
  by_cases hfailed : a.transitions[cell] = failed ∧ b.transitions[cell] = failed
  · rw [hfailed.1, hfailed.2]
  obtain ⟨source, s, hsource, hs, rfl⟩ : ∃ source, ∃ s : Symbol,
      source < a.stateCount ∧ s.toNat < a.alphabet ∧ cell = source * a.alphabet + s.toNat := by
    rcases not_and_or.mp hfailed with hne | hne
    · exact ha.column cell _ (Array.getElem?_eq_getElem hlt) hne
    · rw [halphabet, hcount]
      exact hb.column cell _ (Array.getElem?_eq_getElem hlt') hne
  have := hcell source s hsource hs
  rwa [Array.getElem?_eq_getElem hlt, Array.getElem?_eq_getElem hlt', Option.some_inj] at this

theorem Canonical.eq_of_pairing (ha : a.Canonical) (hb : b.Canonical) (hp : Pairing a b pairs)
    (hsymbols : a.symbols = b.symbols)
    (haccept : ∀ n m, pairs n m → a.isAccepting n = b.isAccepting m)
    (htags : ∀ n m, pairs n m → a.tags? n = b.tags? m) : a = b := by
  have hself := hp.self ha.numberedInOrder hb.numberedInOrder
  have hcount := hp.stateCount_eq ha.numberedInOrder hb.numberedInOrder
  have htransitions := ha.transitions_eq hb hp.alphabet hcount fun n s hn hs =>
    hp.transition?_eq ha.numberedInOrder hb.numberedInOrder hn hs
  have haccepting : a.accepting = b.accepting := by
    refine Array.ext hcount fun n hn hn' => ?_
    have := haccept n n (hself n hn)
    rwa [isAccepting, isAccepting, Array.getElem?_eq_getElem hn,
      Array.getElem?_eq_getElem hn'] at this
  have htags : a.tags = b.tags := by
    have hsize : a.tags.size = b.tags.size := by rw [ha.size_tags, hb.size_tags, hcount]
    refine Array.ext hsize fun n hn hn' => ?_
    have := htags n n (hself n (ha.size_tags ▸ hn))
    rwa [tags?, tags?, Array.getElem?_eq_getElem hn, Array.getElem?_eq_getElem hn',
      Option.some_inj] at this
  obtain ⟨alphabet, transitions, accepting, tags, symbols⟩ := a
  obtain ⟨alphabet', transitions', accepting', tags', symbols'⟩ := b
  obtain rfl : alphabet = alphabet' := hp.alphabet
  obtain rfl : transitions = transitions' := htransitions
  obtain rfl : accepting = accepting' := haccepting
  obtain rfl : tags = tags' := htags
  obtain rfl : symbols = symbols' := hsymbols
  rfl

/-- Every state but the failed one is reached, since the row it is first met in belongs to a smaller
state that is. -/
theorem Canonical.exists_word (ha : a.Canonical) (hn : n < a.stateCount) (hne : n ≠ failed) :
    ∃ w : List Symbol, w.foldlM a.transition? initial = some n := by
  induction n using Nat.strongRecOn with
  | ind n ih =>
    by_cases hinitial : initial < n
    · obtain ⟨source, s, hsource, hs, -⟩ := ha.numberedInOrder n hinitial hn
      have hreached : source ≠ failed := by
        rintro rfl
        exact hne (ha.failed_row s n hs)
      obtain ⟨w, hw⟩ := ih source hsource (Nat.lt_trans hsource hn) hreached
      exact ⟨w ++ [s], by simp [hw, hs]⟩
    · obtain rfl : n = initial :=
        Nat.le_antisymm (Nat.le_of_not_lt hinitial) (Nat.pos_of_ne_zero hne)
      exact ⟨[], rfl⟩

/-- A bijection between the states of two automata that leaves the failed and the initial state in
place and keeps the transitions, the accepting states and the tags. -/
structure Isomorphism (a b : Automaton) (f : Nat → Nat) : Prop where
  bijOn : Set.BijOn f {n | n < a.stateCount} {n | n < b.stateCount}
  map_failed : f failed = failed
  map_initial : f initial = initial
  map_transition : ∀ n s, n < a.stateCount → b.transition? (f n) s = (a.transition? n s).map f
  isAccepting_eq : ∀ n < a.stateCount, b.isAccepting (f n) = a.isAccepting n
  tags_eq : ∀ n < a.stateCount, b.tags? (f n) = a.tags? n

theorem Isomorphism.refl (a : Automaton) : Isomorphism a a id where
  bijOn := Set.bijOn_id _
  map_failed := rfl
  map_initial := rfl
  map_transition _ _ _ := (Option.map_id_apply).symm
  isAccepting_eq _ _ := rfl
  tags_eq _ _ := rfl

theorem Isomorphism.pairing {f : Nat → Nat} (hf : Isomorphism a b f) (ha : a.Canonical)
    (halphabet : a.alphabet = b.alphabet) :
    Pairing a b fun n m => n < a.stateCount ∧ f n = m where
  alphabet := halphabet
  lt := by
    rintro n _ ⟨hn, rfl⟩
    exact ⟨hn, hf.bijOn.mapsTo hn⟩
  pairs_failed := ⟨Nat.zero_lt_of_lt ha.initial_lt, hf.map_failed⟩
  pairs_initial := ⟨ha.initial_lt, hf.map_initial⟩
  right_unique h h' := h.2.symm.trans h'.2
  left_unique := by
    rintro n n' _ ⟨hn, rfl⟩ ⟨hn', heq⟩
    exact (hf.bijOn.injOn hn' hn heq).symm
  step := by
    rintro n _ s ⟨hn, rfl⟩ hs
    obtain ⟨m, hlt, hm⟩ := ha.exists_transition n s hn hs
    exact ⟨m, f m, hm, by rw [hf.map_transition n s hn, hm, Option.map_some], hlt, rfl⟩

theorem Isomorphism.eq {f : Nat → Nat} (hf : Isomorphism a b f) (ha : a.Canonical)
    (hb : b.Canonical) (halphabet : a.alphabet = b.alphabet) (hsymbols : a.symbols = b.symbols) :
    a = b := by
  refine ha.eq_of_pairing hb (hf.pairing ha halphabet) hsymbols ?_ ?_
  · rintro n _ ⟨hn, rfl⟩
    exact (hf.isAccepting_eq n hn).symm
  · rintro n _ ⟨hn, rfl⟩
    exact (hf.tags_eq n hn).symm

end Automaton

/-! ## Compiled automata -/

theorem Automaton.stateCount_ofExploration (ps : Positions) (alphabet : Nat) (x : Exploration)
    (symbols : Std.ExtTreeMap String Symbol) :
    (ofExploration ps alphabet x symbols).stateCount = x.states.size := Array.size_map

namespace Exploration

variable {ps : Positions} {x : Exploration} {alphabet : Nat}

theorem IsSubsetAutomaton.exists_transition? {n : Nat} {s : Symbol} {set : PositionSet}
    (hx : x.IsSubsetAutomaton ps alphabet) (symbols : Std.ExtTreeMap String Symbol)
    (hn : x.states[n]? = some set) (hs : s.toNat < alphabet) :
    ∃ m : Nat, (Automaton.ofExploration ps alphabet x symbols).transition? n s = some m ∧
      x.states[m]? = some (ps.after set s) := by
  obtain ⟨m, targets, hm, htargets, hunion, -⟩ := hx.cell n set s.toNat hn hs
  obtain rfl := hunion.unique (ps.union_after set s)
  exact ⟨m, Automaton.transition?_eq_some_iff.mpr ⟨hs, hm⟩, htargets⟩

/-- An entry other than the failed state stands in the column of a symbol. -/
theorem IsSubsetAutomaton.exists_symbol {n code m : Nat} (hx : x.IsSubsetAutomaton ps alphabet)
    (hn : n < x.states.size) (hcode : code < alphabet)
    (hm : x.table[n * alphabet + code]? = some m) (hne : m ≠ failed) :
    ∃ s : Symbol, s.toNat = code := by
  obtain ⟨m', targets, hm', -, hunion, hiff⟩ :=
    hx.cell n _ code (Array.getElem?_eq_getElem hn) hcode
  obtain rfl : m = m' := Option.some.inj (hm.symm.trans hm')
  obtain ⟨-, s, -, hs, -⟩ := hunion.exists_symbol (mt hiff.mpr hne)
  exact ⟨s, hs⟩

theorem IsSubsetAutomaton.canonical (hx : x.IsSubsetAutomaton ps alphabet)
    (symbols : Std.ExtTreeMap String Symbol) :
    (Automaton.ofExploration ps alphabet x symbols).Canonical := by
  have hcount := Automaton.stateCount_ofExploration ps alphabet x symbols
  constructor
  case initial_lt =>
    rw [hcount]
    exact (Array.getElem?_eq_some_iff.mp hx.states_initial).1
  case size_transitions =>
    rw [hcount]
    exact hx.size_table
  case size_tags => rw [hcount]; exact Array.size_map
  case exists_transition =>
    intro n s hn hs
    rw [hcount] at hn ⊢
    obtain ⟨m, hm, hset⟩ := hx.exists_transition? symbols (Array.getElem?_eq_getElem hn) hs
    exact ⟨m, (Array.getElem?_eq_some_iff.mp hset).1, hm⟩
  case column =>
    intro cell m hm hne
    have hlt : cell < x.states.size * alphabet :=
      hx.size_table ▸ (Array.getElem?_eq_some_iff.mp hm).1
    have hpos : 0 < alphabet := Nat.pos_of_ne_zero fun h => by simp [h] at hlt
    have hcell : cell = cell / alphabet * alphabet + cell % alphabet := by
      rw [Nat.mul_comm]
      exact (Nat.div_add_mod cell alphabet).symm
    have hsource : cell / alphabet < x.states.size := Nat.div_lt_of_lt_mul (Nat.mul_comm _ _ ▸ hlt)
    have hcode := Nat.mod_lt cell hpos
    obtain ⟨s, hs⟩ := hx.exists_symbol hsource hcode (hcell ▸ hm) hne
    refine ⟨cell / alphabet, s, hcount ▸ hsource, hs ▸ hcode, ?_⟩
    rw [hs]
    exact hcell
  case failed_row =>
    intro s m hm
    obtain ⟨m', hm', hset⟩ := hx.exists_transition? symbols hx.states_failed
      (Automaton.transition?_eq_some_iff.mp hm).1
    obtain rfl : m = m' := Option.some.inj (hm.symm.trans hm')
    rw [ps.after_empty] at hset
    exact hx.injective m failed ∅ hset hx.states_failed
  case numberedInOrder =>
    intro n hn hlt
    rw [hcount] at hlt
    obtain ⟨source, code, hsource, hcode, hentry, hsmaller⟩ := hx.discovered n hn hlt
    obtain ⟨s, rfl⟩ := hx.exists_symbol (Nat.lt_trans hsource hlt) hcode hentry
      (Nat.ne_of_gt (Nat.lt_trans Nat.zero_lt_one hn))
    refine ⟨source, s, hsource, Automaton.transition?_eq_some_iff.mpr ⟨hcode, hentry⟩, ?_⟩
    intro m c k hbefore hk
    obtain ⟨hc, hcell⟩ := Automaton.transition?_eq_some_iff.mp hk
    refine hsmaller (m * alphabet + c.toNat) ?_ k hcell
    rcases hbefore with hrow | ⟨rfl, hlt⟩
    · exact Nat.lt_of_lt_of_le (cell_lt hrow hc) (Nat.le_add_right _ _)
    · exact Nat.add_lt_add_left (UInt32.lt_iff_toNat_lt.mp hlt) _

end Exploration

section

variable {h : Host} {statements : List Statement} {a : Automaton}

theorem canonical_of_compile (ha : h.compile statements = .ok a) : a.Canonical := by
  obtain ⟨e, b, x, -, -, hclosed, hsymbols, hx, hax⟩ := Host.exists_exploration_of_compile ha
  rw [hax]
  exact (Exploration.isSubsetAutomaton_of_ofPositions (Expr.first_positions_ne_empty hclosed)
    (Expr.symbol_lt_of_symbol? hsymbols) hx).canonical b.symbols

/-- In a compiled automaton every state but the failed one is reached, and the numbers are those
that reading the rows gives. So automata with the same alphabet and the same symbols are equal if
they are isomorphic, whatever rules they come from. -/
theorem eq_of_isomorphism (ha : h.compile statements = .ok a) :
    (∀ n < a.stateCount, n ≠ failed →
      ∃ w : List Symbol, w.foldlM a.transition? initial = some n) ∧
    a.NumberedInOrder ∧
    ∀ (h' : Host) (statements' : List Statement) (b : Automaton) (f : Nat → Nat),
      h'.compile statements' = .ok b → a.alphabet = b.alphabet → a.symbols = b.symbols →
      a.Isomorphism b f → a = b := by
  have hcanonical := canonical_of_compile ha
  refine ⟨fun n hn hne => hcanonical.exists_word hn hne, hcanonical.numberedInOrder, ?_⟩
  intro h' statements' b f hb halphabet hsymbols hf
  exact hf.eq hcanonical (canonical_of_compile hb) halphabet hsymbols

/-- The sample rules with the repeated part written twice. -/
def doubledRules : List Statement := [
  .assign "a" (.lit 0),
  .assign "b" (.lit 1),
  .assign "syllable" (.cat (.ref "a") (.rep (.cat (.tag "coda") (.ref "b")) .opt)),
  .assign entryRule (.rep (.alt (.ref "syllable") (.ref "syllable")) .plus)]

theorem eq_doubledRules :
    ∃ a b, ({} : Host).compile sampleRules = .ok a ∧ ({} : Host).compile doubledRules = .ok b ∧
      a.Isomorphism b id ∧ a = b ∧ 3 < a.stateCount ∧
      (∃ w : List Symbol, w.foldlM a.transition? initial = some 3) ∧
      a.NumberedInOrder := by
  obtain ⟨a, ha, -, hcount⟩ := compile_sampleRules (fun a => 3 < a.stateCount) (by decide +kernel)
  have hb : ({} : Host).compile doubledRules = .ok a := by
    rw [← ha]
    decide +kernel
  obtain ⟨hword, horder, heq⟩ := eq_of_isomorphism ha
  have hrefl := Automaton.Isomorphism.refl a
  exact ⟨a, a, ha, hb, hrefl, heq _ _ a id hb rfl rfl hrefl, hcount,
    hword 3 hcount (by decide), horder⟩

end

end RunGrammar
