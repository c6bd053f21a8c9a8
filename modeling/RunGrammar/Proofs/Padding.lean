import RunGrammar.Proofs.Rewriting
import RunGrammar.Proofs.Scanning

/-! Alphabets with more room than a grammar needs. The construction finds the same states in the
same order whatever the size of the alphabet, and only the places of their rows in the table
move. So more room leaves the moves with the old symbols as they are, as long as an array can hold
the longer rows. The new symbols stand in no rule, and they all lead to the failed state. -/
namespace RunGrammar

namespace Exploration

variable {ps : Positions} {x x' y y' : Exploration} {alphabet alphabet' state : Nat}

/-! Two explorations of the same positions go on in lock step: with the same states before a record
they have the same states after it. -/

theorem states_eq_record {s : Symbol} {targets : PositionSet} (hx : x.states = x'.states)
    (h : x.record alphabet state s targets = .ok y)
    (h' : x'.record alphabet' state s targets = .ok y') : y.states = y'.states := by
  rcases record_eq_ok h with ⟨n, hn, hstates, -⟩ | ⟨hfresh, -, hstates, -⟩ <;>
    rcases record_eq_ok h' with ⟨m, hm, hstates', -⟩ | ⟨hfresh', -, hstates', -⟩
  · rw [hstates, hstates', hx]
  · exact absurd (hx ▸ hn) (hfresh' n)
  · exact absurd (hx ▸ hm) (hfresh m)
  · rw [hstates, hstates', hx]

theorem states_eq_expand {moves : List (Symbol × PositionSet)} (hx : x.states = x'.states)
    (h : x.expand alphabet state moves = .ok y) (h' : x'.expand alphabet' state moves = .ok y') :
    y.states = y'.states := by
  induction moves generalizing x x' with
  | nil => rw [← Except.ok.inj h, ← Except.ok.inj h', hx]
  | cons move rest ih =>
    unfold expand at h h'
    split at h
    case h_2 => cases h
    next next hrecord =>
    split at h'
    case h_2 => cases h'
    next next' hrecord' => exact ih (states_eq_record hx hrecord hrecord') h h'

theorem states_eq_expandFrom (hx : x.states = x'.states)
    (h : x.expandFrom ps alphabet state = .ok y) (h' : x'.expandFrom ps alphabet' state = .ok y') :
    y.states = y'.states := by
  fun_induction Exploration.expandFrom ps alphabet x state generalizing x' with
  | case1 x state hlt next hnext ih =>
    have hlt' : state < x'.states.size := hx ▸ hlt
    have hset : x'.states[state] = x.states[state] := by simp only [hx]
    rw [expandFrom, dif_pos hlt', hset] at h'
    split at h'
    · next next' hnext' => exact ih (states_eq_expand hx hnext hnext') h h'
    · cases h'
  | case2 => cases h
  | case3 x state hge =>
    rw [expandFrom, dif_neg (hx ▸ hge)] at h'
    rw [← Except.ok.inj h, ← Except.ok.inj h', hx]

/-- The states and their order do not depend on the size of the alphabet. -/
theorem states_eq_ofPositions (h : ofPositions ps alphabet = .ok x)
    (h' : ofPositions ps alphabet' = .ok x') : x.states = x'.states := by
  obtain ⟨y, hstart, h⟩ := bind_eq_ok.mp h
  obtain ⟨y', hstart', h'⟩ := bind_eq_ok.mp h'
  refine states_eq_expandFrom ?_ h h'
  rw [(start_eq_ok hstart).2.1, (start_eq_ok hstart').2.1]

section

variable (hne : ps.first ≠ ∅) (hsymbols : ∀ p s, ps.symbol? p = some s → s.toNat < alphabet)
  (hsymbols' : ∀ p s, ps.symbol? p = some s → s.toNat < alphabet')
  (h : ofPositions ps alphabet = .ok x)

include hne hsymbols hsymbols' h

theorem exists_ofPositions_of_tableFits (hfits : TableFits alphabet' x.states.size) :
    ∃ x', ofPositions ps alphabet' = .ok x' ∧ x.states = x'.states := by
  have hcount := encard_reachedSets_of_ofPositions hne hsymbols h
  have hroom : ps.reachedSets.encard ≤ identifierCount ∧
      TableFits alphabet' ps.reachedSets.ncard := by
    rw [Set.ncard, hcount, ENat.toNat_natCast]
    exact ⟨by exact_mod_cast x.size_le, hfits⟩
  obtain ⟨x', h'⟩ := (exists_ofPositions_iff hne hsymbols').mpr hroom
  exact ⟨x', h', states_eq_ofPositions h h'⟩

theorem ofPositions_eq_panicked_of_states (hunfit : ¬ TableFits alphabet' x.states.size) :
    ofPositions ps alphabet' = .error .panicked := by
  have hcount := encard_reachedSets_of_ofPositions hne hsymbols h
  apply ofPositions_eq_panicked hne hsymbols'
  · rw [hcount]
    exact_mod_cast x.size_le
  · rwa [Set.ncard, hcount, ENat.toNat_natCast]

end

end Exploration

namespace Automaton

variable {a b : Automaton} {input : List Symbol}

/-- Whether `b` is `a` with room for more symbols, all of which fail. -/
structure PadsTo (a b : Automaton) : Prop where
  alphabet_le : a.alphabet ≤ b.alphabet
  accepting_eq : b.accepting = a.accepting
  tags_eq : b.tags = a.tags
  symbols_eq : b.symbols = a.symbols
  transition_old : ∀ n < a.stateCount, ∀ s : Symbol, s.toNat < a.alphabet →
    ∃ m < a.stateCount, a.transition? n s = some m ∧ b.transition? n s = some m
  transition_new : ∀ n < a.stateCount, ∀ s : Symbol, a.alphabet ≤ s.toNat →
    s.toNat < b.alphabet → b.transition? n s = some failed

theorem PadsTo.stateAfter_eq (h : a.PadsTo b) {n : Nat} {w : List Symbol} (hn : n < a.stateCount)
    (hw : ∀ s ∈ w, s.toNat < a.alphabet) : b.stateAfter n w = a.stateAfter n w := by
  induction w generalizing n with
  | nil => rfl
  | cons s w ih =>
    rw [List.forall_mem_cons] at hw
    obtain ⟨m, hm, hold, hnew⟩ := h.transition_old n hn s hw.1
    rw [stateAfter, stateAfter, List.foldl_cons, List.foldl_cons, step, step, hold, hnew]
    exact ih hm hw.2

/-- The segments of an input depend on the states over its parts, which accept and carry tags. -/
theorem segments_congr (hstate : ∀ i j, b.stateOver input i j = a.stateOver input i j)
    (haccepting : b.accepting = a.accepting) (htags : b.tags = a.tags) (i : Nat) :
    b.segments input i = a.segments input i := by
  have hstep {i} (hi : i < input.length) : b.step initial input[i] = a.step initial input[i] := by
    rw [← stateOver_first hi, hstate, stateOver_first hi]
  have hend (i) : b.runEnd input i = a.runEnd input i := by simp only [runEnd, hstate]
  have hlast (i j) : b.lastAccepted input i j = a.lastAccepted input i j := by
    simp only [lastAccepted, isAccepting, hstate, haccepting]
  fun_induction segments a input i with
  | case1 i hi hfail ih => rw [segments_of_failed hi ((hstep hi).trans hfail), ih]
  | case2 i hi hne j report ih =>
    rw [segments_of_run hi (hstep hi ▸ hne) (hend i), ih, hlast, hstate]
    simp only [tags?, htags, report, j]
  | case3 i hge => rw [segments_of_ge (Nat.le_of_not_lt hge)]

theorem PadsTo.segments_eq (h : a.PadsTo b) (hinitial : initial < a.stateCount)
    (hin : ∀ s ∈ input, s.toNat < a.alphabet) (i : Nat) :
    b.segments input i = a.segments input i := by
  refine segments_congr (fun i j => ?_) h.accepting_eq h.tags_eq i
  exact h.stateAfter_eq hinitial fun s hs => hin s (mem_of_mem_symbolsBetween hs)

end Automaton

/-- Of two explorations with the same states the one over the greater alphabet pads the other, if
the symbols that are not in both alphabets lead nowhere. -/
theorem Exploration.IsSubsetAutomaton.padsTo {ps : Positions} {x x' : Exploration}
    {alphabet alphabet' : Nat} {symbols : Std.ExtTreeMap String Symbol}
    (hx : x.IsSubsetAutomaton ps alphabet) (hx' : x'.IsSubsetAutomaton ps alphabet')
    (hstates : x.states = x'.states) (hle : alphabet ≤ alphabet')
    (hempty : ∀ s : Symbol, alphabet ≤ s.toNat → ∀ set, ps.after set s = ∅) :
    (Automaton.ofExploration ps alphabet x symbols).PadsTo
      (Automaton.ofExploration ps alphabet' x' symbols) := by
  have hstate (n : Nat) : x'.states[n]? = x.states[n]? := by rw [hstates]
  constructor
  case alphabet_le => exact hle
  case accepting_eq => exact congrArg (Array.map ps.ends) hstates.symm
  case tags_eq => exact congrArg (Array.map ps.tags) hstates.symm
  case symbols_eq => rfl
  case transition_old =>
    intro n hn s hlt
    rw [Automaton.stateCount_ofExploration] at hn ⊢
    have hset := Array.getElem?_eq_getElem hn
    obtain ⟨m, hm, htargets⟩ := hx.exists_transition? symbols hset hlt
    obtain ⟨m', hm', htargets'⟩ :=
      hx'.exists_transition? symbols ((hstate n).trans hset) (Nat.lt_of_lt_of_le hlt hle)
    obtain rfl := hx.injective m m' _ htargets ((hstate m').symm.trans htargets')
    exact ⟨m, (Array.getElem?_eq_some_iff.mp htargets).1, hm, hm'⟩
  case transition_new =>
    intro n hn s hout hlt
    rw [Automaton.stateCount_ofExploration] at hn
    have hset := Array.getElem?_eq_getElem hn
    obtain ⟨m, hm, htargets⟩ := hx'.exists_transition? symbols ((hstate n).trans hset) hlt
    rw [hempty s hout] at htargets
    rw [hm, hx'.injective m failed ∅ htargets hx'.states_failed]

namespace Expr

variable {e : Expr} {alphabet alphabet' : Nat} {symbols : Std.ExtTreeMap String Symbol}
  {a : Automaton}

/-- A symbol of no rule leads nowhere. -/
theorem after_positions_eq_empty (hs : ∀ s, Leaf.symbol s ∈ e.leaves → s.toNat < alphabet)
    {s : Symbol} (hout : alphabet ≤ s.toNat) (set : PositionSet) :
    e.positions.after set s = ∅ := by
  refine Std.ExtTreeSet.eq_empty_iff_forall_not_mem.mpr fun q hq => ?_
  obtain ⟨p, -, hp, -⟩ := Positions.mem_after.mp hq
  exact absurd (symbol_lt_of_symbol? hs p s hp) (Nat.not_lt.mpr hout)

/-- The automaton over a greater alphabet, if there is room for its table. -/
theorem automaton_padsTo (he : e.Closed)
    (hs : ∀ s, Leaf.symbol s ∈ e.leaves → s.toNat < alphabet) (hle : alphabet ≤ alphabet')
    (ha : e.automaton alphabet symbols = .ok a) :
    (Exploration.TableFits alphabet' a.stateCount →
      ∃ b, e.automaton alphabet' symbols = .ok b ∧ b.alphabet = alphabet' ∧ a.PadsTo b) ∧
    (¬ Exploration.TableFits alphabet' a.stateCount →
      e.automaton alphabet' symbols = .error .panicked) := by
  have hs' : ∀ s, Leaf.symbol s ∈ e.leaves → s.toNat < alphabet' :=
    fun s hmem => Nat.lt_of_lt_of_le (hs s hmem) hle
  rw [automaton_eq_ite he hs] at ha
  split at ha
  case isFalse => cases ha
  next hcount =>
  obtain ⟨x, hx, hax⟩ := bind_eq_ok.mp ha
  obtain rfl := Except.ok.inj hax
  have hfirst := first_positions_ne_empty he
  have hsymbols := symbol_lt_of_symbol? hs
  have hsymbols' := symbol_lt_of_symbol? hs'
  rw [automaton_eq_ite he hs', if_pos hcount, subsetAutomaton, Automaton.stateCount_ofExploration]
  constructor
  · intro hfits
    obtain ⟨x', hx', hstates⟩ :=
      Exploration.exists_ofPositions_of_tableFits hfirst hsymbols hsymbols' hx hfits
    have hsubset := Exploration.isSubsetAutomaton_of_ofPositions hfirst hsymbols hx
    have hsubset' := Exploration.isSubsetAutomaton_of_ofPositions hfirst hsymbols' hx'
    exact ⟨.ofExploration e.positions alphabet' x' symbols, bind_eq_ok.mpr ⟨x', hx', rfl⟩, rfl,
      hsubset.padsTo hsubset' hstates hle fun _ => after_positions_eq_empty hs⟩
  · intro hunfit
    rw [Exploration.ofPositions_eq_panicked_of_states hfirst hsymbols hsymbols' hx hunfit]
    rfl

theorem alphabet_automaton (ha : e.automaton alphabet symbols = .ok a) :
    a.alphabet = alphabet := by
  obtain ⟨_, -, ha⟩ := bind_eq_ok.mp ha
  obtain ⟨_, -, ha⟩ := bind_eq_ok.mp ha
  exact Except.ok.inj ha ▸ rfl

end Expr

namespace Host

variable {h : Host} {statements : List Statement} {a : Automaton} {b : Bindings} {m : UInt64}

/-- A compiled automaton is the one of its entry rule. -/
theorem compile_eq_ok_iff_automaton :
    h.compile statements = .ok a ↔ ∃ b e, h.bindings statements = .ok b ∧ b.entry = .ok e ∧
      e.automaton b.alphabet.toNat b.symbols = .ok a := by
  rw [compile, bind_eq_ok]
  refine exists_congr fun b => ?_
  rw [Bindings.build_eq_automaton, bind_eq_ok, exists_and_left]
  simp only [mapError_eq_ok]

/-- A greater least size is reserved in place of the one asked for before. -/
theorem bindings_withMinAlphabet (hm : h.minAlphabet ≤ m) (hb : h.bindings statements = .ok b) :
    (h.withMinAlphabet m).bindings statements = .ok (b.reserve m) := by
  obtain ⟨own, next, hown, hread, rfl⟩ := bindings_eq_ok_iff.mp hb
  refine bindings_eq_ok_iff.mpr ⟨own, next, hown, hread, ?_⟩
  have halphabet : max (max next.alphabet h.minAlphabet) m = max next.alphabet m := by
    rw [UInt64.le_iff_toNat_le] at hm
    rw [← UInt64.toNat_inj, toNat_max, toNat_max, toNat_max]
    omega
  simp only [Bindings.reserve, withMinAlphabet, halphabet]

theorem compile_of_automaton {e : Expr} (hb : h.bindings statements = .ok b)
    (he : b.entry = .ok e) :
    h.compile statements = e.automaton b.alphabet.toNat b.symbols := by
  rw [compile, hb, Except.bind, Bindings.build_eq_automaton, he]
  rfl

end Host

/-- A grammar that compiles does so with more room in the alphabet, as long as there is room for the
table, and its automaton is padded: the states are the same, the old symbols lead where they led,
the new ones fail, and an input without new symbols has the runs that it had. Without room for the
table there is a panic. -/
theorem compile_withMinAlphabet {h : Host} {statements : List Statement} {a : Automaton}
    {m : UInt64} (hm : h.minAlphabet ≤ m) (ha : h.compile statements = .ok a) :
    (Exploration.TableFits (max a.alphabet m.toNat) a.stateCount →
      ∃ b, (h.withMinAlphabet m).compile statements = .ok b ∧
        b.alphabet = max a.alphabet m.toNat ∧ b.stateCount = a.stateCount ∧ a.PadsTo b ∧
        ∀ input : List Symbol, (∀ s ∈ input, s.toNat < a.alphabet) →
          ∃ runs, a.runs input = .ok runs ∧ b.runs input = .ok runs) ∧
    (¬ Exploration.TableFits (max a.alphabet m.toNat) a.stateCount →
      (h.withMinAlphabet m).compile statements = .error .panicked) := by
  obtain ⟨bound, e, hbound, hentry, hautomaton⟩ := Host.compile_eq_ok_iff_automaton.mp ha
  obtain ⟨_, hps, -⟩ := bind_eq_ok.mp hautomaton
  obtain ⟨-, hclosed, hsymbols⟩ := Positions.ofExpr_eq_ok (mapError_eq_ok.mp hps)
  have halphabet := Expr.alphabet_automaton hautomaton
  have hsize : (bound.reserve m).alphabet.toNat = max a.alphabet m.toNat := by
    rw [Bindings.reserve, toNat_max, halphabet]
  have hle : bound.alphabet.toNat ≤ max a.alphabet m.toNat := halphabet ▸ Nat.le_max_left _ _
  have hcompile : (h.withMinAlphabet m).compile statements =
      e.automaton (max a.alphabet m.toNat) bound.symbols := by
    rw [Host.compile_of_automaton (Host.bindings_withMinAlphabet hm hbound) hentry, hsize]
    rfl
  obtain ⟨hpadded, hpanics⟩ := Expr.automaton_padsTo hclosed hsymbols hle hautomaton
  rw [hcompile]
  refine ⟨fun hfits => ?_, hpanics⟩
  obtain ⟨b, hb, hroom, hpads⟩ := hpadded hfits
  refine ⟨b, hb, hroom, congrArg Array.size hpads.accepting_eq, hpads,
    fun input hin => ⟨_, Automaton.runs_eq_segments (isAccepting_failed ha) hin, ?_⟩⟩
  have hin' : ∀ s ∈ input, s.toNat < b.alphabet :=
    fun s hs => Nat.lt_of_lt_of_le (hin s hs) hpads.alphabet_le
  rw [Automaton.runs_eq_segments (isAccepting_failed (hcompile.trans hb)) hin',
    hpads.segments_eq (canonical_of_compile ha).initial_lt hin]

theorem compile_withMinAlphabet_sampleRules :
    ∃ a b, ({} : Host).compile sampleRules = .ok a ∧
      (({} : Host).withMinAlphabet 4).compile sampleRules = .ok b ∧
      a.alphabet = 2 ∧ b.alphabet = 4 ∧ b.stateCount = 4 ∧ b.transition? 3 2 = some failed ∧
      b.runs [1, 0, 1, 1, 0] = .ok [⟨1, 2, ∅⟩, ⟨4, 4, {"coda"}⟩] := by
  obtain ⟨a, ha, halphabet, hcount, hruns⟩ := compile_sampleRules
    (fun a => a.stateCount = 4 ∧
      a.runs [1, 0, 1, 1, 0] = .ok [⟨1, 2, ∅⟩, ⟨4, 4, {"coda"}⟩]) (by decide +kernel)
  obtain ⟨b, hb, hroom, hsame, hpads, hinputs⟩ :=
    (compile_withMinAlphabet (m := 4) (h := {}) (by decide) ha).1
      (by rw [halphabet, hcount]; decide +kernel)
  have hin : ∀ s ∈ [(1 : Symbol), 0, 1, 1, 0], s.toNat < a.alphabet := by simp [halphabet]
  obtain ⟨runs, hold, hnew⟩ := hinputs _ hin
  have hfour : b.alphabet = 4 := by rw [hroom, halphabet]; decide
  refine ⟨a, b, ha, hb, halphabet, hfour, hsame.trans hcount, ?_, ?_⟩
  · exact hpads.transition_new 3 (by rw [hcount]; decide) 2 (by rw [halphabet]; decide)
      (by rw [hfour]; decide)
  · rw [hnew, ← hold, hruns]

/-- The sample rules compile, and with the largest alphabet there is no room for their table. -/
theorem compile_withMinAlphabet_largest :
    (∃ a, ({} : Host).compile sampleRules = .ok a ∧ a.alphabet = 2) ∧
      (({} : Host).withMinAlphabet 18446744073709551615).compile sampleRules =
        .error .panicked := by
  obtain ⟨a, ha, halphabet, -⟩ := compile_sampleRules (fun _ => True) (by decide +kernel)
  exact ⟨⟨a, ha, halphabet⟩, by decide +kernel⟩

end RunGrammar
