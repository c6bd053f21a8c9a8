import RunGrammar.Host
import RunGrammar.Proofs.PositionSets
import RunGrammar.Proofs.Results
import RunGrammar.Proofs.StateTable

/-! What a successful compilation yields. The entry rule has no references, its symbols lie in
the alphabet, and the states of the automaton stand for the sets of positions that the
words lead to. -/
namespace RunGrammar

variable {ps : Positions} {x : Exploration} {alphabet : Nat} {w : List Symbol} {a : Automaton}
  {h : Host} {statements : List Statement} {e : Expr}

/-- The resolved entry rule of a rule list. -/
def Host.entry (h : Host) (statements : List Statement) : Compiled Expr :=
  (h.bindings statements).bind fun b => b.entry.mapError .returned

/-- Only expressions without references, with symbols in the alphabet, get positions. -/
theorem closed_of_countLeaves {count n : Nat} (hn : countLeaves alphabet count e = .ok n) :
    e.Closed ∧ ∀ s, Leaf.symbol s ∈ e.leaves → s.toNat < alphabet := by
  induction e generalizing count n with
  | lit s =>
    refine ⟨rfl, fun c hc => ?_⟩
    obtain rfl : c = s := Leaf.symbol.inj (List.mem_singleton.mp hc)
    unfold countLeaves at hn
    split at hn
    · assumption
    · cases hn
  | tag _ | endMark =>
    exact ⟨rfl, fun c hc => absurd (List.mem_singleton.mp hc) Leaf.noConfusion⟩
  | ref _ => cases hn
  | alt x y ihx ihy | cat x y ihx ihy =>
    unfold countLeaves at hn
    split at hn
    · next hx =>
      obtain ⟨hcx, hsx⟩ := ihx hx
      obtain ⟨hcy, hsy⟩ := ihy hn
      refine ⟨List.append_eq_nil_iff.mpr ⟨hcx, hcy⟩, fun c hc => ?_⟩
      exact (List.mem_append.mp hc).elim (hsx c) (hsy c)
    · cases hn
  | rep e q ih => exact ih hn

namespace Expr

theorem mem_leaves_of_symbol? {p : Nat} {s : Symbol} (hp : e.positions.symbol? p = some s) :
    Leaf.symbol s ∈ e.leaves := by
  have hleaf : (cat e .endMark).leaves[p]? = some (.symbol s) := by
    rw [Positions.symbol?, positions, Fragment.leaf?_ofFragment, Fragment.leaves_ofExpr,
      List.getElem?_toArray] at hp
    split at hp
    · next hl => rw [hl, Option.some.inj hp]
    · cases hp
  rcases List.mem_append.mp (List.mem_of_getElem? hleaf) with h | h
  · exact h
  · cases List.mem_singleton.mp h

theorem first_positions_ne_empty (he : e.Closed) : e.positions.first ≠ ∅ := by
  have hroot : (cat e .endMark).Closed := closed_cat.mpr ⟨he, rfl⟩
  obtain ⟨p, hp⟩ := Fragment.exists_mem_first hroot 0
  intro hempty
  exact Std.ExtTreeSet.eq_empty_iff_forall_not_mem.mp hempty p hp

end Expr

theorem build_eq (b : Bindings) :
    b.build = (b.entry.mapError .returned).bind fun e =>
      ((Positions.ofExpr b.alphabet.toNat (.cat e .endMark)).mapError .returned).bind fun ps =>
        (Exploration.ofPositions ps b.alphabet.toNat).bind fun x =>
          .ok (.ofExploration ps b.alphabet.toNat x b.symbols) := by
  rw [Bindings.build, Bindings.root]
  cases b.entry <;> rfl

theorem build_eq_ok_iff {b : Bindings} : b.build = .ok a ↔
    ∃ e ps x, b.entry = .ok e ∧ Positions.ofExpr b.alphabet.toNat (.cat e .endMark) = .ok ps ∧
      Exploration.ofPositions ps b.alphabet.toNat = .ok x ∧
      a = .ofExploration ps b.alphabet.toNat x b.symbols := by
  rw [build_eq]
  simp only [bind_eq_ok, mapError_eq_ok, Except.ok.injEq, exists_and_left, eq_comm (a := a)]

theorem Positions.ofExpr_eq_ok (h : Positions.ofExpr alphabet (.cat e .endMark) = .ok ps) :
    ps = e.positions ∧ e.Closed ∧ ∀ s, Leaf.symbol s ∈ e.leaves → s.toNat < alphabet := by
  unfold Positions.ofExpr at h
  cases hn : countLeaves alphabet 0 (.cat e .endMark) with
  | error _ =>
    rw [hn] at h
    cases h
  | ok n =>
    rw [hn] at h
    obtain ⟨hclosed, hsymbols⟩ := closed_of_countLeaves hn
    exact ⟨(Except.ok.inj h).symm, (Expr.closed_cat.mp hclosed).1,
      fun s hs => hsymbols s (List.mem_append_left _ hs)⟩

/-- A compiled automaton comes from an exploration of the positions of its entry rule. -/
theorem Host.exists_exploration_of_compile (ha : h.compile statements = .ok a) :
    ∃ (e : Expr) (b : Bindings) (x : Exploration), h.bindings statements = .ok b ∧
      h.entry statements = .ok e ∧ e.Closed ∧
      (∀ s, Leaf.symbol s ∈ e.leaves → s.toNat < a.alphabet) ∧
      Exploration.ofPositions e.positions a.alphabet = .ok x ∧
      a = .ofExploration e.positions a.alphabet x b.symbols := by
  obtain ⟨b, hb, hbuild⟩ := bind_eq_ok.mp ha
  obtain ⟨e, ps, x, he, hps, hx, rfl⟩ := build_eq_ok_iff.mp hbuild
  obtain ⟨rfl, hclosed, hsymbols⟩ := Positions.ofExpr_eq_ok hps
  exact ⟨e, b, x, hb, bind_eq_ok.mpr ⟨b, hb, mapError_eq_ok.mpr he⟩, hclosed, hsymbols, hx, rfl⟩

/-- A compiled automaton is the subset automaton of its entry rule, which has no references. -/
theorem Host.compile_eq_ok (ha : h.compile statements = .ok a) :
    ∃ (e : Expr) (b : Bindings), h.bindings statements = .ok b ∧ h.entry statements = .ok e ∧
      e.Closed ∧ ∃ x, a = .ofExploration e.positions a.alphabet x b.symbols ∧
        x.Sound e.positions a.alphabet (fun _ _ => True) := by
  obtain ⟨e, b, x, hb, he, hclosed, hsymbols, hx, hax⟩ := exists_exploration_of_compile ha
  refine ⟨e, b, hb, he, hclosed, x, hax, ?_⟩
  refine Exploration.sound_ofPositions (Expr.first_positions_ne_empty hclosed) (fun p s hp => ?_) hx
  exact hsymbols s (Expr.mem_leaves_of_symbol? hp)

namespace Automaton

theorem isAccepting_ofExploration {symbols : Std.ExtTreeMap String Symbol} {n : Nat}
    {set : PositionSet} (hn : x.states[n]? = some set) :
    (ofExploration ps alphabet x symbols).isAccepting n = ps.ends set := by
  change (x.states.map ps.ends)[n]?.getD false = ps.ends set
  rw [Array.getElem?_map, hn]
  rfl

theorem tags?_ofExploration {symbols : Std.ExtTreeMap String Symbol} {n : Nat}
    {set : PositionSet} (hn : x.states[n]? = some set) :
    (ofExploration ps alphabet x symbols).tags? n = some (ps.tags set) := by
  change (x.states.map ps.tags)[n]? = some (ps.tags set)
  rw [Array.getElem?_map, hn]
  rfl

/-- Following the transitions along a word leads to the state of the positions that the word
leads to. -/
theorem foldlM_transition?_ofExploration (symbols : Std.ExtTreeMap String Symbol)
    (hx : x.Sound ps alphabet (fun _ _ => True)) {n : Nat} {set : PositionSet}
    (hn : x.states[n]? = some set) (hw : ∀ s ∈ w, s.toNat < alphabet) :
    ∃ m : Nat, w.foldlM (ofExploration ps alphabet x symbols).transition? n = some m ∧
      x.states[m]? = some (w.foldl ps.after set) := by
  induction w generalizing n set with
  | nil => exact ⟨n, rfl, hn⟩
  | cons s w ih =>
    rw [List.forall_mem_cons] at hw
    obtain ⟨m, hm, hset⟩ := hx.entry n set s hn hw.1 trivial
    have hstep : (ofExploration ps alphabet x symbols).transition? n s = some m := by
      unfold transition?
      rw [if_pos (show s.toNat < (ofExploration ps alphabet x symbols).alphabet from hw.1)]
      exact hm
    rw [List.foldlM_cons, hstep, List.foldl_cons]
    exact ih hset hw.2

theorem stateAfter_of_foldlM {n m : Nat} (h : w.foldlM a.transition? n = some m) :
    a.stateAfter n w = m := by
  induction w generalizing n with
  | nil => exact Option.some.inj h
  | cons s w ih =>
    rw [List.foldlM_cons] at h
    obtain ⟨k, hk, h⟩ := Option.bind_eq_some_iff.mp h
    rw [stateAfter, List.foldl_cons, step, hk]
    exact ih h

end Automaton

/-- The state after a word accepts, carries tags and fails as the set of the positions that the
word leads to does. -/
theorem exists_state_of_compile (ha : h.compile statements = .ok a)
    (he : h.entry statements = .ok e) (hw : ∀ s ∈ w, s.toNat < a.alphabet) :
    e.Closed ∧ ∃ n, w.foldlM a.transition? initial = some n ∧
      a.isAccepting n = e.positions.ends (e.positions.afterWord w) ∧
      a.tags? n = some (e.positions.tags (e.positions.afterWord w)) ∧
      (n = failed ↔ e.positions.afterWord w = ∅) := by
  obtain ⟨e', b, -, he', hclosed, x, hax, hx⟩ := Host.compile_eq_ok ha
  obtain rfl : e = e' := Except.ok.inj (he.symm.trans he')
  obtain ⟨n, hn, hset⟩ :=
    Automaton.foldlM_transition?_ofExploration b.symbols hx hx.states_initial hw
  rw [← hax] at hn
  refine ⟨hclosed, n, hn, ?_, ?_, fun hfail => ?_, fun hempty => hx.eq_failed n (hempty ▸ hset)⟩
  · rw [hax]
    exact Automaton.isAccepting_ofExploration hset
  · rw [hax]
    exact Automaton.tags?_ofExploration hset
  · exact Option.some.inj (hset.symm.trans (hfail ▸ hx.states_failed))

theorem isAccepting_failed (ha : h.compile statements = .ok a) : a.isAccepting failed = false := by
  obtain ⟨e, b, -, -, -, x, hax, hx⟩ := Host.compile_eq_ok ha
  rw [hax]
  exact Automaton.isAccepting_ofExploration hx.states_failed

theorem step_failed (ha : h.compile statements = .ok a) (s : Symbol) :
    a.step failed s = failed := by
  by_cases hs : s.toNat < a.alphabet
  · obtain ⟨e, b, -, -, -, x, hax, hx⟩ := Host.compile_eq_ok ha
    obtain ⟨n, hn, hset⟩ :=
      Automaton.foldlM_transition?_ofExploration (w := [s]) b.symbols hx hx.states_failed (by simpa)
    rw [← hax] at hn
    have := Automaton.stateAfter_of_foldlM hn
    obtain rfl := hx.eq_failed n hset
    exact this
  · rw [Automaton.step, Automaton.transition?, if_neg hs]
    rfl

end RunGrammar
