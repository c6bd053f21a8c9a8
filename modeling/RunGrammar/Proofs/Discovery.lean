import RunGrammar.Proofs.Acceptance
import RunGrammar.Proofs.CompileOutcome

/-! The subset construction as a whole. Its states are the sets of positions that reading symbols
leads to from the first positions, each set once, and the empty set as the failed state. They
are numbered as the rows of the table meet them: a number first stands in the row of an
earlier state, and only smaller numbers stand before it. -/
namespace RunGrammar

namespace Positions

variable {ps : Positions} {set targets : PositionSet} {code : Nat}

/-- Whether `targets` is the union of the positions that may follow those in `set` where the
symbol with this code stands. -/
def Union (ps : Positions) (set : PositionSet) (code : Nat) (targets : PositionSet) : Prop :=
  ∀ q, q ∈ targets ↔ ∃ p ∈ set, ∃ s next, ps.leaf? p = some (.symbol s) ∧ s.toNat = code ∧
    ps.follow? p = some next ∧ q ∈ next

/-- The sets that unions with some position in them lead to from the first positions. -/
inductive Reachable (ps : Positions) : PositionSet → Prop
  | first : Reachable ps ps.first
  | step {set targets : PositionSet} {code : Nat} (h : Reachable ps set)
    (hunion : ps.Union set code targets) (hne : targets ≠ ∅) : Reachable ps targets

theorem union_after (ps : Positions) (set : PositionSet) (s : Symbol) :
    ps.Union set s.toNat (ps.after set s) := by
  intro q
  rw [mem_after]
  constructor
  · rintro ⟨p, hp, hs, next, hnext, hq⟩
    exact ⟨p, hp, s, next, symbol?_eq_some_iff.mp hs, rfl, hnext, hq⟩
  · rintro ⟨p, hp, c, next, hc, hcode, hnext, hq⟩
    obtain rfl := UInt32.toNat_inj.mp hcode
    exact ⟨p, hp, symbol?_eq_some_iff.mpr hc, next, hnext, hq⟩

theorem Union.unique {other : PositionSet} (h : ps.Union set code targets)
    (h' : ps.Union set code other) : targets = other :=
  Std.ExtTreeSet.ext_mem fun q => (h q).trans (h' q).symm

/-- Only the code of a symbol of the set leads to some position. -/
theorem Union.exists_symbol (h : ps.Union set code targets) (hne : targets ≠ ∅) :
    ∃ p s, ps.symbol? p = some s ∧ s.toNat = code ∧ targets = ps.after set s := by
  obtain ⟨q, hq⟩ := exists_mem_of_ne_empty hne
  obtain ⟨p, -, s, -, hs, rfl, -, -⟩ := (h q).mp hq
  exact ⟨p, s, symbol?_eq_some_iff.mpr hs, rfl, h.unique (ps.union_after set s)⟩

theorem Reachable.ne_empty (hfirst : ps.first ≠ ∅) (h : ps.Reachable set) : set ≠ ∅ := by
  cases h with
  | first => exact hfirst
  | step _ _ hne => exact hne

theorem Reachable.exists_afterWord (h : ps.Reachable set) : ∃ w, set = ps.afterWord w := by
  induction h with
  | first => exact ⟨[], rfl⟩
  | step _ hunion hne ih =>
    obtain ⟨w, rfl⟩ := ih
    obtain ⟨-, s, -, -, rfl⟩ := hunion.exists_symbol hne
    exact ⟨w ++ [s], by rw [afterWord, afterWord, List.foldl_concat]⟩

/-- The sets that words lead to are the reachable ones and the empty set. -/
theorem mem_reachedSets_iff : set ∈ ps.reachedSets ↔ set = ∅ ∨ ps.Reachable set := by
  refine ⟨?_, fun h => h.imp_right Reachable.exists_afterWord⟩
  rintro (rfl | ⟨w, rfl⟩)
  · exact .inl rfl
  induction w using List.reverseRecOn with
  | nil => exact .inr .first
  | append_singleton w s ih =>
    rw [afterWord, List.foldl_concat, ← afterWord]
    rcases ih with hempty | h
    · exact .inl (hempty ▸ ps.after_empty s)
    · exact or_iff_not_imp_left.mpr (.step h (ps.union_after _ s))

theorem encard_reachedSets (hfirst : ps.first ≠ ∅) :
    ps.reachedSets.encard = {set | ps.Reachable set}.encard + 1 := by
  have hinsert : ps.reachedSets = insert ∅ {set | ps.Reachable set} :=
    Set.ext fun set => mem_reachedSets_iff
  rw [hinsert, Set.encard_insert_of_notMem fun h => h.ne_empty hfirst rfl]

/-- There are numbers for all sets if there is one more number than there are reachable sets. -/
theorem encard_reachedSets_le_iff (hfirst : ps.first ≠ ∅) {count : Nat} :
    ps.reachedSets.encard ≤ count ↔ {set | ps.Reachable set}.encard < count := by
  rw [encard_reachedSets hfirst, ENat.add_one_le_natCast_iff]

theorem ncard_reachedSets (hfirst : ps.first ≠ ∅)
    (hfinite : {set | ps.Reachable set}.Finite) :
    ps.reachedSets.ncard = {set | ps.Reachable set}.ncard + 1 := by
  rw [Set.ncard, encard_reachedSets hfirst, ← hfinite.cast_ncard_eq]
  exact ENat.toNat_natCast _

end Positions

namespace Exploration

variable {ps : Positions} {x y : Exploration} {alphabet state cursor : Nat} {s : Symbol}
  {set targets : PositionSet} {moves : List (Symbol × PositionSet)}

/-! ## The order of the numbers -/

/-- What holds while the cells before `cursor` have got their entries. -/
structure InOrder (alphabet : Nat) (x : Exploration) (cursor : Nat) : Prop where
  entry_lt : ∀ (cell n : Nat), x.table[cell]? = some n → n < x.states.size
  /-- Alphabets may be larger than there are symbols. -/
  column : ∀ (cell n : Nat), x.table[cell]? = some n → n ≠ failed →
    ∃ source, ∃ s : Symbol, s.toNat < alphabet ∧ cell = source * alphabet + s.toNat
  discovered : ∀ n, initial < n → n < x.states.size → ∃ source, ∃ s : Symbol,
    source < n ∧ s.toNat < alphabet ∧ source * alphabet + s.toNat < cursor ∧
    x.table[source * alphabet + s.toNat]? = some n ∧
    ∀ cell < source * alphabet + s.toNat, ∀ m : Nat, x.table[cell]? = some m → m < n

theorem InOrder.mono {cursor' : Nat} (hx : x.InOrder alphabet cursor) (h : cursor ≤ cursor') :
    x.InOrder alphabet cursor' := by
  refine ⟨hx.entry_lt, hx.column, fun n hn hsize => ?_⟩
  obtain ⟨source, s, hsource, hs, hcursor, hcell⟩ := hx.discovered n hn hsize
  exact ⟨source, s, hsource, hs, Nat.lt_of_lt_of_le hcursor h, hcell⟩

theorem InOrder.start {first : PositionSet} (h : Exploration.start alphabet first = .ok x) :
    x.InOrder alphabet cursor := by
  obtain ⟨-, hstates, htable⟩ := start_eq_ok h
  have hfailed : ∀ (cell n : Nat), x.table[cell]? = some n → n = failed := by
    intro cell n hn
    rw [htable, Array.getElem?_replicate] at hn
    split at hn
    · exact (Option.some.inj hn).symm
    · cases hn
  have hsize : x.states.size = 2 := by rw [hstates]; rfl
  refine ⟨fun cell n hn => ?_, fun cell n hn hne => absurd (hfailed cell n hn) hne, ?_⟩
  · rw [hfailed cell n hn, hsize]
    exact Nat.zero_lt_two
  · intro n hn hlt
    rw [hsize] at hlt
    exact absurd hlt (Nat.not_lt.mpr hn)

/-- A record writes one cell. The others keep their entries, and new ones hold the failed state. -/
theorem table_record {cell n : Nat} (h : x.record alphabet state s targets = .ok y)
    (hne : cell ≠ state * alphabet + s.toNat) :
    y.table[cell]? = some n ↔
      x.table[cell]? = some n ∨
        (n = failed ∧ x.table.size ≤ cell ∧ cell < y.table.size) := by
  rcases record_eq_ok h with ⟨_, -, -, htable⟩ | ⟨-, -, -, htable⟩
  · rw [htable, Array.getElem?_setIfInBounds_ne hne.symm, Array.size_setIfInBounds]
    exact (or_iff_left fun h => absurd h.2.2 (Nat.not_lt.mpr h.2.1)).symm
  · rw [htable, Array.getElem?_setIfInBounds_ne hne.symm, Array.size_setIfInBounds,
      Array.getElem?_append, Array.size_append, Array.size_replicate]
    by_cases hlt : cell < x.table.size
    · rw [if_pos hlt, or_iff_left fun h => absurd hlt (Nat.not_lt.mpr h.2.1)]
    · rw [if_neg hlt, Array.getElem?_replicate, Array.getElem?_eq_none (Nat.le_of_not_lt hlt)]
      grind

theorem size_states_record (h : x.record alphabet state s targets = .ok y) :
    y.states.size = x.states.size ∨
      (y.states.size = x.states.size + 1 ∧
        (state * alphabet + s.toNat < x.table.size →
          y.table[state * alphabet + s.toNat]? = some x.states.size)) := by
  rcases record_eq_ok h with ⟨_, -, hstates, -⟩ | ⟨-, -, hstates, htable⟩
  · exact .inl (by rw [hstates])
  · refine .inr ⟨by rw [hstates, Array.size_push], fun hcell => ?_⟩
    rw [htable, Array.getElem?_setIfInBounds_self_of_lt]
    rw [Array.size_append]
    omega

/-- A record in a cell that no entry stands behind keeps the order: if it gives a new number, this
is the greatest one so far, and its cell is the first one that holds it. -/
theorem InOrder.record (hx : x.InOrder alphabet cursor) (hshaped : x.Shaped alphabet)
    (hstate : state < x.states.size) (hs : s.toNat < alphabet)
    (hcursor : cursor ≤ state * alphabet + s.toNat)
    (h : x.record alphabet state s targets = .ok y) :
    y.InOrder alphabet (state * alphabet + s.toNat + 1) := by
  have hcell : state * alphabet + s.toNat < x.table.size := hshaped ▸ cell_lt hstate hs
  have hsize : x.states.size ≤ y.states.size := by
    rcases size_states_record h with hsize | ⟨hsize, -⟩ <;> omega
  constructor
  case entry_lt =>
    intro cell n hn
    by_cases hne : cell = state * alphabet + s.toNat
    · obtain ⟨m, hm, hset⟩ := leads_record hshaped hstate hs h
      obtain ⟨hlt, -⟩ := Array.getElem?_eq_some_iff.mp hset
      obtain rfl : n = m := Option.some.inj (hn.symm.trans (hne ▸ hm))
      exact hlt
    · rcases (table_record h hne).mp hn with hold | ⟨rfl, -⟩
      · exact Nat.lt_of_lt_of_le (hx.entry_lt cell n hold) hsize
      · exact Nat.lt_of_le_of_lt (Nat.zero_le state) (Nat.lt_of_lt_of_le hstate hsize)
  case column =>
    intro cell n hn hfailed
    by_cases hne : cell = state * alphabet + s.toNat
    · exact ⟨state, s, hs, hne⟩
    · rcases (table_record h hne).mp hn with hold | ⟨hn, -⟩
      · exact hx.column cell n hold hfailed
      · exact absurd hn hfailed
  case discovered =>
    intro n hn hlt
    have hbefore : ∀ cell < state * alphabet + s.toNat, ∀ m : Nat, y.table[cell]? = some m →
        x.table[cell]? = some m := by
      intro cell hcell' m hm
      rcases (table_record h (Nat.ne_of_lt hcell')).mp hm with hold | ⟨-, hge, -⟩
      · exact hold
      · omega
    by_cases hold : n < x.states.size
    · obtain ⟨source, c, hsource, hc, hlt', hentry, hsmaller⟩ := hx.discovered n hn hold
      refine ⟨source, c, hsource, hc, by omega, (table_record h (by omega)).mpr (.inl hentry), ?_⟩
      intro cell hcell' m hm
      exact hsmaller cell hcell' m (hbefore cell (by omega) m hm)
    · rcases size_states_record h with heq | ⟨heq, hentry⟩
      · omega
      · obtain rfl : n = x.states.size := by omega
        refine ⟨state, s, hstate, hs, Nat.lt_succ_self _, hentry hcell, fun cell hcell' m hm => ?_⟩
        exact hx.entry_lt cell m (hbefore cell hcell' m hm)

theorem InOrder.expand (hx : x.InOrder alphabet cursor) (hshaped : x.Shaped alphabet)
    (hstate : state < x.states.size) (hcursor : cursor ≤ (state + 1) * alphabet)
    (hmoves : ∀ m ∈ moves, m.1.toNat < alphabet ∧ cursor ≤ state * alphabet + m.1.toNat)
    (hascending : moves.Pairwise fun a b => a.1 < b.1)
    (h : x.expand alphabet state moves = .ok y) :
    y.InOrder alphabet ((state + 1) * alphabet) := by
  induction moves generalizing x cursor with
  | nil => exact Except.ok.inj h ▸ hx.mono hcursor
  | cons move rest ih =>
    rw [List.forall_mem_cons] at hmoves
    obtain ⟨⟨hs, hle⟩, hrest⟩ := hmoves
    rw [List.pairwise_cons] at hascending
    unfold Exploration.expand at h
    split at h
    · next next hrecord =>
      obtain ⟨hlt, -⟩ := Array.getElem?_eq_some_iff.mp
        (states_record hrecord (Array.getElem?_eq_getElem hstate))
      refine ih (hx.record hshaped hstate hs hle hrecord) (hshaped.record hrecord) hlt ?_ ?_
        hascending.2 h
      · rw [Nat.succ_mul]
        omega
      · intro m hm
        have hlater := UInt32.lt_iff_toNat_lt.mp (hascending.1 m hm)
        exact ⟨(hrest m hm).1, by omega⟩
    · cases h

/-- The rows are written one after the other, and each of them from left to right. -/
theorem InOrder.expandFrom (hx : x.InOrder alphabet (state * alphabet))
    (hshaped : x.Shaped alphabet)
    (hsymbols : ∀ p s, ps.symbol? p = some s → s.toNat < alphabet)
    (h : x.expandFrom ps alphabet state = .ok y) : ∃ cursor, y.InOrder alphabet cursor := by
  fun_induction Exploration.expandFrom ps alphabet x state with
  | case1 x state hlt next hnext ih =>
    refine ih (hx.expand hshaped hlt ?_ ?_ (ps.moves_ascending _) hnext) (hshaped.expand hnext) h
    · exact Nat.mul_le_mul_right alphabet (Nat.le_succ state)
    · rintro ⟨s, targets⟩ hm
      obtain ⟨rfl, hne⟩ := Positions.mem_moves.mp hm
      obtain ⟨p, c, hp, hc, -⟩ := (ps.union_after _ s).exists_symbol hne
      obtain rfl := UInt32.toNat_inj.mp hc
      exact ⟨hsymbols p c hp, Nat.le_add_right _ _⟩
  | case2 => cases h
  | case3 => exact ⟨_, Except.ok.inj h ▸ hx⟩

/-! ## The states and their table -/

/-- What the subset construction has to find for the positions of an expression. -/
structure IsSubsetAutomaton (ps : Positions) (alphabet : Nat) (x : Exploration) : Prop where
  states_failed : x.states[failed]? = some ∅
  states_initial : x.states[initial]? = some ps.first
  reachable_iff : ∀ set, ps.Reachable set ↔ ∃ n, n ≠ failed ∧ x.states[n]? = some set
  injective : ∀ (n m : Nat) set, x.states[n]? = some set → x.states[m]? = some set → n = m
  size_table : x.table.size = x.states.size * alphabet
  /-- Each cell holds the state of the union for its row and column, which is the failed one if
  the union is empty. -/
  cell : ∀ (n : Nat) set code, x.states[n]? = some set → code < alphabet →
    ∃ m targets, x.table[n * alphabet + code]? = some m ∧ x.states[m]? = some targets ∧
      ps.Union set code targets ∧ (m = failed ↔ targets = ∅)
  /-- Every number behind the initial one stands in the row of a smaller one, and only smaller
  numbers stand before that, row by row and from left to right. -/
  discovered : ∀ n, initial < n → n < x.states.size → ∃ source code,
    source < n ∧ code < alphabet ∧ x.table[source * alphabet + code]? = some n ∧
    ∀ cell < source * alphabet + code, ∀ m : Nat, x.table[cell]? = some m → m < n

theorem Sound.exists_cell {cursor : Nat} (hx : x.Sound ps alphabet fun _ _ => True)
    (horder : x.InOrder alphabet cursor) {n code : Nat} (hn : x.states[n]? = some set)
    (hcode : code < alphabet) :
    ∃ m targets, x.table[n * alphabet + code]? = some m ∧ x.states[m]? = some targets ∧
      ps.Union set code targets := by
  by_cases hsymbol : ∃ s : Symbol, s.toNat = code
  · obtain ⟨s, rfl⟩ := hsymbol
    obtain ⟨m, hm, htargets⟩ := hx.entry n set s hn hcode trivial
    exact ⟨m, _, hm, htargets, ps.union_after set s⟩
  · -- No symbol has this code, so the cell was never written.
    obtain ⟨hlt, -⟩ := Array.getElem?_eq_some_iff.mp hn
    have hcell : n * alphabet + code < x.table.size := hx.shaped ▸ cell_lt hlt hcode
    have hfailed : x.table[n * alphabet + code] = failed := by
      by_contra hne
      obtain ⟨source, s, hs, heq⟩ :=
        horder.column _ _ (Array.getElem?_eq_getElem hcell) hne
      exact hsymbol ⟨s, (cell_inj hcode hs heq).2.symm⟩
    refine ⟨failed, ∅, by rw [Array.getElem?_eq_getElem hcell, hfailed], hx.states_failed, ?_⟩
    refine fun q => iff_of_false Std.ExtTreeSet.not_mem_empty ?_
    rintro ⟨p, -, s, next, -, hs, -⟩
    exact hsymbol ⟨s, hs⟩

theorem Distinct.injective {found : Set PositionSet} (hx : x.Distinct found) {n m : Nat}
    (hn : x.states[n]? = some set) (hm : x.states[m]? = some set) : n = m := by
  rw [← Array.getElem?_toList] at hn hm
  obtain ⟨hlt, -⟩ := List.getElem?_eq_some_iff.mp hn
  exact (List.getElem?_inj hlt hx.nodup).mp (hn.trans hm.symm)

theorem isSubsetAutomaton_of_ofPositions (hfirst : ps.first ≠ ∅)
    (hsymbols : ∀ p s, ps.symbol? p = some s → s.toNat < alphabet)
    (h : ofPositions ps alphabet = .ok x) : x.IsSubsetAutomaton ps alphabet := by
  have hsound := sound_ofPositions hfirst hsymbols h
  have hdistinct := distinct_ofPositions hfirst h
  obtain ⟨y, hstart, hexpand⟩ := bind_eq_ok.mp h
  obtain ⟨cursor, horder⟩ :=
    (InOrder.start hstart).expandFrom (shaped_start hstart) hsymbols hexpand
  constructor
  case states_failed => exact hsound.states_failed
  case states_initial => exact hsound.states_initial
  case reachable_iff =>
    intro set
    constructor
    · intro hset
      obtain ⟨n, hn⟩ := exists_state_of_mem_reachedSets hfirst hsymbols h
        (Positions.mem_reachedSets_iff.mpr (.inr hset))
      refine ⟨n, fun hfailed => hset.ne_empty hfirst ?_, hn⟩
      exact Option.some.inj (hn.symm.trans (hfailed ▸ hsound.states_failed))
    · rintro ⟨n, hne, hn⟩
      have hmem := hdistinct.subset set (Array.mem_of_getElem? hn)
      refine (Positions.mem_reachedSets_iff.mp hmem).resolve_left fun hempty => ?_
      exact hne (hsound.eq_failed n (hempty ▸ hn))
  case injective => exact fun n m set => hdistinct.injective
  case size_table => exact hsound.shaped
  case cell =>
    intro n set code hn hcode
    obtain ⟨m, targets, hm, htargets, hunion⟩ := hsound.exists_cell horder hn hcode
    refine ⟨m, targets, hm, htargets, hunion, fun hfailed => ?_, fun hempty => ?_⟩
    · exact Option.some.inj (htargets.symm.trans (hfailed ▸ hsound.states_failed))
    · exact hsound.eq_failed m (hempty ▸ htargets)
  case discovered =>
    intro n hn hlt
    obtain ⟨source, s, hsource, hs, -, hcell⟩ := horder.discovered n hn hlt
    exact ⟨source, s.toNat, hsource, hs, hcell⟩

/-- An exploration comes to an end exactly if there are numbers for all states, the failed one
included, and room for their rows. -/
theorem exists_ofPositions_iff_reachable (hfirst : ps.first ≠ ∅)
    (hsymbols : ∀ p s, ps.symbol? p = some s → s.toNat < alphabet) :
    (∃ x, ofPositions ps alphabet = .ok x) ↔
      {set | ps.Reachable set}.encard < identifierCount ∧
        TableFits alphabet ({set | ps.Reachable set}.ncard + 1) := by
  rw [exists_ofPositions_iff hfirst hsymbols, Positions.encard_reachedSets_le_iff hfirst]
  refine and_congr_right fun hlt => ?_
  rw [Positions.ncard_reachedSets hfirst (Set.finite_of_encard_le_coe hlt.le)]

end Exploration

section Root

variable {e : Expr} {alphabet : Nat}

theorem Expr.symbol_lt_of_symbol? (hs : ∀ s, Leaf.symbol s ∈ e.leaves → s.toNat < alphabet) :
    ∀ p s, e.positions.symbol? p = some s → s.toNat < alphabet :=
  fun _ s hp => hs s (mem_leaves_of_symbol? hp)

theorem Expr.find?_symbols_eq_none (hs : ∀ s, Leaf.symbol s ∈ e.leaves → s.toNat < alphabet) :
    e.symbols.find? (alphabet ≤ ·.toNat) = none := by
  rw [List.find?_eq_none]
  intro s hmem
  obtain ⟨l, hl, hls⟩ := List.mem_filterMap.mp hmem
  cases l with
  | symbol c =>
    obtain rfl := Option.some.inj hls
    simpa using hs c hl
  | tag _ | endMark => cases hls

/-- An expression with all its symbols in the alphabet has its positions as long as there are
numbers for its leaves. -/
theorem Positions.ofExpr_of_symbol_lt (he : e.Closed)
    (hs : ∀ s, Leaf.symbol s ∈ e.leaves → s.toNat < alphabet) :
    Positions.ofExpr alphabet e =
      if e.leaves.length ≤ identifierCount then .ok (.ofFragment (.ofExpr 0 e))
      else .error .positionLimit := by
  have hinside := Expr.find?_symbols_eq_none hs
  split
  · next hcount =>
    rw [Positions.ofExpr, countLeaves_of_find?_eq_none he (by omega) hinside]
    rfl
  · next hcount =>
    rw [Positions.ofExpr, countLeaves_of_identifierCount_lt he (Nat.zero_le _) (by omega) hinside]
    rfl

/-- The positions of an entry rule with all its symbols in the alphabet. One number is for the end
mark. -/
theorem Positions.ofExpr_eq_ite (he : e.Closed)
    (hs : ∀ s, Leaf.symbol s ∈ e.leaves → s.toNat < alphabet) :
    Positions.ofExpr alphabet (.cat e .endMark) =
      if e.leaves.length < identifierCount then .ok e.positions else .error .positionLimit := by
  have hroot : (Expr.cat e .endMark).Closed := Expr.closed_cat.mpr ⟨he, rfl⟩
  have hlength : (Expr.cat e .endMark).leaves.length = e.leaves.length + 1 := List.length_append
  have hsroot : ∀ s, Leaf.symbol s ∈ (Expr.cat e .endMark).leaves → s.toNat < alphabet := by
    intro s h
    exact hs s (by simpa [Expr.leaves] using h)
  rw [Positions.ofExpr_of_symbol_lt hroot hsroot, hlength]
  rfl

/-- With numbers for its states, the exploration of an expression comes to an end if there is room
for their rows, and finds the subset automaton. A state accepts if its set has an end mark in it,
and its tags are those of its set. Without room for the rows there is a panic. -/
theorem exists_subsetAutomaton (he : e.Closed)
    (hs : ∀ s, Leaf.symbol s ∈ e.leaves → s.toNat < alphabet)
    (hlimit : {set | e.positions.Reachable set}.encard < identifierCount) :
    (e.leaves.length < identifierCount →
      Positions.ofExpr alphabet (.cat e .endMark) = .ok e.positions) ∧
    (Exploration.TableFits alphabet ({set | e.positions.Reachable set}.ncard + 1) →
      ∃ x, Exploration.ofPositions e.positions alphabet = .ok x ∧
        x.IsSubsetAutomaton e.positions alphabet ∧
        ∀ symbols, ∀ n : Nat, ∀ set, x.states[n]? = some set →
          ((Automaton.ofExploration e.positions alphabet x symbols).isAccepting n = true ↔
            ∃ p ∈ set, e.positions.leaf? p = some .endMark) ∧
          ∃ names, (Automaton.ofExploration e.positions alphabet x symbols).tags? n = some names ∧
            ∀ name, name ∈ names ↔ ∃ p ∈ set, e.positions.leaf? p = some (.tag name)) ∧
    (¬ Exploration.TableFits alphabet ({set | e.positions.Reachable set}.ncard + 1) →
      Exploration.ofPositions e.positions alphabet = .error .panicked) := by
  have hfirst := Expr.first_positions_ne_empty he
  have hsymbols := Expr.symbol_lt_of_symbol? hs
  have hpositions (hcount : e.leaves.length < identifierCount) :
      Positions.ofExpr alphabet (.cat e .endMark) = .ok e.positions := by
    rw [Positions.ofExpr_eq_ite he hs, if_pos hcount]
  refine ⟨hpositions, fun hfits => ?_, fun hunfit => ?_⟩
  · obtain ⟨x, hx⟩ :=
      (Exploration.exists_ofPositions_iff_reachable hfirst hsymbols).mpr ⟨hlimit, hfits⟩
    refine ⟨x, hx, Exploration.isSubsetAutomaton_of_ofPositions hfirst hsymbols hx,
      fun symbols n set hn => ?_⟩
    rw [Automaton.isAccepting_ofExploration hn, Automaton.tags?_ofExploration hn]
    refine ⟨Positions.ends_eq_true_iff, _, rfl, fun name => ?_⟩
    simp only [Positions.mem_tags, Positions.tag?_eq_some_iff]
  · refine Exploration.ofPositions_eq_panicked hfirst hsymbols
      ((Positions.encard_reachedSets_le_iff hfirst).mpr hlimit) ?_
    rwa [Positions.ncard_reachedSets hfirst (Set.finite_of_encard_le_coe hlimit.le)]

theorem Expr.encard_reachable_lt (he : e.Closed) (hle : e.leaves.length < 32) :
    {set | e.positions.Reachable set}.encard < identifierCount := by
  have hcount : 2 ^ (e.leaves.length + 1) ≤ identifierCount :=
    Nat.pow_le_pow_right (by decide) hle
  rw [← Positions.encard_reachedSets_le_iff (first_positions_ne_empty he)]
  exact e.encard_reachedSets_le.trans (by exact_mod_cast hcount)

theorem Expr.tableFits_reachable (he : e.Closed) (hle : e.leaves.length < 32)
    (hfits : Exploration.TableFits alphabet (2 ^ (e.leaves.length + 1))) :
    Exploration.TableFits alphabet ({set | e.positions.Reachable set}.ncard + 1) := by
  rw [← Positions.ncard_reachedSets (first_positions_ne_empty he)
    (Set.finite_of_encard_le_coe (encard_reachable_lt he hle).le)]
  exact hfits.mono e.ncard_reachedSets_le

theorem symbol_lt_of_mem_sampleEntry : ∀ s, Leaf.symbol s ∈ sampleEntry.leaves → s.toNat < 2 := by
  intro s hs
  simp only [sampleEntry, Expr.leaves, List.cons_append, List.nil_append, List.mem_cons,
    List.not_mem_nil, Leaf.symbol.injEq, reduceCtorEq, false_or, or_false] at hs
  rcases hs with rfl | rfl <;> decide

theorem subsetAutomaton_sampleEntry :
    ∃ x, Positions.ofExpr 2 (.cat sampleEntry .endMark) = .ok sampleEntry.positions ∧
      Exploration.ofPositions sampleEntry.positions 2 = .ok x ∧
      x.IsSubsetAutomaton sampleEntry.positions 2 ∧ x.table = #[0, 0, 2, 0, 2, 3, 2, 0] := by
  have he : sampleEntry.Closed := by decide
  obtain ⟨hpositions, hfinds, -⟩ :=
    exists_subsetAutomaton he symbol_lt_of_mem_sampleEntry (Expr.encard_reachable_lt he (by decide))
  obtain ⟨x, hx, hsubset, -⟩ :=
    hfinds (Expr.tableFits_reachable he (by decide) (by decide +kernel))
  have htable : (Exploration.ofPositions sampleEntry.positions 2).map (·.table) =
    .ok #[0, 0, 2, 0, 2, 3, 2, 0] := by decide +kernel
  rw [hx] at htable
  exact ⟨x, hpositions (by decide), hx, hsubset, Except.ok.inj htable⟩

/-- One symbol in the largest alphabet makes few states, and there is no room for the first rows. -/
theorem ofPositions_largestAlphabet :
    (Expr.lit 0).Closed ∧ (∀ s, Leaf.symbol s ∈ (Expr.lit 0).leaves → s.toNat < UInt64.size - 1) ∧
      {set | (Expr.lit 0).positions.Reachable set}.encard < identifierCount ∧
      Positions.ofExpr (UInt64.size - 1) (.cat (.lit 0) .endMark) = .ok (Expr.lit 0).positions ∧
      Exploration.ofPositions (Expr.lit 0).positions (UInt64.size - 1) = .error .panicked := by
  have he : (Expr.lit 0).Closed := by decide
  have hs : ∀ s, Leaf.symbol s ∈ (Expr.lit 0).leaves → s.toNat < UInt64.size - 1 := by
    intro s hmem
    obtain rfl := Leaf.symbol.inj (List.mem_singleton.mp hmem)
    decide
  refine ⟨he, hs, Expr.encard_reachable_lt he (by decide), ?_,
    Exploration.ofPositions_of_not_tableFits (by decide +kernel)⟩
  rw [Positions.ofExpr_eq_ite he hs, if_pos (by decide)]

end Root

end RunGrammar
