import RunGrammar.Proofs.Layouts
import RunGrammar.Proofs.Numbering
import RunGrammar.Proofs.Repetition

/-! Rewritings that do not change the automaton. Regrouping a juxtaposition or a choice, exchanging
the branches of a choice and writing a branch twice renumber the positions and double some of
them, but the layouts before and after simulate each other. So the sets of positions that words
lead to correspond one to one, and since the states are numbered in the order in which the
symbols lead to them, the automata are equal. -/
namespace RunGrammar

/-! ## Rewriting -/

namespace Expr

variable {x y x' y' e e' l r : Expr}

/-- Whether the layouts of two expressions simulate each other, wherever the numbers begin. -/
def Alike (x y : Expr) : Prop :=
  ∀ i j, ∃ pairs, Layout.Bisimulates pairs (.ofExpr i x) (.ofExpr j y)

theorem Alike.symm (h : Alike x y) : Alike y x := by
  intro i j
  obtain ⟨pairs, hpairs⟩ := h j i
  exact ⟨_, hpairs.flip⟩

theorem Alike.alt (hx : Alike x x') (hy : Alike y y') : Alike (.alt x y) (.alt x' y') := by
  intro i j
  obtain ⟨left, hleft⟩ := hx i j
  obtain ⟨right, hright⟩ := hy (i + x.leaves.length) (j + x'.leaves.length)
  exact ⟨_, hleft.alt hright (Layout.apart_ofExpr i x y) (Layout.apart_ofExpr j x' y')⟩

theorem Alike.cat (hx : Alike x x') (hy : Alike y y') : Alike (.cat x y) (.cat x' y') := by
  intro i j
  obtain ⟨left, hleft⟩ := hx i j
  obtain ⟨right, hright⟩ := hy (i + x.leaves.length) (j + x'.leaves.length)
  exact ⟨_, hleft.cat hright (Layout.apart_ofExpr i x y) (Layout.apart_ofExpr j x' y')⟩

theorem Alike.rep (h : Alike x y) (q : Quantifier) : Alike (.rep x q) (.rep y q) := by
  intro i j
  obtain ⟨pairs, hpairs⟩ := h i j
  exact ⟨pairs, hpairs.rep q⟩

theorem Alike.refl (e : Expr) : Alike e e := by
  induction e with
  | lit _ | tag _ | endMark =>
    intro i j
    refine ⟨fun p q => p = i ∧ q = j, ?_, ?_⟩
    · exact .single (fun _ _ => Iff.rfl) _
    · exact .single (fun _ _ => and_comm) _
  | ref _ => exact fun _ _ => ⟨_, .empty, .empty⟩
  | alt _ _ ihx ihy => exact ihx.alt ihy
  | cat _ _ ihx ihy => exact ihx.cat ihy
  | rep _ q ih => exact ih.rep q

theorem Alike.plug (h : Alike x y) (c : Context) : Alike (c.plug x) (c.plug y) := by
  induction c with
  | hole => exact h
  | altLeft c right ih => exact ih.alt (.refl right)
  | altRight left c ih => exact (Alike.refl left).alt ih
  | catLeft c right ih => exact ih.cat (.refl right)
  | catRight left c ih => exact (Alike.refl left).cat ih
  | rep c q ih => exact ih.rep q

/-- The laws by which expressions are rewritten, read in either direction. -/
inductive Law : Expr → Expr → Prop
  | catAssoc (x y z : Expr) : Law (.cat (.cat x y) z) (.cat x (.cat y z))
  | altAssoc (x y z : Expr) : Law (.alt (.alt x y) z) (.alt x (.alt y z))
  | altComm (x y : Expr) : Law (.alt x y) (.alt y x)
  | altSelf (e : Expr) : Law e (.alt e e)

theorem Law.alike (h : Law l r) : Alike l r := by
  intro i j
  cases h with
  | catAssoc x y z =>
    rw [← Layout.ofExpr_cat_assoc]
    exact Alike.refl _ i j
  | altAssoc x y z =>
    rw [← Layout.ofExpr_alt_assoc]
    exact Alike.refl _ i j
  | altComm x y =>
    obtain ⟨left, hleft⟩ := Alike.refl x i (j + y.leaves.length)
    obtain ⟨right, hright⟩ := Alike.refl y (i + x.leaves.length) j
    exact ⟨_, hleft.altSwap hright (Layout.apart_ofExpr i x y) (Layout.apart_ofExpr j y x)⟩
  | altSelf e =>
    obtain ⟨left, hleft⟩ := Alike.refl l i j
    obtain ⟨right, hright⟩ := Alike.refl l i (j + l.leaves.length)
    exact ⟨_, hleft.double hright (Layout.apart_ofExpr j l l)⟩

/-- Whether one law applied to one part of `e`, at any depth, makes it `e'`. -/
def Rewrites (e e' : Expr) : Prop :=
  ∃ (c : Context) (l r : Expr), (Law l r ∨ Law r l) ∧ e = c.plug l ∧ e' = c.plug r

theorem Rewrites.alike (h : e.Rewrites e') : Alike e e' := by
  obtain ⟨c, l, r, hlaw, rfl, rfl⟩ := h
  exact (hlaw.elim Law.alike fun hlaw => hlaw.alike.symm).plug c

theorem Law.closed_iff (h : Law l r) : l.Closed ↔ r.Closed := by
  cases h with
  | catAssoc x y z => simp only [closed_cat, and_assoc]
  | altAssoc x y z => simp only [closed_alt, and_assoc]
  | altComm x y => simp only [closed_alt, and_comm]
  | altSelf e => simp only [closed_alt, and_self]

theorem Context.closed_plug_iff (c : Context) (h : x.Closed ↔ y.Closed) :
    (c.plug x).Closed ↔ (c.plug y).Closed := by
  induction c with
  | hole => exact h
  | altLeft c right ih => simp only [plug, closed_alt, ih]
  | altRight left c ih => simp only [plug, closed_alt, ih]
  | catLeft c right ih => simp only [plug, closed_cat, ih]
  | catRight left c ih => simp only [plug, closed_cat, ih]
  | rep c q ih => simp only [plug, closed_rep, ih]

theorem Rewrites.closed_iff (h : e.Rewrites e') : e.Closed ↔ e'.Closed := by
  obtain ⟨c, l, r, hlaw, rfl, rfl⟩ := h
  exact c.closed_plug_iff (hlaw.elim Law.closed_iff fun hlaw => hlaw.closed_iff.symm)

theorem Alike.mem_leaves (h : Alike x y) {m : Leaf} (hm : m ∈ x.leaves) : m ∈ y.leaves := by
  obtain ⟨pairs, hpairs⟩ := h 0 0
  obtain ⟨k, hk⟩ := List.mem_iff_getElem?.mp hm
  have hleaf : (Layout.ofExpr 0 x).leaf (0 + k) m := Layout.leaf_ofExpr.mpr ⟨k, hk, rfl⟩
  obtain ⟨q, hq⟩ := hpairs.forth.total ⟨m, hleaf⟩
  obtain ⟨n, hn, -⟩ := Layout.leaf_ofExpr.mp (hpairs.forth.leaf hq hleaf)
  exact List.mem_of_getElem? hn

end Expr

/-! ## Sets of positions -/

/-- What positions say apart from their numbers. -/
structure Positions.HasLayout (ps : Positions) (a : Layout) : Prop where
  leaf?_eq_some_iff : ∀ {p l}, ps.leaf? p = some l ↔ a.leaf p l
  mem_first_iff : ∀ {p}, p ∈ ps.first ↔ a.first p
  follows_iff : ∀ {p q}, Fragment.Follows ps.follow p q ↔ a.linked p q

theorem Expr.hasLayout_positions (e : Expr) :
    e.positions.HasLayout (.ofExpr 0 (.cat e .endMark)) where
  leaf?_eq_some_iff := by
    intro p l
    rw [Layout.leaf_ofExpr, positions, Fragment.leaf?_ofFragment, Fragment.leaves_ofExpr,
      List.getElem?_toArray]
    simp
  mem_first_iff := Layout.first_ofExpr _
  follows_iff := by
    intro p q
    rw [← Layout.linked_ofExpr]
    refine Fragment.follows_follow.trans (and_iff_right_of_imp fun h => ?_)
    have := (Fragment.within_ofExpr 0 (cat e .endMark)).linked p q h
    rw [Fragment.size_leaves_ofExpr]
    omega

namespace Layout

/-- Whether two sets hold the same positions up to their numbers. -/
structure Agree (pairs : Nat → Nat → Prop) (a b : Layout) (set set' : PositionSet) : Prop where
  inside : ∀ p ∈ set, a.Inside p
  inside' : ∀ q ∈ set', b.Inside q
  mem_iff : ∀ {p q}, pairs p q → (p ∈ set ↔ q ∈ set')

variable {pairs : Nat → Nat → Prop} {a b : Layout} {ps ps' : Positions}
  {set set' other : PositionSet}

theorem Agree.flip (h : Agree pairs a b set set') : Agree (fun q p => pairs p q) b a set' set :=
  ⟨h.inside', h.inside, fun hpq => (h.mem_iff hpq).symm⟩

theorem Agree.empty : Agree pairs a b ∅ ∅ where
  inside _ hp := absurd hp Std.ExtTreeSet.not_mem_empty
  inside' _ hq := absurd hq Std.ExtTreeSet.not_mem_empty
  mem_iff _ := iff_of_false Std.ExtTreeSet.not_mem_empty Std.ExtTreeSet.not_mem_empty

theorem Agree.unique (hab : Bisimulates pairs a b) (h : Agree pairs a b set set')
    (h' : Agree pairs a b set other) : set' = other := by
  refine Std.ExtTreeSet.ext_mem fun q => ⟨fun hq => ?_, fun hq => ?_⟩
  · obtain ⟨p, hp⟩ := hab.back.total (h.inside' q hq)
    exact (h'.mem_iff hp).mp ((h.mem_iff hp).mpr hq)
  · obtain ⟨p, hp⟩ := hab.back.total (h'.inside' q hq)
    exact (h.mem_iff hp).mp ((h'.mem_iff hp).mpr hq)

variable (hps : ps.HasLayout a) (hps' : ps'.HasLayout b) (hab : Bisimulates pairs a b)

include hps hps' hab

theorem Agree.first : Agree pairs a b ps.first ps'.first where
  inside p hp := a.leaf_of_first p (hps.mem_first_iff.mp hp)
  inside' q hq := b.leaf_of_first q (hps'.mem_first_iff.mp hq)
  mem_iff hpq := by
    rw [hps.mem_first_iff, hps'.mem_first_iff]
    exact ⟨hab.forth.first hpq, hab.back.first hpq⟩

theorem Agree.mem_after (h : Agree pairs a b set set') {p q : Nat} {s : Symbol} (hpq : pairs p q)
    (hp : p ∈ ps.after set s) : q ∈ ps'.after set' s := by
  obtain ⟨p₀, hp₀, hs, hlink⟩ := Positions.mem_after.mp hp
  obtain ⟨q₀, hq₀, hlink'⟩ := hab.forth.linked hpq (hps.follows_iff.mp hlink)
  refine Positions.mem_after.mpr ⟨q₀, (h.mem_iff hq₀).mp hp₀, ?_, hps'.follows_iff.mpr hlink'⟩
  rw [Positions.symbol?_eq_some_iff] at hs ⊢
  exact hps'.leaf?_eq_some_iff.mpr (hab.forth.leaf hq₀ (hps.leaf?_eq_some_iff.mp hs))

theorem Agree.after (h : Agree pairs a b set set') (s : Symbol) :
    Agree pairs a b (ps.after set s) (ps'.after set' s) where
  inside p hp := by
    obtain ⟨_, -, -, hlink⟩ := Positions.mem_after.mp hp
    exact (a.leaf_of_linked _ _ (hps.follows_iff.mp hlink)).2
  inside' q hq := by
    obtain ⟨_, -, -, hlink⟩ := Positions.mem_after.mp hq
    exact (b.leaf_of_linked _ _ (hps'.follows_iff.mp hlink)).2
  mem_iff hpq := ⟨h.mem_after hps hps' hab hpq, h.flip.mem_after hps' hps hab.flip hpq⟩

theorem Agree.exists_leaf? (h : Agree pairs a b set set') {l : Leaf}
    (hl : ∃ p ∈ set, ps.leaf? p = some l) : ∃ q ∈ set', ps'.leaf? q = some l := by
  obtain ⟨p, hp, hl⟩ := hl
  obtain ⟨q, hq⟩ := hab.forth.total (h.inside p hp)
  refine ⟨q, (h.mem_iff hq).mp hp, hps'.leaf?_eq_some_iff.mpr ?_⟩
  exact hab.forth.leaf hq (hps.leaf?_eq_some_iff.mp hl)

theorem Agree.exists_leaf?_iff (h : Agree pairs a b set set') (l : Leaf) :
    (∃ p ∈ set, ps.leaf? p = some l) ↔ ∃ q ∈ set', ps'.leaf? q = some l :=
  ⟨h.exists_leaf? hps hps' hab, h.flip.exists_leaf? hps' hps hab.flip⟩

theorem Agree.ends_eq (h : Agree pairs a b set set') : ps.ends set = ps'.ends set' := by
  rw [Bool.eq_iff_iff, Positions.ends_eq_true_iff, Positions.ends_eq_true_iff]
  exact h.exists_leaf?_iff hps hps' hab .endMark

theorem Agree.tags_eq (h : Agree pairs a b set set') : ps.tags set = ps'.tags set' := by
  refine Std.ExtTreeSet.ext_mem fun name => ?_
  simp only [Positions.mem_tags, Positions.tag?_eq_some_iff]
  exact h.exists_leaf?_iff hps hps' hab (.tag name)

/-- Each reachable set has a counterpart. -/
theorem Bisimulates.exists_reachable (h : ps.Reachable set) :
    ∃ set', ps'.Reachable set' ∧ Agree pairs a b set set' := by
  induction h with
  | first => exact ⟨ps'.first, .first, Agree.first hps hps' hab⟩
  | step _ hunion hne ih =>
    obtain ⟨set', hset', hagree⟩ := ih
    obtain ⟨-, s, -, rfl, rfl⟩ := hunion.exists_symbol hne
    have hafter := hagree.after hps hps' hab s
    refine ⟨_, hset'.step (ps'.union_after set' s) fun hempty => hne ?_, hafter⟩
    have hback := hafter.flip
    rw [hempty] at hback
    exact hback.unique hab.flip .empty

theorem Bisimulates.encard_reachable_le :
    {set | ps.Reachable set}.encard ≤ {set | ps'.Reachable set}.encard := by
  choose! counterpart hreachable hagree using
    fun set (h : ps.Reachable set) => hab.exists_reachable hps hps' h
  apply Set.encard_le_encard_of_injOn (f := counterpart) hreachable
  intro set hset other hother heq
  refine (hagree set hset).flip.unique hab.flip ?_
  rw [heq]
  exact (hagree other hother).flip

theorem Bisimulates.encard_reachable_eq :
    {set | ps.Reachable set}.encard = {set | ps'.Reachable set}.encard :=
  le_antisymm (hab.encard_reachable_le hps hps') (hab.flip.encard_reachable_le hps' hps)

end Layout

/-! ## Automata -/

section

variable {pairs : Nat → Nat → Prop} {a b : Layout} {ps ps' : Positions} {x x' : Exploration}
  {alphabet : Nat} {symbols : Std.ExtTreeMap String Symbol}

/-- States with sets that agree correspond. -/
theorem Exploration.IsSubsetAutomaton.pairing (hps : ps.HasLayout a) (hps' : ps'.HasLayout b)
    (hab : Layout.Bisimulates pairs a b) (hx : x.IsSubsetAutomaton ps alphabet)
    (hx' : x'.IsSubsetAutomaton ps' alphabet) :
    Automaton.Pairing (.ofExploration ps alphabet x symbols)
      (.ofExploration ps' alphabet x' symbols) fun n m =>
        ∃ set set', x.states[n]? = some set ∧ x'.states[m]? = some set' ∧
          Layout.Agree pairs a b set set' where
  alphabet := rfl
  lt := by
    rintro n m ⟨set, set', hn, hm, -⟩
    rw [Automaton.stateCount_ofExploration, Automaton.stateCount_ofExploration]
    exact ⟨(Array.getElem?_eq_some_iff.mp hn).1, (Array.getElem?_eq_some_iff.mp hm).1⟩
  pairs_failed := ⟨∅, ∅, hx.states_failed, hx'.states_failed, .empty⟩
  pairs_initial := ⟨_, _, hx.states_initial, hx'.states_initial, .first hps hps' hab⟩
  right_unique := by
    rintro n m m' ⟨set, set', hn, hm, h⟩ ⟨other, other', hn', hm', h'⟩
    obtain rfl : set = other := Option.some.inj (hn.symm.trans hn')
    obtain rfl := h.unique hab h'
    exact hx'.injective m m' _ hm hm'
  left_unique := by
    rintro n n' m ⟨set, set', hn, hm, h⟩ ⟨other, other', hn', hm', h'⟩
    obtain rfl : set' = other' := Option.some.inj (hm.symm.trans hm')
    obtain rfl := h.flip.unique hab.flip h'.flip
    exact hx.injective n n' _ hn hn'
  step := by
    rintro n m s ⟨set, set', hn, hm, h⟩ hs
    obtain ⟨n', hn', hset⟩ := hx.exists_transition? symbols hn hs
    obtain ⟨m', hm', hset'⟩ := hx'.exists_transition? symbols hm hs
    exact ⟨n', m', hn', hm', _, _, hset, hset', h.after hps hps' hab s⟩

theorem Exploration.IsSubsetAutomaton.ofExploration_eq (hps : ps.HasLayout a)
    (hps' : ps'.HasLayout b) (hab : Layout.Bisimulates pairs a b)
    (hx : x.IsSubsetAutomaton ps alphabet) (hx' : x'.IsSubsetAutomaton ps' alphabet) :
    Automaton.ofExploration ps alphabet x symbols = .ofExploration ps' alphabet x' symbols := by
  apply (hx.canonical symbols).eq_of_pairing (hx'.canonical symbols)
    (hx.pairing hps hps' hab hx') rfl
  · rintro n m ⟨set, set', hn, hm, h⟩
    rw [Automaton.isAccepting_ofExploration hn, Automaton.isAccepting_ofExploration hm,
      h.ends_eq hps hps' hab]
  · rintro n m ⟨set, set', hn, hm, h⟩
    rw [Automaton.tags?_ofExploration hn, Automaton.tags?_ofExploration hm,
      h.tags_eq hps hps' hab]

end

section

variable {e e' : Expr} {alphabet : Nat}

/-- The automaton that an entry rule with this body has. -/
def Expr.automaton (e : Expr) (alphabet : Nat) (symbols : Std.ExtTreeMap String Symbol) :
    Compiled Automaton :=
  ((Positions.ofExpr alphabet (.cat e .endMark)).mapError .returned).bind fun ps =>
    (Exploration.ofPositions ps alphabet).bind fun x =>
      .ok (.ofExploration ps alphabet x symbols)

theorem Bindings.build_eq_automaton (b : Bindings) :
    b.build =
      (b.entry.mapError .returned).bind fun e => e.automaton b.alphabet.toNat b.symbols :=
  build_eq b

namespace Expr

variable {symbols : Std.ExtTreeMap String Symbol}

/-- The automaton of the positions, however many these are. -/
def subsetAutomaton (e : Expr) (alphabet : Nat) (symbols : Std.ExtTreeMap String Symbol) :
    Compiled Automaton :=
  (Exploration.ofPositions e.positions alphabet).bind fun x =>
    .ok (.ofExploration e.positions alphabet x symbols)

theorem automaton_eq_ite (he : e.Closed)
    (hs : ∀ s, Leaf.symbol s ∈ e.leaves → s.toNat < alphabet) :
    e.automaton alphabet symbols =
      if e.leaves.length < identifierCount then e.subsetAutomaton alphabet symbols
      else .error (.returned .positionLimit) := by
  rw [automaton, Positions.ofExpr_eq_ite he hs]
  split <;> rfl

theorem exists_subsetAutomaton_iff (he : e.Closed)
    (hs : ∀ s, Leaf.symbol s ∈ e.leaves → s.toNat < alphabet) :
    (∃ a, e.subsetAutomaton alphabet symbols = .ok a) ↔
      {set | e.positions.Reachable set}.encard < identifierCount ∧
        Exploration.TableFits alphabet ({set | e.positions.Reachable set}.ncard + 1) := by
  rw [← Exploration.exists_ofPositions_iff_reachable (first_positions_ne_empty he)
    (symbol_lt_of_symbol? hs)]
  constructor
  · rintro ⟨a, ha⟩
    obtain ⟨x, hx, -⟩ := bind_eq_ok.mp ha
    exact ⟨x, hx⟩
  · rintro ⟨x, hx⟩
    exact ⟨_, bind_eq_ok.mpr ⟨x, hx, rfl⟩⟩

/-- Expressions that are alike have equal automata, or there are too few numbers or there is too
little room for the states of either. -/
theorem Alike.subsetAutomaton_eq (h : Alike e e') (he : e.Closed) (he' : e'.Closed)
    (hs : ∀ s, Leaf.symbol s ∈ e.leaves → s.toNat < alphabet) :
    e.subsetAutomaton alphabet symbols = e'.subsetAutomaton alphabet symbols := by
  obtain ⟨pairs, hab⟩ := (h.cat (.refl .endMark)) 0 0
  have hps := e.hasLayout_positions
  have hps' := e'.hasLayout_positions
  have hfirst := first_positions_ne_empty he
  have hfirst' := first_positions_ne_empty he'
  have hsymbols := symbol_lt_of_symbol? hs
  have hsymbols' := symbol_lt_of_symbol? fun s hmem => hs s (h.symm.mem_leaves hmem)
  have hcount : e.positions.reachedSets.encard = e'.positions.reachedSets.encard := by
    rw [Positions.encard_reachedSets hfirst, Positions.encard_reachedSets hfirst',
      hab.encard_reachable_eq hps hps']
  have hlimit : (∃ x, Exploration.ofPositions e.positions alphabet = .ok x) ↔
      ∃ x, Exploration.ofPositions e'.positions alphabet = .ok x := by
    rw [Exploration.exists_ofPositions_iff hfirst hsymbols,
      Exploration.exists_ofPositions_iff hfirst' hsymbols', Set.ncard, Set.ncard, hcount]
  unfold subsetAutomaton
  cases hx : Exploration.ofPositions e.positions alphabet with
  | ok x =>
    obtain ⟨x', hx'⟩ := hlimit.mp ⟨x, hx⟩
    rw [hx']
    have hsubset := Exploration.isSubsetAutomaton_of_ofPositions hfirst hsymbols hx
    have hsubset' := Exploration.isSubsetAutomaton_of_ofPositions hfirst' hsymbols' hx'
    exact congrArg Except.ok (hsubset.ofExploration_eq hps hps' hab hsubset')
  | error halt =>
    cases hx' : Exploration.ofPositions e'.positions alphabet with
    | ok x' =>
      obtain ⟨x, hx₀⟩ := hlimit.mpr ⟨x', hx'⟩
      rw [hx] at hx₀
      cases hx₀
    | error halt' =>
      have hshort := Exploration.ofPositions_eq_error hfirst hx
      rw [hcount] at hshort
      rw [hshort.unique (Exploration.ofPositions_eq_error hfirst' hx')]
      rfl

/-- A rewriting leaves the automaton as it is, with its numbers, unless it makes more leaves than
there are numbers. There is an automaton if there are enough numbers for the states and there is
room for their rows. -/
theorem automaton_eq_of_rewrites (he : e.Closed)
    (hs : ∀ s, Leaf.symbol s ∈ e.leaves → s.toNat < alphabet) (h : e.Rewrites e')
    (symbols : Std.ExtTreeMap String Symbol) :
    (∀ d, d = e ∨ d = e' → d.automaton alphabet symbols =
      if d.leaves.length < identifierCount then e.subsetAutomaton alphabet symbols
      else .error (.returned .positionLimit)) ∧
    ((∃ a, e.subsetAutomaton alphabet symbols = .ok a) ↔
      {set | e.positions.Reachable set}.encard < identifierCount ∧
        Exploration.TableFits alphabet ({set | e.positions.Reachable set}.ncard + 1)) := by
  have he' := h.closed_iff.mp he
  have hs' : ∀ s, Leaf.symbol s ∈ e'.leaves → s.toNat < alphabet :=
    fun s hmem => hs s (h.alike.symm.mem_leaves hmem)
  refine ⟨?_, exists_subsetAutomaton_iff he hs⟩
  rintro d (rfl | rfl)
  · exact automaton_eq_ite he hs
  · rw [h.alike.subsetAutomaton_eq he he' hs]
    exact automaton_eq_ite he' hs'

/-- The sample entry rule with its repeated part written twice. -/
def doubledEntry : Expr :=
  let syllable := cat (lit 0) (rep (cat (tag "coda") (lit 1)) .opt)
  rep (alt syllable syllable) .plus

theorem automaton_doubledEntry :
    sampleEntry.Rewrites doubledEntry ∧ ∃ a, sampleEntry.automaton 2 ∅ = .ok a ∧
      doubledEntry.automaton 2 ∅ = .ok a ∧ a.transitions = #[0, 0, 2, 0, 2, 3, 2, 0] := by
  have he : sampleEntry.Closed := by decide
  have h : sampleEntry.Rewrites doubledEntry :=
    ⟨.rep .hole .plus, _, _, .inl (.altSelf _), rfl, rfl⟩
  obtain ⟨hresult, hok⟩ := automaton_eq_of_rewrites he symbol_lt_of_mem_sampleEntry h ∅
  obtain ⟨a, hsubset⟩ := hok.mpr ⟨encard_reachable_lt he (by decide),
    tableFits_reachable he (by decide) (by decide +kernel)⟩
  have ha := hresult sampleEntry (.inl rfl)
  have ha' := hresult doubledEntry (.inr rfl)
  rw [if_pos (by decide), hsubset] at ha ha'
  have htransitions : (sampleEntry.automaton 2 ∅).map (·.transitions) =
    .ok #[0, 0, 2, 0, 2, 3, 2, 0] := by decide +kernel
  rw [ha] at htransitions
  exact ⟨h, a, ha, ha', Except.ok.inj htransitions⟩

end Expr

end

end RunGrammar
