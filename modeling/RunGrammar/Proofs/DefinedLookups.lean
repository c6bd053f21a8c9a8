import RunGrammar.Proofs.LongestRuns
import RunGrammar.Proofs.Numbering
import RunGrammar.TagActions

/-! Lookups that find what they look for. A position without a leaf, a cell outside the table, a
state without a row or a run beyond the input would be passed over in silence, with an
automaton or with runs that are wrong. No such index comes up: positions lie below the number of
leaves, the exploration writes inside the row of the state at hand, and a scan stays among
the states. -/
namespace RunGrammar

/-! ## Positions -/

namespace Expr

variable {root part : Expr} {base : Nat}

/-- The parts of an expression, each with the number of leaves in front of it. -/
inductive PartAt (root : Expr) : Nat → Expr → Prop
  | whole : PartAt root 0 root
  | altLeft {base : Nat} {a b : Expr} (h : PartAt root base (.alt a b)) : PartAt root base a
  | altRight {base : Nat} {a b : Expr} (h : PartAt root base (.alt a b)) :
      PartAt root (base + a.leaves.length) b
  | catLeft {base : Nat} {a b : Expr} (h : PartAt root base (.cat a b)) : PartAt root base a
  | catRight {base : Nat} {a b : Expr} (h : PartAt root base (.cat a b)) :
      PartAt root (base + a.leaves.length) b
  | body {base : Nat} {e : Expr} {q : Quantifier} (h : PartAt root base (.rep e q)) :
      PartAt root base e

theorem PartAt.end_le (h : PartAt root base part) :
    base + part.leaves.length ≤ root.leaves.length := by
  induction h with
  | whole => exact Nat.le_of_eq (Nat.zero_add _)
  | altLeft _ ih | altRight _ ih | catLeft _ ih | catRight _ ih =>
    rw [leaves, List.length_append] at ih
    omega
  | body _ ih => exact ih

end Expr

namespace Fragment

variable {a b f : Fragment} {p base : Nat}

/-- Whether one of the sets that a fragment is made of holds the position `p`. -/
def Mentions (f : Fragment) (p : Nat) : Prop :=
  p ∈ f.first ∨ p ∈ f.last ∨ ∃ l ∈ f.links, p ∈ l.1 ∨ p ∈ l.2

theorem Mentions.of_alt (h : (a.alt b).Mentions p) : a.Mentions p ∨ b.Mentions p := by
  rcases h with h | h | ⟨l, hl, h⟩
  · exact (mem_first_alt.mp h).imp .inl .inl
  · exact (mem_last_alt.mp h).imp (.inr ∘ .inl) (.inr ∘ .inl)
  · rcases List.mem_append.mp hl with hl | hl
    · exact .inr (.inr (.inr ⟨l, hl, h⟩))
    · exact .inl (.inr (.inr ⟨l, hl, h⟩))

theorem Mentions.of_cat (h : (a.cat b).Mentions p) : a.Mentions p ∨ b.Mentions p := by
  rcases h with h | h | ⟨l, hl, h⟩
  · exact (mem_first_cat.mp h).imp .inl (.inl ∘ And.right)
  · exact (mem_last_cat.mp h).imp (.inr ∘ .inl ∘ And.right) (.inr ∘ .inl)
  · rcases List.mem_cons.mp hl with rfl | hl
    · exact h.imp (.inr ∘ .inl) .inl
    · rcases List.mem_append.mp hl with hl | hl
      · exact .inr (.inr (.inr ⟨l, hl, h⟩))
      · exact .inl (.inr (.inr ⟨l, hl, h⟩))

theorem Mentions.of_rep {q : Quantifier} (h : (a.rep q).Mentions p) : a.Mentions p := by
  rcases h with h | h | ⟨l, hl, h⟩
  · exact .inl h
  · exact .inr (.inl h)
  · change l ∈ (if q.loops then (a.last, a.first) :: a.links else a.links) at hl
    split at hl
    · rcases List.mem_cons.mp hl with rfl | hl
      · exact h.elim (.inr ∘ .inl) .inl
      · exact .inr (.inr ⟨l, hl, h⟩)
    · exact .inr (.inr ⟨l, hl, h⟩)

theorem Mentions.of_leaf {base : Nat} {l : Leaf} (h : (leaf base l).Mentions p) : p = base := by
  rcases h with h | h | ⟨_, hl, -⟩
  · exact (mem_first_leaf.mp h).symm
  · exact (mem_last_leaf.mp h).symm
  · cases hl

/-- The positions of a part are those of its own leaves. -/
theorem Mentions.within {e : Expr} (h : (ofExpr base e).Mentions p) :
    base ≤ p ∧ p < base + e.leaves.length := by
  induction e generalizing base with
  | lit _ | tag _ | endMark =>
    obtain rfl := h.of_leaf
    exact ⟨Nat.le_refl p, Nat.lt_succ_self p⟩
  | ref _ => simp [ofExpr, empty, Mentions] at h
  | alt x y ihx ihy =>
    rw [ofExpr_alt] at h
    rw [Expr.leaves, List.length_append]
    rcases h.of_alt with h | h
    · have := ihx h
      omega
    · have := ihy h
      omega
  | cat x y ihx ihy =>
    rw [ofExpr_cat] at h
    rw [Expr.leaves, List.length_append]
    rcases h.of_cat with h | h
    · have := ihx h
      omega
    · have := ihy h
      omega
  | rep e q ih => exact ih h.of_rep

end Fragment

namespace Positions

variable {ps : Positions} {set targets : PositionSet} {p : Nat} {s : Symbol}

/-- Whether a position has its leaf and its entry in the table of followers. -/
def Holds (ps : Positions) (p : Nat) : Prop :=
  (∃ l, ps.leaf? p = some l) ∧ ∃ next, ps.follow? p = some next

/-- Whether every position that a set of first or following positions names is there. -/
structure Complete (ps : Positions) : Prop where
  first : ∀ p ∈ ps.first, ps.Holds p
  follow : ∀ (p : Nat) next, ps.follow? p = some next → ∀ q ∈ next, ps.Holds q

theorem Complete.moves (hps : ps.Complete) (h : (s, targets) ∈ ps.moves set) :
    (∃ p ∈ set, ps.symbol? p = some s) ∧ ∀ q ∈ targets, ps.Holds q := by
  obtain ⟨rfl, hne⟩ := mem_moves.mp h
  constructor
  · obtain ⟨q, hq⟩ := exists_mem_of_ne_empty hne
    obtain ⟨p, hp, hs, -⟩ := mem_after.mp hq
    exact ⟨p, hp, hs⟩
  · intro q hq
    obtain ⟨p, -, -, next, hnext, hqnext⟩ := mem_after.mp hq
    exact hps.follow p next hnext q hqnext

end Positions

namespace Expr

variable {e part : Expr} {base p : Nat}

theorem holds_of_lt (h : p < (cat e .endMark).leaves.length) : e.positions.Holds p := by
  rw [← Fragment.size_leaves_ofExpr 0] at h
  refine ⟨⟨_, Array.getElem?_eq_getElem h⟩, _, Array.getElem?_eq_getElem ?_⟩
  exact Nat.lt_of_lt_of_eq h (Fragment.size_follow _).symm

/-- When the walk over the leaves leaves a part, the positions of the part have been allotted. -/
theorem PartAt.holds (h : PartAt (cat e .endMark) base part)
    (hp : (Fragment.ofExpr base part).Mentions p) :
    p < base + part.leaves.length ∧ e.positions.Holds p :=
  ⟨hp.within.2, holds_of_lt (Nat.lt_of_lt_of_le hp.within.2 h.end_le)⟩

theorem complete_positions (e : Expr) : e.positions.Complete where
  first p hp := (PartAt.whole.holds (.inl hp)).2
  follow p next hnext q hq := by
    obtain ⟨-, l, hl, -, hql⟩ := Fragment.follows_follow.mp ⟨next, hnext, hq⟩
    exact (PartAt.whole.holds (.inr (.inr ⟨l, hl, .inr hql⟩))).2

end Expr

/-! ## Exploration -/

namespace Exploration

variable {ps : Positions} {x y : Exploration} {alphabet state : Nat} {s : Symbol}
  {set targets : PositionSet} {rest : List (Symbol × PositionSet)}

/-- The stages that an exploration passes: what is found and written so far, the state whose row
is being written, and the moves of that state that are not recorded yet. -/
inductive Passes (ps : Positions) (alphabet : Nat) :
    Exploration → Nat → List (Symbol × PositionSet) → Prop
  | start {x : Exploration} (h : start alphabet ps.first = .ok x) :
      Passes ps alphabet x initial (ps.moves ps.first)
  | record {x y : Exploration} {state : Nat} {s : Symbol} {targets : PositionSet}
      {rest : List (Symbol × PositionSet)} (hx : Passes ps alphabet x state ((s, targets) :: rest))
      (h : x.record alphabet state s targets = .ok y) : Passes ps alphabet y state rest
  | next {x : Exploration} {state : Nat} {set : PositionSet} (hx : Passes ps alphabet x state [])
      (h : x.states[state + 1]? = some set) : Passes ps alphabet x (state + 1) (ps.moves set)

/-- What holds at each stage. The row of the state at hand is in the table, the symbols of its
moves have columns, and the positions of all sets are there. -/
structure InRange (ps : Positions) (alphabet : Nat) (x : Exploration) (state : Nat)
    (rest : List (Symbol × PositionSet)) : Prop where
  shaped : x.Shaped alphabet
  state_lt : state < x.states.size
  sets : ∀ (n : Nat) set, x.states[n]? = some set → ∀ p ∈ set, ps.Holds p
  moves : ∀ s targets, (s, targets) ∈ rest →
    s.toNat < alphabet ∧ ∀ p ∈ targets, ps.Holds p

theorem InRange.record (hx : InRange ps alphabet x state ((s, targets) :: rest))
    (h : x.record alphabet state s targets = .ok y) : InRange ps alphabet y state rest where
  shaped := hx.shaped.record h
  state_lt :=
    (Array.getElem?_eq_some_iff.mp
      (states_record h (Array.getElem?_eq_getElem hx.state_lt))).1
  sets n set hn := by
    rcases states_of_record h hn with hn | ⟨-, rfl⟩
    · exact hx.sets n set hn
    · exact (hx.moves s set List.mem_cons_self).2
  moves c set hc := hx.moves c set (List.mem_cons_of_mem _ hc)

theorem Passes.inRange (hps : ps.Complete)
    (hsymbols : ∀ p s, ps.symbol? p = some s → s.toNat < alphabet)
    (h : Passes ps alphabet x state rest) : InRange ps alphabet x state rest := by
  have hmoves (set : PositionSet) (s : Symbol) (targets : PositionSet)
      (hmem : (s, targets) ∈ ps.moves set) :
      s.toNat < alphabet ∧ ∀ p ∈ targets, ps.Holds p := by
    obtain ⟨⟨p, -, hp⟩, hholds⟩ := hps.moves hmem
    exact ⟨hsymbols p s hp, hholds⟩
  induction h with
  | start h =>
    obtain ⟨-, hstates, -⟩ := start_eq_ok h
    refine ⟨shaped_start h, by rw [hstates]; exact Nat.lt_succ_self 1, ?_, hmoves ps.first⟩
    intro n set hn
    rw [hstates] at hn
    match n with
    | 0 =>
      obtain rfl : ∅ = set := Option.some.inj hn
      exact fun p hp => absurd hp Std.ExtTreeSet.not_mem_empty
    | 1 =>
      obtain rfl : ps.first = set := Option.some.inj hn
      exact hps.first
    | n + 2 => cases hn
  | record _ h ih => exact ih.record h
  | next _ h ih =>
    exact ⟨ih.shaped, (Array.getElem?_eq_some_iff.mp h).1, ih.sets, hmoves _⟩

/-- The cell of a move lies in the row of the state at hand, and that row in the table. -/
theorem InRange.cell_lt (hx : InRange ps alphabet x state ((s, targets) :: rest)) :
    state * alphabet + s.toNat < (state + 1) * alphabet ∧
      (state + 1) * alphabet ≤ x.table.size := by
  constructor
  · exact Exploration.cell_lt (Nat.lt_succ_self state) (hx.moves s targets List.mem_cons_self).1
  · rw [hx.shaped]
    exact Nat.mul_le_mul_right alphabet hx.state_lt

theorem Passes.expand {moves : List (Symbol × PositionSet)}
    (hx : Passes ps alphabet x state moves) (h : x.expand alphabet state moves = .ok y) :
    Passes ps alphabet y state [] := by
  induction moves generalizing x with
  | nil => exact Except.ok.inj h ▸ hx
  | cons move rest ih =>
    unfold Exploration.expand at h
    split at h
    · next hrecord => exact ih (hx.record hrecord) h
    · cases h

/-- Where the expansion stands there is a state to expand next, or the last one is done. -/
theorem exists_passes_of_expandFrom
    (hx : ∀ set, x.states[state]? = some set → Passes ps alphabet x state (ps.moves set))
    (hend : x.states.size ≤ state →
      ∃ last, Passes ps alphabet x last [] ∧ x.states.size = last + 1)
    (h : x.expandFrom ps alphabet state = .ok y) :
    ∃ last, Passes ps alphabet y last [] ∧ y.states.size = last + 1 := by
  fun_induction Exploration.expandFrom ps alphabet x state with
  | case1 x state hlt next he ih =>
    have hset := Array.getElem?_eq_getElem hlt
    have hnext := (hx _ hset).expand he
    have hlt' := (Array.getElem?_eq_some_iff.mp (states_expand he hset)).1
    exact ih (fun set h => hnext.next h)
      (fun hge => ⟨state, hnext, Nat.le_antisymm hge hlt'⟩) h
  | case2 => cases h
  | case3 x state hge =>
    obtain rfl := Except.ok.inj h
    exact hend (Nat.le_of_not_lt hge)

/-- A finished exploration has passed its stages up to the last move of the last state. -/
theorem exists_passes_of_ofPositions (h : ofPositions ps alphabet = .ok x) :
    ∃ last, Passes ps alphabet x last [] ∧ x.states.size = last + 1 := by
  obtain ⟨y, hstart, h⟩ := bind_eq_ok.mp h
  obtain ⟨-, hstates, -⟩ := start_eq_ok hstart
  refine exists_passes_of_expandFrom (fun set hset => ?_) (fun hge => ?_) h
  · rw [hstates] at hset
    obtain rfl : ps.first = set := Option.some.inj hset
    exact .start hstart
  · rw [hstates] at hge
    exact absurd hge (by decide : ¬ 2 ≤ 1)

end Exploration

/-! ## Scans -/

namespace Automaton

variable {a : Automaton} {n : Nat} {s : Symbol}

/-- Whether reading `s` in the state `n` leads to an entry of the table, and to one that says
whether the next state accepts. -/
def Reads (a : Automaton) (n : Nat) (s : Symbol) : Prop :=
  ∃ m accepts, a.transition? n s = some m ∧ a.accepting[m]? = some accepts

theorem Canonical.reads (ha : a.Canonical) (hn : n < a.stateCount) (hs : s.toNat < a.alphabet) :
    a.Reads n s := by
  obtain ⟨m, hm, htransition⟩ := ha.exists_transition n s hn hs
  exact ⟨m, _, htransition, Array.getElem?_eq_getElem hm⟩

theorem Canonical.step_lt (ha : a.Canonical) (hn : n < a.stateCount)
    (hs : s.toNat < a.alphabet) : a.step n s < a.stateCount := by
  obtain ⟨m, hm, htransition⟩ := ha.exists_transition n s hn hs
  rw [step, htransition]
  exact hm

theorem Canonical.exists_tags (ha : a.Canonical) (hn : n < a.stateCount) :
    ∃ names, a.tags? n = some names :=
  ⟨_, Array.getElem?_eq_getElem (Nat.lt_of_lt_of_eq hn ha.size_tags.symm)⟩

end Automaton

namespace Scanner

variable {a : Automaton} {input rest : List Symbol} {scan : Scanner} {c : Cursor} {s : Symbol}
  {flushed : Bool} {r : Run}

/-- The places that the scan of an input passes, symbol by symbol. -/
inductive Passes (a : Automaton) (input : List Symbol) : Scanner → Prop
  | start {scan : Scanner} (h : a.scan input = .ok scan) : Passes a input scan
  | feed {s : Symbol} {rest : List Symbol} {c : Cursor} {flushed : Bool}
      (h : Passes a input ⟨s :: rest, c, flushed⟩) : Passes a input ⟨rest, (c.feed a s).2, flushed⟩
  | flush {c : Cursor} {flushed : Bool} (h : Passes a input ⟨[], c, flushed⟩) :
      Passes a input ⟨[], c, true⟩

/-- What holds at each place of a scan. -/
structure InRange (a : Automaton) (scan : Scanner) : Prop where
  state_lt : scan.cursor.state < a.stateCount
  symbols : ∀ s ∈ scan.rest, s.toNat < a.alphabet

theorem InRange.feed (ha : a.Canonical) (h : InRange a ⟨s :: rest, c, flushed⟩) :
    InRange a ⟨rest, (c.feed a s).2, flushed⟩ where
  state_lt := by
    have hs := h.symbols s List.mem_cons_self
    by_cases hbroken : a.step c.state s = failed
    · by_cases hfails : a.step initial s = failed
      · simpa [Cursor.feed, hbroken, hfails] using ha.initial_lt
      · simpa [Cursor.feed, hbroken, hfails] using ha.step_lt ha.initial_lt hs
    · simpa [Cursor.feed, hbroken] using ha.step_lt h.state_lt hs
  symbols c hc := h.symbols c (List.mem_cons_of_mem s hc)

theorem Passes.inRange (ha : a.Canonical) (h : Passes a input scan) : InRange a scan := by
  induction h with
  | start h =>
    obtain ⟨rfl, hin⟩ := Automaton.eq_of_scan_eq_ok h
    exact ⟨ha.initial_lt, hin⟩
  | feed _ ih => exact ih.feed ha
  | flush _ ih => exact ⟨ih.state_lt, ih.symbols⟩

/-- A run is reported from a place of the scan, with the tags that are looked up there. -/
def ReportedFrom (a : Automaton) (input : List Symbol) (r : Run) : Prop :=
  ∃ scan, Passes a input scan ∧ scan.cursor.pending a scan.cursor.state = some r

theorem Passes.feedAll (h : Passes a input ⟨rest, c, flushed⟩) :
    Passes a input ⟨(c.feedAll a rest).2.1, (c.feedAll a rest).2.2, flushed⟩ ∧
      ((c.feedAll a rest).1 = none → (c.feedAll a rest).2.1 = []) ∧
      ∀ r, (c.feedAll a rest).1 = some r → ReportedFrom a input r := by
  induction rest generalizing c with
  | nil => exact ⟨h, fun _ => rfl, nofun⟩
  | cons s rest ih =>
    have hfed := h.feed
    unfold Cursor.feedAll
    split
    · next run after heq =>
      rw [heq] at hfed
      -- The run is reported from the place in front of the symbol that breaks it.
      refine ⟨hfed, nofun, fun r hr => ⟨_, h, ?_⟩⟩
      obtain rfl := Option.some.inj hr
      have hreport : (c.feed a s).1 = some run := congrArg Prod.fst heq
      change (if _ then c.pending a c.state else none) = some run at hreport
      split at hreport
      · exact hreport
      · cases hreport
    · next after heq =>
      rw [heq] at hfed
      exact ih hfed

theorem Passes.next (h : Passes a input scan) :
    Passes a input (scan.next a).2 ∧ ∀ r, (scan.next a).1 = some r → ReportedFrom a input r := by
  obtain ⟨rest, c, flushed⟩ := scan
  obtain ⟨hpasses, hnone, hsome⟩ := h.feedAll
  unfold Scanner.next
  rcases hall : c.feedAll a rest with ⟨_ | run, rest', c'⟩
  · rw [hall] at hpasses hnone
    obtain rfl : rest' = [] := hnone rfl
    refine ⟨hpasses.flush, fun r hr => ?_⟩
    change (if flushed then none else c'.pending a c'.state) = some r at hr
    split at hr
    · cases hr
    · exact ⟨_, hpasses, hr⟩
  · rw [hall] at hpasses hsome
    exact ⟨hpasses, hsome⟩

theorem Passes.reportedFrom (h : Passes a input scan) (hr : r ∈ scan.runs a) :
    ReportedFrom a input r := by
  fun_induction Scanner.runs a scan with
  | case1 scan run after hnext _ ih =>
    obtain ⟨hpasses, hreport⟩ := h.next
    rw [hnext] at hpasses hreport
    rcases List.mem_cons.mp hr with rfl | hr
    · exact hreport _ rfl
    · exact ih hpasses hr
  | case2 => cases hr

theorem tags_of_pending {n : Nat} {names : Std.ExtTreeSet String}
    (hr : c.pending a n = some r) (hn : a.tags? n = some names) : r.tags = names := by
  unfold Cursor.pending at hr
  split at hr
  · split at hr
    · obtain rfl := Option.some.inj hr
      rw [hn, Option.getD_some]
    · cases hr
  · cases hr

end Scanner

theorem TagActions.symbols_of_mem_calls {α : Type} {actions : TagActions α} {call : Call α}
    {r : Run} {input symbols : List Symbol} (hcall : call ∈ actions.calls input r)
    (hslice : r.slice? input = some symbols) : call.symbols = symbols := by
  obtain ⟨tag, -, htag⟩ := List.mem_filterMap.mp hcall
  obtain ⟨action, -, rfl⟩ := Option.map_eq_some_iff.mp htag
  rw [hslice, Option.getD_some]

/-! ## Compiled automata -/

/-- Whether nothing is missing while the automaton of the entry rule `e` is built. -/
structure BuiltInRange (e : Expr) (alphabet : Nat) (x : Exploration) : Prop where
  /-- The sets of a part name positions that are allotted when the walk leaves the part. -/
  parts : ∀ base part p, Expr.PartAt (.cat e .endMark) base part →
    (Fragment.ofExpr base part).Mentions p →
    p < base + part.leaves.length ∧ e.positions.Holds p
  complete : e.positions.Complete
  stages : ∀ y state rest, Exploration.Passes e.positions alphabet y state rest →
    Exploration.InRange e.positions alphabet y state rest
  /-- A move is written into a cell of its own row, and it is found there. -/
  writes : ∀ y z state s targets rest,
    Exploration.Passes e.positions alphabet y state ((s, targets) :: rest) →
    y.record alphabet state s targets = .ok z →
    (state * alphabet + s.toNat < (state + 1) * alphabet ∧
      (state + 1) * alphabet ≤ y.table.size) ∧ z.Leads alphabet state s targets
  finished : ∃ last, Exploration.Passes e.positions alphabet x last [] ∧
    x.states.size = last + 1

/-- Whether nothing is missing while an input is scanned and its runs are handed on. -/
structure ScannedInRange (a : Automaton) (input : List Symbol) (runs : List Run) : Prop where
  next : ∀ scan, Scanner.Passes a input scan → Scanner.Passes a input (scan.next a).2
  reads : ∀ s rest c flushed, Scanner.Passes a input ⟨s :: rest, c, flushed⟩ →
    a.Reads c.state s ∧ a.Reads initial s
  tags : ∀ scan, Scanner.Passes a input scan → ∃ names, a.tags? scan.cursor.state = some names
  /-- The tags of a run are those found at the place that it is reported from. -/
  reported : ∀ r ∈ runs, ∃ scan, Scanner.Passes a input scan ∧
    scan.cursor.pending a scan.cursor.state = some r ∧
    a.tags? scan.cursor.state = some r.tags
  slices : ∀ r ∈ runs, ∃ symbols, r.slice? input = some symbols
  calls : ∀ {α : Type} (actions : TagActions α), ∃ calls, a.apply actions input = .ok calls ∧
    ∀ call ∈ calls, ∃ r ∈ runs, r.slice? input = some call.symbols

theorem builtInRange {e : Expr} {alphabet : Nat} {x : Exploration}
    (hsymbols : ∀ s, Leaf.symbol s ∈ e.leaves → s.toNat < alphabet)
    (hx : Exploration.ofPositions e.positions alphabet = .ok x) : BuiltInRange e alphabet x := by
  have hcomplete := e.complete_positions
  have hsymbol := Expr.symbol_lt_of_symbol? hsymbols
  constructor
  case parts => exact fun _ _ _ hpart => hpart.holds
  case complete => exact hcomplete
  case stages => exact fun _ _ _ hpasses => hpasses.inRange hcomplete hsymbol
  case writes =>
    intro y z state s targets rest hpasses hrecord
    have hrange := hpasses.inRange hcomplete hsymbol
    exact ⟨hrange.cell_lt, Exploration.leads_record hrange.shaped hrange.state_lt
      (hrange.moves s targets List.mem_cons_self).1 hrecord⟩
  case finished => exact Exploration.exists_passes_of_ofPositions hx

section

variable {h : Host} {statements : List Statement} {a : Automaton} {input : List Symbol}
  {scan : Scanner}

theorem exists_slice?_of_mem_segments {r : Run} (ha : h.compile statements = .ok a)
    (hr : r ∈ a.segments input 0) : ∃ symbols, r.slice? input = some symbols := by
  obtain ⟨hfirst, hlast⟩ := bounds_of_mem_segments ha hr
  exact ⟨_, Run.slice?_eq_symbolsBetween hfirst hlast⟩

theorem scannedInRange (ha : h.compile statements = .ok a) (hscan : a.scan input = .ok scan) :
    ∃ runs, a.runs input = .ok runs ∧ ScannedInRange a input runs := by
  have hcanonical := canonical_of_compile ha
  have hstart : Scanner.Passes a input scan := .start hscan
  have hruns : a.runs input = .ok (scan.runs a) := by
    rw [Automaton.runs, hscan]
    rfl
  have htags (place : Scanner) (hplace : Scanner.Passes a input place) :
      ∃ names, a.tags? place.cursor.state = some names :=
    hcanonical.exists_tags (hplace.inRange hcanonical).state_lt
  have hslices : ∀ r ∈ scan.runs a, ∃ symbols, r.slice? input = some symbols := by
    intro r hr
    have hin := (Automaton.eq_of_scan_eq_ok hscan).2
    have hsegments := Automaton.runs_eq_segments (isAccepting_failed ha) hin
    rw [Except.ok.inj (hruns.symm.trans hsegments)] at hr
    exact exists_slice?_of_mem_segments ha hr
  refine ⟨scan.runs a, hruns, ?_⟩
  constructor
  case next => exact fun place hplace => hplace.next.1
  case reads =>
    intro s rest c flushed hplace
    have hrange := hplace.inRange hcanonical
    have hs := hrange.symbols s List.mem_cons_self
    exact ⟨hcanonical.reads hrange.state_lt hs, hcanonical.reads hcanonical.initial_lt hs⟩
  case tags => exact htags
  case reported =>
    intro r hr
    obtain ⟨place, hplace, hpending⟩ := hstart.reportedFrom hr
    obtain ⟨names, hnames⟩ := htags place hplace
    obtain rfl := Scanner.tags_of_pending hpending hnames
    exact ⟨place, hplace, hpending, hnames⟩
  case slices => exact hslices
  case calls =>
    intro α actions
    refine ⟨_, by rw [Automaton.apply, hruns]; rfl, fun call hcall => ?_⟩
    obtain ⟨r, hr, hmem⟩ := List.mem_flatMap.mp hcall
    obtain ⟨symbols, hslice⟩ := hslices r hr
    exact ⟨r, hr, TagActions.symbols_of_mem_calls hmem hslice ▸ hslice⟩

/-- Nothing that the construction of a compiled automaton or a scan with it looks up is missing,
so no default stands in for it. -/
theorem compile_inRange (ha : h.compile statements = .ok a) :
    ∃ e b x, h.bindings statements = .ok b ∧ h.entry statements = .ok e ∧
      Exploration.ofPositions e.positions a.alphabet = .ok x ∧
      a = .ofExploration e.positions a.alphabet x b.symbols ∧
      BuiltInRange e a.alphabet x ∧
      ∀ input scan, a.scan input = .ok scan →
        ∃ runs, a.runs input = .ok runs ∧ ScannedInRange a input runs := by
  obtain ⟨e, b, x, hb, he, -, hsymbols, hx, hax⟩ := Host.exists_exploration_of_compile ha
  exact ⟨e, b, x, hb, he, hx, hax, builtInRange hsymbols hx,
    fun input scan hscan => scannedInRange ha hscan⟩

theorem compile_inRange_sampleRules :
    ∃ a e x, ({} : Host).compile sampleRules = .ok a ∧ a.alphabet = 2 ∧ x.states.size = 4 ∧
      BuiltInRange e 2 x ∧ a.runs [1, 0, 1, 1, 0] = .ok [⟨1, 2, ∅⟩, ⟨4, 4, {"coda"}⟩] ∧
      ScannedInRange a [1, 0, 1, 1, 0] [⟨1, 2, ∅⟩, ⟨4, 4, {"coda"}⟩] := by
  obtain ⟨a, ha, halphabet, hcount, hfound⟩ := compile_sampleRules
    (fun a => a.stateCount = 4 ∧
      a.runs [1, 0, 1, 1, 0] = .ok [⟨1, 2, ∅⟩, ⟨4, 4, {"coda"}⟩]) (by decide +kernel)
  obtain ⟨e, b, x, -, -, -, hax, hbuilt, hscanned⟩ := compile_inRange ha
  have hin : ∀ s ∈ [(1 : Symbol), 0, 1, 1, 0], s.toNat < a.alphabet := by simp [halphabet]
  obtain ⟨runs, hruns, hscan⟩ := hscanned _ _ (Automaton.scan_eq_ok hin)
  obtain rfl := Except.ok.inj (hfound.symm.trans hruns)
  rw [hax, Automaton.stateCount_ofExploration] at hcount
  exact ⟨a, e, x, ha, halphabet, hcount, halphabet ▸ hbuilt, hfound, hscan⟩

end

end RunGrammar
