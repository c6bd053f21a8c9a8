import RunGrammar.Proofs.Acceptance
import RunGrammar.Proofs.Segmentation

/-! A scan reports the segments of its input one by one. At each place of a scan the
segments that are not reported yet begin at the open run, or at the next symbol if no run is
open. An index that was accepted in an earlier run lies before the open run, so it never
counts for it. -/
namespace RunGrammar

variable {a : Automaton} {input : List Symbol} {c : Cursor} {s : Symbol} {scan : Scanner} {i : Nat}

namespace Cursor

/-- The index from which on nothing is reported yet. -/
def frontier (c : Cursor) : Nat := c.start.getD c.index

def restart (c : Cursor) : Cursor := { c with state := initial, start := none }

/-- What holds at each place of a scan. The symbols since the frontier have not failed, the
state is the one over them, and the index that was accepted last is the last accepted one of
them if it does not lie before the frontier. -/
structure Reached (a : Automaton) (input : List Symbol) (c : Cursor) : Prop where
  index_le : c.index ≤ input.length
  start_lt : ∀ i, c.start = some i → i < c.index
  state_eq : c.state = a.stateOver input c.frontier c.index
  not_failed : ∀ j, c.frontier ≤ j → j < c.index → a.stateOver input c.frontier (j + 1) ≠ failed
  accepted_lt : ∀ k, c.accepted = some k → k < c.index
  accepted_eq : c.accepted.filter (c.frontier ≤ ·) = a.lastAccepted input c.frontier c.index

theorem Reached.frontier_le (hc : Reached a input c) : c.frontier ≤ c.index := by
  unfold frontier
  cases hstart : c.start with
  | none => exact Nat.le_refl _
  | some i => exact Nat.le_of_lt (hc.start_lt i hstart)

/-- Without an open run nothing is known but that the accepted index was passed. -/
theorem reached_of_idle (hindex : c.index ≤ input.length) (hstate : c.state = initial)
    (hstart : c.start = none) (haccepted : ∀ k, c.accepted = some k → k < c.index) :
    Reached a input c := by
  have hfrontier : c.frontier = c.index := by rw [frontier, hstart, Option.getD_none]
  constructor
  case index_le => exact hindex
  case start_lt =>
    intro i hi
    rw [hstart] at hi
    cases hi
  case state_eq => rw [hfrontier, hstate, Automaton.stateOver_self]
  case not_failed =>
    intro j hj hlt
    omega
  case accepted_lt => exact haccepted
  case accepted_eq =>
    -- An index that was accepted before the frontier does not count.
    rw [hfrontier, Automaton.lastAccepted_self, Option.filter_eq_none_iff]
    intro k hk
    have := haccepted k hk
    simpa using this

theorem reached_start : Reached a input {} :=
  reached_of_idle (Nat.zero_le _) rfl rfl fun _ h => by cases h

theorem Reached.restart (hc : Reached a input c) : Reached a input c.restart :=
  reached_of_idle hc.index_le rfl rfl hc.accepted_lt

theorem pending_eq (hi : c.start = some i) (state : Nat) :
    c.pending a state = (c.accepted.filter (i ≤ ·)).map fun k =>
      { first := i, last := k, tags := (a.tags? state).getD ∅ : Run } := by
  rw [pending, hi]
  cases c.accepted with
  | none => rfl
  | some k =>
    rw [Option.filter_some]
    by_cases hk : i ≤ k
    · simp [hk]
    · simp [hk]

/-- Where the open run ends, its report comes before all other segments. -/
theorem Reached.segments_frontier (hc : Reached a input c)
    (hend : ∀ h : c.index < input.length, a.step c.state input[c.index] = failed) :
    a.segments input c.frontier = (c.pending a c.state).toList ++ a.segments input c.index := by
  cases hstart : c.start with
  | none =>
    rw [frontier, pending, hstart]
    rfl
  | some i =>
    have hfrontier : c.frontier = i := by rw [frontier, hstart, Option.getD_some]
    have hi := hc.start_lt i hstart
    have hlen : i < input.length := Nat.lt_of_lt_of_le hi hc.index_le
    obtain ⟨hle, -, hstate, hbefore, -, haccepted⟩ := hc
    rw [hfrontier] at hstate hbefore haccepted
    have hfirst : a.step initial input[i] ≠ failed := by
      rw [← Automaton.stateOver_first hlen]
      exact hbefore i (Nat.le_refl i) hi
    have hrun : a.runEnd input i = c.index := by
      apply Automaton.runEnd_eq hi hle
      · intro h
        rw [Automaton.stateOver_succ (Nat.le_of_lt hi) h, ← hstate]
        exact hend h
      · intro k hik hk
        exact hbefore k (Nat.le_of_lt hik) hk
    rw [hfrontier, Automaton.segments_of_run hlen hfirst hrun, pending_eq hstart, haccepted, hstate]

/-- A symbol that does not break the run belongs to it, or to a new one if none is open. -/
theorem feed_of_continues (h : a.step c.state s ≠ failed) :
    c.feed a s = (none, {
      index := c.index + 1
      state := a.step c.state s
      start := some c.frontier
      accepted := if a.isAccepting (a.step c.state s) then some c.index else c.accepted }) := by
  simp [feed, frontier, h]

/-- A symbol that breaks the open run is read again without it. -/
theorem feed_of_breaks (h : a.step c.state s = failed) :
    c.feed a s = (c.pending a c.state, (c.restart.feed a s).2) := by
  by_cases hs : a.step initial s = failed
  · simp [feed, restart, h, hs]
  · simp [feed, restart, h, hs]

theorem feed_of_fails (ha : a.isAccepting failed = false) (hstate : c.state = initial)
    (hstart : c.start = none) (h : a.step initial s = failed) :
    c.feed a s = (none, { c with index := c.index + 1 }) := by
  simp [feed, pending, hstate, hstart, h, ha]

/-- A symbol that continues a run moves its end on and leaves the frontier where it is. -/
theorem Reached.feed_of_continues (hc : Reached a input c) (hlt : c.index < input.length)
    (h : a.step c.state input[c.index] ≠ failed) :
    Reached a input (c.feed a input[c.index]).2 ∧
      (c.feed a input[c.index]).2.frontier = c.frontier := by
  have hle := hc.frontier_le
  have hnext : a.step c.state input[c.index] = a.stateOver input c.frontier (c.index + 1) := by
    rw [Automaton.stateOver_succ hle hlt, hc.state_eq]
  rw [Cursor.feed_of_continues h]
  refine ⟨?_, rfl⟩
  constructor
  case index_le => exact hlt
  case start_lt =>
    intro i hi
    cases hi
    exact Nat.lt_succ_of_le hle
  case state_eq => exact hnext
  case not_failed =>
    change ∀ j, c.frontier ≤ j → j < c.index + 1 → a.stateOver input c.frontier (j + 1) ≠ failed
    intro j hj hjlt
    rcases Nat.lt_succ_iff_lt_or_eq.mp hjlt with hlt | rfl
    · exact hc.not_failed j hj hlt
    · rw [← hnext]
      exact h
  case accepted_lt =>
    intro k hk
    change (if _ then _ else _) = some k at hk
    split at hk
    · cases hk
      exact Nat.lt_succ_self _
    · exact Nat.lt_succ_of_lt (hc.accepted_lt k hk)
  case accepted_eq =>
    change (if _ then _ else _ : Option Nat).filter (c.frontier ≤ ·) =
      a.lastAccepted input c.frontier (c.index + 1)
    rw [Automaton.lastAccepted_succ hle, ← hnext]
    split
    · rw [Option.filter_some, if_pos (by simpa using hle)]
    · exact hc.accepted_eq

/-- Reading a symbol reports the segment that ends before it, if any. -/
theorem Reached.feed (ha : a.isAccepting failed = false) (hc : Reached a input c)
    (hlt : c.index < input.length) :
    Reached a input (c.feed a input[c.index]).2 ∧
      a.segments input c.frontier =
        (c.feed a input[c.index]).1.toList ++
          a.segments input (c.feed a input[c.index]).2.frontier := by
  by_cases h : a.step c.state input[c.index] = failed
  · rw [feed_of_breaks h, hc.segments_frontier fun _ => h]
    by_cases hs : a.step initial input[c.index] = failed
    · rw [feed_of_fails ha rfl rfl hs, Automaton.segments_of_failed hlt hs]
      refine ⟨reached_of_idle hlt rfl rfl fun k hk => ?_, rfl⟩
      exact Nat.lt_succ_of_lt (hc.accepted_lt k hk)
    · obtain ⟨hreached, hfrontier⟩ := hc.restart.feed_of_continues hlt hs
      refine ⟨hreached, ?_⟩
      rw [show (c.restart.feed a input[c.index]).2.frontier = c.index from hfrontier]
  · obtain ⟨hreached, hfrontier⟩ := hc.feed_of_continues hlt h
    refine ⟨hreached, ?_⟩
    rw [hfrontier, Cursor.feed_of_continues h]
    rfl

/-- Reading on reports the next segment that ends inside the input, if any. -/
theorem Reached.feedAll (ha : a.isAccepting failed = false) (hc : Reached a input c) :
    ∃ report c', c.feedAll a (input.drop c.index) = (report, input.drop c'.index, c') ∧
      Reached a input c' ∧
      a.segments input c.frontier = report.toList ++ a.segments input c'.frontier ∧
      (report = none → c'.index = input.length) := by
  generalize hrest : input.drop c.index = rest
  induction rest generalizing c with
  | nil =>
    have hend : c.index = input.length :=
      Nat.le_antisymm hc.index_le (List.drop_eq_nil_iff.mp hrest)
    exact ⟨none, c, by rw [hrest]; rfl, hc, rfl, fun _ => hend⟩
  | cons s rest ih =>
    have hlt : c.index < input.length := by
      apply Nat.lt_of_not_le
      intro hge
      rw [List.drop_eq_nil_of_le hge] at hrest
      cases hrest
    rw [List.drop_eq_getElem_cons hlt] at hrest
    obtain ⟨rfl, rfl⟩ := List.cons.inj hrest
    obtain ⟨hreached, hsegments⟩ := hc.feed ha hlt
    have hindex : (c.feed a input[c.index]).2.index = c.index + 1 := rfl
    rw [Cursor.feedAll]
    generalize c.feed a input[c.index] = fed at hreached hsegments hindex ⊢
    obtain ⟨_ | run, next⟩ := fed
    · obtain ⟨report, c', hall, hc', hrun, hlast⟩ := ih hreached (by rw [hindex])
      exact ⟨report, c', hall, hc', hsegments.trans hrun, hlast⟩
    · exact ⟨some run, next, by rw [hindex], hreached, hsegments, fun h => by cases h⟩

end Cursor

namespace Scanner

/-- What holds of a scan between two calls. A scan that is flushed has read its input. -/
structure Reached (a : Automaton) (input : List Symbol) (scan : Scanner) : Prop where
  cursor : scan.cursor.Reached a input
  rest_eq : scan.rest = input.drop scan.cursor.index
  rest_flushed : scan.flushed = true → scan.rest = []

/-- The runs that a scan has not reported yet. -/
def owed (a : Automaton) (input : List Symbol) (scan : Scanner) : List Run :=
  if scan.flushed then [] else a.segments input scan.cursor.frontier

theorem reached_start : Reached a input { rest := input } where
  cursor := Cursor.reached_start
  rest_eq := rfl
  rest_flushed h := by cases h

theorem Reached.next (ha : a.isAccepting failed = false) (hscan : Reached a input scan) :
    Reached a input (scan.next a).2 ∧ (scan.next a).1 = (scan.owed a input).head? ∧
      (scan.next a).2.owed a input = (scan.owed a input).tail := by
  obtain ⟨report, c, hall, hc, hsegments, hlast⟩ := hscan.cursor.feedAll ha
  rw [← hscan.rest_eq] at hall
  have hdone : report = none → input.drop c.index = [] := fun h =>
    List.drop_eq_nil_of_le (Nat.le_of_eq (hlast h).symm)
  unfold Scanner.next owed
  rw [hall]
  cases report with
  | some run =>
    have hopen : scan.flushed = false := by
      apply Bool.eq_false_iff.mpr
      intro hflushed
      rw [hscan.rest_flushed hflushed] at hall
      cases hall
    rw [hopen, hsegments]
    exact ⟨⟨hc, rfl, fun h => by cases h⟩, rfl, rfl⟩
  | none =>
    refine ⟨⟨hc, rfl, fun _ => hdone rfl⟩, ?_⟩
    cases scan.flushed with
    | true => exact ⟨rfl, rfl⟩
    | false =>
      -- At the end of the input the open run is the only one that is still owed.
      have hopen : a.segments input c.frontier = (c.pending a c.state).toList := by
        rw [hc.segments_frontier fun h => absurd h (by rw [hlast rfl]; exact Nat.lt_irrefl _),
          Automaton.segments_of_ge (Nat.le_of_eq (hlast rfl).symm), List.append_nil]
      have howed : a.segments input scan.cursor.frontier = (c.pending a c.state).toList :=
        hsegments.trans hopen
      change c.pending a c.state = (a.segments input scan.cursor.frontier).head? ∧
        [] = (a.segments input scan.cursor.frontier).tail
      rw [howed]
      cases c.pending a c.state <;> exact ⟨rfl, rfl⟩

/-- The result of the call after `n` earlier ones. -/
def nth (a : Automaton) : Nat → Scanner → Option Run
  | 0, scan => (scan.next a).1
  | n + 1, scan => nth a n (scan.next a).2

theorem Reached.nth_eq (ha : a.isAccepting failed = false) (hscan : Reached a input scan)
    (n : Nat) : nth a n scan = (scan.owed a input)[n]? := by
  induction n generalizing scan with
  | zero =>
    rw [nth, (hscan.next ha).2.1, List.head?_eq_getElem?]
  | succ n ih =>
    obtain ⟨hnext, -, howed⟩ := hscan.next ha
    rw [nth, ih hnext, howed, List.getElem?_tail]

theorem runs_of_some {run : Run} {after : Scanner} (h : scan.next a = (some run, after)) :
    scan.runs a = run :: after.runs a := by
  rw [Scanner.runs]
  split
  · next found later hfound =>
    obtain ⟨hrun, rfl⟩ := Prod.mk.inj (hfound.symm.trans h)
    exact congrArg (· :: later.runs a) (Option.some.inj hrun)
  · next later hfound =>
    rw [hfound] at h
    cases h

theorem runs_of_none {after : Scanner} (h : scan.next a = (none, after)) : scan.runs a = [] := by
  rw [Scanner.runs]
  split
  · next found later hfound =>
    rw [hfound] at h
    cases h
  · rfl

theorem Reached.runs_eq (ha : a.isAccepting failed = false) (hscan : Reached a input scan) :
    scan.runs a = scan.owed a input := by
  induction howed : scan.owed a input generalizing scan with
  | nil =>
    obtain ⟨-, hreport, -⟩ := hscan.next ha
    rw [howed] at hreport
    exact runs_of_none (Prod.ext hreport rfl)
  | cons run rest ih =>
    obtain ⟨hnext, hreport, htail⟩ := hscan.next ha
    rw [howed] at hreport htail
    rw [runs_of_some (Prod.ext hreport rfl), ih hnext htail]

end Scanner

/-- Where a list is split is either in front of its head or behind it. -/
theorem exists_split_cons_iff {α : Type} {P : α → Prop} {Q : List α → α → Prop} {y : α}
    {ys : List α} :
    (∃ front x back, y :: ys = front ++ x :: back ∧ (∀ z ∈ front, P z) ∧ Q front x) ↔
      Q [] y ∨ P y ∧ ∃ front x back, ys = front ++ x :: back ∧ (∀ z ∈ front, P z) ∧
        Q (y :: front) x := by
  constructor
  · rintro ⟨_ | ⟨_, front⟩, x, back, heq, hfront, hx⟩
    · obtain ⟨rfl, -⟩ := List.cons.inj heq
      exact .inl hx
    · obtain ⟨rfl, rfl⟩ := List.cons.inj heq
      obtain ⟨hy, hfront⟩ := List.forall_mem_cons.mp hfront
      exact .inr ⟨hy, front, x, back, rfl, hfront, hx⟩
  · rintro (hy | ⟨hy, front, x, back, rfl, hfront, hx⟩)
    · exact ⟨[], y, ys, rfl, nofun, hy⟩
    · exact ⟨y :: front, x, back, rfl, List.forall_mem_cons.mpr ⟨hy, hfront⟩, hx⟩

theorem firstOutside_eq_some_iff {alphabet index : Nat} {e : RangeError} :
    firstOutside alphabet index input = some e ↔
      ∃ front s back, input = front ++ s :: back ∧ (∀ x ∈ front, x.toNat < alphabet) ∧
        alphabet ≤ s.toNat ∧ e = ⟨s, alphabet, some (index + front.length)⟩ := by
  induction input generalizing index with
  | nil => simp [firstOutside]
  | cons s rest ih =>
    rw [firstOutside, exists_split_cons_iff (Q := fun front s =>
      alphabet ≤ s.toNat ∧ e = ⟨s, alphabet, some (index + front.length)⟩)]
    by_cases hs : s.toNat < alphabet
    · simp [hs, ih, Nat.not_le.mpr hs, Nat.add_assoc, Nat.add_comm 1]
    · simp [hs, Nat.not_lt.mp hs, eq_comm]

theorem Automaton.scan_eq_error_iff {e : RangeError} :
    a.scan input = .error e ↔
      ∃ front s back, input = front ++ s :: back ∧ (∀ x ∈ front, x.toNat < a.alphabet) ∧
        a.alphabet ≤ s.toNat ∧ e = ⟨s, a.alphabet, some front.length⟩ := by
  have hfirst := @firstOutside_eq_some_iff input a.alphabet 0 e
  simp only [Nat.zero_add] at hfirst
  rw [← hfirst, scan]
  cases firstOutside a.alphabet 0 input <;> simp

theorem Automaton.scan_eq_ok (hin : ∀ s ∈ input, s.toNat < a.alphabet) :
    a.scan input = .ok { rest := input } := by
  rw [scan, firstOutside_eq_none_iff.mpr hin]

/-- A scan starts in front of an input only if the input is in range. -/
theorem Automaton.eq_of_scan_eq_ok (h : a.scan input = .ok scan) :
    scan = { rest := input } ∧ ∀ s ∈ input, s.toNat < a.alphabet := by
  unfold Automaton.scan at h
  split at h
  · next hin => exact ⟨(Except.ok.inj h).symm, firstOutside_eq_none_iff.mp hin⟩
  · cases h

theorem Automaton.runs_eq_segments (ha : a.isAccepting failed = false)
    (hin : ∀ s ∈ input, s.toNat < a.alphabet) : a.runs input = .ok (a.segments input 0) := by
  rw [runs, scan_eq_ok hin]
  exact congrArg Except.ok (Scanner.reached_start.runs_eq ha)

variable {h : Host} {statements : List Statement}

/-- The calls of a scan report the segments of its input, one each and in order, and nothing
after them. -/
theorem nth_scan_eq_segments (ha : h.compile statements = .ok a)
    (hin : ∀ s ∈ input, s.toNat < a.alphabet) :
    ∃ scan, a.scan input = .ok scan ∧ (∀ n, scan.nth a n = (a.segments input 0)[n]?) ∧
      a.runs input = .ok (a.segments input 0) := by
  have hfailed := isAccepting_failed ha
  exact ⟨_, Automaton.scan_eq_ok hin, Scanner.reached_start.nth_eq hfailed,
    Automaton.runs_eq_segments hfailed hin⟩

theorem nth_scan_sampleRules :
    ∃ a scan, ({} : Host).compile sampleRules = .ok a ∧
      a.scan [1, 0, 1, 0, 1, 1, 0] = .ok scan ∧
      scan.nth a 0 = some ⟨1, 4, ∅⟩ ∧ scan.nth a 1 = some ⟨6, 6, {"coda"}⟩ ∧
      ∀ n, scan.nth a (n + 2) = none := by
  obtain ⟨a, ha, halphabet, hruns⟩ := compile_sampleRules
    (fun a => a.runs [1, 0, 1, 0, 1, 1, 0] = .ok [⟨1, 4, ∅⟩, ⟨6, 6, {"coda"}⟩]) (by decide +kernel)
  have hin : ∀ s ∈ [(1 : Symbol), 0, 1, 0, 1, 1, 0], s.toNat < a.alphabet := by simp [halphabet]
  obtain ⟨scan, hscan, hnth, hall⟩ := nth_scan_eq_segments ha hin
  have hsegments := Except.ok.inj (hruns.symm.trans hall)
  rw [← hsegments] at hnth
  exact ⟨a, scan, ha, hscan, hnth 0, hnth 1, fun n => hnth (n + 2)⟩

end RunGrammar
