import RunGrammar.Proofs.Scanning

/-! The runs of a compiled automaton. Each run is a word of the entry rule that no longer part
of the input from the same place is, runs follow each other without overlap, and an input
that begins with a word begins with a run. The failed state is not left again, so a run that
has failed cannot be accepted later. -/
namespace RunGrammar

variable {a : Automaton} {input : List Symbol} {i j k : Nat} {r : Run}

namespace Automaton

theorem stateOver_failed_of_le (hfailed : ∀ s, a.step failed s = failed) (hij : i ≤ j)
    (hj : a.stateOver input i j = failed) (hjk : j ≤ k) (hk : k ≤ input.length) :
    a.stateOver input i k = failed := by
  induction hjk with
  | refl => exact hj
  | @step k hjk ih =>
    have hlt : k < input.length := hk
    rw [stateOver_succ (Nat.le_trans hij hjk) hlt, ih (Nat.le_of_lt hlt), hfailed]

theorem exists_lastAccepted (hik : i ≤ k) (hkj : k < j)
    (haccept : a.isAccepting (a.stateOver input i (k + 1)) = true) :
    ∃ l, a.lastAccepted input i j = some l := by
  have hmem : k ∈ (List.range' i (j - i)).filter fun k =>
      a.isAccepting (a.stateOver input i (k + 1)) :=
    List.mem_filter.mpr ⟨List.mem_range'_1.mpr ⟨hik, by omega⟩, haccept⟩
  apply Option.ne_none_iff_exists'.mp
  intro hnone
  rw [lastAccepted, List.getLast?_eq_none_iff] at hnone
  rw [hnone] at hmem
  exact List.not_mem_nil hmem

/-- A segment is a run that does not fail at once, up to its last accepted symbol. -/
theorem mem_segments (hr : r ∈ a.segments input i) :
    i ≤ r.first ∧ r.first < input.length ∧
      a.lastAccepted input r.first (a.runEnd input r.first) = some r.last := by
  induction i using segments.induct a input with
  | case1 i hi hfail ih =>
    rw [segments_of_failed hi hfail] at hr
    obtain ⟨hle, hrun⟩ := ih hr
    exact ⟨Nat.le_of_lt hle, hrun⟩
  | case2 i hi hrun j ih =>
    rw [segments_of_run hi hrun rfl, List.mem_append, Option.mem_toList] at hr
    rcases hr with hr | hr
    · obtain ⟨k, hk, rfl⟩ := Option.map_eq_some_iff.mp hr
      exact ⟨Nat.le_refl i, hi, hk⟩
    · obtain ⟨hle, hrun⟩ := ih hr
      exact ⟨Nat.le_trans (Nat.le_of_lt (runEnd_spec a hi).1) hle, hrun⟩
  | case3 i hi =>
    rw [segments_of_ge (Nat.le_of_not_lt hi)] at hr
    exact absurd hr List.not_mem_nil

theorem pairwise_segments :
    (a.segments input i).Pairwise fun r next => r.last < next.first := by
  induction i using segments.induct a input with
  | case1 i hi hfail ih =>
    rw [segments_of_failed hi hfail]
    exact ih
  | case2 i hi hrun j ih =>
    rw [segments_of_run hi hrun rfl, List.pairwise_append]
    refine ⟨?_, ih, ?_⟩
    · cases a.lastAccepted input i j with
      | none => exact List.Pairwise.nil
      | some k => exact List.pairwise_singleton _ _
    · intro r hr next hnext
      obtain ⟨k, hk, rfl⟩ := Option.map_eq_some_iff.mp (Option.mem_toList.mp hr)
      have hlt : i < a.runEnd input i := (runEnd_spec a hi).1
      obtain ⟨⟨-, hk⟩, -⟩ := (lastAccepted_eq_some_iff (Nat.le_of_lt hlt)).mp hk
      exact Nat.lt_of_lt_of_le hk (mem_segments hnext).1
  | case3 i hi =>
    rw [segments_of_ge (Nat.le_of_not_lt hi)]
    exact List.Pairwise.nil

/-- A segment is accepted, and no longer part of the input from the same place is. -/
theorem accepting_of_mem_segments (hfailed : ∀ s, a.step failed s = failed)
    (hreject : a.isAccepting failed = false) (hr : r ∈ a.segments input i) :
    r.first ≤ r.last ∧ r.last < input.length ∧
      a.isAccepting (a.stateOver input r.first (r.last + 1)) = true ∧
      ∀ l, r.last < l → l < input.length →
        a.isAccepting (a.stateOver input r.first (l + 1)) = false := by
  obtain ⟨-, hlen, hlast⟩ := mem_segments hr
  obtain ⟨hlt, hle, hend, -⟩ := runEnd_spec a hlen
  obtain ⟨⟨hfirst, hk⟩, haccept, hlater⟩ := (lastAccepted_eq_some_iff (Nat.le_of_lt hlt)).mp hlast
  refine ⟨hfirst, Nat.lt_of_lt_of_le hk hle, haccept, ?_⟩
  intro l hkl hl
  rcases Nat.lt_or_ge l (a.runEnd input r.first) with hin | hout
  · exact hlater l hkl hin
  · -- The run has failed for good.
    have hstop := hend (Nat.lt_of_le_of_lt hout hl)
    rw [stateOver_failed_of_le hfailed (by omega) hstop (Nat.succ_le_succ hout) hl]
    exact hreject

/-- If a part of the input from some place on is accepted, a segment begins there. -/
theorem exists_head?_segments (hfailed : ∀ s, a.step failed s = failed)
    (hreject : a.isAccepting failed = false) (hik : i ≤ k) (hk : k < input.length)
    (haccept : a.isAccepting (a.stateOver input i (k + 1)) = true) :
    ∃ r, (a.segments input i).head? = some r ∧ r.first = i := by
  have hi : i < input.length := Nat.lt_of_le_of_lt hik hk
  have hrunning : ∀ j, i ≤ j → j ≤ k + 1 → a.stateOver input i j ≠ failed := by
    intro j hij hjk hj
    rw [stateOver_failed_of_le hfailed hij hj hjk hk, hreject] at haccept
    cases haccept
  have hstart : a.step initial input[i] ≠ failed := by
    rw [← stateOver_first hi]
    exact hrunning (i + 1) (Nat.le_succ i) (Nat.succ_le_succ hik)
  have hend : k < a.runEnd input i := by
    obtain ⟨hlt, -, hstop, -⟩ := runEnd_spec a hi
    apply Nat.lt_of_not_le
    intro hge
    exact hrunning _ (by omega) (Nat.succ_le_succ hge) (hstop (by omega))
  obtain ⟨l, hl⟩ := exists_lastAccepted hik hend haccept
  rw [segments_of_run hi hstart rfl, hl]
  exact ⟨_, rfl, rfl⟩

end Automaton

theorem Run.slice?_eq_symbolsBetween (hr : r.first ≤ r.last) (hlast : r.last < input.length) :
    r.slice? input = some (symbolsBetween input r.first (r.last + 1)) :=
  Run.slice?_eq_some_iff.mpr ⟨⟨Nat.le_succ_of_le hr, hlast⟩, rfl⟩

variable {h : Host} {statements : List Statement} {e : Expr}

theorem bounds_of_mem_segments (ha : h.compile statements = .ok a)
    (hr : r ∈ a.segments input i) : r.first ≤ r.last ∧ r.last < input.length := by
  obtain ⟨hfirst, hlast, -⟩ :=
    Automaton.accepting_of_mem_segments (step_failed ha) (isAccepting_failed ha) hr
  exact ⟨hfirst, hlast⟩

theorem isAccepting_stateOver_iff (ha : h.compile statements = .ok a)
    (he : h.entry statements = .ok e) (hend : .endMark ∉ e.leaves)
    (hin : ∀ s ∈ input, s.toNat < a.alphabet) :
    a.isAccepting (a.stateOver input i j) = true ↔ symbolsBetween input i j ∈ e.language := by
  apply isAccepting_stateAfter_iff ha he hend
  exact fun s hs => hin s (mem_of_mem_symbolsBetween hs)

/-- The runs of an input are words of the entry rule, as long as they can be, and follow each
other without overlap. If the input begins with a word, a run begins there. -/
theorem runs_longest (ha : h.compile statements = .ok a)
    (he : h.entry statements = .ok e) (hend : .endMark ∉ e.leaves)
    (hin : ∀ s ∈ input, s.toNat < a.alphabet) :
    ∃ runs, a.runs input = .ok runs ∧
      (∀ r ∈ runs, r.first ≤ r.last ∧ r.last < input.length ∧
        (∃ word, r.slice? input = some word ∧ word ∈ e.language) ∧
        ∀ l, r.last < l → l < input.length →
          symbolsBetween input r.first (l + 1) ∉ e.language) ∧
      runs.Pairwise (fun r next => r.last < next.first) ∧
      ∀ n, 0 < n → n ≤ input.length → input.take n ∈ e.language →
        ∃ r, runs.head? = some r ∧ r.first = 0 := by
  have hreject := isAccepting_failed ha
  refine ⟨_, Automaton.runs_eq_segments hreject hin, ?_, Automaton.pairwise_segments, ?_⟩
  · intro r hr
    obtain ⟨hfirst, hlast, haccept, hlater⟩ :=
      Automaton.accepting_of_mem_segments (step_failed ha) hreject hr
    refine ⟨hfirst, hlast, ⟨_, Run.slice?_eq_symbolsBetween hfirst hlast, ?_⟩, ?_⟩
    · exact (isAccepting_stateOver_iff ha he hend hin).mp haccept
    · intro l hl hlen hword
      have := (isAccepting_stateOver_iff ha he hend hin).mpr hword
      rw [hlater l hl hlen] at this
      cases this
  · intro n hn hlen hword
    obtain ⟨k, rfl⟩ := Nat.exists_eq_succ_of_ne_zero (Nat.ne_zero_of_lt hn)
    apply Automaton.exists_head?_segments (step_failed ha) hreject (Nat.zero_le k) hlen
    exact (isAccepting_stateOver_iff ha he hend hin).mpr hword

theorem runs_sampleRules :
    ∃ a, ({} : Host).compile sampleRules = .ok a ∧
      a.runs [0, 1, 0, 1, 1, 0] = .ok [⟨0, 3, ∅⟩, ⟨5, 5, {"coda"}⟩] ∧
      [0, 1, 0, 1] ∈ sampleEntry.language ∧ [0, 1, 0, 1, 1] ∉ sampleEntry.language := by
  obtain ⟨a, ha, halphabet, hruns⟩ := compile_sampleRules
    (fun a => a.runs [0, 1, 0, 1, 1, 0] = .ok [⟨0, 3, ∅⟩, ⟨5, 5, {"coda"}⟩]) (by decide +kernel)
  have hin : ∀ s ∈ [(0 : Symbol), 1, 0, 1, 1, 0], s.toNat < a.alphabet := by simp [halphabet]
  obtain ⟨runs, hall, hlongest, -, -⟩ := runs_longest ha entry_sampleRules (by decide) hin
  obtain rfl := Except.ok.inj (hruns.symm.trans hall)
  obtain ⟨-, -, ⟨word, hslice, hword⟩, hlater⟩ := hlongest _ List.mem_cons_self
  obtain rfl : [0, 1, 0, 1] = word := Option.some.inj hslice
  exact ⟨a, ha, hruns, hword, hlater 4 (by decide) (by decide)⟩

end RunGrammar
