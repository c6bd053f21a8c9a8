import RunGrammar.Proofs.LongestRuns

/-! The runs of two inputs read one after the other. What comes later changes the last run only:
the runs before it stay as they are, and it may go on. A symbol that the entry rule does not have
ends every run, so the parts of an input before and behind it are divided as if each were an
input of its own. -/
namespace RunGrammar

variable {a : Automaton} {input x y : List Symbol} {i j k l : Nat}

theorem lt_length_append (hi : i < x.length) : i < (x ++ y).length :=
  List.length_append ▸ Nat.lt_add_right _ hi

theorem lt_length_append_cons (x : List Symbol) (c : Symbol) (y : List Symbol) :
    x.length < (x ++ c :: y).length :=
  List.length_append ▸ Nat.lt_add_of_pos_right (Nat.succ_pos y.length)

theorem add_lt_length_append (hi : i < y.length) : x.length + i < (x ++ y).length :=
  List.length_append ▸ Nat.add_lt_add_left hi _

theorem symbolsBetween_append_left (hj : j ≤ x.length) :
    symbolsBetween (x ++ y) i j = symbolsBetween x i j := by
  rw [symbolsBetween, symbolsBetween]
  rcases Nat.le_total i j with hij | hji
  · rw [List.drop_append_of_le_length (Nat.le_trans hij hj), List.take_append_of_le_length]
    rw [List.length_drop]
    exact Nat.sub_le_sub_right hj i
  · rw [Nat.sub_eq_zero_of_le hji, List.take_zero, List.take_zero]

theorem symbolsBetween_append_right :
    symbolsBetween (x ++ y) (x.length + i) (x.length + j) = symbolsBetween y i j := by
  rw [symbolsBetween, symbolsBetween, List.drop_append,
    List.drop_eq_nil_of_le (Nat.le_add_right _ _), Nat.add_sub_cancel_left, Nat.add_sub_add_left,
    List.nil_append]

namespace Automaton

theorem stateOver_append_left (hj : j ≤ x.length) :
    a.stateOver (x ++ y) i j = a.stateOver x i j := by
  rw [stateOver, symbolsBetween_append_left hj, stateOver]

theorem stateOver_append_right :
    a.stateOver (x ++ y) (x.length + i) (x.length + j) = a.stateOver y i j := by
  rw [stateOver, symbolsBetween_append_right, stateOver]

theorem lastAccepted_append_left (hj : j ≤ x.length) :
    a.lastAccepted (x ++ y) i j = a.lastAccepted x i j := by
  rw [lastAccepted, lastAccepted]
  congr 1
  apply List.filter_congr
  intro k hk
  rw [List.mem_range'_1] at hk
  rw [stateOver_append_left (by omega)]

theorem lastAccepted_append_right (hij : i ≤ j) :
    a.lastAccepted (x ++ y) (x.length + i) (x.length + j) =
      (a.lastAccepted y i j).map (x.length + ·) := by
  induction hij with
  | refl => rw [lastAccepted_self, lastAccepted_self, Option.map_none]
  | @step j hij ih =>
    rw [lastAccepted_succ hij, Nat.add_succ, lastAccepted_succ (Nat.add_le_add_left hij _), ih,
      Nat.add_assoc, stateOver_append_right]
    split <;> rfl

theorem exists_lastAccepted_of_le (hij : i ≤ j) (hk : a.lastAccepted input i j = some k)
    (hjl : j ≤ l) : ∃ k', a.lastAccepted input i l = some k' ∧ k ≤ k' := by
  obtain ⟨⟨hik, hkj⟩, haccept, -⟩ := (lastAccepted_eq_some_iff hij).mp hk
  obtain ⟨k', hk'⟩ := exists_lastAccepted hik (Nat.lt_of_lt_of_le hkj hjl) haccept
  refine ⟨k', hk', ?_⟩
  obtain ⟨-, -, hlater⟩ := (lastAccepted_eq_some_iff (Nat.le_trans hij hjl)).mp hk'
  apply Nat.le_of_not_lt
  intro hlt
  rw [hlater k hlt (by omega)] at haccept
  cases haccept

/-- A run ends where it did, unless it reaches the end of the first input and goes on. -/
theorem runEnd_append_left (hi : i < x.length)
    (hend : a.runEnd x i = x.length → x.length < (x ++ y).length →
      a.stateOver (x ++ y) i (x.length + 1) = failed) :
    a.runEnd (x ++ y) i = a.runEnd x i := by
  obtain ⟨hlt, hle, hfail, hbefore⟩ := runEnd_spec a hi
  apply runEnd_eq hlt
  · rw [List.length_append]
    exact Nat.le_add_right_of_le hle
  · intro hlength
    rcases Nat.lt_or_eq_of_le hle with hin | hout
    · rw [stateOver_append_left hin]
      exact hfail hin
    · rw [hout] at hlength ⊢
      exact hend hout hlength
  · intro k hik hk
    rw [stateOver_append_left (Nat.lt_of_lt_of_le hk hle)]
    exact hbefore k hik hk

theorem runEnd_le_append (hi : i < x.length) : a.runEnd x i ≤ a.runEnd (x ++ y) i := by
  obtain ⟨-, hle, -, hbefore⟩ := runEnd_spec a hi
  obtain ⟨hlt, -, hfail, -⟩ := runEnd_spec a (lt_length_append (y := y) hi)
  apply Nat.le_of_not_lt
  intro hshort
  have hin : a.runEnd (x ++ y) i < x.length := Nat.lt_of_lt_of_le hshort hle
  apply hbefore _ hlt hshort
  rw [← stateOver_append_left (y := y) hin]
  exact hfail (lt_length_append hin)

theorem runEnd_append_right (hi : i < y.length) :
    a.runEnd (x ++ y) (x.length + i) = x.length + a.runEnd y i := by
  obtain ⟨hlt, hle, hfail, hbefore⟩ := runEnd_spec a hi
  apply runEnd_eq (Nat.add_lt_add_left hlt _)
  · rw [List.length_append]
    exact Nat.add_le_add_left hle _
  · intro hlength
    rw [List.length_append] at hlength
    rw [Nat.add_assoc, stateOver_append_right]
    exact hfail (Nat.lt_of_add_lt_add_left hlength)
  · intro k hik hk
    obtain ⟨k, rfl⟩ : ∃ m, k = x.length + m := Nat.exists_eq_add_of_le (by omega)
    rw [Nat.add_assoc, stateOver_append_right]
    exact hbefore k (Nat.lt_of_add_lt_add_left hik) (Nat.lt_of_add_lt_add_left hk)

end Automaton

/-- Whether `later` has all runs but the last one, and then one that the last one is the beginning
of. -/
inductive Continued : List Run → List Run → Prop
  | nil (later : List Run) : Continued [] later
  | last {r r' : Run} (later : List Run) (hfirst : r'.first = r.first) (hlast : r.last ≤ r'.last) :
      Continued [r] (r' :: later)
  | cons {runs later : List Run} (r : Run) (h : Continued runs later) :
      Continued (r :: runs) (r :: later)

namespace Continued

variable {runs later : List Run} {r : Run}

theorem append (reports : List Run) (h : Continued runs later) :
    Continued (reports ++ runs) (reports ++ later) := by
  induction reports with
  | nil => exact h
  | cons r reports ih => exact ih.cons r

theorem dropLast_prefix (h : Continued runs later) : runs.dropLast <+: later := by
  induction h with
  | nil later => exact List.nil_prefix
  | last later hfirst hlast => exact List.nil_prefix
  | @cons runs later r h ih =>
    cases runs with
    | nil => exact List.nil_prefix
    | cons next rest => exact List.cons_prefix_cons.mpr ⟨rfl, ih⟩

theorem exists_getElem? (h : Continued runs later) (hr : runs.getLast? = some r) :
    ∃ r', later[runs.length - 1]? = some r' ∧ r'.first = r.first ∧ r.last ≤ r'.last := by
  induction h with
  | nil later => cases hr
  | last later hfirst hlast =>
    obtain rfl := Option.some.inj hr
    exact ⟨_, rfl, hfirst, hlast⟩
  | @cons runs later first h ih =>
    cases runs with
    | nil =>
      obtain rfl := Option.some.inj hr
      exact ⟨_, rfl, rfl, Nat.le_refl _⟩
    | cons next rest => exact ih hr

end Continued

namespace Automaton

theorem segments_append_of_failed (hi : i < x.length) (h : a.step initial x[i] = failed) :
    a.segments (x ++ y) i = a.segments (x ++ y) (i + 1) := by
  apply segments_of_failed (lt_length_append hi)
  rw [List.getElem_append_left hi]
  exact h

theorem segments_append_of_run (hi : i < x.length) (h : a.step initial x[i] ≠ failed)
    (hj : a.runEnd (x ++ y) i = j) :
    a.segments (x ++ y) i =
      ((a.lastAccepted (x ++ y) i j).map fun k =>
        { first := i, last := k, tags := (a.tags? (a.stateOver (x ++ y) i j)).getD ∅ : Run }).toList
      ++ a.segments (x ++ y) j := by
  apply segments_of_run (lt_length_append hi) _ hj
  rw [List.getElem_append_left hi]
  exact h

/-- What is read later continues the last segment or comes behind it. -/
theorem segments_append (a : Automaton) (x y : List Symbol) (i : Nat) :
    Continued (a.segments x i) (a.segments (x ++ y) i) := by
  induction i using segments.induct a x with
  | case1 i hi hfail ih =>
    rw [segments_of_failed hi hfail, segments_append_of_failed hi hfail]
    exact ih
  | case2 i hi hrun j ih =>
    obtain ⟨-, hle, -, -⟩ := runEnd_spec a hi
    rcases Nat.lt_or_eq_of_le hle with hin | hout
    · have hend := runEnd_append_left (y := y) hi fun h => absurd h (Nat.ne_of_lt hin)
      rw [segments_of_run hi hrun rfl, segments_append_of_run hi hrun hend,
        lastAccepted_append_left hle, stateOver_append_left hle]
      exact ih.append _
    · -- The run reaches the end of `x`, so it may go on in `y`.
      rw [segments_of_run hi hrun hout, segments_of_ge (Nat.le_refl _), List.append_nil,
        segments_append_of_run hi hrun rfl]
      cases hk : a.lastAccepted x i x.length with
      | none => exact .nil _
      | some k =>
        rw [← lastAccepted_append_left (y := y) (Nat.le_refl _)] at hk
        obtain ⟨k', hk', hkk'⟩ := exists_lastAccepted_of_le (Nat.le_of_lt hi) hk
          (hout ▸ runEnd_le_append hi)
        rw [hk']
        exact .last _ rfl hkk'
  | case3 i hi =>
    rw [segments_of_ge (Nat.le_of_not_lt hi)]
    exact .nil _

end Automaton

variable {h : Host} {statements : List Statement} {e : Expr} {c : Symbol}

/-- What is read later leaves all runs but the last one as they are, and the last one keeps its
place and its first symbol and does not get shorter. -/
theorem runs_append (ha : h.compile statements = .ok a)
    (hx : ∀ s ∈ x, s.toNat < a.alphabet) (hy : ∀ s ∈ y, s.toNat < a.alphabet) :
    ∃ runs later, a.runs x = .ok runs ∧ a.runs (x ++ y) = .ok later ∧
      runs.dropLast <+: later ∧
      ∀ r, runs.getLast? = some r →
        ∃ r', later[runs.length - 1]? = some r' ∧ r'.first = r.first ∧ r.last ≤ r'.last := by
  have hreject := isAccepting_failed ha
  have hxy : ∀ s ∈ x ++ y, s.toNat < a.alphabet := List.forall_mem_append.mpr ⟨hx, hy⟩
  have hcontinued := a.segments_append x y 0
  exact ⟨_, _, Automaton.runs_eq_segments hreject hx, Automaton.runs_eq_segments hreject hxy,
    hcontinued.dropLast_prefix, fun r hr => hcontinued.exists_getElem? hr⟩

theorem runs_append_sampleRules :
    ∃ a later r, ({} : Host).compile sampleRules = .ok a ∧
      a.runs [0, 1, 1, 0] = .ok [⟨0, 1, ∅⟩, ⟨3, 3, {"coda"}⟩] ∧
      a.runs ([0, 1, 1, 0] ++ [1, 0]) = .ok later ∧
      later[0]? = some ⟨0, 1, ∅⟩ ∧ later[1]? = some r ∧ r.first = 3 ∧ 3 ≤ r.last := by
  obtain ⟨a, ha, halphabet, hruns⟩ := compile_sampleRules
    (fun a => a.runs [0, 1, 1, 0] = .ok [⟨0, 1, ∅⟩, ⟨3, 3, {"coda"}⟩]) (by decide +kernel)
  have hx : ∀ s ∈ [(0 : Symbol), 1, 1, 0], s.toNat < a.alphabet := by simp [halphabet]
  have hy : ∀ s ∈ [(1 : Symbol), 0], s.toNat < a.alphabet := by simp [halphabet]
  obtain ⟨runs, later, hall, hlater, hprefix, hlast⟩ := runs_append ha hx hy
  obtain rfl := Except.ok.inj (hruns.symm.trans hall)
  obtain ⟨r, hr, hfirst, hle⟩ := hlast _ rfl
  obtain ⟨rest, rfl⟩ := hprefix
  exact ⟨a, _, r, ha, hruns, hlater, rfl, hr, hfirst, hle⟩

/-- The run `n` symbols later. -/
def Run.shift (n : Nat) (r : Run) : Run := ⟨r.first + n, r.last + n, r.tags⟩

namespace Automaton

/-- Behind other symbols an input is divided as it is alone. -/
theorem segments_append_right (a : Automaton) (x y : List Symbol) (i : Nat) :
    a.segments (x ++ y) (x.length + i) = (a.segments y i).map (Run.shift x.length) := by
  induction i using segments.induct a y with
  | case1 i hi hfail ih =>
    have hi' : x.length + i < (x ++ y).length := add_lt_length_append hi
    rw [segments_of_failed hi hfail, segments_of_failed hi', Nat.add_assoc]
    · exact ih
    · rw [List.getElem_append_right (Nat.le_add_right _ _)]
      simpa using hfail
  | case2 i hi hrun j ih =>
    have hi' : x.length + i < (x ++ y).length := add_lt_length_append hi
    have hrun' : a.step initial (x ++ y)[x.length + i] ≠ failed := by
      rw [List.getElem_append_right (Nat.le_add_right _ _)]
      simpa using hrun
    have hij : i ≤ j := Nat.le_of_lt (runEnd_spec a hi).1
    rw [segments_of_run hi hrun rfl, segments_of_run hi' hrun' (runEnd_append_right hi),
      lastAccepted_append_right hij, stateOver_append_right, ih, List.map_append]
    congr 1
    cases a.lastAccepted y i j with
    | none => rfl
    | some k => simp [Run.shift, Nat.add_comm]
  | case3 i hi =>
    rw [segments_of_ge (Nat.le_of_not_lt hi), segments_of_ge, List.map_nil]
    rw [List.length_append]
    exact Nat.add_le_add_left (Nat.le_of_not_lt hi) _

theorem stateOver_append_cons (hi : i ≤ x.length) :
    a.stateOver (x ++ c :: y) i (x.length + 1) = a.step (a.stateOver x i x.length) c := by
  rw [stateOver_succ hi (lt_length_append_cons x c y), stateOver_append_left (Nat.le_refl _)]
  simp

/-- A symbol over which each run fails divides an input in two. -/
theorem segments_separator (hsep : ∀ i ≤ x.length, a.step (a.stateOver x i x.length) c = failed)
    (hi : i ≤ x.length) :
    a.segments (x ++ c :: y) i =
      a.segments x i ++ a.segments (x ++ c :: y) (x.length + 1) := by
  induction i using segments.induct a x with
  | case1 i hlt hfail ih =>
    rw [segments_of_failed hlt hfail, segments_append_of_failed hlt hfail]
    exact ih hlt
  | case2 i hlt hrun j ih =>
    -- A run that reaches the end of `x` fails over `c`, so it is reported there.
    obtain ⟨-, hle, -, -⟩ := runEnd_spec a hlt
    have hend := runEnd_append_left (y := c :: y) hlt fun _ _ =>
      (stateOver_append_cons hi).trans (hsep i hi)
    rw [segments_of_run hlt hrun rfl, segments_append_of_run hlt hrun hend,
      lastAccepted_append_left hle, stateOver_append_left hle, ih hle, List.append_assoc]
  | case3 i hge =>
    obtain rfl : i = x.length := Nat.le_antisymm hi (Nat.le_of_not_lt hge)
    have hlength : x.length < (x ++ c :: y).length := lt_length_append_cons x c y
    rw [segments_of_ge (Nat.le_refl _), List.nil_append, segments_of_failed hlength]
    rw [← stateOver_first hlength, stateOver_append_cons hi]
    exact hsep _ hi

end Automaton

/-- No state goes on over a symbol that the entry rule does not have. -/
theorem step_stateAfter_eq_failed {w : List Symbol} (ha : h.compile statements = .ok a)
    (he : h.entry statements = .ok e) (hfree : .symbol c ∉ e.leaves)
    (hw : ∀ s ∈ w, s.toNat < a.alphabet) (hc : c.toNat < a.alphabet) :
    a.step (a.stateAfter initial w) c = failed := by
  have hwc : ∀ s ∈ w ++ [c], s.toNat < a.alphabet :=
    List.forall_mem_append.mpr ⟨hw, List.forall_mem_singleton.mpr hc⟩
  obtain ⟨-, n, hn, -, -, hfailed⟩ := exists_state_of_compile ha he hwc
  rw [← Automaton.stateAfter_concat, Automaton.stateAfter_of_foldlM hn, hfailed,
    Positions.afterWord, List.foldl_append]
  apply Std.ExtTreeSet.eq_empty_iff_forall_not_mem.mpr
  intro p hp
  obtain ⟨q, -, hq, -⟩ := Positions.mem_after.mp hp
  exact hfree (Expr.mem_leaves_of_symbol? hq)

/-- The runs of two inputs with a symbol between them that the entry rule does not have are the
runs of the one and then those of the other. -/
theorem runs_separator (ha : h.compile statements = .ok a)
    (he : h.entry statements = .ok e) (hfree : .symbol c ∉ e.leaves) (hc : c.toNat < a.alphabet)
    (hx : ∀ s ∈ x, s.toNat < a.alphabet) (hy : ∀ s ∈ y, s.toNat < a.alphabet) :
    ∃ front back, a.runs x = .ok front ∧ a.runs y = .ok back ∧
      a.runs (x ++ [c] ++ y) = .ok (front ++ back.map (Run.shift (x.length + 1))) := by
  have hreject := isAccepting_failed ha
  have hxcy : ∀ s ∈ x ++ [c] ++ y, s.toNat < a.alphabet :=
    List.forall_mem_append.mpr
      ⟨List.forall_mem_append.mpr ⟨hx, List.forall_mem_singleton.mpr hc⟩, hy⟩
  have hsep : ∀ i ≤ x.length, a.step (a.stateOver x i x.length) c = failed := by
    intro i _
    apply step_stateAfter_eq_failed ha he hfree _ hc
    exact fun s hs => hx s (mem_of_mem_symbolsBetween hs)
  have hback : a.segments (x ++ [c] ++ y) (x.length + 1) =
      (a.segments y 0).map (Run.shift (x.length + 1)) := by
    have hshift := a.segments_append_right (x ++ [c]) y 0
    rwa [List.length_append, List.length_singleton, Nat.add_zero] at hshift
  refine ⟨_, _, Automaton.runs_eq_segments hreject hx, Automaton.runs_eq_segments hreject hy, ?_⟩
  rw [Automaton.runs_eq_segments hreject hxcy, ← hback, List.append_assoc, List.singleton_append,
    Automaton.segments_separator hsep (Nat.zero_le _)]

theorem runs_separator_sampleRules :
    ∃ a, (⟨[], 3⟩ : Host).compile sampleRules = .ok a ∧ .symbol 2 ∉ sampleEntry.leaves ∧
      a.runs [0, 1, 0] = .ok [⟨0, 2, {"coda"}⟩] ∧ a.runs [1, 0] = .ok [⟨1, 1, {"coda"}⟩] ∧
      a.runs ([0, 1, 0] ++ [2] ++ [1, 0]) = .ok [⟨0, 2, {"coda"}⟩, ⟨5, 5, {"coda"}⟩] := by
  obtain ⟨a, ha, halphabet, hfront, hback⟩ := exists_of_map_decide_eq_ok
    (m := (⟨[], 3⟩ : Host).compile sampleRules)
    (p := fun a => a.alphabet = 3 ∧ a.runs [0, 1, 0] = .ok [⟨0, 2, {"coda"}⟩] ∧
      a.runs [1, 0] = .ok [⟨1, 1, {"coda"}⟩]) (by decide +kernel)
  have hentry : (⟨[], 3⟩ : Host).entry sampleRules = .ok sampleEntry := by decide +kernel
  have hfree : .symbol 2 ∉ sampleEntry.leaves := by decide
  have hx : ∀ s ∈ [(0 : Symbol), 1, 0], s.toNat < a.alphabet := by simp [halphabet]
  have hy : ∀ s ∈ [(1 : Symbol), 0], s.toNat < a.alphabet := by simp [halphabet]
  obtain ⟨front, back, hfront', hback', hall⟩ :=
    runs_separator ha hentry hfree (halphabet ▸ by decide) hx hy
  obtain rfl := Except.ok.inj (hfront.symm.trans hfront')
  obtain rfl := Except.ok.inj (hback.symm.trans hback')
  exact ⟨a, ha, hfree, hfront, hback, hall⟩

end RunGrammar
