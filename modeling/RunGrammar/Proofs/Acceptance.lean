import RunGrammar.Proofs.Compilation

/-! What a state says about the words that lead to it. The state that a compiled automaton
reaches over a word accepts exactly if the word belongs to the entry rule, carries exactly
the tags that may be written next, and is the failed state exactly if no word of the entry
rule goes on from there. -/
namespace RunGrammar

variable {h : Host} {statements : List Statement} {a : Automaton} {e : Expr} {w : List Symbol}

/-! A rule list with a repetition, an optional part and a tag shows what the statements say
about one automaton. -/

def sampleRules : List Statement := [
  .assign "a" (.lit 0),
  .assign "b" (.lit 1),
  .assign "syllable" (.cat (.ref "a") (.rep (.cat (.tag "coda") (.ref "b")) .opt)),
  .assign entryRule (.rep (.ref "syllable") .plus)]

def sampleEntry : Expr := .rep (.cat (.lit 0) (.rep (.cat (.tag "coda") (.lit 1)) .opt)) .plus

theorem entry_sampleRules : ({} : Host).entry sampleRules = .ok sampleEntry := by
  decide +kernel

/-- What running the automaton of the sample rules shows. -/
theorem compile_sampleRules (p : Automaton → Prop) [DecidablePred p]
    (hp : (({} : Host).compile sampleRules).map (fun a => decide (a.alphabet = 2 ∧ p a)) =
      .ok true) :
    ∃ a, ({} : Host).compile sampleRules = .ok a ∧ a.alphabet = 2 ∧ p a :=
  exists_of_map_decide_eq_ok hp

theorem isAccepting_stateAfter_iff (ha : h.compile statements = .ok a)
    (he : h.entry statements = .ok e) (hend : .endMark ∉ e.leaves)
    (hw : ∀ s ∈ w, s.toNat < a.alphabet) :
    a.isAccepting (a.stateAfter initial w) = true ↔ w ∈ e.language := by
  obtain ⟨hclosed, n, hn, haccept, -, -⟩ := exists_state_of_compile ha he hw
  rw [Automaton.stateAfter_of_foldlM hn, haccept]
  exact Expr.ends_afterWord_iff hclosed hend

/-- The transitions of a compiled automaton are defined along every word of its alphabet, and
they end in an accepting state exactly if the word belongs to the entry rule. -/
theorem isAccepting_iff_mem_language (ha : h.compile statements = .ok a)
    (he : h.entry statements = .ok e) (hend : .endMark ∉ e.leaves)
    (hw : ∀ s ∈ w, s.toNat < a.alphabet) :
    ∃ n, w.foldlM a.transition? initial = some n ∧
      (a.isAccepting n = true ↔ w ∈ e.language) := by
  obtain ⟨-, n, hn, -, -, -⟩ := exists_state_of_compile ha he hw
  refine ⟨n, hn, ?_⟩
  rw [← Automaton.stateAfter_of_foldlM hn]
  exact isAccepting_stateAfter_iff ha he hend hw

theorem isAccepting_sampleRules :
    ∃ a n, ({} : Host).compile sampleRules = .ok a ∧
      [0, 1, 0].foldlM a.transition? initial = some n ∧ a.isAccepting n = true ∧
      [0, 1, 0] ∈ sampleEntry.language := by
  obtain ⟨a, ha, halphabet, haccept⟩ := compile_sampleRules
    (fun a => a.isAccepting (a.stateAfter initial [0, 1, 0]) = true) (by decide +kernel)
  have hw : ∀ s ∈ [(0 : Symbol), 1, 0], s.toNat < a.alphabet := by simp [halphabet]
  obtain ⟨n, hn, hiff⟩ := isAccepting_iff_mem_language ha entry_sampleRules (by decide) hw
  rw [Automaton.stateAfter_of_foldlM hn] at haccept
  exact ⟨a, n, ha, hn, haccept, hiff.mp haccept⟩

/-- The state after a word carries exactly the tags that may be written right behind the word,
and it is the failed state exactly if no tagged word begins with the word. -/
theorem mem_tags_iff_and_eq_failed_iff (ha : h.compile statements = .ok a)
    (he : h.entry statements = .ok e) (hw : ∀ s ∈ w, s.toNat < a.alphabet) :
    ∃ n names, w.foldlM a.transition? initial = some n ∧ a.tags? n = some names ∧
      (∀ name, name ∈ names ↔ ∃ u, w.map Leaf.symbol ++ .tag name :: u ∈ e.taggedLanguage) ∧
      (n = failed ↔ ∀ u, w.map Leaf.symbol ++ u ∉ e.taggedLanguage) := by
  obtain ⟨hclosed, n, hn, -, htags, hfailed⟩ := exists_state_of_compile ha he hw
  refine ⟨n, _, hn, htags, fun name => Expr.mem_tags_afterWord_iff hclosed, ?_⟩
  rw [hfailed]
  exact Expr.afterWord_eq_empty_iff hclosed

theorem mem_tags_sampleRules :
    ∃ a n, ({} : Host).compile sampleRules = .ok a ∧
      [0, 1, 0].foldlM a.transition? initial = some n ∧ a.tags? n = some {"coda"} ∧ n ≠ failed ∧
      ∃ u, [.symbol 0, .symbol 1, .symbol 0] ++ .tag "coda" :: u ∈ sampleEntry.taggedLanguage := by
  obtain ⟨a, ha, halphabet, htags⟩ := compile_sampleRules
    (fun a => a.tags? (a.stateAfter initial [0, 1, 0]) = some {"coda"}) (by decide +kernel)
  have hw : ∀ s ∈ [(0 : Symbol), 1, 0], s.toNat < a.alphabet := by simp [halphabet]
  obtain ⟨n, names, hn, hnames, hnext, hfailed⟩ :=
    mem_tags_iff_and_eq_failed_iff ha entry_sampleRules hw
  rw [Automaton.stateAfter_of_foldlM hn] at htags
  obtain rfl := Option.some.inj (hnames.symm.trans htags)
  obtain ⟨u, hu⟩ := (hnext "coda").mp (by decide +kernel)
  exact ⟨a, n, ha, hn, htags, fun h => hfailed.mp h _ hu, u, hu⟩

end RunGrammar
