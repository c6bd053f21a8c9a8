import RunGrammar.Proofs.Numbering
import RunGrammar.Proofs.Repetition
import RunGrammar.Proofs.Written

/-! Completions. A run over a word is given up only if no word goes on from there to a word of the
rules. What has been read always begins some tagged word, but a tag may be all that is left of
it, so it has to be shown that the tags may be left out: in an expression as rule text writes it
a tag stands behind something else, and every repeated part has a word that is not empty. -/
namespace RunGrammar

open scoped Computability

variable {l l' : Language Leaf} {m m' : Language Symbol}

/-- Whether symbols that begin a tagged word of `l` begin a plain word of `m`. -/
def Completable (l : Language Leaf) (m : Language Symbol) : Prop :=
  ∀ (w : List Symbol) u, w.map Leaf.symbol ++ u ∈ l → ∃ v, w ++ v ∈ m

/-- A beginning of a concatenation ends in its front part or has all of it. -/
theorem map_append_eq_append_iff {α β : Type} {f : α → β} {w : List α} {u front back : List β} :
    w.map f ++ u = front ++ back ↔
      (∃ rest, front = w.map f ++ rest ∧ u = rest ++ back) ∨
      ∃ w₁ w₂, w = w₁ ++ w₂ ∧ w₁.map f = front ∧ w₂.map f ++ u = back := by
  rw [List.append_eq_append_iff]
  constructor
  · rintro (⟨rest, rfl, rfl⟩ | ⟨rest, hw, rfl⟩)
    · exact .inl ⟨rest, rfl, rfl⟩
    · obtain ⟨w₁, w₂, rfl, rfl, rfl⟩ := List.map_eq_append_iff.mp hw
      exact .inr ⟨w₁, w₂, rfl, rfl, rfl⟩
  · rintro (⟨rest, rfl, rfl⟩ | ⟨w₁, w₂, rfl, rfl, rfl⟩)
    · exact .inl ⟨rest, rfl, rfl⟩
    · exact .inr ⟨w₂.map f, by rw [List.map_append], rfl⟩

theorem Completable.mul (hl : Completable l m) (hl' : Completable l' m')
    (hmem : ∀ w, w.map Leaf.symbol ∈ l → w ∈ m) (hne : ∃ v, v ∈ m') :
    Completable (l * l') (m * m') := by
  rintro w u ⟨front, hfront, back, hback, heq⟩
  rcases map_append_eq_append_iff.mp heq.symm with ⟨rest, rfl, -⟩ | ⟨w₁, w₂, rfl, rfl, rfl⟩
  · obtain ⟨v, hv⟩ := hl w rest hfront
    obtain ⟨v', hv'⟩ := hne
    exact ⟨v ++ v', by rw [← List.append_assoc]; exact Language.append_mem_mul hv hv'⟩
  · obtain ⟨v, hv⟩ := hl' w₂ u hback
    exact ⟨v, by rw [List.append_assoc]; exact Language.append_mem_mul (hmem w₁ hfront) hv⟩

theorem Completable.kstar (hl : Completable l m)
    (hmem : ∀ w, w.map Leaf.symbol ∈ l → w ∈ m) : Completable l∗ m∗ := by
  rintro w u ⟨parts, heq, hparts⟩
  induction parts generalizing w with
  | nil =>
    obtain ⟨hw, -⟩ := List.append_eq_nil_iff.mp heq
    obtain rfl := List.map_eq_nil_iff.mp hw
    exact ⟨[], Language.nil_mem_kstar m⟩
  | cons part parts ih =>
    rw [List.forall_mem_cons] at hparts
    rw [List.flatten_cons] at heq
    rcases map_append_eq_append_iff.mp heq with ⟨rest, rfl, -⟩ | ⟨w₁, w₂, rfl, rfl, hrest⟩
    · obtain ⟨v, hv⟩ := hl w rest hparts.1
      exact ⟨v, [w ++ v], List.flatten_singleton.symm, fun _ h => List.mem_singleton.mp h ▸ hv⟩
    · obtain ⟨v, own, hown, hmembers⟩ := ih w₂ hrest hparts.2
      refine ⟨v, w₁ :: own, by rw [List.append_assoc, hown, List.flatten_cons], ?_⟩
      exact List.forall_mem_cons.mpr ⟨hmem w₁ hparts.1, hmembers⟩

/-- A `+` has to be given a word that is not empty before it may come to an end. -/
theorem Completable.words (q : Quantifier) (hl : Completable l m)
    (hmem : ∀ w, w.map Leaf.symbol ∈ l → w ∈ m) (hword : ∃ v ∈ m, v ≠ []) :
    Completable (q.words l) (q.words m) := by
  intro w u hw
  cases q with
  | star => exact hl.kstar hmem w u hw
  | plus =>
    obtain ⟨v, parts, hparts, hmembers⟩ :=
      hl.kstar hmem w u (Quantifier.mem_kstar_of_mem_words hw)
    obtain ⟨v', hv', hne⟩ := hword
    refine ⟨v ++ v', ?_⟩
    rw [Quantifier.words_plus, Language.mem_sub, Language.mem_one, ← List.append_assoc]
    refine ⟨⟨parts ++ [v'], by rw [hparts, List.flatten_concat], ?_⟩,
      List.append_ne_nil_of_right_ne_nil _ hne⟩
    exact List.forall_mem_append.mpr ⟨hmembers, List.forall_mem_singleton.mpr hv'⟩
  | opt =>
    rcases hw with hw | hw
    · exact (hl w u hw).imp fun v => .inl
    · obtain ⟨hw, -⟩ := List.append_eq_nil_iff.mp hw
      exact ⟨[], .inr (by rw [List.map_eq_nil_iff.mp hw]; rfl)⟩

namespace Expr

variable {e : Expr}

theorem Written.exists_word (he : e.Written) (hclosed : e.Closed) :
    ∃ w ∈ e.language, w ≠ [] := by
  induction he with
  | lit s => exact ⟨[s], rfl, List.cons_ne_nil s []⟩
  | ref name => cases hclosed
  | alt _ _ ihx _ =>
    obtain ⟨w, hw, hne⟩ := ihx (closed_alt.mp hclosed).1
    exact ⟨w, .inl hw, hne⟩
  | cat _ _ ihx ihy =>
    obtain ⟨w, hw, hne⟩ := ihx (closed_cat.mp hclosed).1
    obtain ⟨v, hv, -⟩ := ihy (closed_cat.mp hclosed).2
    exact ⟨w ++ v, Language.append_mem_mul hw hv, List.append_ne_nil_of_left_ne_nil hne v⟩
  | tagged name _ ih =>
    obtain ⟨w, hw, hne⟩ := ih (closed_cat.mp hclosed).1
    refine ⟨w, ?_, hne⟩
    rw [← List.append_nil w]
    exact Language.append_mem_mul hw rfl
  | rep q _ ih =>
    obtain ⟨w, hw, hne⟩ := ih hclosed
    refine ⟨w, ?_, hne⟩
    cases q with
    | star => exact ⟨[w], List.flatten_singleton.symm, fun _ h => List.mem_singleton.mp h ▸ hw⟩
    | plus =>
      exact ⟨[w], List.cons_ne_nil w [], fun _ h => List.mem_singleton.mp h ▸ ⟨hw, hne⟩,
        List.flatten_singleton.symm⟩
    | opt => exact .inl hw

/-- Symbols that begin a tagged word begin a plain one. -/
theorem Written.completable (he : e.Written) (hclosed : e.Closed) :
    Completable e.taggedLanguage e.language := by
  have hmem : ∀ {x : Expr} w, w.map Leaf.symbol ∈ x.taggedLanguage → w ∈ x.language :=
    fun _ => mem_language_iff.mpr
  induction he with
  | lit s =>
    rintro (_ | ⟨c, w⟩) u hw
    · exact ⟨[s], rfl⟩
    · rw [taggedLanguage, words, Leaf.mem_words_iff] at hw
      obtain ⟨hc, hw⟩ := List.cons.inj (hw.resolve_right fun h => List.cons_ne_nil _ _ h.1)
      obtain ⟨hw, -⟩ := List.append_eq_nil_iff.mp hw
      exact ⟨[], by rw [Leaf.symbol.inj hc, List.map_eq_nil_iff.mp hw]; rfl⟩
  | ref name => cases hclosed
  | alt _ _ ihx ihy =>
    obtain ⟨hx, hy⟩ := closed_alt.mp hclosed
    rintro w u (hw | hw)
    · exact (ihx hx w u hw).imp fun v => .inl
    · exact (ihy hy w u hw).imp fun v => .inr
  | cat _ hy ihx ihy =>
    obtain ⟨hcx, hcy⟩ := closed_cat.mp hclosed
    obtain ⟨v, hv, -⟩ := hy.exists_word hcy
    exact (ihx hcx).mul (ihy hcy) hmem ⟨v, hv⟩
  | tagged name _ ih =>
    have htag : Completable (tag name).taggedLanguage (tag name).language := by
      rintro (_ | ⟨c, w⟩) u hw
      · exact ⟨[], rfl⟩
      · rw [taggedLanguage, words, Leaf.mem_words_iff] at hw
        rcases hw with hw | ⟨hw, -⟩ <;> cases hw
    exact (ih (closed_cat.mp hclosed).1).mul htag hmem ⟨[], rfl⟩
  | rep q he ih => exact (ih hclosed).words q hmem (he.exists_word hclosed)

end Expr

variable {h : Host} {text : String} {a : Automaton} {w : List Symbol}

theorem exists_entry_of_compileText (ha : h.compileText text = .ok a) :
    ∃ statements e, h.compile statements = .ok a ∧ h.entry statements = .ok e ∧ e.Written ∧
      e.Closed ∧ ∀ s, Leaf.symbol s ∈ e.leaves → s.toNat < a.alphabet := by
  unfold Host.compileText at ha
  split at ha
  · next statements hread =>
    cases hcompile : h.compile statements with
    | error err =>
      rw [hcompile] at ha
      cases ha
    | ok a' =>
      rw [hcompile] at ha
      obtain rfl := Except.ok.inj ha
      obtain ⟨e, -, -, -, he, hclosed, hsymbols, -⟩ := Host.exists_exploration_of_compile hcompile
      exact ⟨statements, e, hcompile, he, Host.written_entry hread he, hclosed, hsymbols⟩
  · cases ha

theorem Expr.CompilesTo.accepts_iff_mem_language {e : Expr} (ha : e.CompilesTo a)
    (hend : Leaf.endMark ∉ e.leaves)
    (hsymbols : ∀ s, Leaf.symbol s ∈ e.leaves → s.toNat < a.alphabet) :
    a.Accepts w ↔ w ∈ e.language := by
  have hiff (hw : ∀ s ∈ w, s.toNat < a.alphabet) : a.Accepts w ↔ w ∈ e.language := by
    rw [ha.accepts_iff hw, ← Expr.mem_language_iff]
    refine or_iff_left ?_
    rintro ⟨u, hu⟩
    exact hend (Expr.mem_leaves_of_mem_taggedLanguage hu _ (by simp))
  constructor
  · intro haccept
    obtain ⟨n, hn, -⟩ := id haccept
    exact (hiff (Automaton.lt_alphabet_of_foldlM hn)).mp haccept
  · intro hw
    refine (hiff fun s hs => hsymbols s ?_).mpr hw
    exact Expr.mem_leaves_of_mem_taggedLanguage (Expr.mem_language_iff.mp hw) _
      (List.mem_map_of_mem hs)

/-- In an automaton compiled from text a run over a word has not failed exactly if some completion
of the word is accepted, so every state but the failed one leads to an accepting state. -/
theorem exists_completion_iff (ha : h.compileText text = .ok a) :
    (∀ w : List Symbol, (∀ s ∈ w, s.toNat < a.alphabet) →
      ∃ n, w.foldlM a.transition? initial = some n ∧
        (n ≠ failed ↔ ∃ v, a.Accepts (w ++ v))) ∧
    ∀ n < a.stateCount, n ≠ failed →
      ∃ (v : List Symbol) (m : Nat), v.foldlM a.transition? n = some m ∧
        a.isAccepting m = true := by
  obtain ⟨statements, e, hcompile, he, hwritten, hclosed, hsymbols⟩ :=
    exists_entry_of_compileText ha
  have haccepts : ∀ w, a.Accepts w ↔ w ∈ e.language := fun w =>
    Expr.CompilesTo.accepts_iff_mem_language ⟨h, statements, hcompile, he⟩
      hwritten.endMark_notMem_leaves hsymbols
  have hword : ∀ w : List Symbol, (∀ s ∈ w, s.toNat < a.alphabet) →
      ∃ n, w.foldlM a.transition? initial = some n ∧
        (n ≠ failed ↔ ∃ v, a.Accepts (w ++ v)) := by
    intro w hw
    obtain ⟨-, n, hn, -, -, hfailed⟩ := exists_state_of_compile hcompile he hw
    refine ⟨n, hn, ?_⟩
    rw [ne_eq, hfailed, Expr.afterWord_eq_empty_iff hclosed]
    simp only [not_forall, not_not, haccepts]
    constructor
    · rintro ⟨u, hu⟩
      exact hwritten.completable hclosed w u hu
    · rintro ⟨v, hv⟩
      exact ⟨v.map Leaf.symbol, by rw [← List.map_append]; exact Expr.mem_language_iff.mp hv⟩
  refine ⟨hword, fun n hlt hne => ?_⟩
  obtain ⟨w, hn⟩ := (canonical_of_compile hcompile).exists_word hlt hne
  obtain ⟨n', hn', hiff⟩ := hword w (Automaton.lt_alphabet_of_foldlM hn)
  obtain rfl : n = n' := Option.some.inj (hn.symm.trans hn')
  obtain ⟨v, m, hm, haccept⟩ := hiff.mp hne
  rw [List.foldlM_append, hn] at hm
  exact ⟨v, m, hm, haccept⟩

theorem exists_completion_sampleText :
    ∃ (a : Automaton) (n : Nat), (⟨[], 3⟩ : Host).compileText Rules.sampleText = .ok a ∧
      [0, 1].foldlM a.transition? initial = some n ∧ n ≠ failed ∧
      ∃ v, a.Accepts ([0, 1] ++ v) := by
  have hrun : ((⟨[], 3⟩ : Host).compileText Rules.sampleText).map
      (fun a => decide (a.alphabet = 3 ∧ a.stateAfter initial [0, 1] ≠ failed)) = .ok true := by
    decide +kernel
  cases ha : (⟨[], 3⟩ : Host).compileText Rules.sampleText with
  | error _ =>
    rw [ha] at hrun
    cases hrun
  | ok a =>
    rw [ha] at hrun
    obtain ⟨halphabet, hne⟩ := of_decide_eq_true (Except.ok.inj hrun)
    have hw : ∀ s ∈ [(0 : Symbol), 1], s.toNat < a.alphabet := by simp [halphabet]
    obtain ⟨n, hn, hiff⟩ := (exists_completion_iff ha).1 [0, 1] hw
    rw [Automaton.stateAfter_of_foldlM hn] at hne
    exact ⟨a, n, rfl, hn, hne, hiff.mp hne⟩

/-! A tag that stands alone cannot be written in a text. Repeated by `+` it would have to be read,
and no accepting state would be left. -/

example : (({} : Host).compile [.assign entryRule (.rep (.tag "alone") .plus)]).map
    (fun a => decide (initial < a.stateCount ∧ a.acceptingCount = 0)) = .ok true := by
  decide +kernel

end RunGrammar
