import RunGrammar.Proofs.Nullability

/-! Repetition by `+` and by bounds. A context is an expression with one open place, and the
words of the whole grow with the words in that place. So an occurrence of `e+` may be replaced by
`e{1,}` wherever the two have the same words, which is the case unless `e` has the empty word:
then `e{1,}` has it too and is as good as `e*`, while `e+` never has it. -/
namespace RunGrammar

open scoped Computability

variable {α : Type}

theorem Quantifier.words_mono (q : Quantifier) {l m : Language α} (h : ∀ w ∈ l, w ∈ m) :
    ∀ w ∈ q.words l, w ∈ q.words m := by
  have hle : l ≤ m := h
  cases q with
  | star => exact kstar_mono hle
  | plus =>
    rintro w ⟨parts, hne, hparts, rfl⟩
    exact ⟨parts, hne, fun u hu => ⟨h u (hparts u hu).1, (hparts u hu).2⟩, rfl⟩
  | opt => exact add_le_add_left hle 1

namespace Expr

/-- An expression with one place left open. -/
inductive Context
  | hole
  | altLeft (c : Context) (right : Expr)
  | altRight (left : Expr) (c : Context)
  | catLeft (c : Context) (right : Expr)
  | catRight (left : Expr) (c : Context)
  | rep (c : Context) (q : Quantifier)
deriving DecidableEq, Repr

/-- The expression with `e` in the open place. -/
def Context.plug (e : Expr) : Context → Expr
  | hole => e
  | altLeft c right => .alt (c.plug e) right
  | altRight left c => .alt left (c.plug e)
  | catLeft c right => .cat (c.plug e) right
  | catRight left c => .cat left (c.plug e)
  | rep c q => .rep (c.plug e) q

theorem Context.words_plug_mono {leaf : Leaf → Language α} {x y : Expr} (c : Context)
    (h : ∀ w ∈ x.words leaf, w ∈ y.words leaf) :
    ∀ w ∈ (c.plug x).words leaf, w ∈ (c.plug y).words leaf := by
  induction c with
  | hole => exact h
  | altLeft c right ih => exact fun w hw => hw.imp (ih w) id
  | altRight left c ih => exact fun w hw => hw.imp id (ih w)
  | catLeft c right ih =>
    rintro w ⟨u, hu, v, hv, rfl⟩
    exact Language.append_mem_mul (ih u hu) hv
  | catRight left c ih =>
    rintro w ⟨u, hu, v, hv, rfl⟩
    exact Language.append_mem_mul hu (ih v hv)
  | rep c q ih => exact q.words_mono ih

/-- An expression that always reads something is repeated by `{1,}` as it is by `+`. -/
theorem taggedLanguage_repetition_of_not_nullable {e expanded : Expr} (he : e.nullable = false)
    (h : e.repetition 1 none = .ok expanded) :
    expanded.taggedLanguage = (rep e .plus).taggedLanguage := by
  obtain rfl := Except.ok.inj h
  change e.taggedLanguage * e.taggedLanguage∗ = Quantifier.plus.words e.taggedLanguage
  rw [Quantifier.words_plus]
  conv_rhs => rw [← Language.one_add_self_mul_kstar_eq_kstar]
  ext w
  rw [Language.mem_sub, Language.mem_add, Language.mem_one]
  refine ⟨fun hw => ⟨.inr hw, ?_⟩, fun ⟨hw, hne⟩ => hw.resolve_left hne⟩
  rintro rfl
  obtain ⟨u, hu, v, -, huv⟩ := hw
  obtain ⟨rfl, -⟩ := List.append_eq_nil_iff.mp huv
  rw [nil_mem_taggedLanguage_iff.mp hu] at he
  cases he

/-- An expression that may read nothing is repeated by `{1,}` as it is by `*`. -/
theorem taggedLanguage_repetition_of_nullable {e expanded : Expr} (he : e.nullable = true)
    (h : e.repetition 1 none = .ok expanded) :
    expanded.taggedLanguage = (rep e .star).taggedLanguage := by
  obtain rfl := Except.ok.inj h
  change e.taggedLanguage * e.taggedLanguage∗ = e.taggedLanguage∗
  refine le_antisymm mul_kstar_le_kstar fun w hw => ?_
  exact ⟨[], nil_mem_taggedLanguage_iff.mpr he, w, hw, List.nil_append w⟩

theorem mem_taggedLanguage_repetition {e expanded : Expr}
    (h : e.repetition 1 none = .ok expanded) :
    ∀ w ∈ (rep e .plus).taggedLanguage, w ∈ expanded.taggedLanguage := by
  cases he : e.nullable with
  | false =>
    rw [taggedLanguage_repetition_of_not_nullable he h]
    exact fun _ hw => hw
  | true =>
    rw [taggedLanguage_repetition_of_nullable he h]
    intro w (hw : w ∈ Quantifier.plus.words e.taggedLanguage)
    exact Quantifier.mem_kstar_of_mem_words hw

end Expr

/-- The transitions lead from the initial state along a word to an accepting state. -/
def Automaton.Accepts (a : Automaton) (w : List Symbol) : Prop :=
  ∃ n, w.foldlM a.transition? initial = some n ∧ a.isAccepting n = true

instance (a : Automaton) (w : List Symbol) : Decidable (a.Accepts w) :=
  decidable_of_iff ((w.foldlM a.transition? initial).any a.isAccepting = true)
    (by simp [Automaton.Accepts, Option.any_eq_true])

theorem Automaton.lt_alphabet_of_foldlM {a : Automaton} {w : List Symbol} {n m : Nat}
    (h : w.foldlM a.transition? n = some m) : ∀ s ∈ w, s.toNat < a.alphabet := by
  induction w generalizing n with
  | nil => exact List.forall_mem_nil _
  | cons s w ih =>
    rw [List.foldlM_cons] at h
    obtain ⟨k, hk, h⟩ := Option.bind_eq_some_iff.mp h
    refine List.forall_mem_cons.mpr ⟨?_, ih h⟩
    by_contra hs
    rw [transition?, if_neg hs] at hk
    cases hk

/-- Some rule list with this resolved entry rule has this automaton. -/
def Expr.CompilesTo (e : Expr) (a : Automaton) : Prop :=
  ∃ (h : Host) (statements : List Statement),
    h.compile statements = .ok a ∧ h.entry statements = .ok e

variable {a a' : Automaton} {e e' : Expr} {w : List Symbol}

/-- A word is accepted if it is complete, or if an end mark that the rules write themselves may
follow it. -/
theorem Expr.CompilesTo.accepts_iff (ha : e.CompilesTo a) (hw : ∀ s ∈ w, s.toNat < a.alphabet) :
    a.Accepts w ↔ w.map Leaf.symbol ∈ e.taggedLanguage ∨
      ∃ u, w.map Leaf.symbol ++ .endMark :: u ∈ e.taggedLanguage := by
  obtain ⟨h, statements, ha, he⟩ := ha
  obtain ⟨hclosed, n, hn, haccept, -, -⟩ := exists_state_of_compile ha he hw
  have hiff : a.Accepts w ↔ a.isAccepting n = true := by
    refine ⟨fun ⟨m, hm, hacc⟩ => ?_, fun hacc => ⟨n, hn, hacc⟩⟩
    rwa [Option.some.inj (hn.symm.trans hm)]
  rw [hiff, haccept, Positions.ends_eq_true_iff, exists_leaf?_afterWord_iff hclosed,
    mem_language_iff, and_iff_right rfl]

/-- The automaton of an expression with more tagged words accepts more words. -/
theorem Expr.CompilesTo.accepts_mono (ha : e.CompilesTo a) (ha' : e'.CompilesTo a')
    (halphabet : a.alphabet = a'.alphabet)
    (hsub : ∀ v ∈ e.taggedLanguage, v ∈ e'.taggedLanguage) (h : a.Accepts w) :
    a'.Accepts w := by
  have hw : ∀ s ∈ w, s.toNat < a.alphabet := by
    obtain ⟨_, hn, -⟩ := h
    exact Automaton.lt_alphabet_of_foldlM hn
  rw [ha'.accepts_iff (halphabet ▸ hw)]
  exact ((ha.accepts_iff hw).mp h).imp (hsub _) fun ⟨u, hu⟩ => ⟨u, hsub _ hu⟩

/-- Replacing an occurrence of `e+` by `e{1,}` loses no accepted word. It adds none if `e` always
reads something; otherwise it has the effect of replacing the occurrence by `e*`. -/
theorem accepts_replace_plus {c : Expr.Context} {body expanded : Expr}
    (hexpanded : body.repetition 1 none = .ok expanded)
    (ha : (c.plug (.rep body .plus)).CompilesTo a) (ha' : (c.plug expanded).CompilesTo a')
    (halphabet : a.alphabet = a'.alphabet) :
    (a.Accepts w → a'.Accepts w) ∧
      (body.nullable = false → (a.Accepts w ↔ a'.Accepts w)) ∧
      (body.nullable = true → ∀ a'' : Automaton, (c.plug (.rep body .star)).CompilesTo a'' →
        a.alphabet = a''.alphabet → (a'.Accepts w ↔ a''.Accepts w)) := by
  have hgain : a.Accepts w → a'.Accepts w :=
    ha.accepts_mono ha' halphabet (c.words_plug_mono (Expr.mem_taggedLanguage_repetition hexpanded))
  refine ⟨hgain, fun hbody => ⟨hgain, ?_⟩, fun hbody a'' ha'' halphabet'' => ⟨?_, ?_⟩⟩
  · have hmem (v) : v ∈ expanded.taggedLanguage ↔ v ∈ (Expr.rep body .plus).taggedLanguage := by
      rw [Expr.taggedLanguage_repetition_of_not_nullable hbody hexpanded]
    exact ha'.accepts_mono ha halphabet.symm (c.words_plug_mono fun v => (hmem v).mp)
  all_goals
    have hmem (v) : v ∈ expanded.taggedLanguage ↔ v ∈ (Expr.rep body .star).taggedLanguage := by
      rw [Expr.taggedLanguage_repetition_of_nullable hbody hexpanded]
    have hsame : a'.alphabet = a''.alphabet := halphabet.symm.trans halphabet''
  · exact ha'.accepts_mono ha'' hsame (c.words_plug_mono fun v => (hmem v).mp)
  · exact ha''.accepts_mono ha' hsame.symm (c.words_plug_mono fun v => (hmem v).mpr)

/-- What running the automaton of a single rule over two symbols shows. -/
theorem exists_compilesTo {e : Expr} (p : Automaton → Prop) [DecidablePred p]
    (he : (⟨[], 2⟩ : Host).entry [.assign entryRule e] = .ok e)
    (hp : ((⟨[], 2⟩ : Host).compile [.assign entryRule e]).map
      (fun a => decide (a.alphabet = 2 ∧ a.symbols = ∅ ∧ p a)) = .ok true) :
    ∃ a, e.CompilesTo a ∧ a.alphabet = 2 ∧ a.symbols = ∅ ∧ p a := by
  obtain ⟨a, ha, hpa⟩ := exists_of_map_decide_eq_ok hp
  exact ⟨a, ⟨_, _, ha, he⟩, hpa⟩

/-- The expression `e 1` with `e` left open. -/
def beforeOne : Expr.Context := .catLeft .hole (.lit 1)

theorem accepts_replace_plus_beforeOne :
    ∃ (a a' a'' : Automaton) (expanded : Expr),
      (Expr.rep (.lit 0) .opt).repetition 1 none = .ok expanded ∧
      (beforeOne.plug (.rep (.rep (.lit 0) .opt) .plus)).CompilesTo a ∧
      (beforeOne.plug expanded).CompilesTo a' ∧
      (beforeOne.plug (.rep (.rep (.lit 0) .opt) .star)).CompilesTo a'' ∧
      a.Accepts [0, 0, 1] ∧ a'.Accepts [0, 0, 1] ∧ a''.Accepts [0, 0, 1] := by
  obtain ⟨a, ha, halphabet, -, haccept⟩ := exists_compilesTo
    (e := beforeOne.plug (.rep (.rep (.lit 0) .opt) .plus))
    (fun a => a.Accepts [0, 0, 1]) (by decide +kernel) (by decide +kernel)
  obtain ⟨a', ha', halphabet', -, -⟩ := exists_compilesTo
    (e := beforeOne.plug (.cat (.rep (.lit 0) .opt) (.rep (.rep (.lit 0) .opt) .star)))
    (fun _ => True) (by decide +kernel) (by decide +kernel)
  obtain ⟨a'', ha'', halphabet'', -, -⟩ := exists_compilesTo
    (e := beforeOne.plug (.rep (.rep (.lit 0) .opt) .star))
    (fun _ => True) (by decide +kernel) (by decide +kernel)
  have hexpanded : (Expr.rep (.lit 0) .opt).repetition 1 none =
    .ok (.cat (.rep (.lit 0) .opt) (.rep (.rep (.lit 0) .opt) .star)) := rfl
  obtain ⟨hgain, -, hstar⟩ :=
    accepts_replace_plus hexpanded ha ha' (by rw [halphabet, halphabet'])
  have haccept' := hgain haccept
  exact ⟨a, a', a'', _, hexpanded, ha, ha', ha'', haccept, haccept',
    (hstar rfl a'' ha'' (by rw [halphabet, halphabet''])).mp haccept'⟩

/-- `(0?)+ 1` does not accept the word `1`, and `(0?){1,} 1` accepts it. -/
theorem not_accepts_plus_beforeOne :
    ∃ (a a' : Automaton) (expanded : Expr),
      (Expr.rep (.lit 0) .opt).repetition 1 none = .ok expanded ∧
      (beforeOne.plug (.rep (.rep (.lit 0) .opt) .plus)).CompilesTo a ∧
      (beforeOne.plug expanded).CompilesTo a' ∧
      a.alphabet = a'.alphabet ∧ a.symbols = a'.symbols ∧
      (∀ s ∈ [(1 : Symbol)], s.toNat < a.alphabet) ∧ ¬ a.Accepts [1] ∧ a'.Accepts [1] := by
  obtain ⟨a, ha, halphabet, hsymbols, hnot⟩ := exists_compilesTo
    (e := beforeOne.plug (.rep (.rep (.lit 0) .opt) .plus))
    (fun a => ¬ a.Accepts [1]) (by decide +kernel) (by decide +kernel)
  obtain ⟨a', ha', halphabet', hsymbols', haccept⟩ := exists_compilesTo
    (e := beforeOne.plug (.cat (.rep (.lit 0) .opt) (.rep (.rep (.lit 0) .opt) .star)))
    (fun a => a.Accepts [1]) (by decide +kernel) (by decide +kernel)
  exact ⟨a, a', _, rfl, ha, ha', by rw [halphabet, halphabet'], by rw [hsymbols, hsymbols'],
    by simp [halphabet], hnot, haccept⟩

end RunGrammar
