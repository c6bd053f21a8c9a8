import RunGrammar.Proofs.Acceptance

/-! The empty word. Whether it belongs to an expression is told by the tree and, again, by the walk
that numbers the leaves. The two agree, a `+` being without the empty word for both of them, and a
compiled automaton accepts in its initial state exactly if they say so of the entry rule. -/
namespace RunGrammar

open scoped Computability

namespace Expr

theorem nil_mem_taggedLanguage_iff {e : Expr} : [] ∈ e.taggedLanguage ↔ e.nullable = true := by
  induction e with
  | lit _ | tag _ | endMark =>
    rw [taggedLanguage, words, Leaf.mem_words_iff]
    simp [Leaf.nullable, nullable]
  | ref _ => exact iff_of_false (Language.notMem_zero _) Bool.false_ne_true
  | alt a b iha ihb =>
    rw [nullable, Bool.or_eq_true, ← iha, ← ihb]
    rfl
  | cat a b iha ihb =>
    rw [nullable, Bool.and_eq_true, ← iha, ← ihb]
    constructor
    · rintro ⟨u, hu, v, hv, huv⟩
      obtain ⟨rfl, rfl⟩ := List.append_eq_nil_iff.mp huv
      exact ⟨hu, hv⟩
    · rintro ⟨ha, hb⟩
      exact Language.append_mem_mul ha hb
  | rep e q ih =>
    cases q with
    | star => exact iff_of_true (Language.nil_mem_kstar _) rfl
    | plus =>
      refine iff_of_false (fun h => ?_) Bool.false_ne_true
      rw [taggedLanguage, words, Quantifier.words_plus] at h
      exact h.2 rfl
    | opt => exact iff_of_true (.inr rfl) rfl

theorem nil_mem_language_iff {e : Expr} : [] ∈ e.language ↔ e.nullable = true :=
  mem_language_iff.trans nil_mem_taggedLanguage_iff

end Expr

/-- The walk over the leaves tells the same as the tree, whatever leaves come before. -/
theorem Fragment.nullable_ofExpr (base : Nat) (e : Expr) :
    (ofExpr base e).nullable = e.nullable := by
  induction e generalizing base with
  | lit _ | tag _ | endMark | ref _ | rep _ _ _ => rfl
  | alt x y ihx ihy => exact congrArg₂ or (ihx base) (ihy _)
  | cat x y ihx ihy => exact congrArg₂ and (ihx base) (ihy _)

/-- Tree and walk agree on every expression, and the initial state of a compiled automaton accepts
exactly if they say that the entry rule has the empty word. -/
theorem isAccepting_initial_eq_nullable :
    (∀ base part, (Fragment.ofExpr base part).nullable = part.nullable) ∧
      ∀ (h : Host) (statements : List Statement) (a : Automaton) (e : Expr),
        h.compile statements = .ok a → h.entry statements = .ok e → .endMark ∉ e.leaves →
          a.isAccepting initial = e.nullable := by
  refine ⟨Fragment.nullable_ofExpr, fun h statements a e ha he hend => ?_⟩
  have hempty : a.isAccepting (a.stateAfter initial []) = true ↔ [] ∈ e.language :=
    isAccepting_stateAfter_iff ha he hend (List.forall_mem_nil _)
  exact Bool.eq_iff_iff.mpr (hempty.trans Expr.nil_mem_language_iff)

/-! A `+` of an expression with the empty word does not have it, and a tag does. -/

theorem isAccepting_initial_cases :
    ∃ a a', (⟨[], 1⟩ : Host).compile [.assign entryRule (.rep (.rep (.lit 0) .star) .plus)] =
        .ok a ∧
      (⟨[], 1⟩ : Host).compile
          [.assign entryRule (.cat (.alt (.tag "t") (.lit 0)) (.rep (.lit 0) .opt))] = .ok a' ∧
      a.isAccepting initial = false ∧ a'.isAccepting initial = true := by
  obtain ⟨a, ha, -⟩ := exists_of_map_decide_eq_ok (p := fun _ => True)
    (m := (⟨[], 1⟩ : Host).compile [.assign entryRule (.rep (.rep (.lit 0) .star) .plus)])
    (by decide +kernel)
  obtain ⟨a', ha', -⟩ := exists_of_map_decide_eq_ok (p := fun _ => True)
    (m := (⟨[], 1⟩ : Host).compile
      [.assign entryRule (.cat (.alt (.tag "t") (.lit 0)) (.rep (.lit 0) .opt))])
    (by decide +kernel)
  have hnullable := isAccepting_initial_eq_nullable.2
  exact ⟨a, a', ha, ha',
    hnullable _ _ a (.rep (.rep (.lit 0) .star) .plus) ha (by decide +kernel) (by decide),
    hnullable _ _ a' (.cat (.alt (.tag "t") (.lit 0)) (.rep (.lit 0) .opt)) ha'
      (by decide +kernel) (by decide)⟩

end RunGrammar
