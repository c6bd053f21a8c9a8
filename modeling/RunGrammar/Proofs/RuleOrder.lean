import RunGrammar.Proofs.Inlining

/-! The order of rules. Two rules next to each other that do not refer to each other bind their
names to the same expressions in either order, and the symbols they add are the same. So from
there on nothing depends on their order. -/
namespace RunGrammar

namespace Bindings

variable {b mid next : Bindings} {n₁ n₂ : String} {x₁ x₂ e₁ e₂ : Expr}
  {after : List Statement}

theorem insert_comm {α : Type} {m : Std.ExtTreeMap String α} (hne : n₁ ≠ n₂) (v₁ v₂ : α) :
    (m.insert n₁ v₁).insert n₂ v₂ = (m.insert n₂ v₂).insert n₁ v₁ := by
  apply Std.ExtTreeMap.ext_getElem?
  intro n
  simp only [Std.ExtTreeMap.getElem?_insert, Std.compare_eq_iff_eq]
  by_cases h₁ : n₁ = n
  · have h₂ : n₂ ≠ n := fun h₂ => hne (h₁.trans h₂.symm)
    rw [if_neg h₂, if_pos h₁, if_pos h₁]
  · rw [if_neg h₁, if_neg h₁]

theorem Binds.adds_iff (h : b.Binds n₁ x₁ mid) (hne : n₁ ≠ n₂) (x₂ : Expr) :
    mid.Adds n₂ x₂ ↔ b.Adds n₂ x₂ := by
  refine and_congr_right fun _ => not_congr ?_
  rw [h.symbols]
  cases x₁.literal? with
  | none => exact Iff.rfl
  | some s => simp [hne]

/-- Different names may be bound in either order. -/
theorem Binds.comm (hne : n₁ ≠ n₂) (h₁ : b.Binds n₁ x₁ mid) (h₂ : mid.Binds n₂ x₂ next) :
    ∃ mid', b.Binds n₂ x₂ mid' ∧ mid'.Binds n₁ x₁ next := by
  have hsum := h₂.alphabet
  simp only [h₁.alphabet, h₁.adds_iff hne] at hsum
  have hroom : b.alphabet.toNat + (if b.Adds n₂ x₂ then 1 else 0) < UInt64.size := by
    have hnext := next.alphabet.toNat_lt_size
    omega
  obtain ⟨mid', h₂'⟩ := exists_binds_iff.mpr hroom
  refine ⟨mid', h₂', ?_, ?_, ?_⟩
  · rw [h₂.rules, h₁.rules, h₂'.rules, insert_comm hne]
  · rw [h₂.symbols, h₁.symbols, h₂'.symbols]
    cases x₁.literal? with
    | none => rfl
    | some s₁ =>
      cases x₂.literal? with
      | none => rfl
      | some s₂ => exact insert_comm hne s₁ s₂
  · simp only [h₂'.adds_iff hne.symm]
    rw [hsum, h₂'.alphabet, Nat.add_right_comm]

theorem read_comments (b : Bindings) (remarks : List String) (statements : List Statement) :
    b.read (remarks.map .comment ++ statements) = b.read statements := by
  induction remarks with
  | nil => rfl
  | cons remark remarks ih => exact ih

theorem read_pair_eq_ok_iff {remarks : List String} :
    b.read (.assign n₁ e₁ :: (remarks.map .comment ++ .assign n₂ e₂ :: after)) = .ok next ↔
      ∃ x₁ mid x₂ last, b.resolve e₁ = .ok x₁ ∧ b.Binds n₁ x₁ mid ∧
        mid.resolve e₂ = .ok x₂ ∧ mid.Binds n₂ x₂ last ∧ last.read after = .ok next := by
  simp only [read_assign_cons, read_comments, bind_eq_ok, assign_eq_ok_iff]
  constructor
  · rintro ⟨mid, ⟨x₁, hx₁, hmid⟩, last, ⟨x₂, hx₂, hlast⟩, hafter⟩
    exact ⟨x₁, mid, x₂, last, hx₁, hmid, hx₂, hlast, hafter⟩
  · rintro ⟨x₁, mid, x₂, last, hx₁, hmid, hx₂, hlast, hafter⟩
    exact ⟨mid, ⟨x₁, hx₁, hmid⟩, last, ⟨x₂, hx₂, hlast⟩, hafter⟩

/-- Two rules that do not refer to each other bind the same in either order. -/
theorem read_swap (hne : n₁ ≠ n₂) (h₁ : n₁ ∉ e₂.references) (h₂ : n₂ ∉ e₁.references)
    {remarks : List String}
    (hread : b.read (.assign n₁ e₁ :: (remarks.map .comment ++ .assign n₂ e₂ :: after)) =
      .ok next) :
    b.read (.assign n₂ e₂ :: (remarks.map .comment ++ .assign n₁ e₁ :: after)) = .ok next := by
  obtain ⟨x₁, mid, x₂, last, hx₁, hmid, hx₂, hlast, hafter⟩ := read_pair_eq_ok_iff.mp hread
  obtain ⟨mid', hmid', hlast'⟩ := hmid.comm hne hlast
  rw [hmid.resolve_eq h₁] at hx₂
  rw [← hmid'.resolve_eq h₂] at hx₁
  exact read_pair_eq_ok_iff.mpr ⟨x₂, mid', x₁, last, hx₂, hmid', hx₁, hlast', hafter⟩

end Bindings

/-- A list compiles to what another compiles to if it binds the same wherever the other is read to
its end. -/
theorem Host.compile_of_read {h : Host} {statements statements' : List Statement} {a : Automaton}
    (hread : ∀ b next : Bindings, b.read statements = .ok next → b.read statements' = .ok next)
    (ha : h.compile statements = .ok a) : h.compile statements' = .ok a := by
  obtain ⟨b, hb, hbuild⟩ := bind_eq_ok.mp ha
  obtain ⟨own, next, hown, hnext, hreserve⟩ := bindings_eq_ok_iff.mp hb
  exact bind_eq_ok.mpr
    ⟨b, bindings_eq_ok_iff.mpr ⟨own, next, hown, hread own next hnext, hreserve⟩, hbuild⟩

/-- Two rules next to each other with different names that do not refer to each other may change
places, whether or not there are comments between them: the list compiles as before, and to the
same automaton. -/
theorem compile_swap {n₁ n₂ : String} {e₁ e₂ : Expr} (hne : n₁ ≠ n₂) (h₁ : n₁ ∉ e₂.references)
    (h₂ : n₂ ∉ e₁.references) (h : Host) (before after : List Statement) (remarks : List String)
    (a : Automaton) :
    h.compile (before ++ .assign n₁ e₁ :: (remarks.map .comment ++ .assign n₂ e₂ :: after)) =
        .ok a ↔
      h.compile (before ++ .assign n₂ e₂ :: (remarks.map .comment ++ .assign n₁ e₁ :: after)) =
        .ok a := by
  have hswap {m₁ m₂ : String} {d₁ d₂ : Expr} (hm : m₁ ≠ m₂) (hd₂ : m₁ ∉ d₂.references)
      (hd₁ : m₂ ∉ d₁.references) (b next : Bindings)
      (hread : b.read
        (before ++ .assign m₁ d₁ :: (remarks.map .comment ++ .assign m₂ d₂ :: after)) = .ok next) :
      b.read (before ++ .assign m₂ d₂ :: (remarks.map .comment ++ .assign m₁ d₁ :: after)) =
        .ok next := by
    rw [Bindings.read_append] at hread ⊢
    obtain ⟨first, hfirst, hrest⟩ := bind_eq_ok.mp hread
    exact bind_eq_ok.mpr ⟨first, hfirst, Bindings.read_swap hm hd₂ hd₁ hrest⟩
  exact ⟨Host.compile_of_read (hswap hne h₁ h₂), Host.compile_of_read (hswap hne.symm h₂ h₁)⟩

/-! A rule that becomes a symbol and one that uses a symbol of the host change places. -/

theorem compile_swap_vowels :
    "v" ≠ "w" ∧ "v" ∉ (Expr.rep (.ref "c") .plus).references ∧ "w" ∉ (Expr.lit 1).references ∧
      ∃ a, (⟨[("c", 0)], 0⟩ : Host).compile ([] ++ .assign "v" (.lit 1) ::
            (["v and w"].map .comment ++ .assign "w" (.rep (.ref "c") .plus) ::
              [.assign entryRule (.cat (.ref "w") (.ref "v"))])) = .ok a ∧
          (⟨[("c", 0)], 0⟩ : Host).compile ([] ++ .assign "w" (.rep (.ref "c") .plus) ::
            (["v and w"].map .comment ++ .assign "v" (.lit 1) ::
              [.assign entryRule (.cat (.ref "w") (.ref "v"))])) = .ok a ∧
          a.alphabet = 2 := by
  have hne : "v" ≠ "w" := by decide
  have hv : "v" ∉ (Expr.rep (.ref "c") .plus).references := by decide
  have hw : "w" ∉ (Expr.lit 1).references := by decide
  obtain ⟨a, ha, halphabet⟩ := exists_of_map_decide_eq_ok
    (m := (⟨[("c", 0)], 0⟩ : Host).compile ([] ++ .assign "v" (.lit 1) ::
      (["v and w"].map .comment ++ .assign "w" (.rep (.ref "c") .plus) ::
        [.assign entryRule (.cat (.ref "w") (.ref "v"))])))
    (p := fun a => a.alphabet = 2) (by decide +kernel)
  exact ⟨hne, hv, hw, a, ha, (compile_swap hne hv hw _ _ _ _ a).mp ha, halphabet⟩

end RunGrammar
