import RunGrammar.Proofs.RuleOrder

/-! The symbols of the host. They are bound as if the rule list began with a rule for each of them,
in the order in which they are registered and whether or not a name occurs twice. So there is
nothing that a grammar can do with them and not with rules of its own. -/
namespace RunGrammar

/-- The rules that bind names to bare literals. -/
def literalRules (symbols : List (String × Symbol)) : List Statement :=
  symbols.map fun (name, code) => .assign name (.lit code)

namespace Bindings

/-- A rule that is a bare literal resolves to itself, and so it binds a symbol as the host does. -/
theorem read_literalRules (symbols : List (String × Symbol)) (rest : List Statement) :
    Bindings.read {} (literalRules symbols ++ rest) =
      (ofExternal symbols).bind fun own => own.read rest := by
  -- The symbol bound last is the rule in front of the rest.
  induction symbols using List.reverseRecOn generalizing rest with
  | nil => rfl
  | append_singleton front symbol ih =>
    obtain ⟨name, code⟩ := symbol
    have hassign : ∀ own : Bindings, own.assign name (.lit code) = own.bindSymbol name code :=
      fun _ => rfl
    have hsplit : literalRules (front ++ [(name, code)]) ++ rest =
        literalRules front ++ .assign name (.lit code) :: rest := by
      simp [literalRules]
    rw [hsplit, ih, ofExternal_concat]
    simp only [read_assign_cons, hassign]
    cases ofExternal front <;> rfl

end Bindings

namespace Host

variable {h : Host} {statements : List Statement}

/-- Symbols that are registered by several calls are bound in the order of the calls. -/
theorem foldl_withExternal (h : Host) (calls : List (List (String × Symbol))) :
    calls.foldl withExternal h = { h with external := h.external ++ calls.flatten } := by
  induction calls generalizing h with
  | nil => rw [List.flatten_nil, List.append_nil, List.foldl_nil]
  | cons call calls ih =>
    rw [List.foldl_cons, ih, withExternal, List.flatten_cons, List.append_assoc]

theorem bindings_literalRules (h : Host) (statements : List Statement) :
    ({ h with external := [] } : Host).bindings (literalRules h.external ++ statements) =
      h.bindings statements := by
  change (Bindings.read {} (literalRules h.external ++ statements)).bind _ =
    (Bindings.ofExternal h.external).bind _
  rw [Bindings.read_literalRules]
  cases Bindings.ofExternal h.external <;> rfl

end Host

/-- Registering symbols with a host, by however many calls, has the effect of putting a rule for
each of them in front of the rule list: the same automaton or the same error. -/
theorem compile_foldl_withExternal (h : Host) (calls : List (List (String × Symbol)))
    (statements : List Statement) :
    (calls.foldl Host.withExternal h).compile statements =
      ({ h with external := [] } : Host).compile
        (literalRules (h.external ++ calls.flatten) ++ statements) := by
  rw [Host.foldl_withExternal, Host.compile, ← Host.bindings_literalRules]
  rfl

end RunGrammar
