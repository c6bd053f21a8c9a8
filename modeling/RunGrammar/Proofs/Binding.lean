import RunGrammar.Bindings
import RunGrammar.Proofs.Results

/-! One binding. The expression becomes the rule of the name, and a bare literal becomes its
symbol. If the name was no symbol before, one is added to the alphabet size, and the program
panics if that leaves the 64-bit words. -/
namespace RunGrammar

/-- The symbol that a bare literal stands for. -/
def Expr.literal? : Expr → Option Symbol
  | lit s => some s
  | _ => none

namespace Bindings

variable {b next : Bindings} {name other : String} {body resolved : Expr} {size sum : UInt64}
  {halt : Halt CompileError} {err : CompileError} {rest : List Statement}

theorem oneMore_eq_ok_iff : oneMore size = .ok sum ↔ sum.toNat = size.toNat + 1 := by
  unfold oneMore
  split
  · next hlt =>
    rw [Except.ok.injEq, ← UInt64.toNat_inj, UInt64.toNat_add, UInt64.toNat_one,
      Nat.mod_eq_of_lt hlt]
    exact eq_comm
  · next hge =>
    refine iff_of_false (fun h => by cases h) fun h => hge ?_
    exact h ▸ sum.toNat_lt_size

theorem oneMore_eq_error_iff :
    oneMore size = .error halt ↔ halt = .panicked ∧ size.toNat + 1 = UInt64.size := by
  have hsize := size.toNat_lt_size
  unfold oneMore
  split
  · exact iff_of_false (fun h => by cases h) (by omega)
  · rw [Except.error.injEq, eq_comm]
    exact (and_iff_left (by omega)).symm

/-- Whether a binding makes a name a symbol that was none before. -/
def Adds (b : Bindings) (name : String) (body : Expr) : Prop :=
  body.literal?.isSome ∧ name ∉ b.symbols

instance (b : Bindings) (name : String) (body : Expr) : Decidable (b.Adds name body) :=
  inferInstanceAs (Decidable (_ ∧ _))

theorem bind_eq (b : Bindings) (name : String) (body : Expr) :
    b.bind name body =
      (if b.Adds name body then oneMore b.alphabet else .ok b.alphabet).map fun size => {
        rules := b.rules.insert name body
        symbols := body.literal?.elim b.symbols (b.symbols.insert name ·)
        alphabet := size } := by
  cases body with
  | lit code =>
    have hadds : b.Adds name (.lit code) ↔ name ∉ b.symbols := and_iff_right rfl
    by_cases hmem : name ∈ b.symbols
    · rw [if_neg fun h => hadds.mp h hmem, bind, bindSymbol, if_pos hmem]
      rfl
    · rw [if_pos (hadds.mpr hmem), bind, bindSymbol, if_neg hmem]
      rfl
  | _ =>
    rw [if_neg fun h => Bool.false_ne_true h.1]
    rfl

/-- What is bound after a binding. -/
structure Binds (b : Bindings) (name : String) (body : Expr) (next : Bindings) : Prop where
  rules : next.rules = b.rules.insert name body
  symbols : next.symbols = body.literal?.elim b.symbols (b.symbols.insert name ·)
  alphabet : next.alphabet.toNat = b.alphabet.toNat + if b.Adds name body then 1 else 0

theorem bind_eq_ok_iff : b.bind name body = .ok next ↔ b.Binds name body next := by
  have hsize : ∀ size, (if b.Adds name body then oneMore b.alphabet else .ok b.alphabet) =
      .ok size ↔ size.toNat = b.alphabet.toNat + if b.Adds name body then 1 else 0 := by
    intro size
    split
    · exact oneMore_eq_ok_iff
    · rw [Except.ok.injEq, ← UInt64.toNat_inj, Nat.add_zero, eq_comm]
  rw [bind_eq, map_eq_ok]
  constructor
  · rintro ⟨size, hok, rfl⟩
    exact ⟨rfl, rfl, (hsize size).mp hok⟩
  · intro h
    refine ⟨next.alphabet, (hsize _).mpr h.alphabet, ?_⟩
    rw [← h.rules, ← h.symbols]

theorem bind_eq_error_iff : b.bind name body = .error halt ↔
    halt = .panicked ∧ b.Adds name body ∧ b.alphabet.toNat + 1 = UInt64.size := by
  rw [bind_eq, map_eq_error]
  split
  · next hadds => rw [oneMore_eq_error_iff, and_iff_right hadds]
  · next hadds => exact iff_of_false (fun h => by cases h) fun h => hadds h.2.1

theorem exists_binds_iff : (∃ next, b.Binds name body next) ↔
    b.alphabet.toNat + (if b.Adds name body then 1 else 0) < UInt64.size := by
  constructor
  · rintro ⟨next, h⟩
    rw [← h.alphabet]
    exact next.alphabet.toNat_lt_size
  · intro hlt
    cases hn : b.bind name body with
    | ok next => exact ⟨next, bind_eq_ok_iff.mp hn⟩
    | error halt =>
      obtain ⟨-, hadds, hfull⟩ := bind_eq_error_iff.mp hn
      rw [if_pos hadds, hfull] at hlt
      exact absurd hlt (Nat.lt_irrefl _)

theorem Binds.rule? (h : b.Binds name body next) (other : String) :
    next.rule? other = if name = other then some body else b.rule? other := by
  simp [Bindings.rule?, h.rules, Std.ExtTreeMap.getElem?_insert]

theorem Binds.symbol? (h : b.Binds name body next) (other : String) :
    next.symbol? other =
      if name = other then body.literal?.or (b.symbol? other) else b.symbol? other := by
  cases hcode : body.literal? with
  | none => simp [Bindings.symbol?, h.symbols, hcode]
  | some code =>
    simp [Bindings.symbol?, h.symbols, hcode, Std.ExtTreeMap.getElem?_insert]

/-! ## Assignments and rule lists -/

theorem assign_eq_ok_iff : b.assign name body = .ok next ↔
    ∃ resolved, b.resolve body = .ok resolved ∧ b.Binds name resolved next := by
  rw [assign]
  cases b.resolve body with
  | error err =>
    refine iff_of_false (fun h => by cases h) ?_
    rintro ⟨_, h, -⟩
    cases h
  | ok resolved => simp [bind_eq_ok_iff]

theorem assign_eq_returned_iff :
    b.assign name body = .error (.returned err) ↔ b.resolve body = .error err := by
  rw [assign]
  cases b.resolve body with
  | error err' => simp
  | ok resolved => simp [bind_eq_error_iff]

theorem assign_eq_panicked_iff : b.assign name body = .error .panicked ↔
    ∃ resolved, b.resolve body = .ok resolved ∧ b.Adds name resolved ∧
      b.alphabet.toNat + 1 = UInt64.size := by
  rw [assign]
  cases b.resolve body with
  | error err' => simp
  | ok resolved => simp [bind_eq_error_iff]

theorem process_assign_ok (h : b.assign name body = .ok next) (rest : List Statement) :
    b.process (.assign name body :: rest) = next.process rest := by
  rw [process, h]

theorem process_assign_error (h : b.assign name body = .error halt) (rest : List Statement) :
    b.process (.assign name body :: rest) = (b, some halt) := by
  rw [process, h]

/-- A list of statements is read up to its end, and then what follows, unless it fails. -/
theorem process_append (b : Bindings) (front back : List Statement) :
    b.process (front ++ back) =
      if (b.process front).2 = none then (b.process front).1.process back else b.process front := by
  induction front generalizing b with
  | nil => rfl
  | cons statement rest ih =>
    cases statement with
    | comment text => exact ih b
    | assign name body =>
      rw [List.cons_append, process, process]
      cases b.assign name body with
      | ok extended => exact ih extended
      | error err => rfl

theorem read_eq_ok_iff {statements : List Statement} :
    b.read statements = .ok next ↔ b.process statements = (next, none) := by
  unfold read
  split
  · next hp => rw [hp, Except.ok.injEq, Prod.mk.injEq, and_iff_left rfl]
  · next hp => exact iff_of_false (fun h => by cases h) fun h => by rw [hp] at h; cases h

theorem read_assign_cons (b : Bindings) (name : String) (body : Expr) (rest : List Statement) :
    b.read (.assign name body :: rest) = (b.assign name body).bind fun next => next.read rest := by
  rw [read, process]
  cases b.assign name body <;> rfl

theorem read_append (b : Bindings) (front back : List Statement) :
    b.read (front ++ back) = (b.read front).bind fun next => next.read back := by
  induction front generalizing b with
  | nil => rfl
  | cons statement rest ih =>
    cases statement with
    | comment text => exact ih b
    | assign name body =>
      rw [List.cons_append, read_assign_cons, read_assign_cons]
      cases b.assign name body with
      | ok next => exact ih next
      | error halt => rfl

end Bindings

end RunGrammar
