import RunGrammar.Proofs.CompileOutcome

/-! Inlining. A rule may be named and referred to, or it may be written out where it is referred
to. From the assignment that binds the name on, the name stands for the body: both resolve to the
same expression, and they do so until the name or a name in the body is bound again. Until then an
expression resolves in the same way whether it has the name or the body. -/
namespace RunGrammar

/-- The expression with `body` written out in place of each reference to `name`. -/
def Expr.inline (e : Expr) (name : String) (body : Expr) : Expr :=
  e.substitute fun other => if other = name then some body else none

namespace Bindings

variable {b b' next : Bindings} {e body resolved : Expr} {name other : String}
  {statements : List Statement}

/-- How an expression resolves depends on the rules that it refers to only. -/
theorem resolve_congr (h : ∀ n ∈ e.references, b.rule? n = b'.rule? n) :
    b.resolve e = b'.resolve e := by
  induction e with
  | lit _ | tag _ | endMark => rfl
  | ref name =>
    have hrule : b.rules[name]? = b'.rules[name]? := h name (List.mem_singleton_self name)
    rw [resolve, resolve, hrule]
  | alt x y ihx ihy | cat x y ihx ihy =>
    rw [resolve, resolve, ihx fun n hn => h n (List.mem_append_left _ hn),
      ihy fun n hn => h n (List.mem_append_right _ hn)]
  | rep e q ih => rw [resolve, resolve, ih h]

/-- An expression resolves the same if a name is bound to which it does not refer. -/
theorem Binds.resolve_eq (h : b.Binds name resolved next) (hname : name ∉ e.references) :
    next.resolve e = b.resolve e := by
  apply resolve_congr
  intro n hn
  rw [h.rule?, if_neg]
  rintro rfl
  exact hname hn

/-- References may be replaced by expressions that resolve as they do. -/
theorem resolve_substitute {rule? : String → Option Expr}
    (h : ∀ n body, rule? n = some body → b.resolve body = b.resolve (.ref n)) :
    b.resolve (e.substitute rule?) = b.resolve e := by
  induction e with
  | lit _ | tag _ | endMark => rfl
  | ref n =>
    rw [Expr.substitute]
    cases hn : rule? n with
    | none => rfl
    | some body => exact h n body hn
  | alt x y ihx ihy | cat x y ihx ihy => rw [Expr.substitute, resolve, resolve, ihx, ihy]
  | rep e q ih => rw [Expr.substitute, resolve, resolve, ih]

/-- Two lists may differ in how they end if that makes no difference to what is bound before. -/
theorem read_append_congr {front back back' : List Statement}
    (h : ∀ next, b.read front = .ok next → next.read back = next.read back') :
    b.read (front ++ back) = b.read (front ++ back') := by
  rw [read_append, read_append]
  cases hfront : b.read front with
  | ok next => exact h next hfront
  | error halt => rfl

/-- Whether a name is bound to what `body` resolves to. -/
def StandsFor (b : Bindings) (name : String) (body : Expr) : Prop :=
  ∃ resolved, b.rule? name = some resolved ∧ b.resolve body = .ok resolved

theorem Binds.standsFor (h : b.Binds name resolved next) (hself : name ∉ body.references)
    (hr : b.resolve body = .ok resolved) : next.StandsFor name body :=
  ⟨resolved, by rw [h.rule?, if_pos rfl], by rw [h.resolve_eq hself, hr]⟩

theorem StandsFor.binds (h : b.StandsFor name body) (hname : other ≠ name)
    (hbody : other ∉ body.references) (hn : b.Binds other e next) : next.StandsFor name body := by
  obtain ⟨resolved, hrule, hr⟩ := h
  exact ⟨resolved, by rw [hn.rule?, if_neg hname, hrule], by rw [hn.resolve_eq hbody, hr]⟩

theorem StandsFor.read (h : b.StandsFor name body)
    (hstatements : ∀ n ∈ assigned statements, n ≠ name ∧ n ∉ body.references)
    (hread : b.read statements = .ok next) : next.StandsFor name body := by
  induction statements generalizing b with
  | nil => exact Except.ok.inj hread ▸ h
  | cons statement rest ih =>
    cases statement with
    | comment text => exact ih h hstatements hread
    | assign other e =>
      obtain ⟨⟨hname, hbody⟩, hrest⟩ := List.forall_mem_cons.mp hstatements
      rw [read_assign_cons] at hread
      obtain ⟨first, hfirst, hread⟩ := bind_eq_ok.mp hread
      obtain ⟨resolved, -, hbinds⟩ := assign_eq_ok_iff.mp hfirst
      exact ih (h.binds hname hbody hbinds) hrest hread

/-- Behind the assignment that binds it, and until it is bound again, a name stands for its body. -/
theorem standsFor_of_read {before between : List Statement} (hself : name ∉ body.references)
    (hbetween : ∀ n ∈ assigned between, n ≠ name ∧ n ∉ body.references)
    (hread : b.read (before ++ .assign name body :: between) = .ok next) :
    next.StandsFor name body := by
  rw [read_append] at hread
  obtain ⟨first, -, hread⟩ := bind_eq_ok.mp hread
  rw [read_assign_cons] at hread
  obtain ⟨second, hsecond, hread⟩ := bind_eq_ok.mp hread
  obtain ⟨resolved, hr, hbinds⟩ := assign_eq_ok_iff.mp hsecond
  exact (hbinds.standsFor hself hr).read hbetween hread

theorem StandsFor.resolve_inline (h : b.StandsFor name body) (e : Expr) :
    b.resolve (e.inline name body) = b.resolve e := by
  obtain ⟨resolved, hrule, hr⟩ := h
  apply resolve_substitute
  intro n d hn
  split at hn
  · next hname =>
    have hrule' : b.rules[n]? = some resolved := hname ▸ hrule
    rw [← Option.some.inj hn, hr, resolve, hrule']
  · cases hn

end Bindings

/-- Whether a list compiles, and to what, depends on what it binds. -/
theorem Host.compile_congr {h : Host} {statements statements' : List Statement}
    (hread : ∀ b : Bindings, b.read statements = b.read statements') :
    h.compile statements = h.compile statements' := by
  simp only [compile, bindings, hread]

/-- A rule that is written out in place of its name, before the name or a name in it is bound
again, leads to the same automaton or to the same error. -/
theorem compile_inline {before between after : List Statement} {name user : String}
    {body e : Expr} (hself : name ∉ body.references)
    (hbetween : ∀ n ∈ assigned between, n ≠ name ∧ n ∉ body.references) (h : Host) :
    h.compile (before ++ .assign name body :: between ++ .assign user e :: after) =
      h.compile (before ++ .assign name body :: between ++
        .assign user (e.inline name body) :: after) := by
  apply Host.compile_congr
  intro b
  apply Bindings.read_append_congr
  intro next hread
  have hstands := Bindings.standsFor_of_read hself hbetween hread
  rw [Bindings.read_assign_cons, Bindings.read_assign_cons, Bindings.assign, Bindings.assign,
    hstands.resolve_inline]

/-! The rule `x` is written out in a rule that binds a name again to which `x` refers. -/

def choiceBody : Expr := .alt (.ref "a") (.tagged "t" (.ref "v"))

def choiceUses : List Statement :=
  [.comment "twice", .assign "y" (.cat (.ref "x") (.ref "x"))]

theorem compile_inline_choiceBody :
    "x" ∉ choiceBody.references ∧
      (∀ n ∈ assigned choiceUses, n ≠ "x" ∧ n ∉ choiceBody.references) ∧
      ∃ automaton,
        (⟨[("v", 1)], 0⟩ : Host).compile ([.assign "a" (.lit 0)] ++
            .assign "x" choiceBody :: choiceUses ++ .assign "a" (.rep (.ref "x") .plus) ::
              [.assign entryRule (.cat (.ref "y") (.ref "a"))]) = .ok automaton ∧
        (⟨[("v", 1)], 0⟩ : Host).compile ([.assign "a" (.lit 0)] ++
            .assign "x" choiceBody :: choiceUses ++ .assign "a" (.rep choiceBody .plus) ::
              [.assign entryRule (.cat (.ref "y") (.ref "a"))]) = .ok automaton ∧
        automaton.alphabet = 2 := by
  have hself : "x" ∉ choiceBody.references := by decide
  have hbetween : ∀ n ∈ assigned choiceUses, n ≠ "x" ∧ n ∉ choiceBody.references := by decide
  obtain ⟨automaton, hnamed, halphabet⟩ := exists_of_map_decide_eq_ok
    (m := (⟨[("v", 1)], 0⟩ : Host).compile ([.assign "a" (.lit 0)] ++
      .assign "x" choiceBody :: choiceUses ++ .assign "a" (.rep (.ref "x") .plus) ::
        [.assign entryRule (.cat (.ref "y") (.ref "a"))]))
    (p := fun a => a.alphabet = 2) (by decide +kernel)
  have hwritten : (Expr.rep (.ref "x") .plus).inline "x" choiceBody = .rep choiceBody .plus := by
    decide
  refine ⟨hself, hbetween, automaton, hnamed, ?_, halphabet⟩
  rw [← hnamed, ← hwritten]
  exact (compile_inline hself hbetween _).symm

end RunGrammar
