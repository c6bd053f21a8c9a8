import RunGrammar.Proofs.BindingHistory

/-! References without a rule. An expression resolves exactly if it has none of them, and otherwise
the first one is reported. A rule list is read up to the first assignment with such a reference.
What stands before it is read as if the list ended there, and nothing of it or behind it is kept,
so that a later reading goes on from the last assignment that could be bound. -/
namespace RunGrammar

namespace Bindings

variable {b table : Bindings} {history : History} {e : Expr} {statements : List Statement}
  {err : CompileError} {halt : Halt CompileError}

theorem resolve_eq_error_iff :
    b.resolve e = .error err ↔
      ∃ missing, (b.unbound e).head? = some missing ∧ err = .undefinedReference missing := by
  cases hu : b.unbound e with
  | nil =>
    rw [resolve_of_unbound_eq_nil hu]
    exact iff_of_false (fun h => by cases h) fun ⟨_, h, _⟩ => by cases h
  | cons first others =>
    rw [resolve_of_unbound_eq_cons hu, Except.error.injEq, eq_comm]
    simp

/-- Between calls no rule has references. An expression resolves exactly if none of its references
is unbound, and then to the expression with the rules in place of the references, which has none
left. Otherwise the first unbound reference is reported. -/
theorem resolve_of_reached (hb : Reached history b) (e : Expr) :
    b.RulesClosed ∧
      ((∃ resolved, b.resolve e = .ok resolved) ↔ b.unbound e = []) ∧
      (∀ resolved, b.resolve e = .ok resolved →
        resolved = e.substitute b.rule? ∧ resolved.Closed) ∧
      (b.unbound e ≠ [] → ∃ missing, (b.unbound e).head? = some missing ∧
        b.resolve e = .error (.undefinedReference missing)) := by
  refine ⟨hb.rulesClosed, ⟨?_, fun hu => ⟨_, resolve_of_unbound_eq_nil hu⟩⟩, ?_, fun hu => ?_⟩
  · rintro ⟨resolved, hr⟩
    exact (resolve_eq_ok_iff.mp hr).1
  · intro resolved hr
    exact ⟨(resolve_eq_ok_iff.mp hr).2, closed_of_resolve hb.rulesClosed hr⟩
  · have hhead := List.head?_eq_some_head hu
    exact ⟨_, hhead, resolve_eq_error_iff.mpr ⟨_, hhead, rfl⟩⟩

/-! A list that fails in its third statement, and what is bound after that. -/

def brokenRules : List Statement :=
  [.assign "b" (.cat (.ref "a") (.ref "a")), .comment "x is missing",
    .assign "c" (.alt (.ref "b") (.cat (.ref "x") (.ref "c"))), .assign "d" (.ref "a")]

def broken : Bindings := (hosted.process brokenRules).1.reserve 3

theorem reached_broken :
    Reached [("b", .cat (.lit 0) (.lit 0)), ("a", .lit 0)] broken :=
  (reached_hosted.process brokenRules).reserve 3

theorem resolve_broken :
    (∃ history, Reached history broken) ∧
      broken.resolve (.cat (.ref "b") (.tag "t")) =
        .ok (.cat (.cat (.lit 0) (.lit 0)) (.tag "t")) ∧
      broken.resolve (.alt (.ref "b") (.cat (.ref "d") (.ref "x"))) =
        .error (.undefinedReference "d") := by
  refine ⟨⟨_, reached_broken⟩, ?_, ?_⟩
  · obtain ⟨-, hok, hresolved, -⟩ := resolve_of_reached reached_broken (.cat (.ref "b") (.tag "t"))
    obtain ⟨resolved, hr⟩ := hok.mpr (by decide +kernel)
    obtain ⟨rfl, -⟩ := hresolved resolved hr
    rw [hr]
    decide +kernel
  · obtain ⟨-, -, -, herror⟩ :=
      resolve_of_reached reached_broken (.alt (.ref "b") (.cat (.ref "d") (.ref "x")))
    have hunbound : broken.unbound (.alt (.ref "b") (.cat (.ref "d") (.ref "x"))) =
        ["d", "x"] := by decide +kernel
    rw [hunbound] at herror
    obtain ⟨missing, hmissing, herr⟩ := herror (List.cons_ne_nil _ _)
    rw [herr, ← Option.some.inj hmissing]

/-! ## Rule lists -/

/-- Whether each assignment refers only to names that have a rule when the statements before it
have been read. -/
def Readable (b : Bindings) (statements : List Statement) : Prop :=
  ∀ front name body back, statements = front ++ .assign name body :: back →
    (b.process front).1.unbound body = []

theorem readable_of_process_eq_none (h : (b.process statements).2 = none) :
    b.Readable statements := by
  rintro front name body back rfl
  rw [process_append] at h
  split at h
  · cases hn : (b.process front).1.assign name body with
    | ok next =>
      obtain ⟨resolved, hr, -⟩ := assign_eq_ok_iff.mp hn
      exact (resolve_eq_ok_iff.mp hr).1
    | error halt =>
      rw [process_assign_error hn] at h
      cases h
  · next hfront => exact absurd h hfront

/-- A list is not read to its end exactly if some assignment cannot be bound after those before
it. -/
theorem process_eq_some_iff : b.process statements = (table, some halt) ↔
    ∃ front name body back, statements = front ++ .assign name body :: back ∧
      b.process front = (table, none) ∧ table.assign name body = .error halt := by
  constructor
  · intro h
    induction statements generalizing b with
    | nil => cases h
    | cons statement rest ih =>
      cases statement with
      | comment text =>
        obtain ⟨front, name, body, back, rfl, hfront, hbody⟩ := ih h
        exact ⟨.comment text :: front, name, body, back, rfl, hfront, hbody⟩
      | assign name body =>
        cases hn : b.assign name body with
        | error halt' =>
          rw [process_assign_error hn] at h
          obtain ⟨rfl, hhalt⟩ := Prod.mk.inj h
          obtain rfl := Option.some.inj hhalt
          exact ⟨[], name, body, rest, rfl, rfl, hn⟩
        | ok next =>
          rw [process_assign_ok hn] at h
          obtain ⟨front, other, e, back, rfl, hfront, hbody⟩ := ih h
          refine ⟨.assign name body :: front, other, e, back, rfl, ?_, hbody⟩
          rw [process_assign_ok hn, hfront]
  · rintro ⟨front, name, body, back, rfl, hfront, hbody⟩
    rw [process_append, hfront, if_pos rfl, process_assign_error hbody]

/-- Two lists may be read one after the other or as one list. A list fails exactly at the first
assignment with a reference that has no rule after the statements before it. The first such
reference is reported, and the bindings are those that the statements before it lead to. -/
theorem process_resumes (b : Bindings) (front back : List Statement) :
    b.process (front ++ back) =
        (if (b.process front).2 = none then (b.process front).1.process back
        else b.process front) ∧
      ∀ statements table err, b.process statements = (table, some (.returned err)) ↔
        ∃ front name body back missing, statements = front ++ .assign name body :: back ∧
          b.Readable front ∧ b.process front = (table, none) ∧
          (table.unbound body).head? = some missing ∧ err = .undefinedReference missing := by
  refine ⟨process_append b front back, fun statements table err => ?_⟩
  simp only [process_eq_some_iff, assign_eq_returned_iff, resolve_eq_error_iff]
  constructor
  · rintro ⟨front, name, body, back, hsplit, hfront, missing, hmissing, herr⟩
    have hreadable : b.Readable front := readable_of_process_eq_none (congrArg Prod.snd hfront)
    exact ⟨front, name, body, back, missing, hsplit, hreadable, hfront, hmissing, herr⟩
  · rintro ⟨front, name, body, back, missing, hsplit, -, hfront, hmissing, herr⟩
    exact ⟨front, name, body, back, hsplit, hfront, missing, hmissing, herr⟩

theorem process_brokenRules :
    ∃ table, hosted.process brokenRules = (table, some (.returned (.undefinedReference "x"))) ∧
      table.rule? "b" = some (.cat (.lit 0) (.lit 0)) ∧ table.rule? "c" = none ∧
      table.rule? "d" = none ∧ table.symbol? "a" = some 0 ∧ table.alphabet = 1 := by
  have hfront : (hosted.process (brokenRules.take 2)).2 = none := by decide +kernel
  have hmissing : ((hosted.process (brokenRules.take 2)).1.unbound
      (.alt (.ref "b") (.cat (.ref "x") (.ref "c")))).head? = some "x" := by decide +kernel
  obtain ⟨-, hfails⟩ := process_resumes hosted [] []
  refine ⟨_, (hfails brokenRules _ _).mpr ⟨brokenRules.take 2, "c", _, _, "x", rfl,
    readable_of_process_eq_none hfront, Prod.ext rfl hfront, hmissing, rfl⟩, ?_⟩
  decide +kernel

end Bindings

end RunGrammar
