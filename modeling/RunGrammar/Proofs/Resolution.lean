import RunGrammar.Bindings

/-! Resolution as substitution. An expression resolves exactly if every name in it is bound, and
then to the expression with each reference replaced by the rule of its name. Otherwise the
first unbound name from left to right is reported. Rules without references stay so. -/
namespace RunGrammar

/-- The rules that the statements bind, in order. -/
def assignments : List Statement → List (String × Expr)
  | [] => []
  | .assign name body :: statements => (name, body) :: assignments statements
  | .comment _ :: statements => assignments statements

theorem assignments_comments (texts : List String) (statements : List Statement) :
    assignments (texts.map Statement.comment ++ statements) = assignments statements := by
  induction texts with
  | nil => rfl
  | cons text texts ih => exact ih

/-- The expression with the references that have a rule replaced by it. -/
def Expr.substitute (rule? : String → Option Expr) : Expr → Expr
  | ref name => (rule? name).getD (ref name)
  | alt a b => alt (a.substitute rule?) (b.substitute rule?)
  | cat a b => cat (a.substitute rule?) (b.substitute rule?)
  | rep e q => rep (e.substitute rule?) q
  | lit s => lit s
  | tag name => tag name
  | endMark => endMark

namespace Bindings

variable {b : Bindings} {e : Expr} {name : String}

/-- Whether no rule has references. -/
def RulesClosed (b : Bindings) : Prop := ∀ name body, b.rule? name = some body → body.Closed

theorem mem_rules : name ∈ b.rules ↔ ∃ body, b.rule? name = some body := by
  rw [rule?, ← Option.isSome_iff_exists, Std.ExtTreeMap.isSome_getElem?_iff_mem]

theorem notMem_rules : name ∉ b.rules ↔ b.rule? name = none := by
  rw [mem_rules, ← Option.isSome_iff_exists, Option.not_isSome_iff_eq_none]

theorem unbound_ref_eq_nil : b.unbound (.ref name) = [] ↔ name ∈ b.rules := by
  simp [unbound, Expr.references]

theorem unbound_of_references {x y : Expr} (h : e.references = x.references ++ y.references) :
    b.unbound e = b.unbound x ++ b.unbound y := by
  rw [unbound, h, List.filter_append]
  rfl

theorem resolve_of_unbound_eq_nil (h : b.unbound e = []) :
    b.resolve e = .ok (e.substitute b.rule?) := by
  induction e with
  | lit _ | tag _ | endMark => rfl
  | ref name =>
    obtain ⟨body, hbody⟩ := mem_rules.mp (unbound_ref_eq_nil.mp h)
    have hbody' : b.rules[name]? = some body := hbody
    simp [resolve, Expr.substitute, hbody, hbody']
  | alt x y ihx ihy | cat x y ihx ihy =>
    obtain ⟨hx, hy⟩ := List.append_eq_nil_iff.mp ((unbound_of_references rfl).symm.trans h)
    rw [resolve, ihx hx, ihy hy]
    rfl
  | rep e q ih =>
    rw [resolve, ih h]
    rfl

theorem resolve_of_unbound_eq_cons {rest : List String} (h : b.unbound e = name :: rest) :
    b.resolve e = .error (.undefinedReference name) := by
  induction e generalizing rest with
  | lit _ | tag _ | endMark => cases h
  | ref other =>
    have hnone : other ∉ b.rules := fun hmem => by simp [unbound_ref_eq_nil.mpr hmem] at h
    obtain ⟨rfl, -⟩ : other = name ∧ [] = rest := by
      simpa [unbound, Expr.references, hnone] using h
    have hrule : b.rules[other]? = none := notMem_rules.mp hnone
    simp [resolve, hrule]
  | alt x y ihx ihy | cat x y ihx ihy =>
    rcases List.append_eq_cons_iff.mp ((unbound_of_references rfl).symm.trans h) with
      ⟨hx, hy⟩ | ⟨_, hx, -⟩
    · rw [resolve, resolve_of_unbound_eq_nil hx, ihy hy]
      rfl
    · rw [resolve, ihx hx]
      rfl
  | rep e q ih =>
    rw [resolve, ih h]
    rfl

theorem resolve_eq_ok_iff {resolved : Expr} :
    b.resolve e = .ok resolved ↔ b.unbound e = [] ∧ resolved = e.substitute b.rule? := by
  cases hu : b.unbound e with
  | nil =>
    rw [resolve_of_unbound_eq_nil hu, Except.ok.injEq, eq_comm]
    exact (and_iff_right rfl).symm
  | cons name rest =>
    rw [resolve_of_unbound_eq_cons hu]
    exact iff_of_false (fun h => by cases h) (fun h => by cases h.1)

theorem closed_substitute (hb : b.RulesClosed) (h : b.unbound e = []) :
    (e.substitute b.rule?).Closed := by
  induction e with
  | lit _ | tag _ | endMark => rfl
  | ref name =>
    obtain ⟨body, hbody⟩ := mem_rules.mp (unbound_ref_eq_nil.mp h)
    rw [Expr.substitute, hbody]
    exact hb name body hbody
  | alt x y ihx ihy | cat x y ihx ihy =>
    obtain ⟨hx, hy⟩ := List.append_eq_nil_iff.mp ((unbound_of_references rfl).symm.trans h)
    exact List.append_eq_nil_iff.mpr ⟨ihx hx, ihy hy⟩
  | rep e q ih => exact Expr.closed_rep.mpr (ih h)

theorem closed_of_resolve {resolved : Expr} (hb : b.RulesClosed)
    (h : b.resolve e = .ok resolved) : resolved.Closed := by
  obtain ⟨hu, rfl⟩ := resolve_eq_ok_iff.mp h
  exact closed_substitute hb hu

end Bindings

end RunGrammar
