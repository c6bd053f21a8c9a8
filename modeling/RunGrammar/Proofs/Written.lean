import RunGrammar.RuleText
import RunGrammar.Proofs.CompileOutcome
import RunGrammar.Proofs.Reading

/-! The expressions that rule text can write. In them a tag stands behind an expression and never
alone, and there is no end mark. Bounds expand to such expressions again, and so does every
reference, since the rules of the table are written in the same way or are symbols of the host. -/
namespace RunGrammar

namespace Expr

/-- Whether the expression is made up as in rule text. -/
inductive Written : Expr → Prop
  | lit (s : Symbol) : Written (lit s)
  | ref (name : String) : Written (ref name)
  | alt {x y : Expr} (hx : Written x) (hy : Written y) : Written (alt x y)
  | cat {x y : Expr} (hx : Written x) (hy : Written y) : Written (cat x y)
  | tagged {e : Expr} (name : String) (he : Written e) : Written (e.tagged name)
  | rep {e : Expr} (q : Quantifier) (he : Written e) : Written (rep e q)

variable {e e' : Expr} {es : List Expr}

theorem Written.foldl {op : Expr → Expr → Expr}
    (hop : ∀ {x y : Expr}, x.Written → y.Written → (op x y).Written) (he : e.Written)
    (hes : ∀ x ∈ es, x.Written) : (es.foldl op e).Written := by
  induction es generalizing e with
  | nil => exact he
  | cons x xs ih =>
    rw [List.forall_mem_cons] at hes
    exact ih (hop he hes.1) hes.2

theorem Written.copies (he : e.Written) (min : Nat) (max : Option Nat) :
    ∀ x ∈ e.copies min max, x.Written := by
  intro x hx
  cases max with
  | none =>
    rcases List.mem_append.mp hx with hx | hx
    · exact List.eq_of_mem_replicate hx ▸ he
    · exact List.mem_singleton.mp hx ▸ he.rep .star
  | some max =>
    rcases List.mem_append.mp hx with hx | hx
    · exact List.eq_of_mem_replicate hx ▸ he
    · exact List.eq_of_mem_replicate hx ▸ he.rep .opt

theorem Written.repetition {min : Nat} {max : Option Nat} (he : e.Written)
    (h : e.repetition min max = .ok e') : e'.Written := by
  have hcopies := he.copies min max
  unfold Expr.repetition at h
  split at h
  · cases h
  · cases hc : e.copies min max with
    | nil =>
      rw [hc] at h
      cases h
    | cons x xs =>
      rw [hc] at h hcopies
      obtain rfl := Except.ok.inj h
      rw [List.forall_mem_cons] at hcopies
      exact hcopies.1.foldl .cat hcopies.2

theorem Written.endMark_notMem_leaves (he : e.Written) : Leaf.endMark ∉ e.leaves := by
  induction he with
  | lit s => simp [leaves]
  | ref name => simp [leaves]
  | alt _ _ ihx ihy => simp [leaves, ihx, ihy]
  | cat _ _ ihx ihy => simp [leaves, ihx, ihy]
  | tagged name _ ih => simp [Expr.tagged, leaves, ih]
  | rep q _ ih => simp [leaves, ih]

end Expr

/-! ## Reading -/

namespace Rules

open Grammar

variable {Repeats : Expr → Nat → Option Nat → Expr → Prop} {ts rest : List Token} {e e' : Expr}
  {rules : List (String × Expr)}

theorem Grammar.Suffixes.written
    (hrepeats : ∀ {e min max e'}, Repeats e min max e' → e.Written → e'.Written)
    (h : Suffixes Repeats e ts e' rest) (he : e.Written) : e'.Written := by
  induction h with
  | nil => exact he
  | cons suffix _ ih =>
    apply ih
    cases suffix with
    | star => exact he.rep .star
    | plus => exact he.rep .plus
    | question => exact he.rep .opt
    | bounds _ h => exact hrepeats h he

/-- The induction is on the derivation. A phrase has one tree, or a list of trees in the case of
the branches and items behind the first. -/
theorem Grammar.Choice.written
    (hrepeats : ∀ {e min max e'}, Repeats e min max e' → e.Written → e'.Written)
    (h : Choice Repeats ts e rest) : e.Written := by
  refine @Choice.rec Repeats (fun _ e _ _ => e.Written) (fun _ es _ _ => ∀ e ∈ es, e.Written)
    (fun _ e _ _ => e.Written) (fun _ es _ _ => ∀ e ∈ es, e.Written) (fun _ e _ _ => e.Written)
    (fun _ e _ _ => e.Written) ?choice ?noBranch ?branch ?chain ?noItem ?item ?operand ?tagged
    ?integer ?name ?group _ _ _ h
  case choice => exact fun _ _ hfirst hmore => hfirst.foldl .alt hmore
  case noBranch => exact fun _ => List.forall_mem_nil _
  case branch => exact fun _ _ hfirst hmore => List.forall_mem_cons.mpr ⟨hfirst, hmore⟩
  case chain => exact fun _ _ hfirst hmore => hfirst.foldl .cat hmore
  case noItem => exact fun _ => List.forall_mem_nil _
  case item => exact fun _ _ hfirst hmore => List.forall_mem_cons.mpr ⟨hfirst, hmore⟩
  case operand => exact fun _ more hcore => more.written hrepeats hcore
  case tagged => exact fun name _ hitem => hitem.tagged name
  case integer => exact fun n _ => .lit n
  case name => exact fun text _ => .ref text
  case group => exact fun _ hchoice => hchoice

theorem Grammar.RuleList.written (h : RuleList Expr.Counted ts rules) :
    ∀ rule ∈ rules, rule.2.Written := by
  induction h with
  | nil => exact List.forall_mem_nil _
  | cons name choice _ ih =>
    exact List.forall_mem_cons.mpr ⟨choice.written fun hcounted he => he.repetition hcounted.2, ih⟩

/-- A text that is read holds only such expressions. -/
theorem written_of_statements {text : String} {statements : List Statement}
    (h : Rules.statements text = .ok statements) :
    ∀ rule ∈ assignments statements, rule.2.Written := by
  rw [Rules.statements] at h
  split at h
  · next lexemes _ =>
    exact ((statementsFrom_iff _ .idle [] lexemes).mp ⟨statements, h, rfl⟩).written
  · cases h

end Rules

/-! ## Resolution -/

namespace Bindings

variable {b next : Bindings} {e : Expr} {name : String} {statements : List Statement}

def RulesWritten (b : Bindings) : Prop := ∀ name body, b.rule? name = some body → body.Written

theorem written_substitute (hb : b.RulesWritten) (he : e.Written) (h : b.unbound e = []) :
    (e.substitute b.rule?).Written := by
  induction he with
  | lit s => exact .lit s
  | ref name =>
    obtain ⟨body, hbody⟩ := mem_rules.mp (unbound_ref_eq_nil.mp h)
    rw [Expr.substitute, hbody]
    exact hb name body hbody
  | alt _ _ ihx ihy =>
    obtain ⟨hx, hy⟩ := List.append_eq_nil_iff.mp ((unbound_of_references rfl).symm.trans h)
    exact .alt (ihx hx) (ihy hy)
  | cat _ _ ihx ihy =>
    obtain ⟨hx, hy⟩ := List.append_eq_nil_iff.mp ((unbound_of_references rfl).symm.trans h)
    exact .cat (ihx hx) (ihy hy)
  | tagged name _ ih =>
    obtain ⟨he, -⟩ := List.append_eq_nil_iff.mp ((unbound_of_references rfl).symm.trans h)
    exact .tagged name (ih he)
  | rep q _ ih => exact .rep q (ih h)

theorem rulesWritten_ofExternal {external : List (String × Symbol)}
    (h : ofExternal external = .ok b) : b.RulesWritten :=
  ofExternal_induction (p := fun _ b => b.RulesWritten)
    (fun {_ _ _ code _} hb hn => hn.forall_rule? hb (.lit code)) (fun _ _ h => by cases h) h

theorem RulesWritten.read (hb : b.RulesWritten)
    (hstatements : ∀ rule ∈ assignments statements, rule.2.Written)
    (hread : b.read statements = .ok next) : next.RulesWritten := by
  induction statements generalizing b with
  | nil => exact Except.ok.inj hread ▸ hb
  | cons statement rest ih =>
    cases statement with
    | comment text => exact ih hb hstatements hread
    | assign name body =>
      rw [assignments, List.forall_mem_cons] at hstatements
      rw [read_assign_cons] at hread
      obtain ⟨first, hfirst, hread⟩ := bind_eq_ok.mp hread
      obtain ⟨resolved, hr, hbinds⟩ := assign_eq_ok_iff.mp hfirst
      obtain ⟨hu, rfl⟩ := resolve_eq_ok_iff.mp hr
      exact ih (hbinds.forall_rule? hb (written_substitute hb hstatements.1 hu)) hstatements.2 hread

end Bindings

/-- The entry rule of a text that is read is such an expression, too. -/
theorem Host.written_entry {h : Host} {text : String} {statements : List Statement} {e : Expr}
    (hread : Rules.statements text = .ok statements) (he : h.entry statements = .ok e) :
    e.Written := by
  obtain ⟨b, hb, hentry⟩ := bind_eq_ok.mp he
  obtain ⟨own, next, hown, hnext, rfl⟩ := bindings_eq_ok_iff.mp hb
  have hwritten := (Bindings.rulesWritten_ofExternal hown).read
    (Rules.written_of_statements hread) hnext
  have hentry := mapError_eq_ok.mp hentry
  unfold Bindings.entry at hentry
  split at hentry
  · next body hbody => exact Except.ok.inj hentry ▸ hwritten entryRule body hbody
  · cases hentry

end RunGrammar
