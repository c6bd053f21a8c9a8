import RunGrammar.Proofs.Binding
import RunGrammar.Proofs.Compilation
import RunGrammar.Proofs.Resolution
import Mathlib.Data.List.Dedup

/-! The bindings made so far, as a history. The rule of a name is the last expression bound to
it. The symbol of a name is the last bare literal bound to it, so it outlives a binding of the
name to anything else: then the name still counts as a symbol, and its rule says otherwise. -/
namespace RunGrammar

theorem lookup_cons_eq_ite {α : Type} (name other : String) (value : α)
    (rest : List (String × α)) :
    ((name, value) :: rest).lookup other =
      if name = other then some value else rest.lookup other := by
  rw [List.lookup_cons]
  by_cases h : name = other
  · simp [h]
  · simp [h, beq_eq_false_iff_ne.mpr (Ne.symm h)]

namespace Bindings

/-- Names with the expressions without references that were bound to them, the last one in
front. -/
abbrev History := List (String × Expr)

namespace History

/-- The names that were bound to bare literals, with their symbols. -/
def symbols (history : History) : List (String × Symbol) :=
  history.filterMap fun (name, body) => body.literal?.map (name, ·)

/-- The number of names that have ever been bound to a bare literal. -/
def declared (history : History) : Nat := (history.symbols.map Prod.fst).dedup.length

def ofExternal (external : List (String × Symbol)) : History :=
  external.reverse.map fun (name, code) => (name, .lit code)

/-- The history after a rule list, each name standing for what was last bound to it. -/
def read (history : History) : List Statement → History
  | [] => history
  | .comment _ :: rest => history.read rest
  | .assign name body :: rest => read ((name, body.substitute (history.lookup ·)) :: history) rest

theorem ofExternal_concat (external : List (String × Symbol)) (name : String) (code : Symbol) :
    ofExternal (external ++ [(name, code)]) = (name, .lit code) :: ofExternal external := by
  simp [ofExternal]

theorem symbols_cons (name : String) (body : Expr) (history : History) :
    symbols ((name, body) :: history) =
      (body.literal?.map (name, ·)).toList ++ history.symbols := by
  cases h : body.literal? <;> simp [symbols, h]

theorem lookup_symbols_cons (name other : String) (body : Expr) (history : History) :
    (symbols ((name, body) :: history)).lookup other =
      if name = other then body.literal?.or (history.symbols.lookup other)
      else history.symbols.lookup other := by
  rw [symbols_cons]
  cases body.literal? with
  | none => simp
  | some code =>
    rw [Option.map_some, Option.toList_some, List.singleton_append, lookup_cons_eq_ite]
    rfl

theorem lookup_symbols_of_lookup {history : History} {name : String} {code : Symbol}
    (h : history.lookup name = some (.lit code)) : history.symbols.lookup name = some code := by
  induction history with
  | nil => cases h
  | cons binding rest ih =>
    obtain ⟨other, body⟩ := binding
    rw [lookup_cons_eq_ite] at h
    rw [lookup_symbols_cons]
    split at h
    · next hname =>
      obtain rfl := Option.some.inj h
      rw [if_pos hname]
      rfl
    · next hname => rw [if_neg hname, ih h]

theorem mem_symbols_iff {history : History} {name : String} :
    name ∈ history.symbols.map Prod.fst ↔ ∃ code, history.symbols.lookup name = some code := by
  rw [← Option.isSome_iff_exists, List.lookup_isSome_iff, List.mem_map]
  exact exists_congr fun _ => and_congr_right fun _ => by rw [beq_iff_eq, eq_comm]

end History

/-- The history after the statements of a list, up to the first that cannot be bound. -/
def record (b : Bindings) (history : History) : List Statement → History
  | [] => history
  | .comment _ :: rest => b.record history rest
  | .assign name body :: rest =>
    match b.resolve body with
    | .error _ => history
    | .ok resolved =>
      match b.bind name resolved with
      | .ok next => next.record ((name, resolved) :: history) rest
      | .error _ => history

/-- Bindings that calls of the library lead to, with their history. Where a list ends in a panic,
they are those before it, to which a shorter list leads as well. -/
inductive Reached : History → Bindings → Prop
  | external {b : Bindings} {external : List (String × Symbol)}
      (hb : Bindings.ofExternal external = .ok b) : Reached (.ofExternal external) b
  | process {history : History} {b : Bindings} (statements : List Statement)
      (hb : Reached history b) : Reached (b.record history statements) (b.process statements).1
  | reserve {history : History} {b : Bindings} (size : UInt64) (hb : Reached history b) :
      Reached history (b.reserve size)

/-- What a history says about the bindings that it leads to. -/
structure Agrees (history : History) (b : Bindings) : Prop where
  rule : ∀ name, b.rule? name = history.lookup name
  symbol : ∀ name, b.symbol? name = history.symbols.lookup name

variable {history : History} {b next : Bindings} {statements : List Statement}

theorem Agrees.bind {name : String} {body : Expr} (hb : Agrees history b)
    (h : b.Binds name body next) : Agrees ((name, body) :: history) next where
  rule other := by rw [h.rule?, hb.rule, lookup_cons_eq_ite]
  symbol other := by rw [h.symbol?, hb.symbol, History.lookup_symbols_cons]

/-- A property of tables with their histories that every binding keeps is kept by a rule list. -/
theorem record_induction {p : History → Bindings → Prop}
    (hbind : ∀ {history b name body resolved next}, p history b → b.resolve body = .ok resolved →
      b.Binds name resolved next → p ((name, resolved) :: history) next)
    (hb : p history b) : p (b.record history statements) (b.process statements).1 := by
  induction statements generalizing history b with
  | nil => exact hb
  | cons statement rest ih =>
    cases statement with
    | comment text => exact ih hb
    | assign name body =>
      rw [record, process, assign]
      cases hr : b.resolve body with
      | error e => exact hb
      | ok resolved =>
        cases hn : b.bind name resolved with
        | error halt =>
          simp only [hn]
          exact hb
        | ok next =>
          simp only [hn]
          exact ih (hbind hb hr (bind_eq_ok_iff.mp hn))

theorem ofExternal_concat (external : List (String × Symbol)) (name : String) (code : Symbol) :
    ofExternal (external ++ [(name, code)]) =
      (ofExternal external).bind fun b => b.bindSymbol name code := by
  rw [ofExternal, List.foldlM_append, ← ofExternal]
  cases hown : ofExternal external with
  | ok own => exact bind_pure (own.bindSymbol name code)
  | error halt => rfl

theorem ofExternal_induction {p : History → Bindings → Prop}
    (hbind : ∀ {history b name code next}, p history b → b.Binds name (.lit code) next →
      p ((name, .lit code) :: history) next)
    (hempty : p [] {}) {external : List (String × Symbol)} (h : ofExternal external = .ok b) :
    p (.ofExternal external) b := by
  -- The symbol bound last stands in front of the history.
  induction external using List.reverseRecOn generalizing b with
  | nil => exact Except.ok.inj h ▸ hempty
  | append_singleton front symbol ih =>
    obtain ⟨name, code⟩ := symbol
    rw [ofExternal_concat] at h
    obtain ⟨own, hown, hn⟩ := bind_eq_ok.mp h
    rw [History.ofExternal_concat]
    exact hbind (ih hown) (bind_eq_ok_iff.mp hn)

theorem Reached.induction {p : History → Bindings → Prop} (hempty : p [] {})
    (hbind : ∀ {history b name body resolved next}, p history b → b.resolve body = .ok resolved →
      b.Binds name resolved next → p ((name, resolved) :: history) next)
    (hreserve : ∀ {history b size}, p history b → p history (b.reserve size))
    (hb : Reached history b) : p history b := by
  induction hb with
  | external hb =>
    refine ofExternal_induction (fun {history b name code next} h hn => ?_) hempty hb
    exact hbind h (show b.resolve (.lit code) = .ok (.lit code) from rfl) hn
  | process statements _ ih => exact record_induction hbind ih
  | reserve size _ ih => exact hreserve ih

theorem agrees_empty : Agrees [] {} := ⟨fun _ => rfl, fun _ => rfl⟩

theorem Reached.agrees (hb : Reached history b) : Agrees history b :=
  hb.induction (p := Agrees) agrees_empty (fun h _ => h.bind) fun h => ⟨h.rule, h.symbol⟩

theorem Binds.forall_rule? {p : Expr → Prop} {name : String} {body : Expr}
    (h : b.Binds name body next) (hb : ∀ other rule, b.rule? other = some rule → p rule)
    (hbody : p body) : ∀ other rule, next.rule? other = some rule → p rule := by
  intro other rule hrule
  rw [h.rule?] at hrule
  split at hrule
  · exact Option.some.inj hrule ▸ hbody
  · exact hb other rule hrule

theorem rulesClosed_empty : ({} : Bindings).RulesClosed := fun _ _ h => by cases h

theorem Reached.rulesClosed (hb : Reached history b) : b.RulesClosed :=
  hb.induction (p := fun _ b => b.RulesClosed) rulesClosed_empty
    (fun h hr hn => hn.forall_rule? h (closed_of_resolve h hr)) id

theorem symbol?_build {a : Automaton} (h : b.build = .ok a) (name : String) :
    a.symbol? name = b.symbol? name := by
  obtain ⟨_, _, _, -, -, -, rfl⟩ := build_eq_ok_iff.mp h
  rfl

/-- A symbol and its rule agree exactly as long as the name has not been bound to anything but a
bare literal since. A rule that is a bare literal always has its symbol. -/
theorem symbol?_eq_some_iff_rule? (hb : Reached history b) (name : String) :
    ((∀ code, b.symbol? name = some code ↔ b.rule? name = some (.lit code)) ↔
      (name ∈ history.symbols.map Prod.fst → ∃ code, history.lookup name = some (.lit code))) ∧
    (∀ code, b.rule? name = some (.lit code) → b.symbol? name = some code) ∧
    ∀ a, b.build = .ok a → a.symbol? name = b.symbol? name := by
  have hrule : ∀ code, b.rule? name = some (.lit code) → b.symbol? name = some code := by
    intro code h
    rw [hb.agrees.rule] at h
    rw [hb.agrees.symbol]
    exact History.lookup_symbols_of_lookup h
  refine ⟨⟨fun h hmem => ?_, fun h code => ⟨fun hcode => ?_, hrule code⟩⟩, hrule,
    fun a ha => symbol?_build ha name⟩
  · obtain ⟨code, hcode⟩ := History.mem_symbols_iff.mp hmem
    rw [← hb.agrees.symbol, h, hb.agrees.rule] at hcode
    exact ⟨code, hcode⟩
  · rw [hb.agrees.symbol] at hcode
    obtain ⟨last, hlast⟩ := h (History.mem_symbols_iff.mpr ⟨code, hcode⟩)
    rw [History.lookup_symbols_of_lookup hlast] at hcode
    rw [hb.agrees.rule, hlast, Option.some.inj hcode]

/-- The symbol `a` gets an alias `b` and is then bound to `0 0`. -/
def reboundRules : List Statement :=
  [.assign "b" (.ref "a"), .assign "a" (.cat (.lit 0) (.lit 0)), .assign entryRule (.ref "a")]

/-- The bindings of a host that brings the symbol `a`. -/
def hosted : Bindings where
  rules := (∅ : Std.ExtTreeMap String Expr).insert "a" (.lit 0)
  symbols := (∅ : Std.ExtTreeMap String Symbol).insert "a" 0
  alphabet := 1

theorem reached_hosted : Reached [("a", .lit 0)] hosted :=
  .external (show ofExternal [("a", 0)] = .ok hosted from rfl)

def rebound : Bindings := (hosted.process reboundRules).1

def reboundHistory : History :=
  [(entryRule, .cat (.lit 0) (.lit 0)), ("a", .cat (.lit 0) (.lit 0)), ("b", .lit 0),
    ("a", .lit 0)]

theorem reached_rebound : Reached reboundHistory rebound := reached_hosted.process reboundRules

theorem symbol?_rebound_of_history :
    Reached reboundHistory rebound ∧
      (∀ code, rebound.symbol? "b" = some code ↔ rebound.rule? "b" = some (.lit code)) ∧
      ¬ (∀ code, rebound.symbol? "a" = some code ↔ rebound.rule? "a" = some (.lit code)) ∧
      ∃ a, rebound.build = .ok a ∧ a.symbol? "b" = some 0 := by
  obtain ⟨hb, hcode, hbuild⟩ := symbol?_eq_some_iff_rule? reached_rebound "b"
  refine ⟨reached_rebound, hb.mpr fun _ => ⟨0, by decide⟩, fun hagree => ?_, ?_⟩
  · obtain ⟨code, hlast⟩ :=
      (symbol?_eq_some_iff_rule? reached_rebound "a").1.mp hagree (by decide)
    have hcat : reboundHistory.lookup "a" = some (.cat (.lit 0) (.lit 0)) := by decide
    rw [hcat] at hlast
    cases hlast
  · cases ha : rebound.build with
    | error _ =>
      have hok : rebound.build.isOk = true := by decide +kernel
      rw [ha] at hok
      cases hok
    | ok a => exact ⟨a, rfl, (hbuild a ha).trans (hcode 0 (by decide +kernel))⟩

/-- After the second binding of `a` its symbol is still there and its rule is no literal. -/
theorem symbol?_rebound_ne_rule? :
    ∃ history, Reached history rebound ∧ rebound.symbol? "a" = some 0 ∧
      rebound.rule? "a" = some (.cat (.lit 0) (.lit 0)) :=
  ⟨_, reached_rebound, by decide +kernel, by decide +kernel⟩

end Bindings

end RunGrammar
