import RunGrammar.Command.Outcome
import RunGrammar.Proofs.Results
import RunGrammar.Proofs.Scanning

/-! The stages of a task: the symbol file is read and parsed, the rules are read, parsed and
compiled, each argument is translated, and the input is held against the alphabet. Each stage that
succeeds tells what the next one works on, and that no stage before it fails. -/
namespace RunGrammar

variable {a : Automaton} {input : List Symbol} {texts : List String}

/-! ## Input symbols -/

namespace Automaton

theorem arguments_eq_ok_iff :
    a.arguments texts = .ok input ↔ texts.map a.argument? = input.map some := by
  induction texts generalizing input with
  | nil => cases input <;> simp [arguments]
  | cons text rest ih =>
    cases htext : a.argument? text with
    | none => cases input <;> simp [arguments, htext]
    | some s =>
      cases hrest : a.arguments rest <;> cases input <;>
        simp [arguments, htext, hrest, Except.map, ← ih]

theorem arguments_eq_error_iff {f : Failure} :
    a.arguments texts = .error f ↔
      ∃ front text back, texts = front ++ text :: back ∧ (∀ x ∈ front, a.argument? x ≠ none) ∧
        a.argument? text = none ∧ f = .unknownSymbol text := by
  induction texts with
  | nil => simp [arguments]
  | cons text rest ih =>
    rw [arguments, exists_split_cons_iff (Q := fun _ text =>
      a.argument? text = none ∧ f = .unknownSymbol text)]
    cases htext : a.argument? text with
    | none => simp [eq_comm]
    | some s =>
      rw [← ih]
      cases a.arguments rest <;> simp [Except.map]

end Automaton

/-! ## Grammars in files -/

namespace Source

variable {Path : Type} {p : Platform Path} {s : Source Path} {external : List (String × Symbol)}
  {statements : List Statement}

/-- The host that a source makes of external symbols. -/
def host (s : Source Path) (external : List (String × Symbol)) : Host :=
  ⟨external, s.alphabet.getD 0⟩

/-- The external symbols of a source: those of its symbol file, or none if there is no such file. -/
inductive Loads (s : Source Path) (p : Platform Path) : List (String × Symbol) → Prop
  | absent (h : s.symbols = none) : Loads s p []
  | file {path : Path} {text : String} {symbols : Std.ExtTreeMap String Symbol}
    (hpath : s.symbols = some path) (htext : p.files.text path = .ok text)
    (h : p.symbols text = .ok symbols) : Loads s p symbols.toList

/-- What a source is read as. -/
def Reads (s : Source Path) (p : Platform Path) (external : List (String × Symbol))
    (statements : List Statement) : Prop :=
  s.Loads p external ∧
    ∃ text, p.files.text s.rules = .ok text ∧ Rules.statements text = .ok statements

/-- Whether a source can be read and compiles to `a`. -/
def Compiles (s : Source Path) (p : Platform Path) (a : Automaton) : Prop :=
  ∃ external statements, s.Reads p external statements ∧
    (s.host external).compile statements = .ok a

/-- Whether a source can be read and the program panics when it is compiled. -/
def Panics (s : Source Path) (p : Platform Path) : Prop :=
  ∃ external statements, s.Reads p external statements ∧
    (s.host external).compile statements = .error .panicked

theorem external_eq_ok_iff : s.external p = .ok external ↔ s.Loads p external := by
  constructor
  · intro h
    unfold Source.external at h
    split at h
    · next hpath => exact Except.ok.inj h ▸ .absent hpath
    · next path hpath =>
      split at h
      · cases h
      · next text htext =>
        split at h
        · next symbols hsymbols => exact Except.ok.inj h ▸ .file hpath htext hsymbols
        · cases h
  · rintro (hpath | ⟨hpath, htext, h⟩)
    · rw [Source.external, hpath]
    · simp only [Source.external, hpath, htext, h]

theorem Loads.unique {other : List (String × Symbol)} (h : s.Loads p external)
    (h' : s.Loads p other) : external = other :=
  Except.ok.inj ((external_eq_ok_iff.mpr h).symm.trans (external_eq_ok_iff.mpr h'))

theorem Reads.unique {external' : List (String × Symbol)} {statements' : List Statement}
    (h : s.Reads p external statements) (h' : s.Reads p external' statements') :
    external = external' ∧ statements = statements' := by
  obtain ⟨hloads, text, htext, hstatements⟩ := h
  obtain ⟨hloads', text', htext', hstatements'⟩ := h'
  cases htext.symm.trans htext'
  exact ⟨hloads.unique hloads', Except.ok.inj (hstatements.symm.trans hstatements')⟩

theorem Compiles.unique {a' : Automaton} (h : s.Compiles p a) (h' : s.Compiles p a') : a = a' := by
  obtain ⟨external, statements, hreads, ha⟩ := h
  obtain ⟨external', statements', hreads', ha'⟩ := h'
  obtain ⟨rfl, rfl⟩ := hreads.unique hreads'
  exact Except.ok.inj (ha.symm.trans ha')

end Source

namespace Command

variable {Path : Type} {p : Platform Path} {t : Task Path}

/-! ## Stages -/

namespace Task

def source : Task Path → Source Path
  | check source | scan source _ => source

/-- The arguments that give the input; a check has none. -/
def arguments : Task Path → List String
  | check _ => []
  | scan _ arguments => arguments

end Task

/-- What can fail once the arguments and the settings are understood. -/
inductive Stage
  | readSymbols
  | parseSymbols
  | readRules
  | parseRules
  | compile
  | translate
  | checkRange
deriving DecidableEq

namespace Stage

/-- The place of a stage in the order of the work. -/
def rank : Stage → Nat
  | readSymbols => 0
  | parseSymbols => 1
  | readRules => 2
  | parseRules => 3
  | compile => 4
  | translate => 5
  | checkRange => 6

theorem rank_lt (stage : Stage) : stage.rank < 7 := by cases stage <;> decide

theorem rank_inj {stage stage' : Stage} (h : stage.rank = stage'.rank) : stage = stage' := by
  cases stage <;> cases stage' <;> first | rfl | cases h

/-- What an error of a stage begins with. -/
def context (p : Platform Path) (source : Source Path) : Stage → String
  | readSymbols | parseSymbols | readRules | parseRules | compile =>
    "failed to compile " ++ p.display source.rules
  | translate => "failed to read input symbols"
  | checkRange => "input does not fit the grammar"

end Stage

/-- Whether a stage of a task fails and with what, as far as what it works on exists. The rules do
not depend on the symbol file before they are compiled, so more than one stage may fail. -/
inductive FailsAt (p : Platform Path) (t : Task Path) : Stage → Failure → Prop
  | readSymbols {path : Path} {e : FileError} (hpath : t.source.symbols = some path)
    (h : p.files.text path = .error e) : FailsAt p t .readSymbols (.file e)
  | parseSymbols {path : Path} {text cause : String} (hpath : t.source.symbols = some path)
    (htext : p.files.text path = .ok text) (h : p.symbols text = .error cause) :
    FailsAt p t .parseSymbols (.symbolFile (p.display path) cause)
  | readRules {e : FileError} (h : p.files.text t.source.rules = .error e) :
    FailsAt p t .readRules (.file e)
  | parseRules {text : String} {e : Rules.SyntaxError}
    (htext : p.files.text t.source.rules = .ok text) (h : Rules.statements text = .error e) :
    FailsAt p t .parseRules (.rules (.malformed e))
  | compile {external : List (String × Symbol)} {statements : List Statement} {e : CompileError}
    (hreads : t.source.Reads p external statements)
    (h : (t.source.host external).compile statements = .error (.returned e)) :
    FailsAt p t .compile (.rules (.uncompilable e))
  | translate {a : Automaton} {front back : List String} {text : String}
    (ha : t.source.Compiles p a) (harguments : t.arguments = front ++ text :: back)
    (hfront : ∀ x ∈ front, a.argument? x ≠ none) (h : a.argument? text = none) :
    FailsAt p t .translate (.unknownSymbol text)
  | checkRange {a : Automaton} {front back : List Symbol} {s : Symbol}
    (ha : t.source.Compiles p a)
    (hinput : t.arguments.map a.argument? = (front ++ s :: back).map some)
    (hfront : ∀ x ∈ front, x.toNat < a.alphabet) (h : a.alphabet ≤ s.toNat) :
    FailsAt p t .checkRange (.outOfAlphabet ⟨s, a.alphabet, some front.length⟩)

/-- A stage that fails while no earlier one does. -/
def FailsFirst (p : Platform Path) (t : Task Path) (stage : Stage) (f : Failure) : Prop :=
  FailsAt p t stage f ∧ ∀ stage' f', FailsAt p t stage' f' → stage.rank ≤ stage'.rank

/-- What a task that no stage of fails prints. -/
def Prints (p : Platform Path) (t : Task Path) (output : String) : Prop :=
  ∃ a, t.source.Compiles p a ∧
    match t with
    | .check _ => output = a.summary
    | .scan _ arguments => ∃ input runs, arguments.map a.argument? = input.map some ∧
        a.runs input = .ok runs ∧ output = String.join (runs.map fun r => r.json ++ "\n")

/-! ## What the stages that have been passed tell -/

/-- Whether every stage before the `n`th succeeds. -/
def Passed (p : Platform Path) (t : Task Path) (n : Nat) : Prop :=
  ∀ stage f, FailsAt p t stage f → n ≤ stage.rank

section

variable {external : List (String × Symbol)} {text : String} {statements : List Statement}

theorem Passed.succ {stage : Stage} (h : Passed p t stage.rank)
    (hstage : ∀ f, ¬ FailsAt p t stage f) : Passed p t (stage.rank + 1) := by
  intro stage' f hfails
  have hle : stage.rank ≤ stage'.rank := h stage' f hfails
  have hne : stage.rank ≠ stage'.rank := by
    intro hrank
    obtain rfl := Stage.rank_inj hrank
    exact hstage f hfails
  exact Nat.lt_of_le_of_ne hle hne

theorem passed_readSymbols : Passed p t Stage.readSymbols.rank := fun _ _ _ => Nat.zero_le _

theorem passed_parseSymbols {path : Path} (hpath : t.source.symbols = some path)
    (htext : p.files.text path = .ok text) : Passed p t Stage.parseSymbols.rank := by
  refine passed_readSymbols.succ ?_
  rintro _ (⟨hpath', herror⟩)
  cases hpath.symm.trans hpath'
  cases htext.symm.trans herror

theorem passed_readRules (hloads : t.source.Loads p external) :
    Passed p t Stage.readRules.rank := by
  rcases hloads with hpath | ⟨hpath, htext, hsymbols⟩
  · have hread : Passed p t Stage.parseSymbols.rank := by
      refine passed_readSymbols.succ ?_
      rintro _ (⟨hpath', -⟩)
      cases hpath.symm.trans hpath'
    refine hread.succ ?_
    rintro _ (_ | ⟨hpath', -, -⟩)
    cases hpath.symm.trans hpath'
  · refine (passed_parseSymbols hpath htext).succ ?_
    rintro _ (_ | ⟨hpath', htext', h⟩)
    cases hpath.symm.trans hpath'
    cases htext.symm.trans htext'
    cases hsymbols.symm.trans h

theorem passed_parseRules (hloads : t.source.Loads p external)
    (htext : p.files.text t.source.rules = .ok text) : Passed p t Stage.parseRules.rank := by
  refine (passed_readRules hloads).succ ?_
  rintro _ (_ | _ | h)
  cases htext.symm.trans h

theorem passed_compile (hreads : t.source.Reads p external statements) :
    Passed p t Stage.compile.rank := by
  obtain ⟨hloads, text, htext, hstatements⟩ := hreads
  refine (passed_parseRules hloads htext).succ ?_
  rintro _ (_ | _ | _ | ⟨htext', h⟩)
  cases htext.symm.trans htext'
  cases hstatements.symm.trans h

theorem passed_translate (ha : t.source.Compiles p a) : Passed p t Stage.translate.rank := by
  obtain ⟨external, statements, hreads, hcompile⟩ := ha
  refine (passed_compile hreads).succ ?_
  rintro _ (_ | _ | _ | _ | ⟨hreads', h⟩)
  obtain ⟨rfl, rfl⟩ := hreads.unique hreads'
  cases hcompile.symm.trans h

/-- A panic comes when all stages before have been passed, and there is none after it. -/
theorem not_failsAt_of_panics (hpanics : t.source.Panics p) (stage : Stage) (f : Failure) :
    ¬ FailsAt p t stage f := by
  obtain ⟨external, statements, hreads, hpanicked⟩ := hpanics
  have hcompiles {a : Automaton} : ¬ t.source.Compiles p a := by
    rintro ⟨external', statements', hreads', ha⟩
    obtain ⟨rfl, rfl⟩ := hreads.unique hreads'
    cases hpanicked.symm.trans ha
  intro hfails
  have hrank := passed_compile hreads stage f hfails
  cases hfails with
  | compile hreads' h =>
    obtain ⟨rfl, rfl⟩ := hreads.unique hreads'
    cases hpanicked.symm.trans h
  | translate ha | checkRange ha => exact hcompiles ha
  | readSymbols | parseSymbols | readRules | parseRules => exact absurd hrank (by decide)

theorem failsAt_translate_iff (ha : t.source.Compiles p a) {f : Failure} :
    FailsAt p t .translate f ↔ a.arguments t.arguments = .error f := by
  rw [Automaton.arguments_eq_error_iff]
  constructor
  · rintro (_ | _ | _ | _ | _ | ⟨ha', harguments, hfront, h⟩)
    obtain rfl := ha.unique ha'
    exact ⟨_, _, _, harguments, hfront, h, rfl⟩
  · rintro ⟨_, _, _, harguments, hfront, h, rfl⟩
    exact .translate ha harguments hfront h

theorem failsAt_checkRange_iff (ha : t.source.Compiles p a)
    (hinput : t.arguments.map a.argument? = input.map some) {f : Failure} :
    FailsAt p t .checkRange f ↔ ∃ e, a.scan input = .error e ∧ f = .outOfAlphabet e := by
  simp only [Automaton.scan_eq_error_iff]
  constructor
  · rintro (_ | _ | _ | _ | _ | _ | ⟨ha', hinput', hfront, h⟩)
    obtain rfl := ha.unique ha'
    obtain rfl := Except.ok.inj ((Automaton.arguments_eq_ok_iff.mpr hinput).symm.trans
      (Automaton.arguments_eq_ok_iff.mpr hinput'))
    exact ⟨_, ⟨_, _, _, rfl, hfront, h, rfl⟩, rfl⟩
  · rintro ⟨_, ⟨front, s, back, rfl, hfront, h, rfl⟩, rfl⟩
    exact .checkRange ha hinput hfront h

theorem passed_checkRange (ha : t.source.Compiles p a)
    (hinput : t.arguments.map a.argument? = input.map some) :
    Passed p t Stage.checkRange.rank := by
  refine (passed_translate ha).succ fun f hfails => ?_
  have herror := (failsAt_translate_iff ha).mp hfails
  cases (Automaton.arguments_eq_ok_iff.mpr hinput).symm.trans herror

theorem not_failsAt_of_scan {scan : Scanner} (ha : t.source.Compiles p a)
    (hinput : t.arguments.map a.argument? = input.map some) (hscan : a.scan input = .ok scan)
    (stage : Stage) (f : Failure) : ¬ FailsAt p t stage f := by
  intro hfails
  have hpassed : Passed p t (Stage.checkRange.rank + 1) := by
    refine (passed_checkRange ha hinput).succ fun f hfails => ?_
    obtain ⟨e, herror, -⟩ := (failsAt_checkRange_iff ha hinput).mp hfails
    cases hscan.symm.trans herror
  exact Nat.not_lt.mpr (hpassed stage f hfails) stage.rank_lt

/-- A stage fails with one failure only. -/
theorem FailsAt.eq {stage : Stage} {f f' : Failure} (h : FailsAt p t stage f)
    (h' : FailsAt p t stage f') : f = f' := by
  cases h with
  | readSymbols hpath h =>
    obtain ⟨hpath', h'⟩ := h'
    cases hpath.symm.trans hpath'
    cases h.symm.trans h'
    rfl
  | parseSymbols hpath htext h =>
    obtain _ | ⟨hpath', htext', h'⟩ := h'
    cases hpath.symm.trans hpath'
    cases htext.symm.trans htext'
    cases h.symm.trans h'
    rfl
  | readRules h =>
    obtain _ | _ | h' := h'
    cases h.symm.trans h'
    rfl
  | parseRules htext h =>
    obtain _ | _ | _ | ⟨htext', h'⟩ := h'
    cases htext.symm.trans htext'
    cases h.symm.trans h'
    rfl
  | compile hreads h =>
    obtain _ | _ | _ | _ | ⟨hreads', h'⟩ := h'
    obtain ⟨rfl, rfl⟩ := hreads.unique hreads'
    cases h.symm.trans h'
    rfl
  | translate ha harguments hfront h =>
    have hfails := (failsAt_translate_iff ha).mp (.translate ha harguments hfront h)
    exact Except.error.inj (hfails.symm.trans ((failsAt_translate_iff ha).mp h'))
  | checkRange ha hinput hfront h =>
    obtain ⟨e, he, hf⟩ := (failsAt_checkRange_iff ha hinput).mp (.checkRange ha hinput hfront h)
    obtain ⟨e', he', rfl⟩ := (failsAt_checkRange_iff ha hinput).mp h'
    obtain rfl := Except.error.inj (he.symm.trans he')
    exact hf

/-- At most one stage fails first. -/
theorem FailsFirst.eq {stage stage' : Stage} {f f' : Failure} (h : FailsFirst p t stage f)
    (h' : FailsFirst p t stage' f') : stage = stage' ∧ f = f' := by
  have hrank : stage.rank = stage'.rank := Nat.le_antisymm (h.2 _ _ h'.1) (h'.2 _ _ h.1)
  obtain rfl := Stage.rank_inj hrank
  exact ⟨rfl, h.1.eq h'.1⟩

end

end Command

end RunGrammar
