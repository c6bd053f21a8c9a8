import RunGrammar.Proofs.CommandStages
import RunGrammar.Proofs.Scanning

/-! The outcome of the command. A process reads, checks and translates one thing after the other
and prints as it goes. Whatever can fail comes before the first line is printed, so a failure is
the one of the first stage that fails and nothing stands in front of it. The same goes for the
panic of a compilation. -/
namespace RunGrammar

namespace Command

variable {Path : Type} {p : Platform Path} {t : Task Path}

/-! ## A process that prints as it goes -/

/-- What a process has found out. -/
inductive Phase (Path : Type)
  | start
  | symbolText (path : Path) (text : String)
  | symbols (external : List (String × Symbol))
  | ruleText (external : List (String × Symbol)) (text : String)
  | rules (external : List (String × Symbol)) (statements : List Statement)
  | compiled (a : Automaton)
  | translated (a : Automaton) (input : List Symbol)
  | scanning (a : Automaton) (scan : Scanner)
  | finished
  | failed (stage : Stage) (f : Failure)
  | panicked

/-- The next phase and what is printed on the way to it. -/
def Phase.next? (p : Platform Path) (t : Task Path) : Phase Path → Option (Phase Path × String)
  | start =>
    match t.source.symbols with
    | none => some (symbols [], "")
    | some path =>
      match p.files.text path with
      | .ok text => some (symbolText path text, "")
      | .error e => some (failed .readSymbols (.file e), "")
  | symbolText path text =>
    match p.symbols text with
    | .ok external => some (symbols external.toList, "")
    | .error cause => some (failed .parseSymbols (.symbolFile (p.display path) cause), "")
  | symbols external =>
    match p.files.text t.source.rules with
    | .ok text => some (ruleText external text, "")
    | .error e => some (failed .readRules (.file e), "")
  | ruleText external text =>
    match Rules.statements text with
    | .ok statements => some (rules external statements, "")
    | .error e => some (failed .parseRules (.rules (.malformed e)), "")
  | rules external statements =>
    match (t.source.host external).compile statements with
    | .ok a => some (compiled a, "")
    | .error (.returned e) => some (failed .compile (.rules (.uncompilable e)), "")
    | .error .panicked => some (panicked, "")
  | compiled a =>
    match t with
    | .check _ => some (finished, a.summary)
    | .scan _ arguments =>
      match a.arguments arguments with
      | .ok input => some (translated a input, "")
      | .error f => some (failed .translate f, "")
  | translated a input =>
    match a.scan input with
    | .ok scan => some (scanning a scan, "")
    | .error e => some (failed .checkRange (.outOfAlphabet e), "")
  | scanning a scan =>
    match scan.next a with
    | (some run, after) => some (scanning a after, run.json ++ "\n")
    | (none, _) => some (finished, "")
  | finished | failed _ _ | panicked => none

structure Process (Path : Type) where
  phase : Phase Path := .start
  /-- What has been printed so far. -/
  output : String := ""

namespace Process

def step? (p : Platform Path) (t : Task Path) (x : Process Path) : Option (Process Path) :=
  (x.phase.next? p t).map fun (phase, text) => ⟨phase, x.output ++ text⟩

/-- The outcome of a process that has come to its end. What has been printed stays printed. -/
def outcome? (p : Platform Path) (t : Task Path) (x : Process Path) : Option Outcome :=
  match x.phase with
  | .finished => some ⟨0, x.output, none⟩
  | .failed stage f => some ⟨1, x.output, some ⟨explain (stage.context p t.source) f, none⟩⟩
  | .panicked => some ⟨101, x.output, none⟩
  | .start | .symbolText _ _ | .symbols _ | .ruleText _ _ | .rules _ _ | .compiled _
  | .translated _ _ | .scanning _ _ => none

/-- Whether the process comes to its end with an outcome. -/
inductive Halts (p : Platform Path) (t : Task Path) : Process Path → Outcome → Prop
  | stop {x : Process Path} {o : Outcome} (h : x.outcome? p t = some o) : Halts p t x o
  | step {x y : Process Path} {o : Outcome} (h : x.step? p t = some y)
    (more : Halts p t y o) : Halts p t x o

theorem step?_eq_none {x : Process Path} {o : Outcome} (h : x.outcome? p t = some o) :
    x.step? p t = none := by
  obtain ⟨phase, output⟩ := x
  cases phase with
  | finished | failed stage f | panicked => rfl
  | _ => cases h

/-- A process has one outcome at most. -/
theorem Halts.eq {x : Process Path} {o o' : Outcome} (h : Halts p t x o)
    (h' : Halts p t x o') : o = o' := by
  induction h with
  | stop h =>
    cases h' with
    | stop h' => exact Option.some.inj (h.symm.trans h')
    | step hstep _ => cases (step?_eq_none h).symm.trans hstep
  | step hstep _ ih =>
    cases h' with
    | stop h' => cases (step?_eq_none h').symm.trans hstep
    | step hstep' more =>
      obtain rfl := Option.some.inj (hstep.symm.trans hstep')
      exact ih more

end Process

/-! ## The invariant of a process -/

/-- What holds in a phase. Up to the last stage nothing has been printed, and from then on what has
been printed is the beginning of the output. -/
def Process.Sound (p : Platform Path) (t : Task Path) (x : Process Path) : Prop :=
  match x.phase with
  | .start => x.output = ""
  | .symbolText path text =>
    x.output = "" ∧ t.source.symbols = some path ∧ p.files.text path = .ok text
  | .symbols external => x.output = "" ∧ t.source.Loads p external
  | .ruleText external text => x.output = "" ∧ t.source.Loads p external ∧
      p.files.text t.source.rules = .ok text
  | .rules external statements => x.output = "" ∧ t.source.Reads p external statements
  | .compiled a => x.output = "" ∧ t.source.Compiles p a
  | .translated a input => x.output = "" ∧ t.source.Compiles p a ∧
      (∃ source arguments, t = .scan source arguments) ∧
      t.arguments.map a.argument? = input.map some
  | .scanning a scan => (∀ stage f, ¬ FailsAt p t stage f) ∧
      Prints p t (x.output ++ Run.jsonLines (scan.runs a))
  | .finished => (∀ stage f, ¬ FailsAt p t stage f) ∧ Prints p t x.output
  | .failed stage f => x.output = "" ∧ FailsFirst p t stage f
  | .panicked => x.output = "" ∧ t.source.Panics p

/-- A step keeps the invariant. A stage that fails fails first, because those before it have been
passed. -/
theorem Process.Sound.step {x y : Process Path} (hx : x.Sound p t) (h : x.step? p t = some y) :
    y.Sound p t := by
  obtain ⟨phase, output⟩ := x
  obtain ⟨⟨phase', text⟩, hnext, rfl⟩ := Option.map_eq_some_iff.mp h
  cases phase with
  | start =>
    obtain rfl : output = "" := hx
    simp only [Phase.next?] at hnext
    split at hnext
    · next hpath =>
      cases hnext
      exact ⟨rfl, .absent hpath⟩
    · next path hpath =>
      split at hnext
      · next text htext =>
        cases hnext
        exact ⟨rfl, hpath, htext⟩
      · next e he =>
        cases hnext
        exact ⟨rfl, .readSymbols hpath he, passed_readSymbols⟩
  | symbolText path text =>
    obtain ⟨rfl, hpath, htext⟩ := hx
    simp only [Phase.next?] at hnext
    split at hnext
    · next symbols hsymbols =>
      cases hnext
      exact ⟨rfl, .file hpath htext hsymbols⟩
    · next cause hcause =>
      cases hnext
      exact ⟨rfl, .parseSymbols hpath htext hcause, passed_parseSymbols hpath htext⟩
  | symbols external =>
    obtain ⟨rfl, hloads⟩ := hx
    simp only [Phase.next?] at hnext
    split at hnext
    · next text htext =>
      cases hnext
      exact ⟨rfl, hloads, htext⟩
    · next e he =>
      cases hnext
      exact ⟨rfl, .readRules he, passed_readRules hloads⟩
  | ruleText external text =>
    obtain ⟨rfl, hloads, htext⟩ := hx
    simp only [Phase.next?] at hnext
    split at hnext
    · next statements hstatements =>
      cases hnext
      exact ⟨rfl, hloads, text, htext, hstatements⟩
    · next e he =>
      cases hnext
      exact ⟨rfl, .parseRules htext he, passed_parseRules hloads htext⟩
  | rules external statements =>
    obtain ⟨rfl, hreads⟩ := hx
    simp only [Phase.next?] at hnext
    split at hnext
    · next a ha =>
      cases hnext
      exact ⟨rfl, external, statements, hreads, ha⟩
    · next e he =>
      cases hnext
      exact ⟨rfl, .compile hreads he, passed_compile hreads⟩
    · next hpanicked =>
      cases hnext
      exact ⟨rfl, external, statements, hreads, hpanicked⟩
  | compiled a =>
    obtain ⟨rfl, ha⟩ := hx
    simp only [Phase.next?] at hnext
    split at hnext
    · next source =>
      cases hnext
      -- A check has no arguments, so no stage is left that could fail.
      have hinput : (Task.check source).arguments.map a.argument? = [].map some := rfl
      exact ⟨not_failsAt_of_scan ha hinput rfl, a, ha, rfl⟩
    · next source arguments =>
      split at hnext
      · next input hinput =>
        cases hnext
        exact ⟨rfl, ha, ⟨_, _, rfl⟩, Automaton.arguments_eq_ok_iff.mp hinput⟩
      · next f hf =>
        cases hnext
        exact ⟨rfl, (failsAt_translate_iff ha).mpr hf, passed_translate ha⟩
  | translated a input =>
    obtain ⟨rfl, ha, ⟨source, arguments, rfl⟩, hinput⟩ := hx
    simp only [Phase.next?] at hnext
    split at hnext
    · next scan hscan =>
      cases hnext
      refine ⟨not_failsAt_of_scan ha hinput hscan, a, ha, input, scan.runs a, hinput, ?_, ?_⟩
      · rw [Automaton.runs, hscan, Except.map]
      · rfl
    · next e he =>
      cases hnext
      exact ⟨rfl, (failsAt_checkRange_iff ha hinput).mpr ⟨e, he, rfl⟩, passed_checkRange ha hinput⟩
  | scanning a scan =>
    obtain ⟨hnone, hprints⟩ := hx
    simp only [Phase.next?] at hnext
    split at hnext
    · next run after hrun =>
      cases hnext
      -- The line that is printed now was the first one of those to come.
      rw [Scanner.runs_of_some hrun] at hprints
      rw [Run.jsonLines_cons, ← String.append_assoc] at hprints
      exact ⟨hnone, hprints⟩
    · next after hrun =>
      cases hnext
      rw [Scanner.runs_of_none hrun] at hprints
      exact ⟨hnone, hprints⟩
  | finished | failed stage f | panicked => cases hnext

/-- A process that comes to its end tells the failure of the first stage that fails, with nothing
printed, or has panicked with nothing printed, or has printed all of its output. -/
theorem Process.Halts.sound {x : Process Path} {o : Outcome} (h : x.Halts p t o)
    (hx : x.Sound p t) :
    (∃ stage f, FailsFirst p t stage f ∧
      o = ⟨1, "", some ⟨explain (stage.context p t.source) f, none⟩⟩) ∨
    t.source.Panics p ∧ o = ⟨101, "", none⟩ ∨
    (∀ stage f, ¬ FailsAt p t stage f) ∧ ∃ output, Prints p t output ∧ o = ⟨0, output, none⟩ := by
  induction h with
  | step h _ ih => exact ih (hx.step h)
  | @stop x o h =>
    obtain ⟨phase, output⟩ := x
    cases phase with
    | finished =>
      obtain rfl := Option.some.inj h
      exact .inr (.inr ⟨hx.1, output, hx.2, rfl⟩)
    | failed stage f =>
      obtain rfl := Option.some.inj h
      obtain ⟨rfl, hfirst⟩ := hx
      exact .inl ⟨stage, f, hfirst, rfl⟩
    | panicked =>
      obtain rfl := Option.some.inj h
      obtain ⟨rfl, hpanics⟩ := hx
      exact .inr (.inl ⟨hpanics, rfl⟩)
    | _ => cases h

/-! ## The outcome of the command is that of the process -/

/-- The outcome of a task that gives an output or comes to another end. -/
def Outcome.ofOutput : Except (Halt String) String → Outcome
  | .ok output => .success output
  | .error (.returned error) => .failure 1 ⟨error, none⟩
  | .error .panicked => .panic

/-- What a task does with its automaton. -/
def Task.rest (t : Task Path) (a : Automaton) : Except (Halt String) String :=
  match t with
  | .check _ => .ok a.summary
  | .scan _ arguments => (Task.runs a arguments).mapError .returned

theorem Task.output_eq (p : Platform Path) (t : Task Path) :
    t.output p = (Task.automaton t.source p).bind t.rest := by
  cases t with
  | check s =>
    change (Task.automaton s p).map Automaton.summary = (Task.automaton s p).bind _
    cases Task.automaton s p <;> rfl
  | scan s arguments => rfl

namespace Process

variable {phase : Phase Path} {o : Outcome}

theorem Halts.next (phase' : Phase Path) (text : String) {output : String}
    (h : phase.next? p t = some (phase', text))
    (more : Halts p t ⟨phase', output ++ text⟩ o) : Halts p t ⟨phase, output⟩ o :=
  .step (by rw [step?, h, Option.map_some]) more

theorem Halts.silent (phase' : Phase Path) (h : phase.next? p t = some (phase', ""))
    (more : Halts p t ⟨phase', ""⟩ o) : Halts p t ⟨phase, ""⟩ o :=
  .next phase' "" h more

theorem Halts.fail (stage : Stage) (f : Failure)
    (h : phase.next? p t = some (.failed stage f, "")) :
    Halts p t ⟨phase, ""⟩ (.ofOutput (.error (.returned (explain (stage.context p t.source) f)))) :=
  .silent (.failed stage f) h (.stop rfl)

theorem halts_scanning (a : Automaton) (scan : Scanner) (output : String) :
    Halts p t ⟨.scanning a scan, output⟩
      (.success (output ++ Run.jsonLines (scan.runs a))) := by
  fun_induction Scanner.runs a scan generalizing output with
  | case1 scan run after hnext hbudget ih =>
    rw [Run.jsonLines_cons, ← String.append_assoc]
    exact .next (.scanning a after) (run.json ++ "\n") (by simp only [Phase.next?, hnext]) (ih _)
  | case2 scan after hnext =>
    exact .next .finished "" (by simp only [Phase.next?, hnext]) (.stop rfl)

theorem halts_compiled (a : Automaton) :
    Halts p t ⟨.compiled a, ""⟩ (.ofOutput (t.rest a)) := by
  cases t with
  | check source =>
    refine .next .finished a.summary rfl (.stop ?_)
    rw [String.empty_append]
    rfl
  | scan source arguments =>
    rw [Task.rest, Task.runs]
    cases harguments : a.arguments arguments with
    | error f => exact .fail .translate f (by simp only [Phase.next?, harguments])
    | ok input =>
      refine .silent (.translated a input) (by simp only [Phase.next?, harguments]) ?_
      change Halts _ _ _ (.ofOutput ((((a.runs input).mapError _).bind _).mapError _))
      rw [Automaton.runs]
      cases hscan : a.scan input with
      | error e => exact .fail .checkRange (.outOfAlphabet e) (by simp only [Phase.next?, hscan])
      | ok scan =>
        refine .silent (.scanning a scan) (by simp only [Phase.next?, hscan]) ?_
        have hscanning : Halts p (.scan source arguments) ⟨.scanning a scan, ""⟩
            (.success ("" ++ Run.jsonLines (scan.runs a))) := halts_scanning a scan ""
        rwa [String.empty_append] at hscanning

/-- A process behind the symbol file. -/
theorem halts_symbols {external : List (String × Symbol)}
    (hexternal : t.source.external p = .ok external) :
    Halts p t ⟨.symbols external, ""⟩ (.ofOutput (t.output p)) := by
  rw [Task.output_eq, Task.automaton, Source.compile, Source.texts, hexternal]
  cases htext : p.files.text t.source.rules with
  | error e => exact .fail .readRules (.file e) (by simp only [Phase.next?, htext])
  | ok text =>
    refine .silent (.ruleText external text) (by simp only [Phase.next?, htext]) ?_
    change Halts _ _ _ (.ofOutput (((((t.source.host external).compileText text).mapError
      (Halt.map Failure.rules)).mapError _).bind _))
    rw [Host.compileText]
    cases hstatements : Rules.statements text with
    | error e =>
      exact .fail .parseRules (.rules (.malformed e)) (by simp only [Phase.next?, hstatements])
    | ok statements =>
      refine .silent (.rules external statements) (by simp only [Phase.next?, hstatements]) ?_
      cases hcompile : (t.source.host external).compile statements with
      | error halt =>
        simp only [hcompile]
        cases halt with
        | returned e =>
          exact .fail .compile (.rules (.uncompilable e)) (by simp only [Phase.next?, hcompile])
        | panicked => exact .silent .panicked (by simp only [Phase.next?, hcompile]) (.stop rfl)
      | ok a =>
        simp only [hcompile]
        exact .silent (.compiled a) (by simp only [Phase.next?, hcompile]) (halts_compiled a)

theorem halts_start (p : Platform Path) (t : Task Path) :
    Halts p t {} (.ofOutput (t.output p)) := by
  cases hpath : t.source.symbols with
  | none =>
    have hexternal : t.source.external p = .ok [] := by simp only [Source.external, hpath]
    exact .silent (.symbols []) (by simp only [Phase.next?, hpath]) (halts_symbols hexternal)
  | some path =>
    cases htext : p.files.text path with
    | error e =>
      have hexternal : t.source.external p = .error (.file e) := by
        simp only [Source.external, hpath, htext]
      rw [Task.output_eq, Task.automaton, Source.compile, Source.texts, hexternal]
      exact .fail .readSymbols (.file e) (by simp only [Phase.next?, hpath, htext])
    | ok text =>
      refine .silent (.symbolText path text) (by simp only [Phase.next?, hpath, htext]) ?_
      cases hsymbols : p.symbols text with
      | error cause =>
        have hexternal :
            t.source.external p = .error (.symbolFile (p.display path) cause) := by
          simp only [Source.external, hpath, htext, hsymbols]
        rw [Task.output_eq, Task.automaton, Source.compile, Source.texts, hexternal]
        exact .fail .parseSymbols (.symbolFile (p.display path) cause)
          (by simp only [Phase.next?, hsymbols])
      | ok symbols =>
        have hexternal : t.source.external p = .ok symbols.toList := by
          simp only [Source.external, hpath, htext, hsymbols]
        exact .silent (.symbols symbols.toList) (by simp only [Phase.next?, hsymbols])
          (halts_symbols hexternal)

end Process

/-! ## The command -/

/-- The text in the environment that is to name the level of the log. A value that is no Unicode
text counts as none. -/
def levelText? (p : Platform Path) : Option String := p.logLevel.bind String.fromUTF8?

theorem run_eq_ofOutput {r : Request Path}
    (henvironment : ∀ text, levelText? p = some text → LogLevel.parse? text ≠ none) :
    run p r = .ofOutput (r.task.output p) := by
  have hsettings : ∃ settings, Settings.ofEnvironment p.logLevel = .ok settings := by
    unfold Settings.ofEnvironment
    cases htext : levelText? p with
    | none => exact ⟨{}, by rw [show p.logLevel.bind String.fromUTF8? = none from htext]⟩
    | some text =>
      obtain ⟨level, hlevel⟩ := Option.ne_none_iff_exists'.mp (henvironment text htext)
      refine ⟨{ logLevel := level }, ?_⟩
      rw [show p.logLevel.bind String.fromUTF8? = some text from htext]
      simp only [hlevel]
  obtain ⟨settings, hsettings⟩ := hsettings
  rw [run, Request.settings, hsettings]
  cases r.task.output p with
  | ok output => rfl
  | error halt => cases halt <;> rfl

/-- The outcome of every call whose arguments are understood. A text in the environment that names
no level ends it with 2, whatever the files are. Otherwise the call is a process that prints as it
goes and ends with this outcome: 1, the failure of the first stage that fails and no output if one
fails, and 0 and the whole output if none does, unless the compilation panics. Then there is no
output either. -/
theorem run_of_request (p : Platform Path) (r : Request Path) :
    (∀ text, levelText? p = some text → LogLevel.parse? text = none →
      run p r =
        ⟨2, "", some ⟨"invalid configuration", some (Failure.unknownLogLevel text).message⟩⟩) ∧
    ((∀ text, levelText? p = some text → LogLevel.parse? text ≠ none) →
      (∀ o, Process.Halts p r.task {} o ↔ o = run p r) ∧
      (∀ stage f, FailsFirst p r.task stage f →
        run p r = ⟨1, "", some ⟨explain (stage.context p r.task.source) f, none⟩⟩) ∧
      ((∃ stage f, FailsAt p r.task stage f) → ∃ stage f, FailsFirst p r.task stage f) ∧
      ((∀ stage f, ¬ FailsAt p r.task stage f) → ¬ r.task.source.Panics p →
        ∃ output, Prints p r.task output ∧ run p r = ⟨0, output, none⟩) ∧
      (r.task.source.Panics p →
        (∀ stage f, ¬ FailsAt p r.task stage f) ∧ run p r = ⟨101, "", none⟩)) := by
  constructor
  · intro text htext hlevel
    have hsettings : Settings.ofEnvironment p.logLevel = .error (.unknownLogLevel text) := by
      unfold Settings.ofEnvironment
      rw [show p.logLevel.bind String.fromUTF8? = some text from htext]
      simp only [hlevel]
    rw [run, Request.settings, hsettings]
    rfl
  · intro henvironment
    have hhalts : Process.Halts p r.task {} (run p r) := by
      rw [run_eq_ofOutput henvironment]
      exact Process.halts_start p r.task
    -- Nothing has been printed in the first phase, so the invariant holds there.
    have hsound : Process.Sound p r.task {} := rfl
    refine ⟨fun o => ⟨fun ho => ho.eq hhalts, fun ho => ho ▸ hhalts⟩, ?_⟩
    rcases hhalts.sound hsound with ⟨stage, f, hfirst, hrun⟩ | ⟨hpanics, hrun⟩ | ⟨hnone, hprints⟩
    · refine ⟨fun stage' f' hfirst' => ?_, fun _ => ⟨stage, f, hfirst⟩,
        fun hnone => absurd hfirst.1 (hnone stage f),
        fun hpanics => absurd hfirst.1 (not_failsAt_of_panics hpanics stage f)⟩
      obtain ⟨rfl, rfl⟩ := hfirst.eq hfirst'
      exact hrun
    · have hnone := not_failsAt_of_panics (t := r.task) hpanics
      exact ⟨fun stage f hfirst => absurd hfirst.1 (hnone stage f),
        fun ⟨stage, f, hfails⟩ => absurd hfails (hnone stage f),
        fun _ hcalm => absurd hpanics hcalm, fun _ => ⟨hnone, hrun⟩⟩
    · refine ⟨fun stage f hfirst => absurd hfirst.1 (hnone stage f),
        fun ⟨stage, f, hfails⟩ => absurd hfails (hnone stage f), fun _ _ => hprints, ?_⟩
      rintro ⟨external, statements, hreads, hpanicked⟩
      obtain ⟨_, ⟨a, ⟨external', statements', hreads', ha⟩, -⟩, -⟩ := hprints
      obtain ⟨rfl, rfl⟩ := hreads.unique hreads'
      cases hpanicked.symm.trans ha

/-! A text that names no level, a symbol file with a list in it, and two runs. -/

def samplePlatform : Platform String where
  logLevel := none
  files path :=
    match path with
    | "rules" => .ok "Main = C V;".toUTF8
    | "codes" => .ok "\x7b\"C\":0,\"V\":1\x7d".toUTF8
    | "list" => .ok "[0,1]".toUTF8
    | _ => .error .notFound
  display := id
  symbols text :=
    if text = "\x7b\"C\":0,\"V\":1\x7d" then .ok (.ofList [("C", (0 : Symbol)), ("V", 1)])
    else .error "invalid type: sequence, expected a map at line 1 column 0"

def sampleScan : Task String := .scan ⟨"rules", some "codes", some 3⟩ ["C", "1", "2", "0", "V"]

def sampleLines : String :=
  "\x7b\"start\":0,\"end\":1,\"tags\":[]\x7d\n\x7b\"start\":3,\"end\":4,\"tags\":[]\x7d\n"

theorem run_samplePlatform :
    run { samplePlatform with logLevel := some "loud".toUTF8 } ⟨none, sampleScan⟩ =
        ⟨2, "", some ⟨"invalid configuration", some ("invalid configuration: unknown log level " ++
          "'loud', expected one of: trace, debug, info, warn, error")⟩⟩ ∧
      run samplePlatform ⟨none, .check ⟨"rules", some "list", none⟩⟩ =
        ⟨1, "", some ⟨"failed to compile rules: invalid symbols file list: " ++
          "invalid type: sequence, expected a map at line 1 column 0: " ++
          "invalid type: sequence, expected a map at line 1 column 0", none⟩⟩ ∧
      Prints samplePlatform sampleScan sampleLines ∧
      run samplePlatform ⟨none, sampleScan⟩ = ⟨0, sampleLines, none⟩ := by
  have hnone : ∀ text, levelText? samplePlatform = some text → LogLevel.parse? text ≠ none := by
    rintro text ⟨⟩
  refine ⟨(run_of_request _ ⟨none, sampleScan⟩).1 "loud" (by decide +kernel) (by decide +kernel),
    ?_, ?_⟩
  · let t : Task String := .check ⟨"rules", some "list", none⟩
    have htext : samplePlatform.files.text "list" = .ok "[0,1]" := by decide +kernel
    have hcause : samplePlatform.symbols "[0,1]" =
        .error "invalid type: sequence, expected a map at line 1 column 0" := by decide +kernel
    have hfails : FailsAt samplePlatform t .parseSymbols (.symbolFile "list"
        "invalid type: sequence, expected a map at line 1 column 0") :=
      .parseSymbols (t := t) rfl htext hcause
    rw [((run_of_request samplePlatform ⟨none, t⟩).2 hnone).2.1 _ _
      ⟨hfails, passed_parseSymbols (t := t) rfl htext⟩]
    decide +kernel
  · obtain ⟨-, hfirst, hexists, hprints, hpanics⟩ :=
      (run_of_request samplePlatform ⟨none, sampleScan⟩).2 hnone
    have hrun : run samplePlatform ⟨none, sampleScan⟩ = ⟨0, sampleLines, none⟩ := by decide +kernel
    rw [hrun] at hfirst hpanics hprints
    have hpasses (stage : Stage) (f : Failure) : ¬ FailsAt samplePlatform sampleScan stage f := by
      intro hfails
      obtain ⟨stage, f, hfails⟩ := hexists ⟨stage, f, hfails⟩
      cases hfirst stage f hfails
    have hcalm : ¬ sampleScan.source.Panics samplePlatform := by
      intro h
      cases (hpanics h).2
    obtain ⟨output, houtput, heq⟩ := hprints hpasses hcalm
    obtain rfl : sampleLines = output := congrArg Outcome.output heq
    exact ⟨houtput, hrun⟩

def roomyCheck : Task String := .check ⟨"rules", some "codes", some 18446744073709551615⟩

/-- Two calls that end in another way. In one no stage fails, and it panics. In the other the
environment holds something that is no text and so no level, and it is passed over. -/
theorem run_exceptions :
    (∀ stage f, ¬ FailsAt samplePlatform roomyCheck stage f) ∧
      run samplePlatform ⟨none, roomyCheck⟩ = ⟨101, "", none⟩ ∧
      String.fromUTF8? (ByteArray.mk #[255]) = none ∧
      run { samplePlatform with logLevel := some (ByteArray.mk #[255]) } ⟨none, sampleScan⟩ =
        ⟨0, sampleLines, none⟩ := by
  have hreads : roomyCheck.source.Reads samplePlatform [("C", 0), ("V", 1)]
      [.assign entryRule (.cat (.ref "C") (.ref "V"))] := by
    refine ⟨?_, "Main = C V;", by decide +kernel, by decide +kernel⟩
    exact Source.external_eq_ok_iff.mp (by decide +kernel)
  have hpanics : roomyCheck.source.Panics samplePlatform := ⟨_, _, hreads, by decide +kernel⟩
  exact ⟨not_failsAt_of_panics hpanics, by decide +kernel, by decide +kernel, by decide +kernel⟩

end Command

end RunGrammar
