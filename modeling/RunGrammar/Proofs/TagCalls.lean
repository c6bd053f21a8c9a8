import RunGrammar.Proofs.LongestRuns
import RunGrammar.TagActions

/-! What calling the actions on an input comes to. Each run calls the action registered last under
each of its tags, and the calls follow the runs and, within a run, the names. The scan may find
the runs one by one, with the calls of a run made before the next run is looked for: the same
calls are made in the same order. An input with a symbol outside the alphabet calls nothing. -/
namespace RunGrammar

variable {α : Type} {a : Automaton} {input : List Symbol} {r : Run}

/-- The calls that registrations ask for at a run, from the first of its tags to the last. Of
several actions under one tag the one registered last is called. -/
def callsFor (registrations : List (String × α)) (input : List Symbol) (r : Run) :
    List (Call α) :=
  r.tags.toList.filterMap fun tag =>
    (registrations.reverse.lookup tag).map fun action =>
      { action := action, tag := tag, first := r.first, length := r.last - r.first + 1,
        symbols := symbolsBetween input r.first (r.last + 1) }

namespace TagActions

/-- The last registration under a name counts. -/
theorem get?_ofList (registrations : List (String × α)) (name : String) :
    (ofList registrations).get? name = registrations.reverse.lookup name := by
  suffices h : ∀ t : TagActions α,
      (registrations.foldl (fun t registration => t.insert registration.1 registration.2) t).get?
          name =
        (registrations.reverse.lookup name).or (t.get? name) from
    (h {}).trans Option.or_none
  induction registrations with
  | nil => exact fun _ => rfl
  | cons registration rest ih =>
    intro t
    rw [List.foldl_cons, ih, get?_insert, List.reverse_cons, List.lookup_append, Option.or_assoc,
      List.lookup_cons]
    by_cases h : name = registration.1
    · simp [h]
    · simp [beq_eq_false_iff_ne.mpr h, Ne.symm h]

theorem calls_ofList (registrations : List (String × α)) (hfirst : r.first ≤ r.last)
    (hlast : r.last < input.length) :
    (ofList registrations).calls input r = callsFor registrations input r := by
  rw [calls, callsFor, Run.slice?_eq_symbolsBetween hfirst hlast]
  simp only [get?_ofList, Option.getD_some, Run.length]

end TagActions

theorem length_symbols_of_mem_callsFor {registrations : List (String × α)} {call : Call α}
    (hfirst : r.first ≤ r.last) (hlast : r.last < input.length)
    (hcall : call ∈ callsFor registrations input r) :
    call.symbols.length = call.length ∧ 1 ≤ call.length := by
  obtain ⟨tag, -, htag⟩ := List.mem_filterMap.mp hcall
  obtain ⟨action, -, rfl⟩ := Option.map_eq_some_iff.mp htag
  simp only [symbolsBetween, List.length_take, List.length_drop]
  omega

/-- The tags of a run are visited in the order of their names. -/
theorem Run.pairwise_tags (r : Run) : r.tags.toList.Pairwise (· < ·) := by
  have hordered : r.tags.toList.Pairwise fun tag next => compare tag next = .lt :=
    Std.ExtTreeSet.ordered_toList
  exact hordered.imp compareOfLessAndEq_eq_lt.mp

/-! ## Calls with effects -/

section Effects

variable {m : Type → Type} [Monad m] {t : TagActions α} {act : Call α → m Unit}

/-- Reads on and makes the calls of each run before the next run is looked for. -/
def Scanner.perform (a : Automaton) (t : TagActions α) (act : Call α → m Unit)
    (input : List Symbol) (scan : Scanner) : m Unit :=
  match h : scan.next a with
  | (some run, after) =>
    have : after.budget < scan.budget := by
      simpa [h] using budget_next_lt a scan run (by rw [h])
    do
      forM (t.calls input run) act
      after.perform a t act input
  | (none, _) => pure ()
termination_by scan.budget

/-- Makes the calls while the input is scanned. -/
def Automaton.perform (a : Automaton) (t : TagActions α) (act : Call α → m Unit)
    (input : List Symbol) : m (Except RangeError Unit) :=
  match a.scan input with
  | .error e => pure (.error e)
  | .ok scan => .ok <$> scan.perform a t act input

/-- Whether the runs are all found first makes no difference to the calls. -/
theorem Scanner.perform_eq [LawfulMonad m] (scan : Scanner) :
    scan.perform a t act input = forM ((scan.runs a).flatMap (t.calls input)) act := by
  fun_induction Scanner.perform a t act input scan with
  | case1 scan run after hnext _ ih =>
    rw [runs_of_some hnext, List.flatMap_cons, List.forM_append, ih]
  | case2 scan after hnext =>
    rw [runs_of_none hnext]
    rfl

theorem Automaton.perform_eq [LawfulMonad m] (a : Automaton) (t : TagActions α)
    (act : Call α → m Unit) (input : List Symbol) :
    a.perform t act input =
      match a.apply t input with
      | .error e => pure (.error e)
      | .ok calls => .ok <$> forM calls act := by
  rw [perform, apply, runs]
  cases a.scan input with
  | error e => rfl
  | ok scan => exact congrArg (Except.ok <$> ·) scan.perform_eq

end Effects

theorem Automaton.refuses_of_scan_eq_error {m : Type → Type} [Monad m] {e : RangeError}
    (h : a.scan input = .error e) (t : TagActions α) (act : Call α → m Unit) :
    a.runs input = .error e ∧ a.apply t input = .error e ∧
      a.perform t act input = pure (.error e) := by
  have hruns : a.runs input = .error e := by
    rw [runs, h]
    rfl
  refine ⟨hruns, ?_, ?_⟩
  · rw [apply, hruns]
    rfl
  · rw [perform, h]

variable {h : Host} {statements : List Statement}

/-- The segments of an input lie in it, so that the calls get all of their symbols. -/
theorem apply_ofList (ha : h.compile statements = .ok a)
    (hin : ∀ s ∈ input, s.toNat < a.alphabet) (registrations : List (String × α)) :
    a.apply (.ofList registrations) input =
      .ok ((a.segments input 0).flatMap (callsFor registrations input)) := by
  have hcalls : ∀ r ∈ a.segments input 0,
      (TagActions.ofList registrations).calls input r = callsFor registrations input r := by
    intro r hr
    obtain ⟨hfirst, hlast⟩ := bounds_of_mem_segments ha hr
    exact TagActions.calls_ofList registrations hfirst hlast
  rw [Automaton.apply, Automaton.runs_eq_segments (isAccepting_failed ha) hin]
  exact congrArg Except.ok (List.flatMap_congr hcalls)

/-- An input with a symbol outside the alphabet is refused with the first such symbol, and nothing
is called. On any other input the actions are called on the runs in order, with the tags of each
run in ascending order, and each call is given as many symbols as it is told. -/
theorem apply_eq_callsFor {m : Type → Type} [Monad m] [LawfulMonad m]
    (ha : h.compile statements = .ok a) (registrations : List (String × α))
    (act : Call α → m Unit) (input : List Symbol) :
    ((∃ s ∈ input, a.alphabet ≤ s.toNat) →
      ∃ front s back, input = front ++ s :: back ∧ (∀ c ∈ front, c.toNat < a.alphabet) ∧
        a.alphabet ≤ s.toNat ∧ a.scan input = .error ⟨s, a.alphabet, some front.length⟩ ∧
        a.runs input = .error ⟨s, a.alphabet, some front.length⟩ ∧
        a.apply (.ofList registrations) input = .error ⟨s, a.alphabet, some front.length⟩ ∧
        a.perform (.ofList registrations) act input =
          pure (.error ⟨s, a.alphabet, some front.length⟩)) ∧
    ((∀ s ∈ input, s.toNat < a.alphabet) →
      ∃ runs calls, a.runs input = .ok runs ∧
        calls = runs.flatMap (callsFor registrations input) ∧
        a.apply (.ofList registrations) input = .ok calls ∧
        a.perform (.ofList registrations) act input = .ok <$> forM calls act ∧
        (∀ r ∈ runs, r.tags.toList.Pairwise (· < ·)) ∧
        ∀ call ∈ calls, call.symbols.length = call.length ∧ 1 ≤ call.length) := by
  refine ⟨?_, fun hin => ?_⟩
  · rintro ⟨c, hc, hge⟩
    cases hscan : a.scan input with
    | ok scan =>
      have hlt := (Automaton.eq_of_scan_eq_ok hscan).2 c hc
      exact absurd hlt (Nat.not_lt.mpr hge)
    | error e =>
      obtain ⟨front, s, back, hsplit, hfront, hs, rfl⟩ := Automaton.scan_eq_error_iff.mp hscan
      obtain ⟨hruns, happly, hperform⟩ :=
        Automaton.refuses_of_scan_eq_error hscan (.ofList registrations) act
      exact ⟨front, s, back, hsplit, hfront, hs, rfl, hruns, happly, hperform⟩
  · have hruns := Automaton.runs_eq_segments (isAccepting_failed ha) hin
    have happly := apply_ofList ha hin registrations
    refine ⟨_, _, hruns, rfl, happly, ?_, fun r _ => r.pairwise_tags, fun call hcall => ?_⟩
    · rw [Automaton.perform_eq, happly]
    · obtain ⟨r, hr, hmem⟩ := List.mem_flatMap.mp hcall
      obtain ⟨hfirst, hlast⟩ := bounds_of_mem_segments ha hr
      exact length_symbols_of_mem_callsFor hfirst hlast hmem

/-! Two tags stand behind each run of zeros, and one of them is registered twice. -/

def echoRules : List Statement :=
  [.assign entryRule (.tagged "a" (.tagged "b" (.rep (.lit 0) .plus)))]

def echoActions : List (String × Nat) := [("b", 0), ("a", 1), ("c", 2), ("b", 3)]

/-- Notes a call behind the earlier ones. -/
def noteCall (call : Call Nat) : StateM (List (Call Nat)) Unit := modify (· ++ [call])

theorem apply_echoRules :
    ∃ a calls, (⟨[], 2⟩ : Host).compile echoRules = .ok a ∧
      calls = [⟨1, "a", 0, 2, [0, 0]⟩, ⟨3, "b", 0, 2, [0, 0]⟩, ⟨1, "a", 3, 1, [0]⟩,
        ⟨3, "b", 3, 1, [0]⟩] ∧
      a.apply (.ofList echoActions) [0, 0, 1, 0] = .ok calls ∧
      (a.perform (.ofList echoActions) noteCall [0, 0, 1, 0]).run [] = (.ok (), calls) ∧
      (∃ s ∈ [(0 : Symbol), 0, 7, 5, 0], a.alphabet ≤ s.toNat) ∧
      a.apply (.ofList echoActions) [0, 0, 7, 5, 0] = .error ⟨7, 2, some 2⟩ ∧
      (a.perform (.ofList echoActions) noteCall [0, 0, 7, 5, 0]).run [] =
        (.error ⟨7, 2, some 2⟩, []) := by
  obtain ⟨a, ha, halphabet, hfound, hrefused⟩ := exists_of_map_decide_eq_ok
    (m := (⟨[], 2⟩ : Host).compile echoRules)
    (p := fun a => a.alphabet = 2 ∧
      a.runs [0, 0, 1, 0] = .ok [⟨0, 1, {"a", "b"}⟩, ⟨3, 3, {"a", "b"}⟩] ∧
      a.runs [0, 0, 7, 5, 0] = .error ⟨7, 2, some 2⟩) (by decide +kernel)
  have hin : ∀ s ∈ [(0 : Symbol), 0, 1, 0], s.toNat < a.alphabet := by simp [halphabet]
  have hout : ∃ s ∈ [(0 : Symbol), 0, 7, 5, 0], a.alphabet ≤ s.toNat := by simp [halphabet]
  obtain ⟨runs, calls, hruns, hcalls, happly, hperform, -, -⟩ :=
    (apply_eq_callsFor ha echoActions noteCall [0, 0, 1, 0]).2 hin
  obtain ⟨front, s, back, -, -, -, -, hrefuse, hnone, hsilent⟩ :=
    (apply_eq_callsFor ha echoActions noteCall [0, 0, 7, 5, 0]).1 hout
  obtain rfl := Except.ok.inj (hfound.symm.trans hruns)
  have hlisted : calls = [⟨1, "a", 0, 2, [0, 0]⟩, ⟨3, "b", 0, 2, [0, 0]⟩,
      ⟨1, "a", 3, 1, [0]⟩, ⟨3, "b", 3, 1, [0]⟩] := by
    rw [hcalls]
    decide +kernel
  rw [Except.error.inj (hrefuse.symm.trans hrefused)] at hnone hsilent
  refine ⟨a, calls, ha, hlisted, happly, ?_, hout, hnone, ?_⟩
  · rw [hperform, hlisted]
    rfl
  · rw [hsilent]
    rfl

end RunGrammar
