import RunGrammar.Proofs.JsonTexts
import RunGrammar.Proofs.TagCalls
import RunGrammar.Report

/-! The lines that are written for an automaton and for the runs of an input. Each run takes one
line, whatever its tags are called, and a reader of JSON that takes the lines one by one finds the
runs again. -/
namespace RunGrammar

variable {a : Automaton} {input : List Symbol}

/-- The summary tells the size of the automaton in three lines. If there are named symbols, a
heading follows and then one line for each of them, in the order of the names. -/
theorem Automaton.exists_summary_eq_join (a : Automaton) :
    ∃ named : List (String × Symbol),
      a.summary = String.join (((["states: " ++ a.stateCount.repr,
        "alphabet: " ++ a.alphabet.repr, "accepting: " ++ a.acceptingCount.repr] ++
        (if named = [] then [] else ["symbols:"]) ++
        named.map fun symbol => "  " ++ symbol.1 ++ " = " ++ symbol.2.toNat.repr).map
          fun line => line ++ "\n")) ∧
      (∀ name code, (name, code) ∈ named ↔ a.symbol? name = some code) ∧
      named.Pairwise fun x y => x.1 < y.1 := by
  have halphabet (s : String) : "\nalphabet: " ++ s = "\n" ++ ("alphabet: " ++ s) := by
    rw [← String.append_assoc]
    rfl
  have haccepting (s : String) : "\naccepting: " ++ s = "\n" ++ ("accepting: " ++ s) := by
    rw [← String.append_assoc]
    rfl
  refine ⟨a.symbols.toList, ?_, fun name code => Std.ExtTreeMap.mem_toList_iff_getElem?_eq_some, ?_⟩
  · rw [summary]
    cases a.symbols.toList with
    | nil => simp [String.append_assoc, halphabet, haccepting]
    | cons symbol named => simp [String.append_assoc, Function.comp_def, halphabet, haccepting]
  · exact a.symbols.ordered_keys_toList.imp fun h => compareOfLessAndEq_eq_lt.mp h

/-- A run as JSON shows it. -/
def Run.value (r : Run) : Json.Value :=
  .object [("start", .number r.first), ("end", .number r.last),
    ("tags", .list (r.tags.toList.map .string))]

theorem Run.render_value (r : Run) : r.value.render = r.json := by
  have hstart : "\x7b\"start\":" = "\x7b" ++ (Json.quoted "start" ++ ":") := by decide +kernel
  have hend : ",\"end\":" = "," ++ (Json.quoted "end" ++ ":") := by decide +kernel
  have htags : ",\"tags\":[" = "," ++ (Json.quoted "tags" ++ (":" ++ "[")) := by decide +kernel
  have hclose : "]\x7d" = "]" ++ "\x7d" := by decide +kernel
  have hquoted : (r.tags.toList.map .string).map Json.Value.render =
      r.tags.toList.map Json.quoted := by
    rw [List.map_map]
    exact List.map_congr_left fun tag _ => by rw [Function.comp_apply, Json.Value.render]
  rw [value, json, hstart, hend, htags, hclose]
  simp only [Json.Value.render, List.map_cons, List.map_nil, String.intercalate_cons_cons,
    String.intercalate_singleton, hquoted, String.append_assoc]

/-- Whether the runs are all found first makes no difference to the lines. -/
theorem Scanner.report_eq (scan : Scanner) (text : String) (count : Nat) :
    scan.report a text count =
      (text ++ Run.jsonLines (scan.runs a), count + (scan.runs a).length) := by
  fun_induction Scanner.report a scan text count with
  | case1 scan text count run after hnext _ ih =>
    rw [ih, runs_of_some hnext, Run.jsonLines_cons, List.length_cons, String.append_assoc,
      String.append_assoc, String.append_assoc, Nat.add_assoc, Nat.add_comm 1]
  | case2 scan text count after hnext =>
    rw [runs_of_none hnext]
    exact Prod.ext String.append_empty.symm rfl

theorem Automaton.report_eq (a : Automaton) (input : List Symbol) :
    a.report input = (a.runs input).map fun runs => (Run.jsonLines runs, runs.length) := by
  rw [report, runs]
  cases a.scan input with
  | error e => rfl
  | ok scan =>
    refine congrArg Except.ok ?_
    change scan.report a "" 0 = _
    rw [scan.report_eq, String.empty_append, Nat.zero_add]

/-- The line feeds behind the runs are the only ones. -/
theorem Run.splitOn_jsonLines (runs : List Run) :
    (Run.jsonLines runs).toList.splitOn '\n' = runs.map (fun r => r.json.toList) ++ [[]] := by
  induction runs with
  | nil => rfl
  | cons r runs ih =>
    have hline : '\n' ∉ r.json.toList := r.render_value ▸ Json.newline_notMem_render r.value
    rw [jsonLines_cons, String.append_assoc, String.toList_append, String.toList_append]
    change (r.json.toList ++ '\n' :: (Run.jsonLines runs).toList).splitOn '\n' = _
    rw [List.splitOn_append_cons_self_of_not_mem hline, ih, List.map_cons, List.cons_append]

/-- The written text has one line for each run and nothing else, and the number of lines is told.
A line is a JSON object with the first index of its run, the last one and the tags, each of them once
and in ascending order. -/
theorem decode_report (hin : ∀ s ∈ input, s.toNat < a.alphabet) :
    ∃ text count runs lines, a.report input = .ok (text, count) ∧ a.runs input = .ok runs ∧
      text.toList.splitOn '\n' = lines ++ [[]] ∧ count = lines.length ∧ count = runs.length ∧
      (∀ r ∈ runs, r.tags.toList.Pairwise (· < ·)) ∧
      lines.map Json.decode? = runs.map fun r =>
        some (.object [("start", .number r.first), ("end", .number r.last),
          ("tags", .list (r.tags.toList.map .string))]) := by
  have hruns : a.runs input = .ok (Scanner.runs a { rest := input }) := by
    rw [Automaton.runs, Automaton.scan_eq_ok hin]
    rfl
  refine ⟨_, _, _, (Scanner.runs a { rest := input }).map fun r => r.json.toList, ?_, hruns,
    Run.splitOn_jsonLines _, ?_, rfl, fun r _ => r.pairwise_tags, ?_⟩
  · rw [Automaton.report_eq, hruns]
    rfl
  · rw [List.length_map]
  · rw [List.map_map]
    refine List.map_congr_left fun r _ => ?_
    change Json.decode? r.json.toList = some r.value
    rw [← r.render_value]
    exact Json.decode?_render r.value

/-! Two tags stand behind each run of zeros, and their names have to be escaped. -/

def quotedTag : String := "\"a\\\""

def controlTag : String := "\n\x01é"

def escapedRules : List Statement :=
  [.assign entryRule (.tagged quotedTag (.tagged controlTag (.rep (.lit 0) .plus)))]

theorem decode_report_escapedRules :
    ∃ a text line line', (⟨[], 2⟩ : Host).compile escapedRules = .ok a ∧
      a.report [0, 0, 1, 0] = .ok (text, 2) ∧ text.toList.splitOn '\n' = [line, line', []] ∧
      Json.decode? line = some (.object [("start", .number 0), ("end", .number 1),
        ("tags", .list [.string controlTag, .string quotedTag])]) ∧
      Json.decode? line' = some (.object [("start", .number 3), ("end", .number 3),
        ("tags", .list [.string controlTag, .string quotedTag])]) := by
  obtain ⟨a, ha, halphabet, hfound⟩ := exists_of_map_decide_eq_ok
    (m := (⟨[], 2⟩ : Host).compile escapedRules)
    (p := fun a => a.alphabet = 2 ∧ a.runs [0, 0, 1, 0] =
      .ok [⟨0, 1, {quotedTag, controlTag}⟩, ⟨3, 3, {quotedTag, controlTag}⟩]) (by decide +kernel)
  have hin : ∀ s ∈ [(0 : Symbol), 0, 1, 0], s.toNat < a.alphabet := by simp [halphabet]
  obtain ⟨text, count, runs, lines, hreport, hruns, hsplit, -, rfl, -, hdecode⟩ :=
    decode_report hin
  obtain rfl := Except.ok.inj (hfound.symm.trans hruns)
  have htags : ({quotedTag, controlTag} : Std.ExtTreeSet String).toList =
      [controlTag, quotedTag] := by decide +kernel
  simp only [List.map_cons, List.map_nil, htags] at hdecode
  obtain ⟨line, rest, rfl, hline, hrest⟩ := List.map_eq_cons_iff.mp hdecode
  obtain ⟨line', rest, rfl, hline', hrest⟩ := List.map_eq_cons_iff.mp hrest
  obtain rfl := List.map_eq_nil_iff.mp hrest
  exact ⟨a, text, line, line', ha, hreport, hsplit, hline, hline'⟩

end RunGrammar
