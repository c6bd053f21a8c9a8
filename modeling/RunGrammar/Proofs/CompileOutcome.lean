import RunGrammar.Proofs.BindingHistory
import RunGrammar.Proofs.StateSets

/-! What compiling a rule list yields. The first reference without a binding is reported; then a
missing entry rule; then the leftmost symbol of the entry rule outside the alphabet. If there is
nothing to report, there is an automaton, unless positions or states run out of numbers or there
is no room for the table. -/
namespace RunGrammar

/-- The names that a rule list binds. -/
def assigned (statements : List Statement) : List String := (assignments statements).map Prod.fst

/-- The first reference, in the order of the statements and from left to right in each, to a name
that is not known there: each assignment makes its name known to those after it. -/
def firstUnbound (known : List String) : List Statement → Option String
  | [] => none
  | .comment _ :: rest => firstUnbound known rest
  | .assign name body :: rest =>
    match body.references.find? (· ∉ known) with
    | some missing => some missing
    | none => firstUnbound (name :: known) rest

namespace Bindings

variable {b next : Bindings} {history : History} {known : List String}
  {statements : List Statement} {name : String} {body : Expr}

theorem Binds.mem_rules (h : b.Binds name body next) (other : String) :
    other ∈ next.rules ↔ other = name ∨ other ∈ b.rules := by
  rw [Bindings.mem_rules, Bindings.mem_rules, h.rule?]
  by_cases hname : name = other
  · simp [hname]
  · simp [hname, Ne.symm hname]

theorem head?_unbound (hknown : ∀ name, name ∈ b.rules ↔ name ∈ known) (e : Expr) :
    (b.unbound e).head? = e.references.find? (· ∉ known) := by
  rw [unbound, List.head?_filter]
  congr 1
  funext name
  simp [hknown]

theorem entry_of_rule?_eq_some {e : Expr} (h : b.rule? entryRule = some e) : b.entry = .ok e := by
  rw [entry, h]

theorem entry_of_rule?_eq_none (h : b.rule? entryRule = none) : b.entry = .error .missingEntry := by
  rw [entry, h]

/-! ## The count of the names -/

theorem declared_cons (name : String) (body : Expr) (history : History) :
    History.declared ((name, body) :: history) = history.declared +
      if body.literal?.isSome ∧ name ∉ history.symbols.map Prod.fst then 1 else 0 := by
  rw [History.declared, History.symbols_cons]
  cases body.literal? with
  | none => simp [History.declared]
  | some code =>
    rw [Option.map_some, Option.toList_some, List.singleton_append, List.map_cons]
    by_cases hmem : name ∈ history.symbols.map Prod.fst
    · rw [List.dedup_cons_of_mem hmem, if_neg (fun h => h.2 hmem), History.declared]
      rfl
    · rw [List.dedup_cons_of_notMem hmem, if_pos ⟨rfl, hmem⟩, History.declared, List.length_cons]

theorem declared_le_cons (name : String) (body : Expr) (history : History) :
    history.declared ≤ History.declared ((name, body) :: history) := by
  rw [declared_cons]
  exact Nat.le_add_right _ _

theorem declared_le_read (history : History) (statements : List Statement) :
    history.declared ≤ (history.read statements).declared := by
  induction statements generalizing history with
  | nil => exact Nat.le_refl _
  | cons statement rest ih =>
    cases statement with
    | comment text => exact ih history
    | assign name body => exact Nat.le_trans (declared_le_cons _ _ history) (ih _)

/-- Whether the alphabet counts the names that became symbols, and nothing else. -/
structure Counts (history : History) (b : Bindings) : Prop where
  agrees : Agrees history b
  alphabet : b.alphabet.toNat = history.declared

theorem counts_empty : Counts [] {} := ⟨agrees_empty, rfl⟩

theorem Counts.adds_iff (hb : Counts history b) (name : String) (body : Expr) :
    b.Adds name body ↔ body.literal?.isSome ∧ name ∉ history.symbols.map Prod.fst := by
  refine and_congr_right fun _ => not_congr ?_
  rw [History.mem_symbols_iff, ← Std.ExtTreeMap.isSome_getElem?_iff_mem, Option.isSome_iff_exists]
  exact exists_congr fun code => by rw [← hb.agrees.symbol name]; rfl

theorem Counts.binds (hb : Counts history b) (h : b.Binds name body next) :
    Counts ((name, body) :: history) next := by
  refine ⟨hb.agrees.bind h, ?_⟩
  simp only [h.alphabet, hb.alphabet, declared_cons, hb.adds_iff]

/-- As long as the names can be counted, one more can be bound. -/
theorem Counts.exists_binds (hb : Counts history b)
    (hcount : History.declared ((name, body) :: history) < UInt64.size) :
    ∃ next, b.Binds name body next := by
  rw [exists_binds_iff]
  simp only [hb.alphabet, hb.adds_iff]
  rwa [declared_cons] at hcount

theorem Counts.exists_assign (hb : Counts history b) (hu : b.unbound body = [])
    (hcount : History.declared ((name, body.substitute (history.lookup ·)) :: history) <
      UInt64.size) :
    ∃ next, b.assign name body = .ok next ∧
      b.Binds name (body.substitute (history.lookup ·)) next := by
  have hr : b.resolve body = .ok (body.substitute (history.lookup ·)) := by
    rw [resolve_of_unbound_eq_nil hu, funext hb.agrees.rule]
  obtain ⟨next, hn⟩ := hb.exists_binds hcount
  exact ⟨next, assign_eq_ok_iff.mpr ⟨_, hr, hn⟩, hn⟩

theorem Counts.exists_ofExternal {external : List (String × Symbol)}
    (hcount : (History.ofExternal external).declared < UInt64.size) :
    ∃ own, ofExternal external = .ok own ∧ Counts (.ofExternal external) own := by
  induction external using List.reverseRecOn with
  | nil => exact ⟨{}, rfl, counts_empty⟩
  | append_singleton front symbol ih =>
    obtain ⟨name, code⟩ := symbol
    rw [History.ofExternal_concat] at hcount ⊢
    obtain ⟨own, hown, hcounts⟩ := ih (Nat.lt_of_le_of_lt (declared_le_cons _ _ _) hcount)
    obtain ⟨next, hn⟩ := hcounts.exists_binds hcount
    rw [ofExternal_concat]
    exact ⟨next, bind_eq_ok.mpr ⟨own, hown, bind_eq_ok_iff.mpr hn⟩, hcounts.binds hn⟩

/-- The first unknown name ends a rule list. -/
theorem read_of_firstUnbound_eq_some (hb : Counts history b)
    (hcount : (history.read statements).declared < UInt64.size)
    (hknown : ∀ name, name ∈ b.rules ↔ name ∈ known)
    (h : firstUnbound known statements = some name) :
    b.read statements = .error (.returned (.undefinedReference name)) := by
  induction statements generalizing b history known with
  | nil => cases h
  | cons statement rest ih =>
    cases statement with
    | comment text => exact ih hb hcount hknown h
    | assign other body =>
      rw [firstUnbound, ← head?_unbound hknown body] at h
      rw [read_assign_cons]
      cases hu : b.unbound body with
      | cons missing others =>
        rw [hu] at h
        obtain rfl : missing = name := Option.some.inj h
        rw [assign_eq_returned_iff.mpr (resolve_of_unbound_eq_cons hu)]
        rfl
      | nil =>
        rw [hu] at h
        obtain ⟨next, hn, hbinds⟩ :=
          hb.exists_assign hu (Nat.lt_of_le_of_lt (declared_le_read _ rest) hcount)
        rw [hn]
        refine ih (hb.binds hbinds) hcount (fun n => ?_) h
        rw [hbinds.mem_rules, List.mem_cons, hknown]

/-- Without an unknown name a rule list is read to its end, and all its names are bound. -/
theorem exists_read_of_firstUnbound_eq_none (hb : Counts history b)
    (hcount : (history.read statements).declared < UInt64.size)
    (hknown : ∀ name, name ∈ b.rules ↔ name ∈ known)
    (h : firstUnbound known statements = none) :
    ∃ next, b.read statements = .ok next ∧ Counts (history.read statements) next ∧
      ∀ name, name ∈ next.rules ↔ name ∈ known ∨ name ∈ assigned statements := by
  induction statements generalizing b history known with
  | nil =>
    exact ⟨b, rfl, hb, fun name => (hknown name).trans (or_iff_left List.not_mem_nil).symm⟩
  | cons statement rest ih =>
    cases statement with
    | comment text => exact ih hb hcount hknown h
    | assign other body =>
      rw [firstUnbound, ← head?_unbound hknown body] at h
      cases hu : b.unbound body with
      | cons missing others =>
        rw [hu] at h
        cases h
      | nil =>
        rw [hu] at h
        obtain ⟨first, hn, hbinds⟩ :=
          hb.exists_assign hu (Nat.lt_of_le_of_lt (declared_le_read _ rest) hcount)
        have hbound : ∀ n, n ∈ first.rules ↔ n ∈ other :: known := fun n => by
          rw [hbinds.mem_rules, List.mem_cons, hknown]
        obtain ⟨next, hread, hnext, hrules⟩ := ih (hb.binds hbinds) hcount hbound h
        refine ⟨next, ?_, hnext, fun n => (hrules n).trans ?_⟩
        · rw [read_assign_cons, hn]
          exact hread
        · change _ ↔ n ∈ known ∨ n ∈ other :: assigned rest
          rw [List.mem_cons, List.mem_cons, or_assoc, or_left_comm]

end Bindings

namespace Expr

/-- The symbols of an expression from left to right, a symbol as often as it is written. -/
def symbols (e : Expr) : List Symbol :=
  e.leaves.filterMap fun
    | .symbol s => some s
    | _ => none

theorem symbols_root (e : Expr) : (cat e .endMark).symbols = e.symbols := by
  rw [symbols, leaves, List.filterMap_append]
  exact List.append_nil _

end Expr

section Leaves

variable {alphabet count : Nat} {e : Expr}

theorem countLeaves_of_find?_eq_none (he : e.Closed)
    (hcount : count + e.leaves.length ≤ identifierCount)
    (h : e.symbols.find? (alphabet ≤ ·.toNat) = none) :
    countLeaves alphabet count e = .ok (count + e.leaves.length) := by
  induction e generalizing count with
  | lit s =>
    have hs : s.toNat < alphabet := by simpa [Expr.symbols, Expr.leaves] using h
    rw [countLeaves, if_pos hs, countLeaves.allot, if_pos (Nat.lt_of_succ_le hcount)]
    rfl
  | tag _ | endMark =>
    rw [countLeaves, countLeaves.allot, if_pos (Nat.lt_of_succ_le hcount)]
    rfl
  | ref name => cases he
  | alt x y ihx ihy | cat x y ihx ihy =>
    rw [Expr.leaves, List.length_append] at hcount
    rw [Expr.symbols, Expr.leaves, List.filterMap_append, List.find?_append,
      Option.or_eq_none_iff] at h
    obtain ⟨hx, hy⟩ := List.append_eq_nil_iff.mp he
    rw [countLeaves, ihx hx (by omega) h.1]
    simp only
    rw [ihy hy (by omega) h.2, Expr.leaves, List.length_append, Nat.add_assoc]
  | rep e q ih => exact ih he hcount h

/-- A walk over more leaves than there are numbers fails when these have run out. -/
theorem countLeaves_of_identifierCount_lt (he : e.Closed) (hcount : count ≤ identifierCount)
    (hlength : identifierCount < count + e.leaves.length)
    (h : e.symbols.find? (alphabet ≤ ·.toNat) = none) :
    countLeaves alphabet count e = .error .positionLimit := by
  induction e generalizing count with
  | lit s =>
    have hs : s.toNat < alphabet := by simpa [Expr.symbols, Expr.leaves] using h
    have hfull : ¬ count < identifierCount := Nat.not_lt.mpr (Nat.le_of_lt_succ hlength)
    rw [countLeaves, if_pos hs, countLeaves.allot, if_neg hfull]
  | tag _ | endMark =>
    have hfull : ¬ count < identifierCount := Nat.not_lt.mpr (Nat.le_of_lt_succ hlength)
    rw [countLeaves, countLeaves.allot, if_neg hfull]
  | ref name => cases he
  | alt x y ihx ihy | cat x y ihx ihy =>
    rw [Expr.leaves, List.length_append] at hlength
    rw [Expr.symbols, Expr.leaves, List.filterMap_append, List.find?_append,
      Option.or_eq_none_iff] at h
    obtain ⟨hx, hy⟩ := List.append_eq_nil_iff.mp he
    rw [countLeaves]
    by_cases hleft : identifierCount < count + x.leaves.length
    · rw [ihx hx hcount hleft h.1]
    · rw [countLeaves_of_find?_eq_none hx (Nat.le_of_not_lt hleft) h.1]
      exact ihy hy (Nat.le_of_not_lt hleft) (by omega) h.2
  | rep e q ih => exact ih he hcount hlength h

/-- The walk over the leaves stops at the leftmost symbol outside the alphabet. -/
theorem countLeaves_of_find?_eq_some {s : Symbol} (he : e.Closed)
    (hcount : count + e.leaves.length ≤ identifierCount)
    (h : e.symbols.find? (alphabet ≤ ·.toNat) = some s) :
    countLeaves alphabet count e = .error (.outOfAlphabet ⟨s, alphabet, none⟩) := by
  induction e generalizing count with
  | lit other =>
    obtain rfl : s = other := List.mem_singleton.mp (List.mem_of_find?_eq_some h)
    have hs := List.find?_some h
    rw [countLeaves, if_neg (Nat.not_lt.mpr (of_decide_eq_true hs))]
  | tag _ | endMark => cases h
  | ref name => cases he
  | alt x y ihx ihy | cat x y ihx ihy =>
    rw [Expr.leaves, List.length_append] at hcount
    rw [Expr.symbols, Expr.leaves, List.filterMap_append, List.find?_append,
      Option.or_eq_some_iff] at h
    obtain ⟨hx, hy⟩ := List.append_eq_nil_iff.mp he
    rw [countLeaves]
    rcases h with h | ⟨hnone, h⟩
    · rw [ihx hx (by omega) h]
    · rw [countLeaves_of_find?_eq_none hx (by omega) hnone]
      exact ihy hy (by omega) h
  | rep e q ih => exact ih he hcount h

/-- No walk over an expression without references meets a reference. -/
theorem countLeaves_ne_undefinedReference (he : e.Closed) (name : String) :
    countLeaves alphabet count e ≠ .error (.undefinedReference name) := by
  have hallot : ∀ count, countLeaves.allot count ≠ .error (.undefinedReference name) := by
    intro count h
    unfold countLeaves.allot at h
    split at h <;> cases h
  induction e generalizing count with
  | lit s =>
    intro h
    unfold countLeaves at h
    split at h
    · exact hallot count h
    · cases h
  | tag _ | endMark => exact hallot count
  | ref _ => cases he
  | alt x y ihx ihy | cat x y ihx ihy =>
    obtain ⟨hx, hy⟩ := List.append_eq_nil_iff.mp he
    intro h
    unfold countLeaves at h
    split at h
    · exact ihy hy h
    · next hcount => exact ihx hx (hcount.trans h)
  | rep e q ih => exact ih he

theorem Positions.ofExpr_ne_undefinedReference (he : e.Closed) (name : String) :
    Positions.ofExpr alphabet e ≠ .error (.undefinedReference name) := by
  intro h
  unfold Positions.ofExpr at h
  cases hn : countLeaves alphabet 0 e with
  | ok _ =>
    rw [hn] at h
    cases h
  | error err =>
    rw [hn] at h
    rw [Except.error.inj h] at hn
    exact countLeaves_ne_undefinedReference he name hn

end Leaves

theorem toNat_max (x y : UInt64) : (max x y).toNat = max x.toNat y.toNat := by
  change (if x ≤ y then y else x).toNat = _
  split
  all_goals
    next hle =>
    rw [UInt64.le_iff_toNat_le] at hle
    omega

namespace Host

variable {h : Host} {statements : List Statement}

/-- The bindings that a host and a rule list make. -/
def history (h : Host) (statements : List Statement) : Bindings.History :=
  (Bindings.History.ofExternal h.external).read statements

/-- The number of names that are ever bound to a bare literal, or the least size that the host
asks for if that is larger. -/
def alphabetSize (h : Host) (statements : List Statement) : Nat :=
  max (h.history statements).declared h.minAlphabet.toNat

/-- Whether words can number what is numbered: 64-bit words the names that are symbols, and 32-bit
words the positions of the entry rule with an end mark and the sets of positions that become
states. -/
structure WithinLimits (h : Host) (statements : List Statement) : Prop where
  names : (h.history statements).declared < UInt64.size
  positions : ∀ e, h.entry statements = .ok e → e.leaves.length + 1 ≤ identifierCount
  states : ∀ e, h.entry statements = .ok e → e.positions.reachedSets.encard ≤ identifierCount

theorem mem_rules_ofExternal {external : List (String × Symbol)} {own : Bindings}
    (hown : Bindings.ofExternal external = .ok own) (name : String) :
    name ∈ own.rules ↔ name ∈ external.map Prod.fst := by
  rw [Bindings.mem_rules, (Bindings.Reached.external hown).agrees.rule, ← Option.isSome_iff_exists,
    List.lookup_isSome_iff]
  simp [Bindings.History.ofExternal]

/-- The symbols of the host can be counted if those of the rule list can be as well. -/
theorem exists_ofExternal (hcount : (h.history statements).declared < UInt64.size) :
    ∃ own, Bindings.ofExternal h.external = .ok own ∧
      Bindings.Counts (.ofExternal h.external) own :=
  Bindings.Counts.exists_ofExternal
    (Nat.lt_of_le_of_lt (Bindings.declared_le_read _ statements) hcount)

theorem bindings_eq {own : Bindings} (hown : Bindings.ofExternal h.external = .ok own) :
    h.bindings statements = (own.read statements).map (·.reserve h.minAlphabet) := by
  rw [bindings, hown]
  change (own.read statements).bind (fun b => .ok (b.reserve h.minAlphabet)) = _
  cases own.read statements <;> rfl

theorem bindings_eq_ok_iff {b : Bindings} : h.bindings statements = .ok b ↔
    ∃ own next, Bindings.ofExternal h.external = .ok own ∧ own.read statements = .ok next ∧
      next.reserve h.minAlphabet = b := by
  constructor
  · intro hb
    obtain ⟨own, hown, -⟩ := bind_eq_ok.mp hb
    rw [bindings_eq hown] at hb
    obtain ⟨next, hread, hreserve⟩ := map_eq_ok.mp hb
    exact ⟨own, next, hown, hread, hreserve⟩
  · rintro ⟨own, next, hown, hread, hreserve⟩
    rw [bindings_eq hown]
    exact map_eq_ok.mpr ⟨next, hread, hreserve⟩

theorem bindings_of_firstUnbound_eq_some {name : String}
    (hcount : (h.history statements).declared < UInt64.size)
    (hu : firstUnbound (h.external.map Prod.fst) statements = some name) :
    h.bindings statements = .error (.returned (.undefinedReference name)) := by
  obtain ⟨own, hown, hcounts⟩ := exists_ofExternal hcount
  rw [bindings_eq hown,
    Bindings.read_of_firstUnbound_eq_some hcounts hcount (mem_rules_ofExternal hown) hu]
  rfl

/-- Without an unknown name the bindings hold all names that are bound, without references, and
the alphabet has its size. -/
theorem bindings_of_firstUnbound_eq_none
    (hcount : (h.history statements).declared < UInt64.size)
    (hu : firstUnbound (h.external.map Prod.fst) statements = none) :
    ∃ b, h.bindings statements = .ok b ∧ b.alphabet.toNat = h.alphabetSize statements ∧
      b.RulesClosed ∧
      ∀ name, name ∈ b.rules ↔ name ∈ h.external.map Prod.fst ++ assigned statements := by
  obtain ⟨own, hown, hcounts⟩ := exists_ofExternal hcount
  obtain ⟨b, hb, hread, hrules⟩ := Bindings.exists_read_of_firstUnbound_eq_none hcounts hcount
    (mem_rules_ofExternal hown) hu
  have hclosed := ((Bindings.Reached.external hown).process statements).rulesClosed
  rw [Bindings.read_eq_ok_iff.mp hb] at hclosed
  refine ⟨b.reserve h.minAlphabet, ?_, ?_, hclosed,
    fun name => (hrules name).trans List.mem_append.symm⟩
  · rw [bindings_eq hown, hb]
    rfl
  · rw [Bindings.reserve, toNat_max, hread.alphabet]
    rfl

theorem compile_of_bindings_eq_error {halt : Halt CompileError}
    (hb : h.bindings statements = .error halt) : h.compile statements = .error halt := by
  rw [compile, hb]
  rfl

theorem entry_eq_of_bindings {b : Bindings} (hb : h.bindings statements = .ok b) :
    h.entry statements = b.entry.mapError .returned := by
  rw [entry, hb]
  rfl

/-- The automaton of an entry rule, given its positions. -/
theorem compile_eq_of_entry {b : Bindings} {e : Expr} (hb : h.bindings statements = .ok b)
    (he : b.entry = .ok e) :
    h.compile statements =
      ((Positions.ofExpr b.alphabet.toNat (.cat e .endMark)).mapError .returned).bind fun ps =>
        (Exploration.ofPositions ps b.alphabet.toNat).bind fun x =>
          .ok (.ofExploration ps b.alphabet.toNat x b.symbols) := by
  rw [compile, hb, Except.bind, build_eq, he]
  rfl

/-- A rule list fails to compile for the first of these reasons that it gives: a reference to a
name that is not bound at that point, no entry rule, a symbol of the entry rule outside the
alphabet. If it gives none, it compiles as long as there is room for the table, and panics if
there is none. -/
theorem compile_eq_of_withinLimits (hlimits : h.WithinLimits statements) :
    (∀ name, firstUnbound (h.external.map Prod.fst) statements = some name →
      h.compile statements = .error (.returned (.undefinedReference name))) ∧
    (firstUnbound (h.external.map Prod.fst) statements = none →
      entryRule ∉ h.external.map Prod.fst ++ assigned statements →
      h.compile statements = .error (.returned .missingEntry)) ∧
    (firstUnbound (h.external.map Prod.fst) statements = none →
      entryRule ∈ h.external.map Prod.fst ++ assigned statements →
      ∃ e, h.entry statements = .ok e ∧ e.Closed ∧
        (∀ name, Positions.ofExpr (h.alphabetSize statements) (.cat e .endMark) ≠
          .error (.undefinedReference name)) ∧
        (∀ s, e.symbols.find? (h.alphabetSize statements ≤ ·.toNat) = some s →
          h.compile statements =
            .error (.returned (.outOfAlphabet ⟨s, h.alphabetSize statements, none⟩))) ∧
        (e.symbols.find? (h.alphabetSize statements ≤ ·.toNat) = none →
          (Exploration.TableFits (h.alphabetSize statements) e.positions.reachedSets.ncard →
            ∃ a, h.compile statements = .ok a ∧ a.alphabet = h.alphabetSize statements) ∧
          (¬ Exploration.TableFits (h.alphabetSize statements) e.positions.reachedSets.ncard →
            h.compile statements = .error .panicked))) := by
  have hnames := hlimits.names
  refine ⟨fun name hu => compile_of_bindings_eq_error (bindings_of_firstUnbound_eq_some hnames hu),
    fun hu hentry => ?_, fun hu hentry => ?_⟩
  all_goals
    obtain ⟨b, hb, halphabet, hclosed, hrules⟩ := bindings_of_firstUnbound_eq_none hnames hu
    rw [← hrules] at hentry
  · rw [compile, hb, Except.bind, build_eq, Bindings.entry_of_rule?_eq_none
      (Bindings.notMem_rules.mp hentry)]
    rfl
  · obtain ⟨e, hrule⟩ := Bindings.mem_rules.mp hentry
    have hbe : b.entry = .ok e := Bindings.entry_of_rule?_eq_some hrule
    have he : e.Closed := hclosed entryRule e hrule
    have hroot : (Expr.cat e .endMark).Closed := Expr.closed_cat.mpr ⟨he, rfl⟩
    have hentry : h.entry statements = .ok e := by
      rw [entry_eq_of_bindings hb, hbe]
      rfl
    have hcount : 0 + (Expr.cat e .endMark).leaves.length ≤ identifierCount := by
      rw [Nat.zero_add, Expr.leaves, List.length_append]
      exact hlimits.positions e hentry
    rw [← halphabet]
    refine ⟨e, hentry, he, fun name => ?_, fun s hs => ?_, fun hnone => ?_⟩
    · exact Positions.ofExpr_ne_undefinedReference hroot name
    · rw [compile_eq_of_entry hb hbe, Positions.ofExpr,
        countLeaves_of_find?_eq_some hroot hcount (by rwa [Expr.symbols_root])]
      rfl
    · have hpositions : Positions.ofExpr b.alphabet.toNat (.cat e .endMark) = .ok e.positions := by
        rw [Positions.ofExpr,
          countLeaves_of_find?_eq_none hroot hcount (by rwa [Expr.symbols_root])]
        rfl
      have hne := Expr.first_positions_ne_empty he
      have hsymbols (p s) (hp : e.positions.symbol? p = some s) : s.toNat < b.alphabet.toNat :=
        (Positions.ofExpr_eq_ok hpositions).2.2 s (Expr.mem_leaves_of_symbol? hp)
      have hstates := hlimits.states e hentry
      rw [compile_eq_of_entry hb hbe, hpositions]
      constructor
      · intro hfits
        obtain ⟨x, hx⟩ := (Exploration.exists_ofPositions_iff hne hsymbols).mpr ⟨hstates, hfits⟩
        exact ⟨_, bind_eq_ok.mpr ⟨e.positions, rfl, bind_eq_ok.mpr ⟨x, hx, rfl⟩⟩, rfl⟩
      · intro hunfit
        change (Exploration.ofPositions e.positions b.alphabet.toNat).bind _ = _
        rw [Exploration.ofPositions_eq_panicked hne hsymbols hstates hunfit]
        rfl

/-- Few names and few leaves are within the limits. -/
theorem withinLimits_of_entry {e : Expr} (hnames : (h.history statements).declared < UInt64.size)
    (he : h.entry statements = .ok e) (hle : e.leaves.length < 32) :
    h.WithinLimits statements := by
  have hcount : 2 ^ (e.leaves.length + 1) ≤ identifierCount :=
    Nat.pow_le_pow_right (by decide) hle
  refine ⟨hnames, fun e' he' => ?_, fun e' he' => ?_⟩ <;>
    obtain rfl := Except.ok.inj (he.symm.trans he')
  · exact Nat.lt_two_pow_self.le.trans hcount
  · exact e.encard_reachedSets_le.trans (by exact_mod_cast hcount)

theorem withinLimits_of_error {halt : Halt CompileError}
    (hnames : (h.history statements).declared < UInt64.size)
    (he : h.entry statements = .error halt) : h.WithinLimits statements := by
  refine ⟨hnames, fun e he' => ?_, fun e he' => ?_⟩ <;>
    · rw [he] at he'
      cases he'

/-! One external symbol and four rule lists, each with a different outcome. -/

def sampleHost : Host := { external := [("a", 0)] }

theorem compile_sampleHost :
    sampleHost.compile [.assign entryRule (.cat (.ref "a") (.cat (.ref "b") (.ref "c"))),
        .assign "b" (.lit 1)] = .error (.returned (.undefinedReference "b")) ∧
      sampleHost.compile [.assign "b" (.cat (.ref "a") (.ref "a"))] =
        .error (.returned .missingEntry) ∧
      sampleHost.compile [.assign entryRule (.cat (.ref "a") (.alt (.lit 3) (.lit 2)))] =
        .error (.returned (.outOfAlphabet ⟨3, 1, none⟩)) ∧
      ∃ a, sampleHost.compile [.assign "b" (.ref "a"),
        .assign entryRule (.cat (.ref "b") (.lit 1))] = .ok a ∧ a.alphabet = 2 := by
  refine ⟨?_, ?_, ?_, ?_⟩
  · have he : sampleHost.entry [.assign entryRule (.cat (.ref "a") (.cat (.ref "b") (.ref "c"))),
      .assign "b" (.lit 1)] = .error (.returned (.undefinedReference "b")) := by decide +kernel
    exact (compile_eq_of_withinLimits (withinLimits_of_error (by decide) he)).1 "b" (by decide)
  · have he : sampleHost.entry [.assign "b" (.cat (.ref "a") (.ref "a"))] =
      .error (.returned .missingEntry) := by decide +kernel
    exact (compile_eq_of_withinLimits (withinLimits_of_error (by decide) he)).2.1
      (by decide) (by decide)
  · have he : sampleHost.entry [.assign entryRule (.cat (.ref "a") (.alt (.lit 3) (.lit 2)))] =
      .ok (.cat (.lit 0) (.alt (.lit 3) (.lit 2))) := by decide +kernel
    obtain ⟨e, he', -, -, houtside, -⟩ :=
      (compile_eq_of_withinLimits (withinLimits_of_entry (by decide) he (by decide))).2.2
        (by decide) (by decide)
    obtain rfl := Except.ok.inj (he.symm.trans he')
    exact houtside 3 (by decide +kernel)
  · have he : sampleHost.entry [.assign "b" (.ref "a"),
      .assign entryRule (.cat (.ref "b") (.lit 1))] = .ok (.cat (.lit 0) (.lit 1)) := by
      decide +kernel
    obtain ⟨e, he', -, -, -, hinside⟩ :=
      (compile_eq_of_withinLimits (withinLimits_of_entry (by decide) he (by decide))).2.2
        (by decide) (by decide)
    obtain rfl := Except.ok.inj (he.symm.trans he')
    refine (hinside (by decide +kernel)).1 ?_
    exact Exploration.TableFits.mono (by decide +kernel) (Expr.ncard_reachedSets_le _)

/-! A host that asks for the largest alphabet. -/

def roomyHost : Host := { minAlphabet := 18446744073709551615 }

/-- Nothing is wrong with the rule list, and there is no room for the table. -/
theorem compile_roomyHost :
    roomyHost.WithinLimits [.assign entryRule (.lit 0)] ∧
      firstUnbound [] [.assign entryRule (.lit 0)] = none ∧
      entryRule ∈ assigned [.assign entryRule (.lit 0)] ∧
      roomyHost.entry [.assign entryRule (.lit 0)] = .ok (.lit 0) ∧
      (Expr.lit 0).symbols.find?
        (roomyHost.alphabetSize [.assign entryRule (.lit 0)] ≤ ·.toNat) = none ∧
      roomyHost.compile [.assign entryRule (.lit 0)] = .error .panicked := by
  have he : roomyHost.entry [.assign entryRule (.lit 0)] = .ok (.lit 0) := by decide +kernel
  exact ⟨withinLimits_of_entry (by decide) he (by decide), by decide, by decide, he,
    by decide +kernel, by decide +kernel⟩

end Host

end RunGrammar
