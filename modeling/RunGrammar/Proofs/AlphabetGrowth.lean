import RunGrammar.Proofs.CompileOutcome
import RunGrammar.Proofs.UnboundReferences

/-! The alphabet size along the calls that change the bindings. A rule list adds one for each name
that becomes a symbol for the first time, and a reservation takes the larger of two sizes. So the
alphabet never shrinks and covers all named symbols and all reserved sizes. The sum is a 64-bit
word, and nothing guards it: a name that becomes a symbol when the size is the largest word makes
the call panic. -/
namespace RunGrammar

namespace Bindings

/-- A call that changes the bindings. -/
inductive Call
  | process (statements : List Statement)
  | reserve (size : UInt64)

namespace Call

/-- The size that a call asks for. -/
def reserved : Call → Nat
  | process _ => 0
  | reserve size => size.toNat

end Call

/-- The bindings after a call, unless it panics. A list that is not read to its end for another
reason leaves what was bound before. -/
def call (b : Bindings) : Call → Option Bindings
  | .process statements =>
    if (b.process statements).2 = some .panicked then none else some (b.process statements).1
  | .reserve size => some (b.reserve size)

/-- The bindings after calls, one after the other. -/
def after (b : Bindings) (calls : List Call) : Option Bindings := calls.foldlM call b

/-- The names that are symbols of `b'` and none of `b`. -/
def newSymbols (b b' : Bindings) : List String := b'.symbols.keys.filter (· ∉ b.symbols)

variable {b b' b'' own next : Bindings} {n m : Nat} {c : Call} {calls : List Call}
  {name : String} {body : Expr}

/-! ## One call -/

/-- The symbols of `b` are kept and `n` others are added, each of them counted once. -/
structure Grows (n : Nat) (b b' : Bindings) : Prop where
  kept : ∀ name ∈ b.symbols, name ∈ b'.symbols
  size : b'.symbols.size = b.symbols.size + n
  alphabet : b'.alphabet.toNat = b.alphabet.toNat + n

theorem Grows.refl (b : Bindings) : Grows 0 b b := ⟨fun _ => id, rfl, rfl⟩

theorem Grows.trans (h : Grows n b b') (h' : Grows m b' b'') : Grows (n + m) b b'' where
  kept name hname := h'.kept name (h.kept name hname)
  size := by rw [h'.size, h.size, Nat.add_assoc]
  alphabet := by rw [h'.alphabet, h.alphabet, Nat.add_assoc]

theorem Binds.grows (h : b.Binds name body next) :
    Grows (if b.Adds name body then 1 else 0) b next := by
  refine ⟨fun other hmem => ?_, ?_, h.alphabet⟩
  · rw [h.symbols]
    cases body.literal? with
    | none => exact hmem
    | some code => exact Std.ExtTreeMap.mem_insert.mpr (.inr hmem)
  · rw [h.symbols]
    by_cases hadds : b.Adds name body
    · obtain ⟨code, hcode⟩ := Option.isSome_iff_exists.mp hadds.1
      simp [hcode, hadds, hadds.2, Std.ExtTreeMap.size_insert]
    · rw [if_neg hadds]
      cases hcode : body.literal? with
      | none => rfl
      | some code =>
        have hmem : name ∈ b.symbols := by
          by_contra hnot
          exact hadds ⟨by rw [hcode]; rfl, hnot⟩
        simp [hmem, Std.ExtTreeMap.size_insert]

theorem exists_grows_process (b : Bindings) (statements : List Statement) :
    ∃ n, Grows n b (b.process statements).1 := by
  induction statements generalizing b with
  | nil => exact ⟨0, .refl b⟩
  | cons statement rest ih =>
    cases statement with
    | comment text => exact ih b
    | assign name body =>
      cases hn : b.assign name body with
      | error halt =>
        rw [process_assign_error hn]
        exact ⟨0, .refl b⟩
      | ok next =>
        rw [process_assign_ok hn]
        obtain ⟨resolved, -, hbinds⟩ := assign_eq_ok_iff.mp hn
        obtain ⟨m, hm⟩ := ih next
        exact ⟨_, hbinds.grows.trans hm⟩

theorem Grows.length_newSymbols (h : Grows n b b') : (b.newSymbols b').length = n := by
  -- The keys of `b'` are those of `b` and the new ones, and none is there twice.
  have hkept : (b'.symbols.keys.filter (· ∈ b.symbols)).Perm b.symbols.keys := by
    rw [List.perm_ext_iff_of_nodup (b'.symbols.nodup_keys.filter _) b.symbols.nodup_keys]
    intro name
    rw [List.mem_filter, decide_eq_true_iff, Std.ExtTreeMap.mem_keys, Std.ExtTreeMap.mem_keys]
    exact and_iff_right_of_imp (h.kept name)
  have hsplit := b'.symbols.keys.length_eq_length_filter_add (· ∈ b.symbols)
  rw [hkept.length_eq, Std.ExtTreeMap.length_keys, Std.ExtTreeMap.length_keys, h.size] at hsplit
  have hnew : b.newSymbols b' =
      b'.symbols.keys.filter (fun name => !decide (name ∈ b.symbols)) := by
    simp [newSymbols]
  rw [hnew]
  omega

theorem newSymbols_reserve (b : Bindings) (size : UInt64) :
    (b.newSymbols (b.reserve size)).length = 0 := (Grows.refl b).length_newSymbols

theorem call_process_eq_some {statements : List Statement}
    (h : b.call (.process statements) = some next) : next = (b.process statements).1 := by
  rw [call] at h
  split at h
  · cases h
  · exact (Option.some.inj h).symm

theorem size_symbols_call (h : b.call c = some next) :
    next.symbols.size = b.symbols.size + (b.newSymbols next).length := by
  cases c with
  | process statements =>
    obtain rfl := call_process_eq_some h
    obtain ⟨n, hn⟩ := exists_grows_process b statements
    rw [hn.length_newSymbols, hn.size]
  | reserve size =>
    obtain rfl := Option.some.inj h
    rw [newSymbols_reserve]
    rfl

/-- One is added for each name that becomes a symbol, and the larger of two sizes is taken. -/
theorem toNat_alphabet_call (h : b.call c = some next) :
    next.alphabet.toNat = max (b.alphabet.toNat + (b.newSymbols next).length) c.reserved := by
  cases c with
  | process statements =>
    obtain rfl := call_process_eq_some h
    obtain ⟨n, hn⟩ := exists_grows_process b statements
    rw [hn.length_newSymbols, hn.alphabet, Call.reserved, Nat.max_zero]
  | reserve size =>
    obtain rfl := Option.some.inj h
    rw [newSymbols_reserve, Nat.add_zero, reserve, toNat_max]
    rfl

/-- A call panics exactly if an assignment makes a name a symbol when the size is the largest
word. -/
theorem call_eq_none_iff : b.call c = none ↔
    ∃ front name body back table resolved, c = .process (front ++ .assign name body :: back) ∧
      b.process front = (table, none) ∧ table.resolve body = .ok resolved ∧
      table.Adds name resolved ∧ table.alphabet.toNat + 1 = UInt64.size := by
  cases c with
  | reserve size =>
    refine iff_of_false (Option.some_ne_none _) ?_
    rintro ⟨_, _, _, _, _, _, h, -⟩
    cases h
  | process statements =>
    have hpanic : b.call (.process statements) = none ↔
        ∃ table, b.process statements = (table, some .panicked) := by
      rw [call, ite_eq_left_iff, imp_iff_not (Option.some_ne_none _), not_not]
      exact ⟨fun h => ⟨_, Prod.ext rfl h⟩, fun ⟨_, h⟩ => congrArg Prod.snd h⟩
    simp only [hpanic, process_eq_some_iff, assign_eq_panicked_iff, Call.process.injEq]
    constructor
    · rintro ⟨table, front, name, body, back, hsplit, hfront, resolved, hpanic⟩
      exact ⟨front, name, body, back, table, resolved, hsplit, hfront, hpanic⟩
    · rintro ⟨front, name, body, back, table, resolved, hsplit, hfront, hpanic⟩
      exact ⟨table, front, name, body, back, hsplit, hfront, resolved, hpanic⟩

/-! ## Several calls -/

/-- What an alphabet size covers after some calls. -/
structure Covers (calls : List Call) (b : Bindings) : Prop where
  symbols : b.symbols.size ≤ b.alphabet.toNat
  reserved : ∀ c ∈ calls, c.reserved ≤ b.alphabet.toNat

theorem Covers.call (hb : Covers calls b) (h : b.call c = some next) :
    Covers (calls ++ [c]) next where
  symbols := by
    have := hb.symbols
    rw [size_symbols_call h, toNat_alphabet_call h]
    omega
  reserved earlier hmem := by
    rw [toNat_alphabet_call h]
    rcases List.mem_append.mp hmem with hmem | hmem
    · have := hb.reserved earlier hmem
      omega
    · obtain rfl := List.mem_singleton.mp hmem
      omega

theorem covers_ofExternal {external : List (String × Symbol)}
    (h : ofExternal external = .ok own) : Covers [] own where
  symbols := by
    refine ofExternal_induction (p := fun _ b => b.symbols.size ≤ b.alphabet.toNat) ?_
      (Nat.zero_le _) h
    intro history b name code next hb hbinds
    rw [hbinds.grows.size, hbinds.grows.alphabet]
    exact Nat.add_le_add_right hb _
  reserved := List.forall_mem_nil _

theorem Covers.after {done : List Call} (hb : Covers done b) (h : b.after calls = some next) :
    Covers (done ++ calls) next := by
  induction calls generalizing b done with
  | nil =>
    rw [List.append_nil]
    exact Option.some.inj h ▸ hb
  | cons c rest ih =>
    obtain ⟨first, hfirst, hrest⟩ := Option.bind_eq_some_iff.mp h
    rw [← List.singleton_append, ← List.append_assoc]
    exact ih (hb.call hfirst) hrest

/-- A call adds one for each name that becomes a symbol, and takes the larger size if it reserves
one. The alphabet size does not fall, not below the number of the symbols either and not below any
size reserved so far. There is no size after a call in which a name becomes a symbol when the size
is the largest word: the call panics. -/
theorem alphabet_after_call {external : List (String × Symbol)} {front : List Call}
    (hown : ofExternal external = .ok own) (hb : own.after front = some b) (c : Call) :
    (∀ next, b.call c = some next →
      next.alphabet.toNat = max (b.alphabet.toNat + (b.newSymbols next).length) c.reserved ∧
        b.alphabet ≤ next.alphabet ∧ next.symbols.size ≤ next.alphabet.toNat ∧
        ∀ earlier ∈ front ++ [c], earlier.reserved ≤ next.alphabet.toNat) ∧
      (b.call c = none ↔
        ∃ before name body rest table resolved,
          c = .process (before ++ .assign name body :: rest) ∧
          b.process before = (table, none) ∧ table.resolve body = .ok resolved ∧
          table.Adds name resolved ∧ table.alphabet.toNat + 1 = UInt64.size) := by
  refine ⟨fun next hnext => ?_, call_eq_none_iff⟩
  have hcovers := ((covers_ofExternal hown).after hb).call hnext
  have hsize := toNat_alphabet_call hnext
  refine ⟨hsize, ?_, hcovers.symbols, hcovers.reserved⟩
  rw [UInt64.le_iff_toNat_le]
  omega

/-! An alias is a symbol of its own, a second binding of a name adds nothing, and what was bound
before a failure counts. -/

def aliasCalls : List Call :=
  [.reserve 2, .process [.assign "b" (.ref "a"), .assign "b" (.lit 7)]]

def failingCall : Call :=
  .process [.assign "b" (.ref "a"), .assign "c" (.ref "b"), .assign "d" (.ref "e")]

theorem alphabet_after_aliasCalls :
    ∃ b next, ofExternal [("a", 0)] = .ok hosted ∧ hosted.after aliasCalls = some b ∧
      b.alphabet = 3 ∧ b.call failingCall = some next ∧ b.newSymbols next = ["c"] ∧
      next.alphabet.toNat = 4 ∧ next.symbols.size ≤ 4 ∧
      ∀ earlier ∈ aliasCalls ++ [failingCall], earlier.reserved ≤ 4 := by
  have hown : ofExternal [("a", 0)] = .ok hosted := rfl
  have hrun : ((hosted.after aliasCalls).bind fun b => (b.call failingCall).map fun next =>
      (b.alphabet, b.newSymbols next)) = some (3, ["c"]) := by decide +kernel
  obtain ⟨b, hb, hcall⟩ := Option.bind_eq_some_iff.mp hrun
  obtain ⟨next, hnext, hpair⟩ := Option.map_eq_some_iff.mp hcall
  obtain ⟨halphabet, hnew⟩ := Prod.mk.inj hpair
  obtain ⟨hsize, -, hsymbols, hreserved⟩ := (alphabet_after_call hown hb failingCall).1 next hnext
  have hfour : next.alphabet.toNat = 4 := by
    rw [hsize, halphabet, hnew]
    rfl
  rw [hfour] at hsymbols hreserved
  exact ⟨b, next, hown, hb, halphabet, hnext, hnew, hfour, hsymbols, hreserved⟩

/-- The largest size is reserved, and then a name becomes a symbol. -/
theorem call_after_largest :
    ∃ b, ofExternal [] = .ok {} ∧ Bindings.after {} [.reserve 18446744073709551615] = some b ∧
      b.alphabet = 18446744073709551615 ∧ b.call (.process [.assign "a" (.lit 0)]) = none :=
  ⟨_, rfl, rfl, by decide +kernel, by decide +kernel⟩

end Bindings

end RunGrammar
