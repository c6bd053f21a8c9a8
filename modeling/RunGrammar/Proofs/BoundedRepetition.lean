import RunGrammar.Proofs.BindingHistory
import RunGrammar.Proofs.Reading
import RunGrammar.Proofs.Resolution
import RunGrammar.Proofs.Words

/-! Repetition between bounds. Its words are put together from so many words of the repeated
expression as the bounds allow: the mandatory copies give the lower bound, and each optional copy
adds one word or none. The copies are made before references are replaced, and it would be the
same to make them afterwards. -/
namespace RunGrammar

open scoped Computability

variable {α : Type}

/-- The words that `min` or more words of `l` make up, and at most `max` of them if there is an
upper bound. -/
def countedWords (l : Language α) (min : Nat) (max : Option Nat) : Language α :=
  {w | ∃ parts : List (List α), min ≤ parts.length ∧ (∀ n ∈ max, parts.length ≤ n) ∧
    (∀ u ∈ parts, u ∈ l) ∧ w = parts.flatten}

theorem mem_countedWords {l : Language α} {min : Nat} {max : Option Nat} {w : List α} :
    w ∈ countedWords l min max ↔ ∃ parts : List (List α), min ≤ parts.length ∧
      (∀ n ∈ max, parts.length ≤ n) ∧ (∀ u ∈ parts, u ∈ l) ∧ w = parts.flatten := Iff.rfl

theorem kstar_eq_countedWords (l : Language α) : l∗ = countedWords l 0 none := by
  ext w
  rw [Language.mem_kstar, mem_countedWords]
  refine exists_congr fun parts => ?_
  simp [and_comm]

/-- Of optional occurrences any may be left out, so that any number up to theirs remains. -/
theorem opt_pow_eq_countedWords (l : Language α) (n : Nat) :
    (l + 1) ^ n = countedWords l 0 (some n) := by
  induction n with
  | zero =>
    ext w
    simp [mem_countedWords]
  | succ n ih =>
    rw [pow_succ', ih]
    ext w
    constructor
    · rintro ⟨u, hu | rfl, v, ⟨parts, -, hlength, hparts, rfl⟩, rfl⟩
      · refine ⟨u :: parts, Nat.zero_le _, ?_, List.forall_mem_cons.mpr ⟨hu, hparts⟩, rfl⟩
        simpa using hlength
      · refine ⟨parts, Nat.zero_le _, ?_, hparts, rfl⟩
        simpa using Nat.le_succ_of_le (hlength n rfl)
    · rintro ⟨_ | ⟨u, parts⟩, -, hlength, hparts, rfl⟩
      · exact ⟨[], .inr rfl, [], ⟨[], Nat.zero_le _, by simp, List.forall_mem_nil _, rfl⟩, rfl⟩
      · rw [List.forall_mem_cons] at hparts
        refine ⟨u, .inl hparts.1, parts.flatten, ⟨parts, Nat.zero_le _, ?_, hparts.2, rfl⟩, rfl⟩
        simpa using hlength

/-- Mandatory occurrences in front raise both bounds. -/
theorem pow_mul_countedWords (l : Language α) (m : Nat) (max : Option Nat) :
    l ^ m * countedWords l 0 max = countedWords l m (max.map (m + ·)) := by
  ext w
  constructor
  · rintro ⟨u, hu, v, ⟨parts, -, hlength, hparts, rfl⟩, rfl⟩
    obtain ⟨front, rfl, rfl, hfront⟩ := Language.mem_pow.mp hu
    refine ⟨front ++ parts, ?_, ?_, ?_, List.flatten_append.symm⟩
    · rw [List.length_append]
      exact Nat.le_add_right _ _
    · rintro n hn
      obtain ⟨k, hk, rfl⟩ := Option.map_eq_some_iff.mp hn
      rw [List.length_append]
      exact Nat.add_le_add_left (hlength k hk) _
    · exact fun u hu => (List.mem_append.mp hu).elim (hfront u) (hparts u)
  · rintro ⟨parts, hlower, hupper, hparts, rfl⟩
    refine ⟨(parts.take m).flatten, Language.mem_pow.mpr ⟨_, rfl, ?_, ?_⟩,
      (parts.drop m).flatten, ⟨_, Nat.zero_le _, ?_, ?_, rfl⟩, ?_⟩
    · rw [List.length_take, Nat.min_eq_left hlower]
    · exact fun u hu => hparts u (List.mem_of_mem_take hu)
    · rintro k hk
      have := hupper (m + k) (Option.map_eq_some_iff.mpr ⟨k, hk, rfl⟩)
      rw [List.length_drop]
      omega
    · exact fun u hu => hparts u (List.mem_of_mem_drop hu)
    · change (parts.take m).flatten ++ (parts.drop m).flatten = _
      rw [← List.flatten_append, List.take_append_drop]

namespace Expr

variable {leaf : Leaf → Language α} {e x : Expr} {es : List Expr} {min : Nat} {max : Option Nat}

/-! ## Words -/

theorem words_foldl_cat (es : List Expr) (e : Expr) :
    (es.foldl cat e).words leaf = es.foldl (fun l e => l * e.words leaf) (e.words leaf) := by
  induction es generalizing e with
  | nil => rfl
  | cons d es ih => exact ih (cat e d)

theorem words_sequence (h : sequence es = some x) :
    x.words leaf = es.foldl (fun l e => l * e.words leaf) 1 := by
  cases es with
  | nil => cases h
  | cons e es =>
    obtain rfl := Option.some.inj h
    rw [List.foldl_cons, one_mul, words_foldl_cat]

theorem foldl_replicate (l : Language α) (e : Expr) (n : Nat) :
    (List.replicate n e).foldl (fun l e => l * e.words leaf) l = l * e.words leaf ^ n := by
  induction n generalizing l with
  | zero => rw [pow_zero, mul_one]; rfl
  | succ n ih => rw [List.replicate_succ, List.foldl_cons, ih, pow_succ', mul_assoc]

theorem sequence_of_repetition (h : e.repetition min max = .ok x) :
    sequence (e.copies min max) = some x := by
  unfold repetition at h
  split at h
  · cases h
  · split at h
    · next hx => rw [hx, Except.ok.inj h]
    · cases h

/-- A repetition has the words that its bounds count. -/
theorem words_repetition (h : e.repetition min max = .ok x) :
    x.words leaf = countedWords (e.words leaf) min max := by
  rw [words_sequence (sequence_of_repetition h)]
  cases max with
  | none =>
    rw [copies, List.foldl_append, foldl_replicate, one_mul]
    change e.words leaf ^ min * (e.words leaf)∗ = _
    rw [kstar_eq_countedWords, pow_mul_countedWords]
    rfl
  | some max =>
    rw [copies, List.foldl_append, foldl_replicate, foldl_replicate, one_mul]
    change e.words leaf ^ min * (e.words leaf + 1) ^ (max - min) = _
    obtain ⟨-, hle⟩ := exists_repetition_iff.mp ⟨x, h⟩ max rfl
    rw [opt_pow_eq_countedWords, pow_mul_countedWords, Option.map_some, Nat.add_sub_of_le hle]

/-! ## References -/

theorem references_of_mem_copies (hx : x ∈ e.copies min max) : x.references = e.references := by
  cases max with
  | none =>
    rcases List.mem_append.mp hx with hx | hx
    · rw [List.eq_of_mem_replicate hx]
    · rw [List.mem_singleton.mp hx]
      rfl
  | some max =>
    rcases List.mem_append.mp hx with hx | hx
    · rw [List.eq_of_mem_replicate hx]
    · rw [List.eq_of_mem_replicate hx]
      rfl

theorem copies_substitute (rule? : String → Option Expr) (e : Expr) (min : Nat)
    (max : Option Nat) :
    (e.substitute rule?).copies min max = (e.copies min max).map (substitute rule?) := by
  cases max <;> simp [copies, substitute]

theorem substitute_foldl_cat (rule? : String → Option Expr) (es : List Expr) (e : Expr) :
    (es.map (substitute rule?)).foldl cat (e.substitute rule?) =
      (es.foldl cat e).substitute rule? := by
  induction es generalizing e with
  | nil => rfl
  | cons d es ih => exact ih (cat e d)

theorem sequence_map (rule? : String → Option Expr) (es : List Expr) :
    sequence (es.map (substitute rule?)) = (sequence es).map (substitute rule?) := by
  cases es with
  | nil => rfl
  | cons e es => exact congrArg some (substitute_foldl_cat rule? es e)

/-- The copies may be made before or after the references are replaced. -/
theorem repetition_substitute (rule? : String → Option Expr) (e : Expr) (min : Nat)
    (max : Option Nat) :
    (e.substitute rule?).repetition min max = (e.repetition min max).map (substitute rule?) := by
  unfold repetition
  split
  · rfl
  · rw [copies_substitute, sequence_map]
    cases sequence (e.copies min max) <;> rfl

theorem mem_references_foldl_cat {name : String} :
    name ∈ (es.foldl cat x).references ↔
      name ∈ x.references ∨ ∃ c ∈ es, name ∈ c.references := by
  induction es generalizing x with
  | nil => simp
  | cons c es ih => simp [ih, references, or_assoc]

theorem mem_references_sequence {name : String} (h : sequence es = some x) :
    name ∈ x.references ↔ ∃ c ∈ es, name ∈ c.references := by
  cases es with
  | nil => cases h
  | cons e es =>
    obtain rfl := Option.some.inj h
    rw [mem_references_foldl_cat]
    simp

theorem references_repetition (h : e.repetition min max = .ok x) :
    ∀ name ∈ x.references, name ∈ e.references := by
  intro name hname
  obtain ⟨c, hc, hname⟩ := (mem_references_sequence (sequence_of_repetition h)).mp hname
  exact references_of_mem_copies hc ▸ hname

theorem resolve_repetition {b : Bindings} {resolved : Expr} (hr : b.resolve e = .ok resolved)
    (min : Nat) (max : Option Nat) :
    (e.repetition min max).bind b.resolve = resolved.repetition min max := by
  obtain ⟨hbound, rfl⟩ := Bindings.resolve_eq_ok_iff.mp hr
  rw [repetition_substitute]
  cases hx : e.repetition min max with
  | error err => rfl
  | ok x =>
    refine Bindings.resolve_of_unbound_eq_nil (List.filter_eq_nil_iff.mpr fun name hname => ?_)
    exact List.filter_eq_nil_iff.mp hbound name (references_repetition hx name hname)

/-- An upper bound that is zero or below the lower one is refused, and only that. Otherwise the
words of a repetition are made up of as many words as its bounds allow. Whether references are
replaced before or after makes no difference. -/
theorem repetition_counts (e : Expr) (min : Nat) (max : Option Nat) :
    ((∃ n ∈ max, n = 0 ∨ n < min) → e.repetition min max = .error (.invalidRepetition min max)) ∧
    ((¬ ∃ n ∈ max, n = 0 ∨ n < min) → ∃ x, e.repetition min max = .ok x ∧
      x.language = countedWords e.language min max) ∧
    ∀ (b : Bindings) (resolved : Expr), b.resolve e = .ok resolved →
      (e.repetition min max).bind b.resolve = resolved.repetition min max := by
  refine ⟨?_, fun hvalid => ?_, fun b resolved hr => resolve_repetition hr min max⟩
  · rintro ⟨n, rfl, hn⟩
    rw [repetition, if_pos]
    simpa [or_comm] using hn
  · have hbounds : ∀ n ∈ max, 1 ≤ n ∧ min ≤ n := by
      intro n hn
      by_contra hlt
      exact hvalid ⟨n, hn, by omega⟩
    obtain ⟨x, hx⟩ := exists_repetition_iff.mpr hbounds
    exact ⟨x, hx, words_repetition hx⟩

/-! Two or three occurrences of the symbol `a`, or of a symbol with a tag. -/

def letter : Expr := alt (ref "a") (tagged "t" (lit 1))

def resolvedLetter : Expr := alt (lit 0) (tagged "t" (lit 1))

theorem repetition_counts_letter :
    letter.repetition 2 (some 1) = .error (.invalidRepetition 2 (some 1)) ∧
      Bindings.ofExternal [("a", 0)] = .ok Bindings.hosted ∧
      Bindings.hosted.resolve letter = .ok resolvedLetter ∧
      ∃ x y, letter.repetition 2 (some 3) = .ok x ∧ Bindings.hosted.resolve x = .ok y ∧
        resolvedLetter.repetition 2 (some 3) = .ok y ∧ [0, 1, 0] ∈ y.language := by
  have hr : Bindings.hosted.resolve letter = .ok resolvedLetter := by decide +kernel
  have hvalid : ¬ ∃ n ∈ some 3, n = 0 ∨ n < 2 := by simp
  obtain ⟨x, hx, -⟩ := (repetition_counts letter 2 (some 3)).2.1 hvalid
  obtain ⟨y, hy, hwords⟩ := (repetition_counts resolvedLetter 2 (some 3)).2.1 hvalid
  have hxy := (repetition_counts letter 2 (some 3)).2.2 _ resolvedLetter hr
  refine ⟨(repetition_counts letter 2 (some 1)).1 ⟨1, rfl, by decide⟩, rfl, hr, x, y, hx, ?_, hy,
    ?_⟩
  · rw [hx, hy] at hxy
    exact hxy
  · have hzero : [0] ∈ resolvedLetter.language := .inl rfl
    have hone : [1] ∈ resolvedLetter.language := .inr ⟨[1], rfl, [], rfl, rfl⟩
    rw [hwords]
    exact ⟨[[0], [1], [0]], by decide, by simp, by simp [hzero, hone], rfl⟩

end Expr

end RunGrammar
