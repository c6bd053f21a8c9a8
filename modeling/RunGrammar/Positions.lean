import RunGrammar.Fragment

/-! The numbered positions of a whole expression, and the moves between sets of them: reading a
symbol leads from a set of positions to all positions that may follow one where that
symbol stands. -/
namespace RunGrammar

/-- Walks over the leaves from left to right and counts them on from `count`. The walk stops
at the first leaf that can have no position: a reference, a literal outside the alphabet,
or a leaf too many. -/
def countLeaves (alphabet count : Nat) : Expr → Except CompileError Nat
  | .lit s =>
    if s.toNat < alphabet then allot count else .error (.outOfAlphabet ⟨s, alphabet, none⟩)
  | .tag _ | .endMark => allot count
  | .ref name => .error (.undefinedReference name)
  | .alt a b | .cat a b =>
    match countLeaves alphabet count a with
    | .ok count => countLeaves alphabet count b
    | .error e => .error e
  | .rep e _ => countLeaves alphabet count e
where
  allot (count : Nat) : Except CompileError Nat :=
    if count < identifierCount then .ok (count + 1) else .error .positionLimit

/-- The positions of a whole expression. -/
structure Positions where
  leaves : Array Leaf
  follow : Array PositionSet
  first : PositionSet

namespace Positions

def ofFragment (f : Fragment) : Positions := ⟨f.leaves, f.follow, f.first⟩

/-- Numbers the leaves of an expression over an alphabet of the given size. -/
def ofExpr (alphabet : Nat) (e : Expr) : Except CompileError Positions :=
  (countLeaves alphabet 0 e).map fun _ => ofFragment (Fragment.ofExpr 0 e)

def leaf? (ps : Positions) (p : Nat) : Option Leaf := ps.leaves[p]?

def follow? (ps : Positions) (p : Nat) : Option PositionSet := ps.follow[p]?

/-- The symbol at a position, if one stands there. -/
def symbol? (ps : Positions) (p : Nat) : Option Symbol :=
  match ps.leaf? p with
  | some (.symbol s) => some s
  | _ => none

/-- The tag at a position, if one stands there. -/
def tag? (ps : Positions) (p : Nat) : Option String :=
  match ps.leaf? p with
  | some (.tag name) => some name
  | _ => none

/-- The symbols that can be read at a set of positions. -/
def symbols (ps : Positions) (set : PositionSet) : Std.ExtTreeSet Symbol :=
  .ofList (set.toList.filterMap ps.symbol?)

/-- The names of the tags at a set of positions. -/
def tags (ps : Positions) (set : PositionSet) : Std.ExtTreeSet String :=
  .ofList (set.toList.filterMap ps.tag?)

/-- Whether a set of positions holds an end mark. -/
def ends (ps : Positions) (set : PositionSet) : Bool :=
  set.toList.any fun p => ps.leaf? p == some .endMark

/-- The positions that may follow after `s` has been read at one of the given positions. -/
def after (ps : Positions) (set : PositionSet) (s : Symbol) : PositionSet :=
  set.toList.foldl
    (fun targets p =>
      if ps.symbol? p = some s then targets ∪ (ps.follow? p).getD ∅ else targets)
    ∅

/-- The symbols, in ascending order, after which some position may follow, with those
positions. -/
def moves (ps : Positions) (set : PositionSet) : List (Symbol × PositionSet) :=
  (ps.symbols set).toList.filterMap fun s =>
    let targets := ps.after set s
    if targets.isEmpty then none else some (s, targets)

theorem mem_symbols {ps : Positions} {set : PositionSet} {s : Symbol} :
    s ∈ ps.symbols set ↔ ∃ p ∈ set, ps.symbol? p = some s := by
  simp [symbols, Std.ExtTreeSet.mem_ofList, Std.ExtTreeSet.mem_toList]

theorem mem_tags {ps : Positions} {set : PositionSet} {name : String} :
    name ∈ ps.tags set ↔ ∃ p ∈ set, ps.tag? p = some name := by
  simp [tags, Std.ExtTreeSet.mem_ofList, Std.ExtTreeSet.mem_toList]

theorem ends_eq_true_iff {ps : Positions} {set : PositionSet} :
    ps.ends set = true ↔ ∃ p ∈ set, ps.leaf? p = some .endMark := by
  simp [ends, Std.ExtTreeSet.mem_toList]

theorem mem_after {ps : Positions} {set : PositionSet} {s : Symbol} {q : Nat} :
    q ∈ ps.after set s ↔ ∃ p ∈ set, ps.symbol? p = some s ∧ Fragment.Follows ps.follow p q := by
  suffices h : ∀ (l : List Nat) (targets : PositionSet),
      q ∈ l.foldl (fun targets p =>
          if ps.symbol? p = some s then targets ∪ (ps.follow? p).getD ∅ else targets) targets ↔
        q ∈ targets ∨ ∃ p ∈ l, ps.symbol? p = some s ∧ Fragment.Follows ps.follow p q by
    simp [after, h, Std.ExtTreeSet.mem_toList]
  intro l
  induction l with
  | nil => simp
  | cons p rest ih =>
    intro targets
    rw [List.foldl_cons, ih]
    by_cases h : ps.symbol? p = some s
    · cases hf : ps.follow[p]? <;>
        simp [h, hf, follow?, Fragment.Follows, Std.ExtTreeSet.mem_union_iff, or_assoc]
    · simp [h]

theorem exists_mem_of_ne_empty {set : PositionSet} (h : set ≠ ∅) : ∃ p, p ∈ set :=
  Classical.not_forall_not.mp (mt Std.ExtTreeSet.eq_empty_iff_forall_not_mem.mpr h)

/-- A move is listed exactly if it leads to some position. -/
theorem mem_moves {ps : Positions} {set targets : PositionSet} {s : Symbol} :
    (s, targets) ∈ ps.moves set ↔ targets = ps.after set s ∧ targets ≠ ∅ := by
  simp only [moves, List.mem_filterMap, Std.ExtTreeSet.mem_toList]
  constructor
  · rintro ⟨a, -, h⟩
    split at h
    · simp at h
    · next hne =>
      obtain ⟨rfl, rfl⟩ : a = s ∧ ps.after set a = targets := by simpa using h
      exact ⟨rfl, by simpa [Std.ExtTreeSet.isEmpty_iff] using hne⟩
  · rintro ⟨rfl, hne⟩
    obtain ⟨q, hq⟩ := exists_mem_of_ne_empty hne
    obtain ⟨p, hp, hs, -⟩ := mem_after.mp hq
    exact ⟨s, mem_symbols.mpr ⟨p, hp, hs⟩, by simp [Std.ExtTreeSet.isEmpty_iff, hne]⟩

/-- The moves are listed in ascending order of their symbols, each symbol once. -/
theorem moves_ascending (ps : Positions) (set : PositionSet) :
    (ps.moves set).Pairwise fun a b => a.1 < b.1 := by
  unfold moves
  rw [List.pairwise_filterMap]
  refine Std.ExtTreeSet.ordered_toList.imp fun {a b} hab x hx y hy => ?_
  have fst {c : Symbol} {z : Symbol × PositionSet}
      (h : (if (ps.after set c).isEmpty then none else some (c, ps.after set c)) = some z) :
      z.1 = c := by
    split at h <;> simp_all
    exact h ▸ rfl
  rw [fst hx, fst hy]
  exact Std.compare_eq_lt.mp hab

end Positions

end RunGrammar
