import RunGrammar.Expr
import Std.Data.ExtTreeSet

/-! The positions of an expression are its leaves, numbered from left to right. A word of the
expression is read along positions, from one of the first ones to one of the last ones,
each step leading to a position that may follow. Tags and end marks have positions of
their own, and a tag may be left out. A fragment describes a part of an expression in
these terms, and the fragment of the whole is composed from those of its operands. -/
namespace RunGrammar

abbrev PositionSet := Std.ExtTreeSet Nat

/-- What stands at a position. -/
inductive Leaf
  | symbol (code : Symbol)
  | tag (name : String)
  | endMark
deriving DecidableEq, Repr

def Leaf.nullable : Leaf → Bool
  | tag _ => true
  | symbol _ | endMark => false

structure Fragment where
  leaves : Array Leaf
  /-- Whether the part may be passed without reading any of its positions. -/
  nullable : Bool
  /-- The positions where a word of the part can begin. -/
  first : PositionSet
  /-- The positions where a word of the part can end. -/
  last : PositionSet
  /-- Pairs of sets: every position of the second may follow every position of the first. -/
  links : List (PositionSet × PositionSet)

namespace Fragment

def empty : Fragment := ⟨#[], false, ∅, ∅, []⟩

def leaf (position : Nat) (l : Leaf) : Fragment := ⟨#[l], l.nullable, {position}, {position}, []⟩

def alt (a b : Fragment) : Fragment where
  leaves := a.leaves ++ b.leaves
  nullable := a.nullable || b.nullable
  first := a.first ∪ b.first
  last := a.last ∪ b.last
  links := b.links ++ a.links

def cat (a b : Fragment) : Fragment where
  leaves := a.leaves ++ b.leaves
  nullable := a.nullable && b.nullable
  first := if a.nullable then a.first ∪ b.first else a.first
  last := if b.nullable then a.last ∪ b.last else b.last
  links := (a.last, b.first) :: (b.links ++ a.links)

def rep (a : Fragment) (q : Quantifier) : Fragment :=
  { a with
    nullable := q.nullable
    links := if q.loops then (a.last, a.first) :: a.links else a.links }

/-- The fragment of an expression whose first leaf has the position `base`. A reference has
no positions. -/
def ofExpr (base : Nat) : Expr → Fragment
  | .lit s => leaf base (.symbol s)
  | .tag name => leaf base (.tag name)
  | .endMark => leaf base .endMark
  | .ref _ => empty
  | .alt a b =>
    let left := ofExpr base a
    left.alt (ofExpr (base + left.leaves.size) b)
  | .cat a b =>
    let left := ofExpr base a
    left.cat (ofExpr (base + left.leaves.size) b)
  | .rep e q => (ofExpr base e).rep q

/-- Adds `targets` to the positions that may follow the sources. -/
def link (table : Array PositionSet) (sources : List Nat) (targets : PositionSet) :
    Array PositionSet :=
  sources.foldl (fun table p => table.modify p (· ∪ targets)) table

/-- For each position the positions that may follow it. -/
def follow (f : Fragment) : Array PositionSet :=
  f.links.foldl (fun table (sources, targets) => link table sources.toList targets)
    (Array.replicate f.leaves.size ∅)

@[simp] theorem size_link (table : Array PositionSet) (sources : List Nat)
    (targets : PositionSet) : (link table sources targets).size = table.size := by
  induction sources generalizing table with
  | nil => rfl
  | cons p rest ih => rw [link, List.foldl_cons, ← link, ih, Array.size_modify]

@[simp] theorem size_follow (f : Fragment) : f.follow.size = f.leaves.size := by
  suffices h : ∀ (links : List (PositionSet × PositionSet)) (table : Array PositionSet),
      (links.foldl (fun table (sources, targets) => link table sources.toList targets)
        table).size = table.size by
    rw [follow, h, Array.size_replicate]
  intro links
  induction links with
  | nil => exact fun _ => rfl
  | cons l rest ih => intro table; rw [List.foldl_cons, ih, size_link]

/-- Whether a table says that `q` may follow `p`. -/
def Follows (table : Array PositionSet) (p q : Nat) : Prop := ∃ f, table[p]? = some f ∧ q ∈ f

theorem follows_link {table : Array PositionSet} {sources : List Nat} {targets : PositionSet}
    {p q : Nat} :
    Follows (link table sources targets) p q ↔
      Follows table p q ∨ (p < table.size ∧ p ∈ sources ∧ q ∈ targets) := by
  induction sources generalizing table with
  | nil => simp [link]
  | cons s rest ih =>
    have step : Follows (table.modify s (· ∪ targets)) p q ↔
        Follows table p q ∨ (p < table.size ∧ p = s ∧ q ∈ targets) := by
      unfold Follows
      rw [Array.getElem?_modify]
      by_cases hp : p < table.size
      · by_cases h : s = p <;> grind [Std.ExtTreeSet.mem_union_iff]
      · simp [hp]
    rw [link, List.foldl_cons, ← link, ih, step, Array.size_modify, List.mem_cons]
    grind

/-- One position may follow another exactly if a link says so. -/
theorem follows_follow {f : Fragment} {p q : Nat} :
    Follows f.follow p q ↔
      p < f.leaves.size ∧ ∃ l ∈ f.links, p ∈ l.1 ∧ q ∈ l.2 := by
  suffices h : ∀ (links : List (PositionSet × PositionSet)) (table : Array PositionSet),
      Follows (links.foldl (fun table (sources, targets) => link table sources.toList targets)
        table) p q ↔
      Follows table p q ∨ (p < table.size ∧ ∃ l ∈ links, p ∈ l.1 ∧ q ∈ l.2) by
    rw [follow, h]
    simp [Follows, Array.getElem?_replicate]
  intro links
  induction links with
  | nil => simp
  | cons l rest ih =>
    intro table
    rw [List.foldl_cons, ih, follows_link, size_link, Std.ExtTreeSet.mem_toList]
    grind

end Fragment

end RunGrammar
