import Mathlib.Computability.Language
import RunGrammar.Fragment

/-! The words of an expression. Each leaf is given a language, and the operators combine
the languages of their operands: alternation by union, juxtaposition by concatenation,
and a repetition by the words that occurrences of its body make up. The plain words of an
expression consist of symbols; in its tagged words each tag may be written or left out.
The plain words are exactly the tagged ones in which no tag is written. -/
namespace RunGrammar

open scoped Computability

variable {α β : Type}

/-- The words of a repetition whose body has the words `l`. A `+` joins one word of the body
or more and takes none that is empty, so it never has the empty word. -/
def Quantifier.words (q : Quantifier) (l : Language α) : Language α :=
  match q with
  | .star => l∗
  | .plus => {w | ∃ parts : List (List α),
      parts ≠ [] ∧ (∀ u ∈ parts, u ∈ l ∧ u ≠ []) ∧ w = parts.flatten}
  | .opt => l + 1

/-- The words of a leaf that is written as `letter`: a tag may be left out. -/
def Leaf.words (letter : α) (l : Leaf) : Language α :=
  if l.nullable then 1 + {[letter]} else {[letter]}

namespace Expr

/-- The words of an expression whose leaves have the given words. -/
def words (leaf : Leaf → Language α) : Expr → Language α
  | lit s => leaf (.symbol s)
  | tag name => leaf (.tag name)
  | endMark => leaf .endMark
  | ref _ => 0
  | alt a b => a.words leaf + b.words leaf
  | cat a b => a.words leaf * b.words leaf
  | rep e q => q.words (e.words leaf)

/-- The plain words. A tag consumes no symbol, and no symbol is an end mark. -/
def language (e : Expr) : Language Symbol :=
  e.words fun
    | .symbol s => {[s]}
    | .tag _ => 1
    | .endMark => 0

def taggedLanguage (e : Expr) : Language Leaf := e.words fun l => l.words l

def leaves : Expr → List Leaf
  | lit s => [.symbol s]
  | tag name => [.tag name]
  | endMark => [.endMark]
  | ref _ => []
  | alt a b | cat a b => a.leaves ++ b.leaves
  | rep e _ => e.leaves

end Expr

theorem Leaf.mem_words_iff {letter : α} {l : Leaf} {w : List α} :
    w ∈ l.words letter ↔ w = [letter] ∨ (w = [] ∧ l.nullable = true) := by
  unfold Leaf.words
  split
  · next hl =>
    rw [Language.mem_add, Language.mem_one, or_comm]
    exact or_congr Iff.rfl (by simp [hl])
  · next hl => exact (or_iff_left fun h => hl h.2).symm

namespace Quantifier

theorem mem_words_plus {l : Language α} {w : List α} :
    w ∈ plus.words l ↔ ∃ parts : List (List α),
      parts ≠ [] ∧ (∀ u ∈ parts, u ∈ l ∧ u ≠ []) ∧ w = parts.flatten := Iff.rfl

/-- Leaving the empty words of the body out loses only the empty word. -/
theorem words_plus (l : Language α) : plus.words l = l∗ - 1 := by
  ext w
  rw [mem_words_plus, Language.mem_sub, Language.mem_one, Language.mem_kstar_iff_exists_nonempty]
  constructor
  · rintro ⟨parts, hne, hparts, rfl⟩
    refine ⟨⟨parts, rfl, hparts⟩, fun hnil => ?_⟩
    obtain ⟨u, hu⟩ := List.exists_mem_of_ne_nil parts hne
    exact (hparts u hu).2 (List.flatten_eq_nil_iff.mp hnil u hu)
  · rintro ⟨⟨parts, rfl, hparts⟩, hne⟩
    exact ⟨parts, fun hnil => hne (by rw [hnil, List.flatten_nil]), hparts, rfl⟩

theorem words_star (l : Language α) : star.words l = plus.words l + 1 := by
  ext w
  rw [words_plus, Language.mem_add, Language.mem_sub, Language.mem_one]
  by_cases hw : w = []
  · simp [hw, words, Language.nil_mem_kstar]
  · simp [hw, words]

theorem mem_kstar_of_mem_words {q : Quantifier} {l : Language α} {w : List α}
    (h : w ∈ q.words l) : w ∈ l∗ := by
  cases q with
  | star => exact h
  | plus =>
    rw [words_plus] at h
    exact h.1
  | opt =>
    rcases h with h | h
    · exact ⟨[w], List.flatten_singleton.symm, fun _ hu => List.mem_singleton.mp hu ▸ h⟩
    · exact ⟨[], h, fun _ hu => absurd hu List.not_mem_nil⟩

theorem map_words (f : α → β) (q : Quantifier) (l : Language α) :
    Language.map f (q.words l) = q.words (Language.map f l) := by
  cases q with
  | star => exact Language.map_kstar f l
  | opt => rw [words, map_add, map_one, words]
  | plus =>
    rw [words_plus, words_plus, ← Language.map_kstar]
    ext w
    constructor
    · rintro ⟨u, ⟨hu, hne⟩, rfl⟩
      exact ⟨⟨u, hu, rfl⟩, fun hnil => hne (List.map_eq_nil_iff.mp hnil)⟩
    · rintro ⟨⟨u, hu, rfl⟩, hne⟩
      exact ⟨u, ⟨hu, fun hnil => hne (List.map_eq_nil_iff.mpr hnil)⟩, rfl⟩

end Quantifier

/-! Words over `β` are read as words over `α`, letter by letter. A language over `β` that
holds exactly the words whose reading lies in a language over `α` keeps this property under
all operators. -/

section Reading

variable {f : β → α} {l l' : Language β} {m m' : Language α}

theorem mem_mul_iff_map (hl : ∀ u, u ∈ l ↔ u.map f ∈ m) (hl' : ∀ u, u ∈ l' ↔ u.map f ∈ m')
    (w : List β) : w ∈ l * l' ↔ w.map f ∈ m * m' := by
  rw [Language.mem_mul, Language.mem_mul]
  constructor
  · rintro ⟨u, hu, v, hv, rfl⟩
    exact ⟨u.map f, (hl u).mp hu, v.map f, (hl' v).mp hv, List.map_append.symm⟩
  · rintro ⟨x, hx, y, hy, hxy⟩
    obtain ⟨u, v, rfl, rfl, rfl⟩ := List.map_eq_append_iff.mp hxy.symm
    exact ⟨u, (hl u).mpr hx, v, (hl' v).mpr hy, rfl⟩

theorem exists_parts_of_map_eq_flatten {w : List β} {parts : List (List α)}
    (h : w.map f = parts.flatten) :
    ∃ own : List (List β), w = own.flatten ∧ parts = own.map (List.map f) := by
  induction parts generalizing w with
  | nil => exact ⟨[], by simpa using h, rfl⟩
  | cons part rest ih =>
    obtain ⟨u, v, rfl, rfl, hv⟩ := List.map_eq_append_iff.mp h
    obtain ⟨own, rfl, rfl⟩ := ih hv
    exact ⟨u :: own, rfl, rfl⟩

theorem mem_kstar_iff_map (hl : ∀ u, u ∈ l ↔ u.map f ∈ m) (w : List β) :
    w ∈ l∗ ↔ w.map f ∈ m∗ := by
  rw [Language.mem_kstar, Language.mem_kstar]
  constructor
  · rintro ⟨parts, rfl, hparts⟩
    refine ⟨parts.map (List.map f), List.map_flatten, ?_⟩
    intro x hx
    obtain ⟨u, hu, rfl⟩ := List.mem_map.mp hx
    exact (hl u).mp (hparts u hu)
  · rintro ⟨parts, hflat, hparts⟩
    obtain ⟨own, rfl, rfl⟩ := exists_parts_of_map_eq_flatten hflat
    exact ⟨own, rfl, fun u hu => (hl u).mpr (hparts _ (List.mem_map_of_mem hu))⟩

theorem Quantifier.mem_words_iff_map (q : Quantifier) (hl : ∀ u, u ∈ l ↔ u.map f ∈ m)
    (w : List β) : w ∈ q.words l ↔ w.map f ∈ q.words m := by
  cases q with
  | star => exact mem_kstar_iff_map hl w
  | plus =>
    rw [words_plus, words_plus, Language.mem_sub, Language.mem_sub, mem_kstar_iff_map hl]
    simp
  | opt =>
    rw [words, words, Language.mem_add, Language.mem_add, hl]
    simp

theorem Expr.mem_words_iff_map {own : Leaf → Language β} {leaf : Leaf → Language α}
    (h : ∀ l u, u ∈ own l ↔ u.map f ∈ leaf l) (e : Expr) (w : List β) :
    w ∈ e.words own ↔ w.map f ∈ e.words leaf := by
  induction e generalizing w with
  | lit _ | tag _ | endMark => exact h _ w
  | ref _ => exact iff_of_false (Language.notMem_zero w) (Language.notMem_zero _)
  | alt a b iha ihb => exact or_congr (iha w) (ihb w)
  | cat a b iha ihb => exact mem_mul_iff_map iha ihb w
  | rep e q ih => exact q.mem_words_iff_map ih w

end Reading

namespace Expr

/-- A plain word is a tagged word in which no tag is written. -/
theorem mem_language_iff {e : Expr} {w : List Symbol} :
    w ∈ e.language ↔ w.map Leaf.symbol ∈ e.taggedLanguage := by
  refine mem_words_iff_map (fun l u => ?_) e w
  rw [Leaf.mem_words_iff]
  cases l with
  | symbol s =>
    change u = [s] ↔ _
    simp [Leaf.nullable, List.map_eq_singleton_iff]
  | tag name =>
    change u = [] ↔ _
    simp [Leaf.nullable, List.map_eq_singleton_iff]
  | endMark =>
    change False ↔ _
    simp [Leaf.nullable, List.map_eq_singleton_iff]

/-- A tagged word is written with the leaves of the expression. -/
theorem mem_leaves_of_mem_taggedLanguage {e : Expr} {w : List Leaf} (hw : w ∈ e.taggedLanguage) :
    ∀ l ∈ w, l ∈ e.leaves := by
  induction e generalizing w with
  | lit _ | tag _ | endMark =>
    rw [taggedLanguage, words, Leaf.mem_words_iff] at hw
    rcases hw with rfl | ⟨rfl, -⟩
    · exact fun _ => id
    · exact fun _ hl => absurd hl List.not_mem_nil
  | ref _ => exact absurd hw (Language.notMem_zero w)
  | alt a b iha ihb =>
    intro l hl
    rw [leaves, List.mem_append]
    exact hw.imp (fun h => iha h l hl) (fun h => ihb h l hl)
  | cat a b iha ihb =>
    obtain ⟨u, hu, v, hv, rfl⟩ := hw
    intro l hl
    rw [leaves, List.mem_append]
    exact (List.mem_append.mp hl).imp (iha hu l) (ihb hv l)
  | rep e q ih =>
    obtain ⟨parts, rfl, hparts⟩ := Quantifier.mem_kstar_of_mem_words hw
    intro l hl
    obtain ⟨part, hpart, hl⟩ := List.mem_flatten.mp hl
    exact ih (hparts part hpart) l hl

end Expr

end RunGrammar
