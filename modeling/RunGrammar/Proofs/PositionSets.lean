import RunGrammar.Positions
import RunGrammar.Proofs.PositionWords

/-! The sets of positions that a scan passes through. A set stands for the tagged words that
can be read on from it, and reading a symbol leaves those words that begin with the symbol,
without it. So the set after a word holds exactly the leaves that may come next in a tagged
word of the expression. -/
namespace RunGrammar

variable {f : Fragment} {set : PositionSet} {s : Symbol} {l : Leaf} {u : List Leaf}

/-- The positions after a word has been read from the first ones. -/
def Positions.afterWord (ps : Positions) (w : List Symbol) : PositionSet :=
  w.foldl ps.after ps.first

theorem Positions.symbol?_eq_some_iff {ps : Positions} {p : Nat} :
    ps.symbol? p = some s ↔ ps.leaf? p = some (.symbol s) := by
  unfold symbol?
  cases ps.leaf? p with
  | none => simp
  | some l => cases l <;> simp

theorem Positions.tag?_eq_some_iff {ps : Positions} {p : Nat} {name : String} :
    ps.tag? p = some name ↔ ps.leaf? p = some (.tag name) := by
  unfold tag?
  cases ps.leaf? p with
  | none => simp
  | some l => cases l <;> simp

/-- The positions of an entry rule, with an end mark behind it. -/
def Expr.positions (e : Expr) : Positions := .ofFragment (.ofExpr 0 (.cat e .endMark))

namespace Fragment

def label (f : Fragment) (p : Nat) : Leaf := f.leaves[p]?.getD .endMark

/-- The tagged words whose reading begins at one of the given positions. -/
def taggedFrom (f : Fragment) (set : PositionSet) : Language Leaf :=
  Language.map f.label (f.wordsFrom set)

theorem cons_mem_taggedFrom :
    l :: u ∈ f.taggedFrom set ↔
      ∃ p ∈ set, f.label p = l ∧ ∃ w, f.Completes p w ∧ w.map f.label = u := by
  constructor
  · rintro ⟨_, ⟨p, w, rfl, hp, hw⟩, hmap⟩
    obtain ⟨hl, hu⟩ := List.cons.inj hmap
    exact ⟨p, hp, hl, w, hw, hu⟩
  · rintro ⟨p, hp, rfl, w, hw, rfl⟩
    exact ⟨p :: w, ⟨p, w, rfl, hp, hw⟩, rfl⟩

theorem leaf?_ofFragment {p : Nat} : (Positions.ofFragment f).leaf? p = f.leaves[p]? := rfl

theorem symbol?_ofFragment {p : Nat} :
    (Positions.ofFragment f).symbol? p = some s ↔ f.label p = .symbol s := by
  rw [Positions.symbol?_eq_some_iff, leaf?_ofFragment, label]
  cases f.leaves[p]? <;> simp

/-- Reading a symbol leaves the words that began with it. The last position of a word has no
successor, so the rest of the word must not be empty. -/
theorem mem_taggedFrom_after (hu : u ≠ []) :
    u ∈ f.taggedFrom ((Positions.ofFragment f).after set s) ↔
      .symbol s :: u ∈ f.taggedFrom set := by
  obtain ⟨l, u, rfl⟩ := List.exists_cons_of_ne_nil hu
  rw [cons_mem_taggedFrom, cons_mem_taggedFrom]
  constructor
  · rintro ⟨q, hq, rfl, w, hw, rfl⟩
    obtain ⟨p, hp, hs, hpq⟩ := Positions.mem_after.mp hq
    exact ⟨p, hp, symbol?_ofFragment.mp hs, q :: w, ⟨(follows_follow.mp hpq).2, hw⟩, rfl⟩
  · rintro ⟨p, hp, hs, _ | ⟨q, w⟩, hw, hmap⟩
    · cases hmap
    · obtain ⟨hl, hu⟩ := List.cons.inj hmap
      have hsize : p < f.leaves.size := by
        by_contra hge
        rw [label, Array.getElem?_eq_none (Nat.le_of_not_lt hge)] at hs
        cases hs
      refine ⟨q, Positions.mem_after.mpr ⟨p, hp, symbol?_ofFragment.mpr hs, ?_⟩, hl, w, hw.2, hu⟩
      exact follows_follow.mpr ⟨hsize, hw.1⟩

theorem mem_taggedFrom_foldl_after (hu : u ≠ []) (w : List Symbol) :
    u ∈ f.taggedFrom (w.foldl (Positions.ofFragment f).after set) ↔
      w.map Leaf.symbol ++ u ∈ f.taggedFrom set := by
  induction w generalizing set with
  | nil => rfl
  | cons s w ih =>
    rw [List.foldl_cons, ih, mem_taggedFrom_after]
    · rfl
    · exact List.append_ne_nil_of_right_ne_nil _ hu

theorem leaf?_eq_some_iff {p : Nat} (hp : p < f.leaves.size) :
    (Positions.ofFragment f).leaf? p = some l ↔ f.label p = l := by
  rw [leaf?_ofFragment, label, Array.getElem?_eq_getElem hp, Option.some_inj, Option.getD_some]

/-- A leaf stands in a set exactly if a word that is read on from the set begins with it. -/
theorem exists_leaf?_iff {e : Expr} (he : e.Closed) :
    (∃ p ∈ set, (Positions.ofFragment (ofExpr 0 e)).leaf? p = some l) ↔
      ∃ u, l :: u ∈ (ofExpr 0 e).taggedFrom set := by
  have hsize : (ofExpr 0 e).leaves.size = 0 + e.leaves.length := by
    rw [size_leaves_ofExpr, Nat.zero_add]
  constructor
  · rintro ⟨p, hp, hl⟩
    obtain ⟨hlt, -⟩ := Array.getElem?_eq_some_iff.mp hl
    obtain ⟨w, hw⟩ := exists_completes he (Nat.zero_le p) (hsize ▸ hlt)
    exact ⟨w.map (ofExpr 0 e).label,
      cons_mem_taggedFrom.mpr ⟨p, hp, (leaf?_eq_some_iff hlt).mp hl, w, hw, rfl⟩⟩
  · rintro ⟨u, hu⟩
    obtain ⟨p, hp, hl, w, hw, -⟩ := cons_mem_taggedFrom.mp hu
    have hlt : p < (ofExpr 0 e).leaves.size := hsize ▸ (hw.within (within_ofExpr 0 e)).2
    exact ⟨p, hp, (leaf?_eq_some_iff hlt).mpr hl⟩

theorem mem_taggedFrom_first {e : Expr} (hu : u ≠ []) :
    u ∈ (ofExpr 0 e).taggedFrom (ofExpr 0 e).first ↔ u ∈ e.taggedLanguage := by
  have hlabels : Labels (ofExpr 0 e).label 0 e.leaves := by
    intro i l hi
    rw [Nat.zero_add, label, leaves_ofExpr, List.getElem?_toArray, hi, Option.getD_some]
  rw [← Expr.map_numbered hlabels, ← words_ofExpr]
  constructor
  · rintro ⟨w, hw, rfl⟩
    exact ⟨w, .inr hw, rfl⟩
  · rintro ⟨w, ⟨rfl, -⟩ | hw, rfl⟩
    · exact absurd List.map_nil hu
    · exact ⟨w, hw, rfl⟩

end Fragment

namespace Expr

variable {e : Expr} {w : List Symbol}

theorem append_singleton_eq_append_cons_iff {α : Type} {v x u : List α} {m l : α} :
    v ++ [m] = x ++ l :: u ↔
      (v = x ∧ l = m ∧ u = []) ∨ ∃ u', v = x ++ l :: u' ∧ u = u' ++ [m] := by
  rcases List.eq_nil_or_concat u with rfl | ⟨u, n, rfl⟩
  · constructor
    · intro h
      obtain ⟨hvx, hml⟩ := List.append_inj' h rfl
      exact .inl ⟨hvx, (List.singleton_inj.mp hml).symm, rfl⟩
    · rintro (⟨rfl, rfl, -⟩ | ⟨u', -, h⟩)
      · rfl
      · exact absurd h.symm (List.append_ne_nil_of_right_ne_nil u' (List.cons_ne_nil m []))
  · rw [List.concat_eq_append, ← List.cons_append, ← List.append_assoc]
    constructor
    · intro h
      obtain ⟨hv, hmn⟩ := List.append_inj' h rfl
      exact .inr ⟨u, hv, by rw [hmn]⟩
    · rintro (⟨-, -, h⟩ | ⟨u', rfl, h⟩)
      · exact absurd h (List.append_ne_nil_of_right_ne_nil u (List.cons_ne_nil n []))
      · obtain ⟨rfl, hnm⟩ := List.append_inj' h rfl
        rw [hnm]

/-- A leaf stands in the set after a word exactly if it may come next, the end mark also if the
word is complete. -/
theorem exists_leaf?_afterWord_iff (he : e.Closed) :
    (∃ p ∈ e.positions.afterWord w, e.positions.leaf? p = some l) ↔
      (l = .endMark ∧ w ∈ e.language) ∨ ∃ u, w.map Leaf.symbol ++ l :: u ∈ e.taggedLanguage := by
  have hmarked : ∀ u, u ∈ (cat e .endMark).taggedLanguage ↔
      ∃ v ∈ e.taggedLanguage, v ++ [.endMark] = u := by
    intro u
    constructor
    · rintro ⟨v, hv, x, hx, rfl⟩
      rcases Leaf.mem_words_iff.mp hx with rfl | ⟨-, h⟩
      · exact ⟨v, hv, rfl⟩
      · cases h
    · rintro ⟨v, hv, rfl⟩
      exact ⟨v, hv, _, Leaf.mem_words_iff.mpr (.inl rfl), rfl⟩
  have hread : (∃ p ∈ e.positions.afterWord w, e.positions.leaf? p = some l) ↔
      ∃ u, w.map Leaf.symbol ++ l :: u ∈ (cat e .endMark).taggedLanguage := by
    have hroot : (cat e .endMark).Closed := closed_cat.mpr ⟨he, rfl⟩
    refine (Fragment.exists_leaf?_iff hroot).trans (exists_congr fun u => ?_)
    have hne : l :: u ≠ [] := List.cons_ne_nil l u
    exact (Fragment.mem_taggedFrom_foldl_after hne w).trans
      (Fragment.mem_taggedFrom_first (List.append_ne_nil_of_right_ne_nil _ hne))
  rw [hread, mem_language_iff]
  constructor
  · rintro ⟨u, hu⟩
    obtain ⟨v, hv, huv⟩ := (hmarked _).mp hu
    rcases append_singleton_eq_append_cons_iff.mp huv with ⟨rfl, rfl, -⟩ | ⟨u, rfl, -⟩
    · exact .inl ⟨rfl, hv⟩
    · exact .inr ⟨u, hv⟩
  · rintro (⟨rfl, h⟩ | ⟨u, hu⟩)
    · exact ⟨[], (hmarked _).mpr ⟨_, h, rfl⟩⟩
    · exact ⟨u ++ [.endMark], (hmarked _).mpr ⟨_, hu, by rw [List.append_assoc, List.cons_append]⟩⟩

theorem ends_afterWord_iff (he : e.Closed) (hend : .endMark ∉ e.leaves) :
    e.positions.ends (e.positions.afterWord w) = true ↔ w ∈ e.language := by
  rw [Positions.ends_eq_true_iff, exists_leaf?_afterWord_iff he, or_iff_left, and_iff_right rfl]
  rintro ⟨u, hu⟩
  exact hend (mem_leaves_of_mem_taggedLanguage hu _ (by simp))

theorem mem_tags_afterWord_iff (he : e.Closed) {name : String} :
    name ∈ e.positions.tags (e.positions.afterWord w) ↔
      ∃ u, w.map Leaf.symbol ++ .tag name :: u ∈ e.taggedLanguage := by
  simp only [Positions.mem_tags, Positions.tag?_eq_some_iff, exists_leaf?_afterWord_iff he]
  exact or_iff_right fun h => Leaf.noConfusion h.1

theorem exists_leaf?_of_mem_afterWord {p : Nat} (h : p ∈ e.positions.afterWord w) :
    ∃ l, e.positions.leaf? p = some l := by
  have hin := Fragment.within_ofExpr 0 (cat e .endMark)
  suffices hlt : p < 0 + (cat e .endMark).leaves.length by
    rw [← Fragment.size_leaves_ofExpr 0, Nat.zero_add] at hlt
    exact ⟨_, Array.getElem?_eq_getElem hlt⟩
  rcases List.eq_nil_or_concat w with rfl | ⟨w, s, rfl⟩
  · exact (hin.first p h).2
  · rw [Positions.afterWord, List.concat_eq_append, List.foldl_concat] at h
    obtain ⟨q, -, -, hqp⟩ := Positions.mem_after.mp h
    exact (hin.linked q p (Fragment.follows_follow.mp hqp).2).2.2

/-- Nothing comes next exactly if no word goes on. -/
theorem afterWord_eq_empty_iff (he : e.Closed) :
    e.positions.afterWord w = ∅ ↔ ∀ u, w.map Leaf.symbol ++ u ∉ e.taggedLanguage := by
  rw [Std.ExtTreeSet.eq_empty_iff_forall_not_mem]
  constructor
  · intro hempty u hu
    have hnext : ∃ l, (l = Leaf.endMark ∧ w ∈ e.language) ∨
        ∃ v, w.map Leaf.symbol ++ l :: v ∈ e.taggedLanguage := by
      cases u with
      | nil =>
        rw [List.append_nil] at hu
        exact ⟨.endMark, .inl ⟨rfl, mem_language_iff.mpr hu⟩⟩
      | cons l v => exact ⟨l, .inr ⟨v, hu⟩⟩
    obtain ⟨l, hl⟩ := hnext
    obtain ⟨p, hp, -⟩ := (exists_leaf?_afterWord_iff he).mpr hl
    exact hempty p hp
  · intro hnone p hp
    obtain ⟨l, hl⟩ := exists_leaf?_of_mem_afterWord hp
    rcases (exists_leaf?_afterWord_iff he).mp ⟨p, hp, hl⟩ with ⟨-, hw⟩ | ⟨u, hu⟩
    · exact hnone [] (by rw [List.append_nil]; exact mem_language_iff.mp hw)
    · exact hnone _ hu

end Expr

end RunGrammar
