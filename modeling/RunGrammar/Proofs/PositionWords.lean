import RunGrammar.Proofs.FragmentWords

/-! The words of an expression over its positions. Numbering the leaves from left to right turns
the words of an expression into words of numbers, in which no number stands for two leaves.
These are the words that the fragment of the expression reads, and no position of the
fragment is a dead end. -/
namespace RunGrammar

variable {p base : Nat}

namespace Expr

/-- The words over the numbers of the leaves, the first of which is `base`. -/
def numbered (base : Nat) : Expr → Language Nat
  | lit s => (Leaf.symbol s).words base
  | tag name => (Leaf.tag name).words base
  | endMark => Leaf.endMark.words base
  | ref _ => 0
  | alt a b => a.numbered base + b.numbered (base + a.leaves.length)
  | cat a b => a.numbered base * b.numbered (base + a.leaves.length)
  | rep e q => q.words (e.numbered base)

end Expr

namespace Fragment

theorem leaves_ofExpr (base : Nat) (e : Expr) : (ofExpr base e).leaves = e.leaves.toArray := by
  induction e generalizing base with
  | lit _ | tag _ | endMark | ref _ => rfl
  | alt a b iha ihb | cat a b iha ihb => simp [ofExpr, alt, cat, Expr.leaves, iha, ihb]
  | rep e q ih => exact ih base

theorem size_leaves_ofExpr (base : Nat) (e : Expr) :
    (ofExpr base e).leaves.size = e.leaves.length := by
  rw [leaves_ofExpr, List.size_toArray]

theorem ofExpr_alt (base : Nat) (x y : Expr) :
    ofExpr base (.alt x y) = (ofExpr base x).alt (ofExpr (base + x.leaves.length) y) := by
  rw [ofExpr, size_leaves_ofExpr]

theorem ofExpr_cat (base : Nat) (x y : Expr) :
    ofExpr base (.cat x y) = (ofExpr base x).cat (ofExpr (base + x.leaves.length) y) := by
  rw [ofExpr, size_leaves_ofExpr]

theorem within_ofExpr (base : Nat) (e : Expr) :
    (ofExpr base e).Within base (base + e.leaves.length) := by
  induction e generalizing base with
  | lit _ | tag _ | endMark => exact within_leaf _
  | ref _ => exact within_empty
  | alt x y ihx ihy =>
    rw [ofExpr_alt, Expr.leaves, List.length_append, ← Nat.add_assoc]
    refine (ihx base).join (ihy _) (Nat.le_add_right _ _) (Nat.le_add_right _ _)
      (fun p => mem_first_alt.mp) (fun p => mem_last_alt.mp) fun p q h => ?_
    exact (linked_alt.mp h).imp_right .inl
  | cat x y ihx ihy =>
    rw [ofExpr_cat, Expr.leaves, List.length_append, ← Nat.add_assoc]
    exact (ihx base).join (ihy _) (Nat.le_add_right _ _) (Nat.le_add_right _ _)
      (fun p h => (mem_first_cat.mp h).imp_right And.right)
      (fun p h => (mem_last_cat.mp h).imp_left And.right) fun p q => linked_cat.mp
  | rep e q ih => exact (ih base).rep

theorem words_ofExpr (base : Nat) (e : Expr) : (ofExpr base e).words = e.numbered base := by
  induction e generalizing base with
  | lit _ | tag _ | endMark => exact words_leaf _
  | ref _ =>
    refine words_ext (iff_of_false Bool.false_ne_true (Language.notMem_zero _)) fun p w => ?_
    exact iff_of_false (by simp [ofExpr, empty]) (Language.notMem_zero _)
  | alt x y ihx ihy =>
    rw [ofExpr_alt, words_alt (within_ofExpr base x) (within_ofExpr _ y), ihx, ihy, Expr.numbered]
  | cat x y ihx ihy =>
    rw [ofExpr_cat, words_cat (within_ofExpr base x) (within_ofExpr _ y), ihx, ihy, Expr.numbered]
  | rep e q ih => rw [ofExpr, words_rep, ih, Expr.numbered]

end Fragment

theorem map_words_leaf {label : Nat → Leaf} {l : Leaf} (h : label p = l) :
    Language.map label (l.words p) = l.words l := by
  have hsingle : Language.map label {[p]} = {[l]} := by
    rw [← h]
    exact Set.image_singleton
  unfold Leaf.words
  split
  · rw [map_add, map_one, hsingle]
  · exact hsingle

/-- Whether `label` names the given leaves, the first of which has the number `base`. -/
def Labels (label : Nat → Leaf) (base : Nat) (leaves : List Leaf) : Prop :=
  ∀ i l, leaves[i]? = some l → label (base + i) = l

theorem Labels.left {label : Nat → Leaf} {front back : List Leaf}
    (h : Labels label base (front ++ back)) : Labels label base front := by
  intro i l hi
  obtain ⟨hlt, -⟩ := List.getElem?_eq_some_iff.mp hi
  exact h i l (by rw [List.getElem?_append_left hlt, hi])

theorem Labels.right {label : Nat → Leaf} {front back : List Leaf}
    (h : Labels label base (front ++ back)) : Labels label (base + front.length) back := by
  intro i l hi
  rw [Nat.add_assoc]
  refine h _ l ?_
  rw [List.getElem?_append_right (Nat.le_add_right _ _), Nat.add_sub_cancel_left, hi]

/-- Replacing the numbers by the leaves that they stand for turns the numbered words into the
tagged ones. -/
theorem Expr.map_numbered {label : Nat → Leaf} {e : Expr} (h : Labels label base e.leaves) :
    Language.map label (e.numbered base) = e.taggedLanguage := by
  induction e generalizing base with
  | lit _ | tag _ | endMark => exact map_words_leaf (h 0 _ rfl)
  | ref _ => exact map_zero _
  | alt x y ihx ihy =>
    rw [numbered, map_add, ihx h.left, ihy h.right]
    rfl
  | cat x y ihx ihy =>
    rw [numbered, map_mul, ihx h.left, ihy h.right]
    rfl
  | rep e q ih =>
    rw [numbered, Quantifier.map_words, ih h]
    rfl

namespace Fragment

/-- An expression without references has a word, and that word begins somewhere. -/
theorem exists_mem_first {e : Expr} (he : e.Closed) (base : Nat) :
    ∃ p, p ∈ (ofExpr base e).first := by
  induction e generalizing base with
  | lit _ | tag _ | endMark => exact ⟨base, mem_first_leaf.mpr rfl⟩
  | ref _ => cases he
  | alt x y ihx ihy =>
    obtain ⟨p, hp⟩ := ihx (Expr.closed_alt.mp he).1 base
    exact ⟨p, by rw [ofExpr_alt, mem_first_alt]; exact .inl hp⟩
  | cat x y ihx ihy =>
    obtain ⟨p, hp⟩ := ihx (Expr.closed_cat.mp he).1 base
    exact ⟨p, by rw [ofExpr_cat, mem_first_cat]; exact .inl hp⟩
  | rep e q ih => exact ih he base

theorem exists_completes {e : Expr} (he : e.Closed) (hlo : base ≤ p)
    (hhi : p < base + e.leaves.length) : ∃ w, (ofExpr base e).Completes p w := by
  induction e generalizing base p with
  | lit _ | tag _ | endMark =>
    have hp : base = p := by
      rw [Expr.leaves, List.length_singleton] at hhi
      omega
    exact ⟨[], mem_last_leaf.mpr hp⟩
  | ref _ => cases he
  | alt x y ihx ihy =>
    obtain ⟨hx, hy⟩ := Expr.closed_alt.mp he
    rw [Expr.leaves, List.length_append, ← Nat.add_assoc] at hhi
    rw [ofExpr_alt]
    by_cases hmid : p < base + x.leaves.length
    · obtain ⟨w, hw⟩ := ihx hx hlo hmid
      exact ⟨w, (completes_alt_left (within_ofExpr base x) (within_ofExpr _ y) hmid).mpr hw⟩
    · obtain ⟨w, hw⟩ := ihy hy (Nat.le_of_not_lt hmid) hhi
      exact ⟨w, (completes_alt_right (within_ofExpr base x) (within_ofExpr _ y)
        (Nat.le_of_not_lt hmid)).mpr hw⟩
  | cat x y ihx ihy =>
    obtain ⟨hx, hy⟩ := Expr.closed_cat.mp he
    rw [Expr.leaves, List.length_append, ← Nat.add_assoc] at hhi
    rw [ofExpr_cat]
    by_cases hmid : p < base + x.leaves.length
    · -- From the left operand the word goes on through the right one.
      obtain ⟨u, hu⟩ := ihx hx hlo hmid
      obtain ⟨q, hq⟩ := exists_mem_first hy (base + x.leaves.length)
      obtain ⟨hqlo, hqhi⟩ := (within_ofExpr _ y).first q hq
      obtain ⟨v, hv⟩ := ihy hy hqlo hqhi
      exact ⟨u ++ q :: v, (completes_cat_left (within_ofExpr base x) (within_ofExpr _ y) hmid).mpr
        ⟨u, q :: v, rfl, hu, cons_mem_words.mpr ⟨hq, hv⟩⟩⟩
    · obtain ⟨w, hw⟩ := ihy hy (Nat.le_of_not_lt hmid) hhi
      exact ⟨w, (completes_cat_right (within_ofExpr base x) (within_ofExpr _ y)
        (Nat.le_of_not_lt hmid)).mpr hw⟩
  | rep e q ih =>
    obtain ⟨w, hw⟩ := ih he hlo hhi
    exact ⟨w, hw.rep⟩

end Fragment

end RunGrammar
