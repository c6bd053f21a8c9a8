import RunGrammar.Proofs.Words

/-! Words read along positions. A fragment reads a word of positions from one of its first
positions over its links to one of its last. If the operands of a composition have no
position in common, what the composed fragment reads is composed from what they read. -/
namespace RunGrammar

variable {a b f g : Fragment} {lo mid hi p q : Nat} {w : List Nat}

namespace Fragment

def Linked (f : Fragment) (p q : Nat) : Prop := ∃ l ∈ f.links, p ∈ l.1 ∧ q ∈ l.2

/-- Whether the positions of `w` may follow `p`, one after the other and the last one at the
end of a word. -/
def Completes (f : Fragment) : Nat → List Nat → Prop
  | p, [] => p ∈ f.last
  | p, q :: rest => f.Linked p q ∧ f.Completes q rest

/-- The words whose reading begins at one of the given positions. -/
def wordsFrom (f : Fragment) (set : PositionSet) : Language Nat :=
  {w | ∃ p rest, w = p :: rest ∧ p ∈ set ∧ f.Completes p rest}

/-- The words that a fragment reads. -/
def words (f : Fragment) : Language Nat :=
  {w | (w = [] ∧ f.nullable = true) ∨ w ∈ f.wordsFrom f.first}

structure Within (f : Fragment) (lo hi : Nat) : Prop where
  first : ∀ p ∈ f.first, lo ≤ p ∧ p < hi
  last : ∀ p ∈ f.last, lo ≤ p ∧ p < hi
  linked : ∀ p q, f.Linked p q → (lo ≤ p ∧ p < hi) ∧ lo ≤ q ∧ q < hi

@[simp] theorem cons_mem_wordsFrom {set : PositionSet} :
    p :: w ∈ f.wordsFrom set ↔ p ∈ set ∧ f.Completes p w := by
  constructor
  · rintro ⟨_, _, h, hp⟩
    obtain ⟨rfl, rfl⟩ := List.cons.inj h
    exact hp
  · exact fun h => ⟨p, w, rfl, h⟩

@[simp] theorem nil_mem_words : [] ∈ f.words ↔ f.nullable = true := by
  constructor
  · rintro (⟨-, h⟩ | ⟨_, _, h, -⟩)
    · exact h
    · cases h
  · exact fun h => .inl ⟨rfl, h⟩

@[simp] theorem cons_mem_words : p :: w ∈ f.words ↔ p ∈ f.first ∧ f.Completes p w := by
  rw [← cons_mem_wordsFrom]
  exact or_iff_right fun h => List.cons_ne_nil p w h.1

theorem words_ext {l : Language Nat} (hnil : f.nullable = true ↔ [] ∈ l)
    (hcons : ∀ p w, (p ∈ f.first ∧ f.Completes p w) ↔ p :: w ∈ l) : f.words = l := by
  ext w
  cases w with
  | nil => rw [nil_mem_words, hnil]
  | cons p w => rw [cons_mem_words, hcons]

theorem mem_first_leaf {l : Leaf} : q ∈ (leaf p l).first ↔ p = q := by simp [leaf]

theorem mem_last_leaf {l : Leaf} : q ∈ (leaf p l).last ↔ p = q := by simp [leaf]

@[simp] theorem linked_alt : (a.alt b).Linked p q ↔ a.Linked p q ∨ b.Linked p q := by
  simp only [Linked, alt, List.mem_append, or_and_right, exists_or]
  exact or_comm

@[simp] theorem linked_cat :
    (a.cat b).Linked p q ↔
      a.Linked p q ∨ b.Linked p q ∨ (p ∈ a.last ∧ q ∈ b.first) := by
  simp only [Linked, cat, List.mem_cons, List.mem_append, or_and_right, exists_or,
    exists_eq_left]
  exact or_comm.trans ((or_congr_left or_comm).trans or_assoc)

@[simp] theorem linked_rep {r : Quantifier} :
    (a.rep r).Linked p q ↔
      a.Linked p q ∨ (r.loops = true ∧ p ∈ a.last ∧ q ∈ a.first) := by
  unfold Linked rep
  cases r.loops with
  | true =>
    simp only [if_true, List.mem_cons, or_and_right, exists_or, exists_eq_left, true_and]
    exact or_comm
  | false => simp

@[simp] theorem mem_first_alt : p ∈ (a.alt b).first ↔ p ∈ a.first ∨ p ∈ b.first :=
  Std.ExtTreeSet.mem_union_iff

@[simp] theorem mem_last_alt : p ∈ (a.alt b).last ↔ p ∈ a.last ∨ p ∈ b.last :=
  Std.ExtTreeSet.mem_union_iff

@[simp] theorem mem_first_cat :
    p ∈ (a.cat b).first ↔ p ∈ a.first ∨ (a.nullable = true ∧ p ∈ b.first) := by
  unfold cat
  cases a.nullable <;> simp [Std.ExtTreeSet.mem_union_iff]

@[simp] theorem mem_last_cat :
    p ∈ (a.cat b).last ↔ (b.nullable = true ∧ p ∈ a.last) ∨ p ∈ b.last := by
  unfold cat
  cases b.nullable <;> simp [Std.ExtTreeSet.mem_union_iff]

@[simp] theorem first_rep {r : Quantifier} : (a.rep r).first = a.first := rfl

/-- A completion depends only on the links and last positions that it can meet. -/
theorem completes_congr (inside : Nat → Prop) (hlast : ∀ p, inside p → (p ∈ f.last ↔ p ∈ g.last))
    (hlink : ∀ p q, inside p → (f.Linked p q ↔ g.Linked p q))
    (hstay : ∀ p q, g.Linked p q → inside q) (hp : inside p) :
    f.Completes p w ↔ g.Completes p w := by
  induction w generalizing p with
  | nil => exact hlast p hp
  | cons q rest ih =>
    rw [Completes, Completes, hlink p q hp]
    exact and_congr_right fun hq => ih (hstay p q hq)

theorem completes_alt_left (ha : a.Within lo mid) (hb : b.Within mid hi) (hp : p < mid) :
    (a.alt b).Completes p w ↔ a.Completes p w := by
  refine completes_congr (· < mid) (fun p hp => ?_) (fun p q hp => ?_)
    (fun p q h => (ha.linked p q h).2.2) hp
  · rw [mem_last_alt, or_iff_left fun h => by have := hb.last p h; omega]
  · rw [linked_alt, or_iff_left fun h => by have := hb.linked p q h; omega]

theorem completes_alt_right (ha : a.Within lo mid) (hb : b.Within mid hi) (hp : mid ≤ p) :
    (a.alt b).Completes p w ↔ b.Completes p w := by
  refine completes_congr (mid ≤ ·) (fun p hp => ?_) (fun p q hp => ?_)
    (fun p q h => (hb.linked p q h).2.1) hp
  · rw [mem_last_alt, or_iff_right fun h => by have := ha.last p h; omega]
  · rw [linked_alt, or_iff_right fun h => by have := ha.linked p q h; omega]

/-- Once the right operand has been entered it is not left again. -/
theorem completes_cat_right (ha : a.Within lo mid) (hb : b.Within mid hi) (hp : mid ≤ p) :
    (a.cat b).Completes p w ↔ b.Completes p w := by
  refine completes_congr (mid ≤ ·) (fun p hp => ?_) (fun p q hp => ?_)
    (fun p q h => (hb.linked p q h).2.1) hp
  · rw [mem_last_cat, or_iff_right fun h => by have := ha.last p h.2; omega]
  · rw [linked_cat, or_iff_right fun h => by have := ha.linked p q h; omega,
      or_iff_left fun h => by have := ha.last p h.1; omega]

theorem completes_cat_left (ha : a.Within lo mid) (hb : b.Within mid hi) (hp : p < mid) :
    (a.cat b).Completes p w ↔ ∃ u v, w = u ++ v ∧ a.Completes p u ∧ v ∈ b.words := by
  induction w generalizing p with
  | nil =>
    rw [Completes, mem_last_cat, or_iff_left fun h => by have := hb.last p h; omega]
    constructor
    · exact fun h => ⟨[], [], rfl, h.2, nil_mem_words.mpr h.1⟩
    · rintro ⟨u, v, huv, hu, hv⟩
      obtain ⟨rfl, rfl⟩ := List.append_eq_nil_iff.mp huv.symm
      exact ⟨nil_mem_words.mp hv, hu⟩
  | cons q rest ih =>
    rw [Completes, linked_cat]
    constructor
    · rintro ⟨h | h | ⟨hlast, hfirst⟩, hrest⟩
      · obtain ⟨u, v, rfl, hu, hv⟩ := (ih (ha.linked p q h).2.2).mp hrest
        exact ⟨q :: u, v, rfl, ⟨h, hu⟩, hv⟩
      · have := hb.linked p q h
        omega
      · rw [completes_cat_right ha hb (hb.first q hfirst).1] at hrest
        exact ⟨[], q :: rest, rfl, hlast, cons_mem_words.mpr ⟨hfirst, hrest⟩⟩
    · rintro ⟨_ | ⟨r, u⟩, v, huv, hu, hv⟩
      · obtain rfl : q :: rest = v := huv
        rw [cons_mem_words] at hv
        exact ⟨.inr (.inr ⟨hu, hv.1⟩), (completes_cat_right ha hb (hb.first q hv.1).1).mpr hv.2⟩
      · obtain ⟨rfl, rfl⟩ := List.cons.inj huv
        exact ⟨.inl hu.1, (ih (ha.linked p q hu.1).2.2).mpr ⟨u, v, rfl, hu.2, hv⟩⟩

theorem Completes.rep {r : Quantifier} (h : a.Completes p w) : (a.rep r).Completes p w := by
  induction w generalizing p with
  | nil => exact h
  | cons q rest ih => exact ⟨linked_rep.mpr (.inl h.1), ih h.2⟩

/-- Behind a position of a loop comes the rest of one word of the body and then any number of
words that are not empty. -/
theorem completes_rep {r : Quantifier} (hr : r.loops = true) :
    (a.rep r).Completes p w ↔ ∃ u parts, w = u ++ List.flatten parts ∧ a.Completes p u ∧
      ∀ v ∈ parts, v ∈ a.words ∧ v ≠ [] := by
  constructor
  · -- The word is cut before each link that closes the loop.
    intro h
    induction w generalizing p with
    | nil => exact ⟨[], [], rfl, h, by simp⟩
    | cons q rest ih =>
      obtain ⟨hlink, hrest⟩ := h
      obtain ⟨u, parts, rfl, hu, hparts⟩ := ih hrest
      rcases linked_rep.mp hlink with hpq | ⟨-, hlast, hfirst⟩
      · exact ⟨q :: u, parts, rfl, ⟨hpq, hu⟩, hparts⟩
      · refine ⟨[], (q :: u) :: parts, rfl, hlast, ?_⟩
        rw [List.forall_mem_cons]
        exact ⟨⟨cons_mem_words.mpr ⟨hfirst, hu⟩, List.cons_ne_nil q u⟩, hparts⟩
  · -- The inner induction reads the rest of the open word, the outer one the words behind it.
    rintro ⟨u, parts, rfl, hu, hparts⟩
    induction parts generalizing p u with
    | nil =>
      rw [List.flatten_nil, List.append_nil]
      exact hu.rep
    | cons part parts ih =>
      rw [List.forall_mem_cons] at hparts
      induction u generalizing p with
      | nil =>
        obtain ⟨q, part, rfl⟩ := List.exists_cons_of_ne_nil hparts.1.2
        have hq := cons_mem_words.mp hparts.1.1
        exact ⟨linked_rep.mpr (.inr ⟨hr, hu, hq.1⟩), ih part hq.2 hparts.2⟩
      | cons q u ihu => exact ⟨linked_rep.mpr (.inl hu.1), ihu hu.2⟩

theorem words_alt (ha : a.Within lo mid) (hb : b.Within mid hi) :
    (a.alt b).words = a.words + b.words := by
  refine words_ext ?_ fun p w => ?_
  · rw [Language.mem_add, nil_mem_words, nil_mem_words]
    exact Bool.or_eq_true_iff
  · rw [Language.mem_add, cons_mem_words, cons_mem_words, mem_first_alt, or_and_right]
    refine or_congr (and_congr_right fun hp => ?_) (and_congr_right fun hp => ?_)
    · exact completes_alt_left ha hb (ha.first p hp).2
    · exact completes_alt_right ha hb (hb.first p hp).1

theorem words_cat (ha : a.Within lo mid) (hb : b.Within mid hi) :
    (a.cat b).words = a.words * b.words := by
  refine words_ext ?_ fun p w => ?_
  · rw [Language.mem_mul]
    constructor
    · intro h
      obtain ⟨hna, hnb⟩ := Bool.and_eq_true_iff.mp h
      exact ⟨[], nil_mem_words.mpr hna, [], nil_mem_words.mpr hnb, rfl⟩
    · rintro ⟨u, hu, v, hv, huv⟩
      obtain ⟨rfl, rfl⟩ := List.append_eq_nil_iff.mp huv
      exact Bool.and_eq_true_iff.mpr ⟨nil_mem_words.mp hu, nil_mem_words.mp hv⟩
  · rw [Language.mem_mul, mem_first_cat]
    constructor
    · rintro ⟨hp | ⟨hna, hp⟩, hw⟩
      · obtain ⟨u, v, rfl, hu, hv⟩ := (completes_cat_left ha hb (ha.first p hp).2).mp hw
        exact ⟨p :: u, cons_mem_words.mpr ⟨hp, hu⟩, v, hv, rfl⟩
      · rw [completes_cat_right ha hb (hb.first p hp).1] at hw
        exact ⟨[], nil_mem_words.mpr hna, p :: w, cons_mem_words.mpr ⟨hp, hw⟩, rfl⟩
    · rintro ⟨_ | ⟨q, u⟩, hu, v, hv, huv⟩
      · obtain rfl : v = p :: w := huv
        rw [cons_mem_words] at hv
        exact ⟨.inr ⟨nil_mem_words.mp hu, hv.1⟩,
          (completes_cat_right ha hb (hb.first p hv.1).1).mpr hv.2⟩
      · obtain ⟨rfl, rfl⟩ := List.cons.inj huv
        rw [cons_mem_words] at hu
        exact ⟨.inl hu.1,
          (completes_cat_left ha hb (ha.first q hu.1).2).mpr ⟨u, v, rfl, hu.2, hv⟩⟩

theorem words_rep_plus : (a.rep .plus).words = Quantifier.plus.words a.words := by
  refine words_ext ?_ fun p w => ?_
  · rw [Quantifier.words_plus]
    exact iff_of_false Bool.false_ne_true fun h => h.2 rfl
  · rw [Quantifier.mem_words_plus, first_rep, completes_rep rfl]
    constructor
    · rintro ⟨hp, u, parts, rfl, hu, hparts⟩
      refine ⟨(p :: u) :: parts, List.cons_ne_nil _ _, ?_, rfl⟩
      rw [List.forall_mem_cons]
      exact ⟨⟨cons_mem_words.mpr ⟨hp, hu⟩, List.cons_ne_nil p u⟩, hparts⟩
    · rintro ⟨_ | ⟨_ | ⟨q, u⟩, parts⟩, hne, hparts, hw⟩
      · exact absurd rfl hne
      · exact absurd rfl (hparts [] List.mem_cons_self).2
      · obtain ⟨rfl, rfl⟩ := List.cons.inj hw
        rw [List.forall_mem_cons, cons_mem_words] at hparts
        exact ⟨hparts.1.1.1, u, parts, rfl, hparts.1.1.2, hparts.2⟩

theorem completes_rep_opt : (a.rep .opt).Completes p w ↔ a.Completes p w := by
  refine completes_congr (fun _ => True) (fun _ _ => Iff.rfl) (fun p q _ => ?_)
    (fun _ _ _ => trivial) trivial
  rw [linked_rep, or_iff_left fun h => Bool.false_ne_true h.1]

theorem words_rep (r : Quantifier) : (a.rep r).words = r.words a.words := by
  cases r with
  | plus => exact words_rep_plus
  | star =>
    rw [Quantifier.words_star, ← words_rep_plus]
    refine words_ext (by simp [rep, Quantifier.nullable, Language.mem_add]) fun p w => ?_
    rw [Language.mem_add, Language.mem_one, or_iff_left (List.cons_ne_nil p w), cons_mem_words,
      completes_rep rfl, completes_rep rfl]
    rfl
  | opt =>
    refine words_ext (by simp [rep, Quantifier.nullable, Quantifier.words, Language.mem_add])
      fun p w => ?_
    rw [Quantifier.words, Language.mem_add, Language.mem_one,
      or_iff_left (List.cons_ne_nil p w), cons_mem_words, completes_rep_opt]
    rfl

theorem within_leaf (l : Leaf) : (leaf p l).Within p (p + 1) where
  first q hq := by
    have := mem_first_leaf.mp hq
    omega
  last q hq := by
    have := mem_last_leaf.mp hq
    omega
  linked q r h := by simp [Linked, leaf] at h

theorem within_empty : empty.Within lo hi where
  first _ hp := absurd hp Std.ExtTreeSet.not_mem_empty
  last _ hp := absurd hp Std.ExtTreeSet.not_mem_empty
  linked _ _ h := by simp [Linked, empty] at h

/-- A fragment lies where its operands lie if it has no positions but theirs. -/
theorem Within.join (ha : a.Within lo mid) (hb : b.Within mid hi) (hlo : lo ≤ mid)
    (hhi : mid ≤ hi) (hfirst : ∀ p ∈ f.first, p ∈ a.first ∨ p ∈ b.first)
    (hlast : ∀ p ∈ f.last, p ∈ a.last ∨ p ∈ b.last)
    (hlinked : ∀ p q, f.Linked p q →
      a.Linked p q ∨ b.Linked p q ∨ (p ∈ a.last ∧ q ∈ b.first)) : f.Within lo hi where
  first p hp := by
    rcases hfirst p hp with h | h
    · have := ha.first p h
      omega
    · have := hb.first p h
      omega
  last p hp := by
    rcases hlast p hp with h | h
    · have := ha.last p h
      omega
    · have := hb.last p h
      omega
  linked p q hpq := by
    rcases hlinked p q hpq with h | h | ⟨hp, hq⟩
    · have := ha.linked p q h
      omega
    · have := hb.linked p q h
      omega
    · have := ha.last p hp
      have := hb.first q hq
      omega

theorem Within.rep {r : Quantifier} (ha : a.Within lo hi) : (a.rep r).Within lo hi where
  first := ha.first
  last := ha.last
  linked p q h := by
    rcases linked_rep.mp h with h | ⟨-, hp, hq⟩
    · exact ha.linked p q h
    · exact ⟨ha.last p hp, ha.first q hq⟩

theorem Completes.within (h : f.Completes p w) (hf : f.Within lo hi) : lo ≤ p ∧ p < hi := by
  cases w with
  | nil => exact hf.last p h
  | cons q rest => exact (hf.linked p q h.1).1

theorem words_leaf (l : Leaf) : (leaf p l).words = l.words p := by
  refine words_ext ?_ fun q w => ?_
  · rw [Leaf.mem_words_iff]
    simp [leaf]
  · rw [Leaf.mem_words_iff]
    cases w with
    | nil =>
      rw [mem_first_leaf, Completes, mem_last_leaf, and_self, List.singleton_inj, eq_comm,
        or_iff_left fun h => List.cons_ne_nil q [] h.1]
    | cons r rest => simp [leaf, Completes, Linked]

end Fragment

end RunGrammar
