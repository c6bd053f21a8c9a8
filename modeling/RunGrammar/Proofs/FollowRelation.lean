import RunGrammar.Proofs.Discovery

/-! What the walk over the leaves computes, said by words. Every position lies on a whole word: it
can be read up to from a first position and on from there to a last one. So a position is a first or
a last one, or follows another, exactly if some word of the expression over the numbers of its
leaves begins, ends or goes on that way. -/
namespace RunGrammar

variable {p q base : Nat} {w : List Nat} {e : Expr}

namespace Fragment

variable {f : Fragment}

theorem Completes.of_append {u : List Nat} (h : f.Completes p (u ++ q :: w)) : f.Completes q w := by
  induction u generalizing p with
  | nil => exact h.2
  | cons r u ih => exact ih h.2

theorem completes_of_append_mem_words {u : List Nat} (h : u ++ p :: w ∈ f.words) :
    f.Completes p w := by
  cases u with
  | nil => exact (cons_mem_words.mp h).2
  | cons r u => exact (cons_mem_words.mp h).2.of_append

/-- Every position can be read up to, whatever is read behind it. -/
theorem exists_append_mem_words (he : e.Closed) (hlo : base ≤ p)
    (hhi : p < base + e.leaves.length) :
    ∃ u, ∀ w, (ofExpr base e).Completes p w → u ++ p :: w ∈ (ofExpr base e).words := by
  induction e generalizing base p with
  | lit _ | tag _ | endMark =>
    have hp : base = p := by
      rw [Expr.leaves, List.length_singleton] at hhi
      omega
    exact ⟨[], fun w hw => cons_mem_words.mpr ⟨mem_first_leaf.mpr hp, hw⟩⟩
  | ref _ => cases he
  | alt x y ihx ihy =>
    obtain ⟨hx, hy⟩ := Expr.closed_alt.mp he
    have ha := within_ofExpr base x
    have hb := within_ofExpr (base + x.leaves.length) y
    rw [Expr.leaves, List.length_append, ← Nat.add_assoc] at hhi
    rw [ofExpr_alt, words_alt ha hb]
    by_cases hmid : p < base + x.leaves.length
    · obtain ⟨u, hu⟩ := ihx hx hlo hmid
      exact ⟨u, fun w hw => .inl (hu w ((completes_alt_left ha hb hmid).mp hw))⟩
    · obtain ⟨u, hu⟩ := ihy hy (Nat.le_of_not_lt hmid) hhi
      exact ⟨u, fun w hw =>
        .inr (hu w ((completes_alt_right ha hb (Nat.le_of_not_lt hmid)).mp hw))⟩
  | cat x y ihx ihy =>
    obtain ⟨hx, hy⟩ := Expr.closed_cat.mp he
    have ha := within_ofExpr base x
    have hb := within_ofExpr (base + x.leaves.length) y
    rw [Expr.leaves, List.length_append, ← Nat.add_assoc] at hhi
    rw [ofExpr_cat, words_cat ha hb]
    by_cases hmid : p < base + x.leaves.length
    · obtain ⟨u, hu⟩ := ihx hx hlo hmid
      refine ⟨u, fun w hw => ?_⟩
      obtain ⟨inner, outer, rfl, hinner, houter⟩ := (completes_cat_left ha hb hmid).mp hw
      exact ⟨u ++ p :: inner, hu inner hinner, outer, houter, by simp⟩
    · -- Some word of the left operand comes before what is read in the right one.
      obtain ⟨r, hr⟩ := exists_mem_first hx base
      obtain ⟨hrlo, hrhi⟩ := ha.first r hr
      obtain ⟨v, hv⟩ := exists_completes hx hrlo hrhi
      obtain ⟨u, hu⟩ := ihy hy (Nat.le_of_not_lt hmid) hhi
      refine ⟨r :: v ++ u, fun w hw => ?_⟩
      rw [List.append_assoc]
      exact ⟨r :: v, cons_mem_words.mpr ⟨hr, hv⟩, u ++ p :: w,
        hu w ((completes_cat_right ha hb (Nat.le_of_not_lt hmid)).mp hw), rfl⟩
  | rep e r ih =>
    obtain ⟨u, hu⟩ := ih he hlo hhi
    refine ⟨u, fun w hw => ?_⟩
    have hplus (hr : r.loops = true) : u ++ p :: w ∈ Quantifier.plus.words (ofExpr base e).words := by
      obtain ⟨inner, parts, rfl, hinner, hparts⟩ := (completes_rep hr).mp hw
      refine ⟨(u ++ p :: inner) :: parts, List.cons_ne_nil _ _, ?_, by simp⟩
      exact List.forall_mem_cons.mpr
        ⟨⟨hu inner hinner, List.append_ne_nil_of_right_ne_nil u (List.cons_ne_nil p inner)⟩, hparts⟩
    rw [ofExpr, words_rep]
    cases r with
    | plus => exact hplus rfl
    | star =>
      rw [Quantifier.words_star]
      exact .inl (hplus rfl)
    | opt => exact .inl (hu w (completes_rep_opt.mp hw))

/-- What is read up to a position and on from there is a whole word. -/
theorem exists_append_mem_words_of_completes (he : e.Closed)
    (h : (ofExpr base e).Completes p w) : ∃ u, u ++ p :: w ∈ e.numbered base := by
  obtain ⟨hlo, hhi⟩ := h.within (within_ofExpr base e)
  obtain ⟨u, hu⟩ := exists_append_mem_words he hlo hhi
  exact ⟨u, words_ofExpr base e ▸ hu w h⟩

theorem mem_first_ofExpr_iff (he : e.Closed) :
    p ∈ (ofExpr base e).first ↔ ∃ w, p :: w ∈ e.numbered base := by
  rw [← words_ofExpr]
  constructor
  · intro hp
    obtain ⟨hlo, hhi⟩ := (within_ofExpr base e).first p hp
    obtain ⟨w, hw⟩ := exists_completes he hlo hhi
    exact ⟨w, cons_mem_words.mpr ⟨hp, hw⟩⟩
  · rintro ⟨w, hw⟩
    exact (cons_mem_words.mp hw).1

theorem mem_last_ofExpr_iff (he : e.Closed) :
    p ∈ (ofExpr base e).last ↔ ∃ u, u ++ [p] ∈ e.numbered base := by
  constructor
  · intro hp
    have hend : (ofExpr base e).Completes p [] := hp
    exact exists_append_mem_words_of_completes he hend
  · rintro ⟨u, hu⟩
    rw [← words_ofExpr] at hu
    exact completes_of_append_mem_words hu

theorem linked_ofExpr_iff (he : e.Closed) :
    (ofExpr base e).Linked p q ↔ ∃ u v, u ++ p :: q :: v ∈ e.numbered base := by
  constructor
  · intro hpq
    obtain ⟨-, hlo, hhi⟩ := (within_ofExpr base e).linked p q hpq
    obtain ⟨v, hv⟩ := exists_completes he hlo hhi
    have hboth : (ofExpr base e).Completes p (q :: v) := ⟨hpq, hv⟩
    obtain ⟨u, hu⟩ := exists_append_mem_words_of_completes he hboth
    exact ⟨u, v, hu⟩
  · rintro ⟨u, v, huv⟩
    rw [← words_ofExpr] at huv
    exact (completes_of_append_mem_words huv).1

/-- The table of an expression holds exactly the links. -/
theorem follows_follow_ofExpr :
    Follows (ofExpr base e).follow p q ↔ p < e.leaves.length ∧ (ofExpr base e).Linked p q := by
  rw [follows_follow, size_leaves_ofExpr]
  rfl

end Fragment

/-- The walk numbers the leaves from left to right, one position for each, as long as there are
numbers, and tells of every position whether a word over these numbers can begin with it or end
with it, and of every two positions whether the one can come right behind the other. -/
theorem Positions.ofExpr_numbered {alphabet : Nat} (he : e.Closed)
    (hs : ∀ s, Leaf.symbol s ∈ e.leaves → s.toNat < alphabet) :
    ∃ ps : Positions,
      Positions.ofExpr alphabet e =
        (if e.leaves.length ≤ identifierCount then .ok ps else .error .positionLimit) ∧
      ps.leaves.toList = e.leaves ∧ ps.follow.size = e.leaves.length ∧
      (∀ p, p ∈ ps.first ↔ ∃ w, p :: w ∈ e.numbered 0) ∧
      (∀ p, p ∈ (Fragment.ofExpr 0 e).last ↔ ∃ u, u ++ [p] ∈ e.numbered 0) ∧
      ∀ p q, (∃ set, ps.follow? p = some set ∧ q ∈ set) ↔
        ∃ u v, u ++ p :: q :: v ∈ e.numbered 0 := by
  refine ⟨.ofFragment (.ofExpr 0 e), Positions.ofExpr_of_symbol_lt he hs, ?_, ?_,
    fun p => Fragment.mem_first_ofExpr_iff he, fun p => Fragment.mem_last_ofExpr_iff he,
    fun p q => ?_⟩
  · exact congrArg Array.toList (Fragment.leaves_ofExpr 0 e)
  · exact (Fragment.size_follow _).trans (Fragment.size_leaves_ofExpr 0 e)
  · rw [← Fragment.linked_ofExpr_iff he]
    refine Fragment.follows_follow_ofExpr.trans (and_iff_right_of_imp fun hpq => ?_)
    have := ((Fragment.within_ofExpr 0 e).linked p q hpq).1.2
    omega

/-! In the sample expression the tag stands between the two symbols and may be left out. It ends no
word, and nothing but the first symbol comes right behind the second one. -/

theorem ofExpr_sampleEntry :
    ∃ ps, Positions.ofExpr 2 sampleEntry = .ok ps ∧
      ps.leaves.toList = [.symbol 0, .tag "coda", .symbol 1] ∧
      (∃ w, 0 :: w ∈ sampleEntry.numbered 0) ∧ (¬ ∃ u, u ++ [1] ∈ sampleEntry.numbered 0) ∧
      (∃ u v, u ++ 0 :: 2 :: v ∈ sampleEntry.numbered 0) ∧
      ∀ q, (∃ u v, u ++ 2 :: q :: v ∈ sampleEntry.numbered 0) ↔ q = 0 := by
  have he : sampleEntry.Closed := by decide
  obtain ⟨ps, hps, hleaves, -, hfirst, hlast, hfollow⟩ :=
    Positions.ofExpr_numbered he symbol_lt_of_mem_sampleEntry
  rw [if_pos (by decide)] at hps
  obtain ⟨ps', hps', hzero, htwo, hback⟩ := exists_of_map_decide_eq_ok
    (p := fun ps : Positions => 0 ∈ ps.first ∧ ps.follow? 0 = some {0, 1, 2} ∧
      ps.follow? 2 = some {0})
    (m := Positions.ofExpr 2 sampleEntry) (by decide +kernel)
  obtain rfl : ps = ps' := Except.ok.inj (hps.symm.trans hps')
  refine ⟨ps, hps, hleaves, (hfirst 0).mp hzero, (hlast 1).not.mp (by decide +kernel),
    (hfollow 0 2).mp ⟨_, htwo, by decide +kernel⟩, fun q => ?_⟩
  have hmem : q ∈ ({0} : PositionSet) ↔ 0 = q := by simp
  rw [← hfollow, hback]
  simp only [Option.some.injEq, exists_eq_left', hmem]
  exact eq_comm

end RunGrammar
