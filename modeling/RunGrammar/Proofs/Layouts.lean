import RunGrammar.Proofs.PositionSets

/-! What the positions of an expression say when their numbers are left aside. A layout tells which
leaf stands at a position, where words begin and end, and which positions may follow which. One
layout simulates another if positions are paired so that leaves, beginnings and ends agree and
every link into a paired position has a counterpart. The composition of layouts keeps this, in
whatever order the operands are numbered. -/
namespace RunGrammar

@[ext]
structure Layout where
  nullable : Prop
  leaf : Nat → Leaf → Prop
  first : Nat → Prop
  last : Nat → Prop
  linked : Nat → Nat → Prop
  leaf_of_last : ∀ p, last p → ∃ l, leaf p l
  leaf_of_first : ∀ p, first p → ∃ l, leaf p l
  leaf_of_linked : ∀ p q, linked p q → (∃ l, leaf p l) ∧ ∃ l, leaf q l

namespace Layout

variable {a b c a' b' : Layout} {p q p' q' base : Nat} {l : Leaf} {x y z : Expr}
  {pairs left right : Nat → Nat → Prop}

def Inside (a : Layout) (p : Nat) : Prop := ∃ l, a.leaf p l

def empty : Layout where
  nullable := False
  leaf _ _ := False
  first _ := False
  last _ := False
  linked _ _ := False
  leaf_of_last _ := False.elim
  leaf_of_first _ := False.elim
  leaf_of_linked _ _ := False.elim

def single (p : Nat) (l : Leaf) : Layout where
  nullable := l.nullable = true
  leaf q m := q = p ∧ m = l
  first q := q = p
  last q := q = p
  linked _ _ := False
  leaf_of_last _ h := ⟨l, h, rfl⟩
  leaf_of_first _ h := ⟨l, h, rfl⟩
  leaf_of_linked _ _ := False.elim

def alt (a b : Layout) : Layout where
  nullable := a.nullable ∨ b.nullable
  leaf p l := a.leaf p l ∨ b.leaf p l
  first p := a.first p ∨ b.first p
  last p := a.last p ∨ b.last p
  linked p q := a.linked p q ∨ b.linked p q
  leaf_of_last p h := exists_or.mpr (h.imp (a.leaf_of_last p) (b.leaf_of_last p))
  leaf_of_first p h := exists_or.mpr (h.imp (a.leaf_of_first p) (b.leaf_of_first p))
  leaf_of_linked p q h := by
    rw [exists_or, exists_or]
    exact h.elim (fun h => (a.leaf_of_linked p q h).imp .inl .inl)
      fun h => (b.leaf_of_linked p q h).imp .inr .inr

def cat (a b : Layout) : Layout where
  nullable := a.nullable ∧ b.nullable
  leaf p l := a.leaf p l ∨ b.leaf p l
  first p := a.first p ∨ (a.nullable ∧ b.first p)
  last p := (b.nullable ∧ a.last p) ∨ b.last p
  linked p q := a.linked p q ∨ b.linked p q ∨ (a.last p ∧ b.first q)
  leaf_of_last p h := exists_or.mpr (h.imp (a.leaf_of_last p ·.2) (b.leaf_of_last p))
  leaf_of_first p h := exists_or.mpr (h.imp (a.leaf_of_first p) (b.leaf_of_first p ·.2))
  leaf_of_linked p q h := by
    rw [exists_or, exists_or]
    rcases h with h | h | ⟨hp, hq⟩
    · exact (a.leaf_of_linked p q h).imp .inl .inl
    · exact (b.leaf_of_linked p q h).imp .inr .inr
    · exact ⟨.inl (a.leaf_of_last p hp), .inr (b.leaf_of_first q hq)⟩

def rep (a : Layout) (r : Quantifier) : Layout where
  nullable := r.nullable = true
  leaf := a.leaf
  first := a.first
  last := a.last
  linked p q := a.linked p q ∨ (r.loops = true ∧ a.last p ∧ a.first q)
  leaf_of_last := a.leaf_of_last
  leaf_of_first := a.leaf_of_first
  leaf_of_linked p q h :=
    h.elim (a.leaf_of_linked p q) fun h => ⟨a.leaf_of_last p h.2.1, a.leaf_of_first q h.2.2⟩

/-- The layout of an expression whose first leaf has the position `base`. -/
def ofExpr (base : Nat) : Expr → Layout
  | .lit s => single base (.symbol s)
  | .tag name => single base (.tag name)
  | .endMark => single base .endMark
  | .ref _ => empty
  | .alt x y => (ofExpr base x).alt (ofExpr (base + x.leaves.length) y)
  | .cat x y => (ofExpr base x).cat (ofExpr (base + x.leaves.length) y)
  | .rep e q => (ofExpr base e).rep q

/-! ## The layout of a fragment -/

theorem leaf_ofExpr {e : Expr} :
    (ofExpr base e).leaf p l ↔ ∃ k, e.leaves[k]? = some l ∧ p = base + k := by
  induction e generalizing base with
  | lit _ | tag _ | endMark =>
    constructor
    · rintro ⟨rfl, rfl⟩
      exact ⟨0, rfl, rfl⟩
    · rintro ⟨_ | k, hk, rfl⟩
      · exact ⟨rfl, (Option.some.inj hk).symm⟩
      · cases hk
  | ref _ => simp [ofExpr, empty, Expr.leaves]
  | alt x y ihx ihy | cat x y ihx ihy =>
    change (ofExpr base x).leaf p l ∨ (ofExpr _ y).leaf p l ↔ _
    rw [ihx, ihy, Expr.leaves]
    constructor
    · rintro (⟨k, hk, rfl⟩ | ⟨k, hk, rfl⟩)
      · obtain ⟨hlt, -⟩ := List.getElem?_eq_some_iff.mp hk
        exact ⟨k, by rw [List.getElem?_append_left hlt, hk], rfl⟩
      · refine ⟨x.leaves.length + k, ?_, Nat.add_assoc _ _ _⟩
        rw [List.getElem?_append_right (Nat.le_add_right _ _), Nat.add_sub_cancel_left, hk]
    · rintro ⟨k, hk, rfl⟩
      rw [List.getElem?_append] at hk
      split at hk
      · exact .inl ⟨k, hk, rfl⟩
      · exact .inr ⟨k - x.leaves.length, hk, by omega⟩
  | rep e q ih => exact ih

theorem nullable_ofExpr (e : Expr) :
    (Fragment.ofExpr base e).nullable = true ↔ (ofExpr base e).nullable := by
  induction e generalizing base with
  | lit _ | tag _ | endMark => rfl
  | ref _ => exact iff_of_false Bool.false_ne_true id
  | alt x y ihx ihy =>
    rw [Fragment.ofExpr_alt]
    exact Bool.or_eq_true_iff.trans (or_congr ihx ihy)
  | cat x y ihx ihy =>
    rw [Fragment.ofExpr_cat]
    exact Bool.and_eq_true_iff.trans (and_congr ihx ihy)
  | rep e q _ => rfl

theorem first_ofExpr (e : Expr) :
    p ∈ (Fragment.ofExpr base e).first ↔ (ofExpr base e).first p := by
  induction e generalizing base with
  | lit _ | tag _ | endMark => exact Fragment.mem_first_leaf.trans eq_comm
  | ref _ => exact iff_of_false Std.ExtTreeSet.not_mem_empty id
  | alt x y ihx ihy =>
    rw [Fragment.ofExpr_alt, Fragment.mem_first_alt, ihx, ihy]
    rfl
  | cat x y ihx ihy =>
    rw [Fragment.ofExpr_cat, Fragment.mem_first_cat, ihx, ihy, nullable_ofExpr]
    rfl
  | rep e q ih => exact ih

theorem last_ofExpr (e : Expr) :
    p ∈ (Fragment.ofExpr base e).last ↔ (ofExpr base e).last p := by
  induction e generalizing base with
  | lit _ | tag _ | endMark => exact Fragment.mem_last_leaf.trans eq_comm
  | ref _ => exact iff_of_false Std.ExtTreeSet.not_mem_empty id
  | alt x y ihx ihy =>
    rw [Fragment.ofExpr_alt, Fragment.mem_last_alt, ihx, ihy]
    rfl
  | cat x y ihx ihy =>
    rw [Fragment.ofExpr_cat, Fragment.mem_last_cat, ihx, ihy, nullable_ofExpr]
    rfl
  | rep e q ih => exact ih

theorem linked_ofExpr (e : Expr) :
    (Fragment.ofExpr base e).Linked p q ↔ (ofExpr base e).linked p q := by
  induction e generalizing base with
  | lit _ | tag _ | endMark | ref _ =>
    exact iff_of_false (fun ⟨_, h, _⟩ => List.not_mem_nil h) id
  | alt x y ihx ihy =>
    rw [Fragment.ofExpr_alt, Fragment.linked_alt, ihx, ihy]
    rfl
  | cat x y ihx ihy =>
    rw [Fragment.ofExpr_cat, Fragment.linked_cat, ihx, ihy, last_ofExpr, first_ofExpr]
    rfl
  | rep e q ih =>
    rw [Fragment.ofExpr, Fragment.linked_rep, ih, last_ofExpr, first_ofExpr]
    rfl

/-! ## Laws -/

theorem alt_comm (a b : Layout) : a.alt b = b.alt a := by
  ext <;> exact or_comm

theorem alt_assoc (a b c : Layout) : (a.alt b).alt c = a.alt (b.alt c) := by
  ext <;> exact or_assoc

theorem cat_assoc (a b c : Layout) : (a.cat b).cat c = a.cat (b.cat c) := by
  ext <;> simp only [cat] <;> tauto

theorem ofExpr_alt_assoc : ofExpr base (.alt (.alt x y) z) = ofExpr base (.alt x (.alt y z)) := by
  simp only [ofExpr, Expr.leaves, List.length_append, alt_assoc, Nat.add_assoc]

theorem ofExpr_cat_assoc : ofExpr base (.cat (.cat x y) z) = ofExpr base (.cat x (.cat y z)) := by
  simp only [ofExpr, Expr.leaves, List.length_append, cat_assoc, Nat.add_assoc]

/-! ## Simulations -/

/-- `b` simulates `a` where the positions are paired in this way. -/
structure Simulates (pairs : Nat → Nat → Prop) (a b : Layout) : Prop where
  nullable : a.nullable → b.nullable
  inside : ∀ {p q}, pairs p q → a.Inside p
  total : ∀ {p}, a.Inside p → ∃ q, pairs p q
  leaf : ∀ {p q l}, pairs p q → a.leaf p l → b.leaf q l
  first : ∀ {p q}, pairs p q → a.first p → b.first q
  last : ∀ {p q}, pairs p q → a.last p → b.last q
  /-- A link has a counterpart for every partner of its target. -/
  linked : ∀ {p p' q'}, pairs p' q' → a.linked p p' → ∃ q, pairs p q ∧ b.linked q q'

/-- Whether two layouts have no position in common. -/
def Apart (a b : Layout) : Prop := ∀ p, a.Inside p → ¬ b.Inside p

theorem apart_ofExpr (base : Nat) (x y : Expr) :
    (ofExpr base x).Apart (ofExpr (base + x.leaves.length) y) := by
  rintro p ⟨l, hl⟩ ⟨m, hm⟩
  obtain ⟨k, hk, rfl⟩ := leaf_ofExpr.mp hl
  obtain ⟨j, -, hj⟩ := leaf_ofExpr.mp hm
  obtain ⟨hlt, -⟩ := List.getElem?_eq_some_iff.mp hk
  omega

theorem Apart.symm (h : a.Apart b) : b.Apart a := fun p hb ha => h p ha hb

theorem Simulates.altLeft (h : Simulates pairs a b) (c : Layout) : Simulates pairs a (b.alt c) where
  nullable hn := .inl (h.nullable hn)
  inside := h.inside
  total := h.total
  leaf hpq hl := .inl (h.leaf hpq hl)
  first hpq hp := .inl (h.first hpq hp)
  last hpq hp := .inl (h.last hpq hp)
  linked hpq hl := (h.linked hpq hl).imp fun _ => And.imp_right .inl

theorem Simulates.altRight (h : Simulates pairs a c) (b : Layout) :
    Simulates pairs a (b.alt c) := by
  rw [alt_comm]
  exact h.altLeft b

/-- Simulations of the same layout may be united. -/
theorem Simulates.union (h : Simulates left a b) (h' : Simulates right a b) :
    Simulates (fun p q => left p q ∨ right p q) a b where
  nullable := h.nullable
  inside hpq := hpq.elim h.inside h'.inside
  total hp := (h.total hp).imp fun _ => .inl
  leaf hpq := hpq.elim h.leaf h'.leaf
  first hpq := hpq.elim h.first h'.first
  last hpq := hpq.elim h.last h'.last
  linked hpq hl := by
    rcases hpq with hpq | hpq
    · exact (h.linked hpq hl).imp fun _ => And.imp_left .inl
    · exact (h'.linked hpq hl).imp fun _ => And.imp_left .inr

/-- A position of the left layout is paired as the left pairs say. -/
theorem Apart.pairLeft (hab : a.Apart b) (hb : Simulates right b b') (hpq : left p q ∨ right p q)
    (hp : a.Inside p) : left p q :=
  hpq.resolve_right fun h => hab p hp (hb.inside h)

theorem Apart.pairRight (hab : a.Apart b) (ha : Simulates left a a') (hpq : left p q ∨ right p q)
    (hp : b.Inside p) : right p q :=
  hpq.resolve_left fun h => hab p (ha.inside h) hp

/-- Simulations of two layouts by one layout simulate the choice between them. -/
theorem Simulates.join (ha : Simulates left a c) (hb : Simulates right b c) (hab : a.Apart b) :
    Simulates (fun p q => left p q ∨ right p q) (a.alt b) c where
  nullable hn := hn.elim ha.nullable hb.nullable
  inside hpq := exists_or.mpr (hpq.imp ha.inside hb.inside)
  total hp := by
    rcases exists_or.mp hp with hp | hp
    · exact (ha.total hp).imp fun _ => .inl
    · exact (hb.total hp).imp fun _ => .inr
  leaf := by
    rintro p q l hpq (hl | hl)
    · exact ha.leaf (hab.pairLeft hb hpq ⟨l, hl⟩) hl
    · exact hb.leaf (hab.pairRight ha hpq ⟨l, hl⟩) hl
  first := by
    rintro p q hpq (hp | hp)
    · exact ha.first (hab.pairLeft hb hpq (a.leaf_of_first p hp)) hp
    · exact hb.first (hab.pairRight ha hpq (b.leaf_of_first p hp)) hp
  last := by
    rintro p q hpq (hp | hp)
    · exact ha.last (hab.pairLeft hb hpq (a.leaf_of_last p hp)) hp
    · exact hb.last (hab.pairRight ha hpq (b.leaf_of_last p hp)) hp
  linked := by
    rintro p p' q' hpq (hl | hl)
    · obtain ⟨q, hq, hl'⟩ := ha.linked (hab.pairLeft hb hpq (a.leaf_of_linked p p' hl).2) hl
      exact ⟨q, .inl hq, hl'⟩
    · obtain ⟨q, hq, hl'⟩ := hb.linked (hab.pairRight ha hpq (b.leaf_of_linked p p' hl).2) hl
      exact ⟨q, .inr hq, hl'⟩

theorem Simulates.alt (ha : Simulates left a a') (hb : Simulates right b b') (hab : a.Apart b) :
    Simulates (fun p q => left p q ∨ right p q) (a.alt b) (a'.alt b') :=
  (ha.altLeft b').join (hb.altRight a') hab

theorem Simulates.cat (ha : Simulates left a a') (hb : Simulates right b b') (hab : a.Apart b) :
    Simulates (fun p q => left p q ∨ right p q) (a.cat b) (a'.cat b') where
  nullable := And.imp ha.nullable hb.nullable
  inside := (ha.alt hb hab).inside
  total := (ha.alt hb hab).total
  leaf := (ha.alt hb hab).leaf
  first := by
    rintro p q hpq (hp | ⟨hn, hp⟩)
    · exact .inl (ha.first (hab.pairLeft hb hpq (a.leaf_of_first p hp)) hp)
    · exact .inr ⟨ha.nullable hn, hb.first (hab.pairRight ha hpq (b.leaf_of_first p hp)) hp⟩
  last := by
    rintro p q hpq (⟨hn, hp⟩ | hp)
    · exact .inl ⟨hb.nullable hn, ha.last (hab.pairLeft hb hpq (a.leaf_of_last p hp)) hp⟩
    · exact .inr (hb.last (hab.pairRight ha hpq (b.leaf_of_last p hp)) hp)
  linked := by
    rintro p p' q' hpq (hl | hl | ⟨hp, hp'⟩)
    · obtain ⟨q, hq, hl'⟩ := (ha.alt hb hab).linked hpq (.inl hl)
      exact ⟨q, hq, hl'.imp_right .inl⟩
    · obtain ⟨q, hq, hl'⟩ := (ha.alt hb hab).linked hpq (.inr hl)
      exact ⟨q, hq, hl'.imp_right .inl⟩
    · -- Any partner of the left end of the link will do.
      obtain ⟨q, hq⟩ := ha.total (a.leaf_of_last p hp)
      have hp'q' := hab.pairRight ha hpq (b.leaf_of_first p' hp')
      exact ⟨q, .inl hq, .inr (.inr ⟨ha.last hq hp, hb.first hp'q' hp'⟩)⟩

theorem Simulates.rep (h : Simulates pairs a b) (r : Quantifier) :
    Simulates pairs (a.rep r) (b.rep r) where
  nullable := id
  inside := h.inside
  total := h.total
  leaf := h.leaf
  first := h.first
  last := h.last
  linked := by
    rintro p p' q' hpq (hl | ⟨hr, hp, hp'⟩)
    · exact (h.linked hpq hl).imp fun _ => And.imp_right .inl
    · obtain ⟨q, hq⟩ := h.total (a.leaf_of_last p hp)
      exact ⟨q, hq, .inr ⟨hr, h.last hq hp, h.first hpq hp'⟩⟩

theorem Simulates.single (hpairs : ∀ p' q', pairs p' q' ↔ p' = p ∧ q' = q) (l : Leaf) :
    Simulates pairs (single p l) (single q l) where
  nullable := id
  inside hpq := ⟨l, ((hpairs _ _).mp hpq).1, rfl⟩
  total := by
    rintro p' ⟨m, hp, rfl⟩
    exact ⟨q, (hpairs _ _).mpr ⟨hp, rfl⟩⟩
  leaf hpq hl := ⟨((hpairs _ _).mp hpq).2, hl.2⟩
  first hpq _ := ((hpairs _ _).mp hpq).2
  last hpq _ := ((hpairs _ _).mp hpq).2
  linked _ hl := hl.elim

theorem Simulates.empty : Simulates (fun _ _ => False) empty empty where
  nullable := id
  inside := False.elim
  total := by
    rintro p ⟨l, hl⟩
    exact hl.elim
  leaf := False.elim
  first := False.elim
  last := False.elim
  linked := False.elim

/-- Whether two layouts simulate each other with the same pairs. -/
structure Bisimulates (pairs : Nat → Nat → Prop) (a b : Layout) : Prop where
  forth : Simulates pairs a b
  back : Simulates (fun q p => pairs p q) b a

theorem Bisimulates.flip (h : Bisimulates pairs a b) : Bisimulates (fun q p => pairs p q) b a :=
  ⟨h.back, h.forth⟩

theorem Bisimulates.alt (ha : Bisimulates left a a') (hb : Bisimulates right b b')
    (hab : a.Apart b) (hab' : a'.Apart b') :
    Bisimulates (fun p q => left p q ∨ right p q) (a.alt b) (a'.alt b') :=
  ⟨ha.forth.alt hb.forth hab, ha.back.alt hb.back hab'⟩

theorem Bisimulates.altSwap (ha : Bisimulates left a a') (hb : Bisimulates right b b')
    (hab : a.Apart b) (hba : b'.Apart a') :
    Bisimulates (fun p q => left p q ∨ right p q) (a.alt b) (b'.alt a') := by
  rw [alt_comm b' a']
  exact ha.alt hb hab hba.symm

theorem Bisimulates.cat (ha : Bisimulates left a a') (hb : Bisimulates right b b')
    (hab : a.Apart b) (hab' : a'.Apart b') :
    Bisimulates (fun p q => left p q ∨ right p q) (a.cat b) (a'.cat b') :=
  ⟨ha.forth.cat hb.forth hab, ha.back.cat hb.back hab'⟩

theorem Bisimulates.rep (h : Bisimulates pairs a b) (r : Quantifier) :
    Bisimulates pairs (a.rep r) (b.rep r) :=
  ⟨h.forth.rep r, h.back.rep r⟩

/-- A position is paired with its two copies. -/
theorem Bisimulates.double (hb : Bisimulates left a b) (hb' : Bisimulates right a b')
    (hapart : b.Apart b') : Bisimulates (fun p q => left p q ∨ right p q) a (b.alt b') :=
  ⟨(hb.forth.altLeft b').union (hb'.forth.altRight b), hb.back.join hb'.back hapart⟩

end Layout

end RunGrammar
