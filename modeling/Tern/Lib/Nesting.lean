import Mathlib.Logic.Relation

/-! Blocks of addresses carved out of each other. Every block but the first has
an earlier block as parent and lies inside it, and blocks with the same parent
do not overlap; then any two blocks are apart or one is an ancestor of the
other. `Allocated` is the invariant of allocation with a watermark for every
block: children end below it, and new children are carved out above it. -/

namespace Tern.Lib

/-- Block `i` is the interval of `size i` addresses from `start i` on. -/
structure Blocks where
  start : Nat → Nat
  size : Nat → Nat
  parent : Nat → Option Nat

namespace Blocks

variable (B : Blocks)

def Apart (i j : Nat) : Prop :=
  B.start i + B.size i ≤ B.start j ∨ B.start j + B.size j ≤ B.start i

/-- Block `j` was carved out of `i`, out of a block carved out of `i`, and so on. -/
def Ancestor (i j : Nat) : Prop := Relation.TransGen (fun p i => B.parent i = some p) i j

/-- Among the first `n` blocks, all but the first have an earlier parent. -/
structure Rooted (n : Nat) : Prop where
  parent : ∀ i < n, 0 < i → ∃ p < i, B.parent i = some p
  root : B.parent 0 = none

/-- The first `n` blocks are nested. -/
structure Nested (n : Nat) : Prop extends B.Rooted n where
  inside : ∀ i < n, ∀ p, B.parent i = some p →
    B.start p ≤ B.start i ∧ B.start i + B.size i ≤ B.start p + B.size p
  siblings : ∀ i j p, i < j → j < n → B.parent i = some p → B.parent j = some p → B.Apart i j

variable {B} {n i j p : Nat}

theorem Apart.symm (h : B.Apart i j) : B.Apart j i := Or.symm h

theorem Rooted.parent_lt (h : B.Rooted n) (hi : i < n) (hp : B.parent i = some p) : p < i := by
  have hpos : 0 < i := by
    rcases Nat.eq_zero_or_pos i with rfl | hpos
    · rw [h.root] at hp
      cases hp
    · exact hpos
  obtain ⟨q, hq, hiq⟩ := h.parent i hi hpos
  rw [hiq] at hp
  cases hp
  exact hq

/-- A descendant comes later and lies inside. -/
theorem Nested.descendant (h : B.Nested n) {a b : Nat} (hb : b < n)
    (hab : Relation.ReflTransGen (fun p i => B.parent i = some p) a b) :
    a ≤ b ∧ B.start a ≤ B.start b ∧ B.start b + B.size b ≤ B.start a + B.size a := by
  induction hab with
  | refl => exact ⟨Nat.le_refl _, Nat.le_refl _, Nat.le_refl _⟩
  | @tail b c _ hbc ih =>
    have hlt := h.parent_lt hb hbc
    obtain ⟨h1, h2, h3⟩ := ih (by omega)
    obtain ⟨h4, h5⟩ := h.inside c hb b hbc
    exact ⟨by omega, by omega, by omega⟩

/-- What is apart from the parent is apart from the child. -/
theorem Nested.apart_child (h : B.Nested n) (hj : j < n) (hp : B.parent j = some p)
    (hip : B.Apart i p) : B.Apart i j := by
  obtain ⟨h1, h2⟩ := h.inside j hj p hp
  unfold Apart at *
  omega

/-- An earlier descendant of the parent is apart from a later child. -/
theorem Nested.apart_cousin (h : B.Nested n) (hij : i < j) (hj : j < n)
    (hp : B.parent j = some p) (hpi : B.Ancestor p i) : B.Apart i j := by
  obtain ⟨q, hq, hqi⟩ := Relation.TransGen.head'_iff.mp hpi
  obtain ⟨h1, h2, h3⟩ := h.descendant (by omega) hqi
  have hapart := h.siblings q j p (by omega) hj hq hp
  unfold Apart at *
  omega

theorem Nested.apart_or_ancestor_of_lt (h : B.Nested n) (hij : i < j) (hj : j < n) :
    B.Apart i j ∨ B.Ancestor i j := by
  induction j using Nat.strongRecOn generalizing i with
  | ind j ih =>
    obtain ⟨p, hpj, hp⟩ := h.parent j hj (by omega)
    rcases Nat.lt_trichotomy i p with hip | rfl | hip
    · rcases ih p hpj hip (by omega) with hapart | hanc
      · exact .inl (h.apart_child hj hp hapart)
      · exact .inr (.tail hanc hp)
    · exact .inr (.single hp)
    · rcases ih i hij hip (by omega) with hapart | hanc
      · exact .inl (h.apart_child hj hp hapart.symm)
      · exact .inl (h.apart_cousin hij hj hp hanc)

/-- Two of the nested blocks are apart unless one is carved out of the other. -/
theorem Nested.apart_or_ancestor (h : B.Nested n) (hi : i < n) (hj : j < n) (hne : i ≠ j) :
    B.Apart i j ∨ B.Ancestor i j ∨ B.Ancestor j i := by
  rcases Nat.lt_or_gt_of_ne hne with hij | hij
  · exact (h.apart_or_ancestor_of_lt hij hj).imp_right .inl
  · exact (h.apart_or_ancestor_of_lt hij hi).imp .symm .inr

/-! ## Allocation with watermarks -/

/-- The children of a block end below its watermark `top`. -/
structure Allocated (B : Blocks) (top : Nat → Nat) (n : Nat) : Prop extends B.Rooted n where
  inside : ∀ i < n, ∀ p, B.parent i = some p →
    B.start p ≤ B.start i ∧ B.start i + B.size i ≤ B.start p + top p
  top_le : ∀ p < n, top p ≤ B.size p
  top_new : ∀ i, n ≤ i → top i = 0
  siblings : ∀ i j p, i < j → j < n → B.parent i = some p → B.parent j = some p → B.Apart i j

/-- `B'` has `num` blocks more than `B`: they have the given size and lie side by
side in block `p`, from its offset `off` on. -/
structure Carves (B B' : Blocks) (n p off size num : Nat) : Prop where
  old : ∀ i < n, B'.start i = B.start i ∧ B'.size i = B.size i ∧ B'.parent i = B.parent i
  new : ∀ k < num, B'.start (n + k) = B.start p + off + k * size ∧ B'.size (n + k) = size ∧
    B'.parent (n + k) = some p

theorem Allocated.nested {top : Nat → Nat} (h : B.Allocated top n) : B.Nested n where
  toRooted := h.toRooted
  inside i hi p hp := by
    have hlt := h.parent_lt hi hp
    have htop := h.top_le p (by omega)
    obtain ⟨h1, h2⟩ := h.inside i hi p hp
    exact ⟨h1, by omega⟩
  siblings := h.siblings

section

variable {B' : Blocks} {top top' : Nat → Nat} {off size num : Nat}

theorem Carves.place (_ : B.Carves B' n p off size num) (hi : i < n + num) :
    i < n ∨ ∃ k < num, i = n + k := by
  rcases Nat.lt_or_ge i n with hlt | hge
  · exact .inl hlt
  · exact .inr ⟨i - n, by omega, by omega⟩

theorem Carves.apart_new (h : B.Carves B' n p off size num) {k l : Nat} (hkl : k < l)
    (hl : l < num) : B'.Apart (n + k) (n + l) := by
  obtain ⟨h1, h2, -⟩ := h.new k (by omega)
  obtain ⟨h3, -, -⟩ := h.new l hl
  have hmul : (k + 1) * size ≤ l * size := Nat.mul_le_mul_right _ hkl
  rw [Nat.succ_mul] at hmul
  exact .inl (by omega)

/-- Carving blocks out above the watermark and moving it behind them keeps the
invariant. -/
theorem Allocated.carve (h : B.Allocated top n) (hc : B.Carves B' n p off size num) (hp : p < n)
    (htop : top p ≤ off) (hend : off + num * size ≤ B.size p)
    (htop' : ∀ i, top' i = if i = p then max (top p) (off + num * size) else top i) :
    B'.Allocated top' (n + num) := by
  have hgrow : ∀ i, top i ≤ top' i := by
    intro i
    rw [htop']
    split
    · rename_i hip
      rw [hip]
      exact Nat.le_max_left ..
    · exact Nat.le_refl _
  have hlast : off + num * size ≤ top' p := by
    rw [htop', if_pos rfl]
    exact Nat.le_max_right ..
  refine ⟨⟨?_, ?_⟩, ?_, ?_, ?_, ?_⟩
  · intro i hi hpos
    rcases hc.place hi with hi | ⟨k, hk, rfl⟩
    · rw [(hc.old i hi).2.2]
      exact h.parent i hi hpos
    · exact ⟨p, by omega, (hc.new k hk).2.2⟩
  · exact (hc.old 0 (by omega)).2.2.trans h.root
  · intro i hi q hq
    rcases hc.place hi with hi | ⟨k, hk, rfl⟩
    · obtain ⟨h1, h2, h3⟩ := hc.old i hi
      rw [h3] at hq
      have hqi := h.parent_lt hi hq
      obtain ⟨h4, h5⟩ := h.inside i hi q hq
      have := hgrow q
      rw [h1, h2, (hc.old q (by omega)).1]
      exact ⟨h4, by omega⟩
    · obtain ⟨h1, h2, h3⟩ := hc.new k hk
      rw [h3] at hq
      cases hq
      have hmul : (k + 1) * size ≤ num * size := Nat.mul_le_mul_right _ hk
      rw [Nat.succ_mul] at hmul
      rw [h1, h2, (hc.old p hp).1]
      exact ⟨by omega, by omega⟩
  · intro i hi
    rw [htop']
    rcases hc.place hi with hi | ⟨k, hk, rfl⟩
    · rw [(hc.old i hi).2.1]
      split
      · rename_i hip
        subst hip
        exact Nat.max_le.mpr ⟨h.top_le i hi, hend⟩
      · exact h.top_le i hi
    · rw [if_neg (by omega), h.top_new _ (by omega)]
      exact Nat.zero_le _
  · intro i hi
    rw [htop', if_neg (by omega)]
    exact h.top_new i (by omega)
  · intro i j q hij hj hqi hqj
    rcases hc.place hj with hj | ⟨l, hl, rfl⟩
    · obtain ⟨h1, h2, h3⟩ := hc.old i (by omega)
      obtain ⟨h4, h5, h6⟩ := hc.old j hj
      have hapart := h.siblings i j q hij hj (h3 ▸ hqi) (h6 ▸ hqj)
      unfold Apart at hapart ⊢
      rw [h1, h2, h4, h5]
      exact hapart
    · rcases hc.place (i := i) (by omega) with hi | ⟨k, hk, rfl⟩
      · -- an old child of `p` ends below the old watermark
        obtain ⟨h1, h2, h3⟩ := hc.old i hi
        obtain ⟨h4, -, h6⟩ := hc.new l hl
        rw [h6] at hqj
        cases hqj
        have := (h.inside i hi p (h3 ▸ hqi)).2
        exact .inl (by omega)
      · exact hc.apart_new (by omega) hl

end

end Blocks

end Tern.Lib
