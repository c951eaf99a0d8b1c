import Mathlib.Data.List.Nodup
import Mathlib.Logic.Equiv.Basic

/-! Two scans that meet. The left one goes up over values not above a pivot value and the
right one down over values not below it; where both stop, the two values are swapped. The
invariant is `Parted`, with one rule for each move. What is left when the scans have met
are two parts to be sorted on their own, and in between values equivalent to the pivot. -/

namespace Tern.Lib

variable {α : Type} {le : α → α → Prop} {v : Nat → α} {x : α} {n l r : Nat}

/-- Of the first `n` values, those below `l` are not above `x`, and those behind `r` are not
below it. -/
structure Parted (le : α → α → Prop) (x : α) (v : Nat → α) (n l r : Nat) : Prop where
  low : ∀ k < l, le (v k) x
  high : ∀ k, r < k → k < n → le x (v k)

namespace Parted

theorem start (le : α → α → Prop) (x : α) (v : Nat → α) (n : Nat) : Parted le x v n 0 (n - 1) where
  low k hk := absurd hk (Nat.not_lt_zero k)
  high k hk hn := by omega

theorem left (h : Parted le x v n l r) (hl : le (v l) x) : Parted le x v n (l + 1) r where
  low k hk := by
    rcases Nat.lt_succ_iff_lt_or_eq.mp hk with hk | rfl
    · exact h.low k hk
    · exact hl
  high := h.high

theorem right (h : Parted le x v n l (r + 1)) (hr : le x (v (r + 1))) : Parted le x v n l r where
  low := h.low
  high k hk hn := by
    rcases Nat.lt_or_eq_of_le hk with hk | rfl
    · exact h.high k hk hn
    · exact hr

theorem congr {v' : Nat → α} (h : Parted le x v n l r) (hl : l ≤ n) (hv : ∀ k < n, v' k = v k) :
    Parted le x v' n l r where
  low k hk := by
    rw [hv k (Nat.lt_of_lt_of_le hk hl)]
    exact h.low k hk
  high k hk hn := by
    rw [hv k hn]
    exact h.high k hk hn

/-- Both scans have stopped, and their values change places. -/
theorem swap (h : Parted le x v n l r) (hlr : l ≤ r) (hl : le x (v l)) (hr : le (v r) x) :
    Parted le x (v ∘ Equiv.swap l r) n (l + 1) (r - 1) where
  low k hk := by
    rcases Nat.lt_succ_iff_lt_or_eq.mp hk with hk | rfl
    · rw [Function.comp_apply, Equiv.swap_apply_of_ne_of_ne (Nat.ne_of_lt hk) (by omega)]
      exact h.low k hk
    · rw [Function.comp_apply, Equiv.swap_apply_left]
      exact hr
  high k hk hn := by
    rcases Nat.lt_or_eq_of_le (show r ≤ k by omega) with hk | rfl
    · rw [Function.comp_apply, Equiv.swap_apply_of_ne_of_ne (by omega) (Nat.ne_of_gt hk)]
      exact h.high k hk hn
    · rw [Function.comp_apply, Equiv.swap_apply_right]
      exact hl

end Parted

/-- A swap inside the first `n` values permutes them. -/
theorem map_swap_perm (v : Nat → α) (hl : l < n) (hr : r < n) :
    ((List.range n).map (v ∘ Equiv.swap l r)).Perm ((List.range n).map v) := by
  rw [← List.map_map]
  refine List.Perm.map v ((List.perm_ext_iff_of_nodup
    (List.nodup_range.map (Equiv.swap l r).injective) List.nodup_range).mpr fun k => ?_)
  rw [List.mem_map]
  constructor
  · rintro ⟨i, hi, rfl⟩
    rw [List.mem_range] at hi ⊢
    rw [Equiv.swap_apply_def]
    split_ifs <;> assumption
  · intro hk
    refine ⟨Equiv.swap l r k, ?_, Equiv.swap_apply_self l r k⟩
    rw [List.mem_range] at hk ⊢
    rw [Equiv.swap_apply_def]
    split_ifs <;> assumption

/-- Sorted parts, with values equivalent to the pivot in between, are sorted together. -/
theorem pairwise_of_parts {a b c : List α} (htrans : ∀ p q s, le p q → le q s → le p s)
    (ha : a.Pairwise le) (hc : c.Pairwise le) (hlow : ∀ p ∈ a, le p x)
    (hmid : ∀ p ∈ b, le p x ∧ le x p) (hhigh : ∀ p ∈ c, le x p) : (a ++ b ++ c).Pairwise le := by
  have hb : b.Pairwise le :=
    List.pairwise_of_forall_mem_list fun p hp q hq => htrans p x q (hmid p hp).1 (hmid q hq).2
  rw [List.pairwise_append, List.pairwise_append]
  refine ⟨⟨ha, hb, fun p hp q hq => htrans p x q (hlow p hp) (hmid q hq).2⟩, hc, fun p hp q hq => ?_⟩
  rcases List.mem_append.mp hp with hp | hp
  · exact htrans p x q (hlow p hp) (hhigh q hq)
  · exact htrans p x q (hmid p hp).1 (hhigh q hq)

end Tern.Lib
