import Mathlib.Data.Vector.Basic
import Mathlib.Data.BitVec
import Mathlib.Data.List.Find

/-! An array of words read as one row of bits: `taken` is bit `c % w` of word
`c / w`, and the places past the end count as taken. A search that goes through
the words, and in each word through its places, finds the first place of all. -/

namespace Tern.Lib

/-- `n` words of `w` bits. -/
abbrev Bitmap (w n : Nat) := Vector (BitVec w) n

namespace Bitmap

variable {w n : Nat} {b b' : Bitmap w n} {i c : Nat} {m : BitVec w}

/-- Place `c` is taken; there is no free place past the end. -/
def taken (b : Bitmap w n) (c : Nat) : Bool :=
  if h : c / w < n then b[c / w].getLsbD (c % w) else true

/-- Word `i`, which is only read inside the array. -/
def word (b : Bitmap w n) (i : Nat) : BitVec w := if h : i < n then b[i] else 0#w

/-- All places free. -/
def zeros (w n : Nat) : Bitmap w n := Vector.replicate n 0#w

/-- Reads, changes and writes back word `i`; `none` outside of the array. -/
def modify (b : Bitmap w n) (i : Nat) (f : BitVec w → BitVec w) : Option (Bitmap w n) :=
  if h : i < n then some (b.set i (f b[i])) else none

theorem taken_of_lt (h : c / w < n) : b.taken c = b[c / w].getLsbD (c % w) :=
  dif_pos h

theorem lt_of_not_taken (h : b.taken c = false) : c / w < n := by
  by_contra hout
  rw [taken, dif_neg hout] at h
  cases h

/-- The places say all there is. -/
theorem eq_of_taken (h : ∀ c, b.taken c = b'.taken c) : b = b' := by
  refine Vector.ext fun i hi => BitVec.eq_of_getLsbD_eq fun j hj => ?_
  have hw : 0 < w := by omega
  have hdiv : (w * i + j) / w = i := by
    rw [Nat.mul_add_div hw, Nat.div_eq_of_lt hj, Nat.add_zero]
  have hmod : (w * i + j) % w = j := by
    rw [Nat.mul_add_mod, Nat.mod_eq_of_lt hj]
  have hbit := h (w * i + j)
  simpa only [taken, hdiv, hmod, dif_pos hi] using hbit

theorem taken_zeros (h : c / w < n) : (zeros w n).taken c = false := by
  simp [zeros, taken_of_lt h]

theorem word_getLsbD {j : Nat} (h : c / w < n) (hj : c % w = j) :
    (b.word (c / w)).getLsbD j = b.taken c := by
  rw [taken_of_lt h, word, dif_pos h, hj]

theorem modify_isSome (h : i < n) (f : BitVec w → BitVec w) : ∃ b', b.modify i f = some b' :=
  ⟨_, dif_pos h⟩

/-- Only the places of word `i` change. -/
theorem taken_modify {f : BitVec w → BitVec w} (h : b.modify i f = some b') (c : Nat) :
    b'.taken c = if hc : c / w = i ∧ c / w < n then (f b[c / w]).getLsbD (c % w)
      else b.taken c := by
  unfold modify at h
  split at h
  · next hi =>
    cases h
    by_cases hn : c / w < n
    · rw [taken_of_lt hn]
      by_cases hc : c / w = i
      · subst hc
        simp [hn]
      · rw [Vector.getElem_set_ne hi hn (Ne.symm hc), dif_neg (fun h => hc h.1), taken_of_lt hn]
    · simp [taken, hn]
  · cases h

theorem taken_or (h : b.modify i (· ||| m) = some b') (c : Nat) :
    b'.taken c = (b.taken c || (c / w == i && m.getLsbD (c % w))) := by
  rw [taken_modify h c]
  by_cases hn : c / w < n
  · rw [taken_of_lt hn]
    by_cases hc : c / w = i
    · rw [dif_pos ⟨hc, hn⟩, BitVec.getLsbD_or, beq_iff_eq.mpr hc, Bool.true_and]
    · simp [hc]
  · simp [taken, hn]

theorem taken_and (h : b.modify i (· &&& m) = some b') (hn : c / w < n) :
    b'.taken c = (b.taken c && (!(c / w == i) || m.getLsbD (c % w))) := by
  rw [taken_modify h c, taken_of_lt hn]
  by_cases hc : c / w = i
  · rw [dif_pos ⟨hc, hn⟩, BitVec.getLsbD_and, beq_iff_eq.mpr hc, Bool.not_true, Bool.false_or]
  · simp [hc]

end Bitmap

/-! ## Searching word by word -/

/-- Going through the words that pass `guard`, and in each through its `w` places,
is going through all places in their order. -/
theorem findSome_words {β : Type*} {w : Nat} (n : Nat) {guard : Nat → Bool}
    {P : Nat → Nat → Bool} (g : Nat → Nat → β)
    (hguard : ∀ i j, i < n → j < w → P i j → guard i) :
    ((List.range n).findSome? fun i =>
      if guard i then ((List.range w).find? (P i)).map (g i) else none) =
      ((List.range (w * n)).find? fun p => P (p / w) (p % w)).map fun p => g (p / w) (p % w) := by
  induction n with
  | zero => rfl
  | succ n ih =>
    have hbefore := ih fun i j hi => hguard i j (by omega)
    have hplace : ∀ j ∈ List.range w, (w * n + j) / w = n ∧ (w * n + j) % w = j := by
      intro j hj
      have hj := List.mem_range.mp hj
      have hw : 0 < w := by omega
      exact ⟨by rw [Nat.mul_add_div hw, Nat.div_eq_of_lt hj, Nat.add_zero],
        by rw [Nat.mul_add_mod, Nat.mod_eq_of_lt hj]⟩
    have hlast : ((List.range w).map (w * n + ·)).find? (fun p => P (p / w) (p % w)) =
        ((List.range w).find? (P n)).map (w * n + ·) := by
      rw [List.find?_map, List.find?_congr fun j hj => ?_]
      rw [Function.comp_apply, (hplace j hj).1, (hplace j hj).2]
    rw [List.range_succ, List.findSome?_append, hbefore, Nat.mul_succ, List.range_add,
      List.find?_append, hlast, Option.map_or]
    congr 1
    rw [List.findSome?_singleton]
    cases hfind : (List.range w).find? (P n) with
    | none => cases guard n <;> rfl
    | some j =>
      have hj := List.mem_of_find?_eq_some hfind
      have hg := hguard n j n.lt_succ_self (List.mem_range.mp hj) (List.find?_some hfind)
      rw [hg, if_pos rfl, Option.map_some, Option.map_some, Option.map_some, (hplace j hj).1,
        (hplace j hj).2]

/-- The first place below `n` with `P`. -/
theorem find_range_spec (n : Nat) (P : Nat → Bool) :
    ((List.range n).find? P = none ∧ ∀ p < n, P p = false) ∨
      ∃ q < n, (List.range n).find? P = some q ∧ P q ∧ ∀ p, P p → q ≤ p := by
  cases h : (List.range n).find? P with
  | none =>
    refine .inl ⟨rfl, fun p hp => ?_⟩
    simpa using List.find?_eq_none.mp h p (List.mem_range.mpr hp)
  | some q =>
    obtain ⟨hq, hmem, hbefore⟩ := List.find?_range_eq_some.mp h
    refine .inr ⟨q, List.mem_range.mp hmem, rfl, hq, fun p hp => ?_⟩
    by_contra hlt
    have hnot := hbefore p (by omega)
    rw [hp] at hnot
    cases hnot

end Tern.Lib
