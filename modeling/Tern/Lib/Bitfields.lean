import Mathlib.Data.BitVec

/-! Bit-fields of a word. A field is a row of its bits; reading cuts them out, writing
replaces them under a mask. Fields that have no bit in common do not see each other's
writes, and a word is given by fields that have all of its bits. -/

namespace Tern.Lib

/-- The bits from `offset` on. -/
structure Bitfield (w : Nat) where
  offset : Nat
  width : Nat
  fits : offset + width ≤ w
  deriving DecidableEq, Repr

namespace Bitfield

variable {w : Nat} (f : Bitfield w)

def get (x : BitVec w) : BitVec f.width := x.extractLsb' f.offset f.width

/-- The bits of the field. -/
def mask : BitVec w := (BitVec.allOnes f.width).setWidth w <<< f.offset

def set (x : BitVec w) (v : BitVec f.width) : BitVec w :=
  (x &&& ~~~f.mask) ||| (v.setWidth w <<< f.offset)

/-- Bit `i` of the word is one of the field's. -/
def Has (i : Nat) : Prop := f.offset ≤ i ∧ i < f.offset + f.width

instance (i : Nat) : Decidable (f.Has i) := inferInstanceAs (Decidable (_ ∧ _))

/-- No bit in common. -/
def Apart (g : Bitfield w) : Prop := f.offset + f.width ≤ g.offset ∨ g.offset + g.width ≤ f.offset

instance (g : Bitfield w) : Decidable (f.Apart g) := inferInstanceAs (Decidable (_ ∨ _))

/-- A field of the word that the bits of `f` are. -/
abbrev within (g : Bitfield f.width) : Bitfield w where
  offset := f.offset + g.offset
  width := g.width
  fits := by
    have hf := f.fits
    have hg := g.fits
    omega

variable {f} {g : Bitfield w} {x y : BitVec w} {i : Nat}

theorem getLsbD_get (x : BitVec w) (hi : i < f.width) :
    (f.get x).getLsbD i = x.getLsbD (f.offset + i) := by
  rw [get, BitVec.getLsbD_extractLsb', decide_eq_true hi, Bool.true_and]

theorem getLsbD_mask (hi : i < w) : f.mask.getLsbD i = decide (f.Has i) := by
  rw [mask, BitVec.getLsbD_shiftLeft, BitVec.getLsbD_setWidth, BitVec.getLsbD_allOnes]
  by_cases hlow : f.offset ≤ i
  · have hwidth : i - f.offset < f.width ↔ i < f.offset + f.width := by omega
    simp [Has, hi, hlow, hwidth, show i - f.offset < w by omega]
  · simp [Has, hi, hlow]

theorem getLsbD_set (x : BitVec w) (v : BitVec f.width) (hi : i < w) :
    (f.set x v).getLsbD i = if f.Has i then v.getLsbD (i - f.offset) else x.getLsbD i := by
  rw [set, BitVec.getLsbD_or, BitVec.getLsbD_and, BitVec.getLsbD_not, getLsbD_mask hi,
    BitVec.getLsbD_shiftLeft, BitVec.getLsbD_setWidth]
  by_cases hin : f.Has i
  · obtain ⟨hlow, hhigh⟩ := hin
    simp [Has, hi, hlow, hhigh, show i - f.offset < w by omega, show ¬ i < f.offset by omega]
  · rw [if_neg hin, decide_eq_false hin]
    by_cases hlow : i < f.offset
    · simp [hi, hlow]
    · rw [BitVec.getLsbD_of_ge v (i - f.offset) (by unfold Has at hin; omega)]
      simp [hi]

/-- What was written is read back. -/
theorem get_set (x : BitVec w) (v : BitVec f.width) : f.get (f.set x v) = v := by
  refine BitVec.eq_of_getLsbD_eq fun i hi => ?_
  have hfits := f.fits
  rw [getLsbD_get _ hi, getLsbD_set _ _ (by omega), if_pos ⟨Nat.le_add_right _ _, by omega⟩,
    Nat.add_sub_cancel_left]

/-- Other fields are not changed. -/
theorem get_set_of_apart (h : f.Apart g) (x : BitVec w) (v : BitVec f.width) :
    g.get (f.set x v) = g.get x := by
  refine BitVec.eq_of_getLsbD_eq fun i hi => ?_
  have hfits := g.fits
  have hout : ¬ f.Has (g.offset + i) := by
    unfold Has
    rcases h with h | h <;> omega
  rw [getLsbD_get _ hi, getLsbD_set _ _ (by omega), if_neg hout, getLsbD_get _ hi]

/-- What is cut out by the mask is the field, in its place. -/
theorem and_mask (x : BitVec w) : x &&& f.mask = (f.get x).setWidth w <<< f.offset := by
  refine BitVec.eq_of_getLsbD_eq fun i hi => ?_
  rw [BitVec.getLsbD_and, getLsbD_mask hi, BitVec.getLsbD_shiftLeft, BitVec.getLsbD_setWidth,
    get, BitVec.getLsbD_extractLsb']
  by_cases hlow : f.offset ≤ i
  · have hwidth : i - f.offset < f.width ↔ i < f.offset + f.width := by omega
    simp [Has, hi, hlow, hwidth, show i - f.offset < w by omega, Nat.add_sub_cancel' hlow,
      Bool.and_comm]
  · simp [Has, hlow, show i < f.offset by omega]

/-- To copy a field is to take its bits from the other word. -/
theorem set_get (x y : BitVec w) :
    f.set x (f.get y) = (x &&& ~~~f.mask) ||| (y &&& f.mask) := by
  rw [set, and_mask]

/-! ## Fields of fields -/

theorem get_within (g : Bitfield f.width) (x : BitVec w) :
    (f.within g).get x = g.get (f.get x) := by
  refine BitVec.eq_of_getLsbD_eq fun i (hi : i < g.width) => ?_
  have hg := g.fits
  rw [getLsbD_get (f := f.within g) x hi, getLsbD_get (f := g) _ hi, getLsbD_get _ (by omega),
    Nat.add_assoc]

theorem set_within (g : Bitfield f.width) (x : BitVec w) (v : BitVec g.width) :
    (f.within g).set x v = f.set x (g.set (f.get x) v) := by
  refine BitVec.eq_of_getLsbD_eq fun i hi => ?_
  have hg := g.fits
  rw [getLsbD_set (f := f.within g) x v hi, getLsbD_set (f := f) _ _ hi]
  by_cases hin : f.Has i
  · have hhas : (f.within g).Has i ↔ g.Has (i - f.offset) := by
      simp only [Has] at hin ⊢
      omega
    rw [if_pos hin, getLsbD_set _ _ (by unfold Has at hin; omega),
      getLsbD_get _ (by unfold Has at hin; omega), Nat.add_sub_cancel' hin.1]
    exact if_congr hhas (congrArg _ (Nat.sub_add_eq ..)) rfl
  · have hout : ¬ (f.within g).Has i := by
      simp only [Has] at hin ⊢
      omega
    rw [if_neg hin, if_neg hout]

/-! ## All fields of a word -/

/-- Words are equal if they have the same fields, where these have all bits. -/
theorem eq_of_get {ι : Type*} {fields : ι → Bitfield w} (hcover : ∀ i < w, ∃ k, (fields k).Has i)
    (h : ∀ k, (fields k).get x = (fields k).get y) : x = y := by
  refine BitVec.eq_of_getLsbD_eq fun i hi => ?_
  obtain ⟨k, hlow, hhigh⟩ := hcover i hi
  have hbit := congrArg (BitVec.getLsbD · (i - (fields k).offset)) (h k)
  simp only [getLsbD_get _ (show i - (fields k).offset < (fields k).width by omega)] at hbit
  rwa [Nat.add_sub_cancel' hlow] at hbit

end Bitfield

end Tern.Lib
