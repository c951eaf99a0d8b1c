import Mathlib.Data.BitVec
import Mathlib.Logic.Function.Basic

/-! Bytes in a memory of 64-bit words, the lowest byte of a word first. A word is at
the address of its first byte, a multiple of 8. -/

namespace Tern.Lib

/-- The address of the word that has the byte at `a`. -/
def wordOf (a : BitVec 64) : BitVec 64 := a &&& ~~~7#64

def byteAt (memory : BitVec 64 → BitVec 64) (a : BitVec 64) : BitVec 8 :=
  (memory (wordOf a) >>> (8 * (a.toNat % 8))).setWidth 8

/-- `w` with byte `k` replaced. -/
def setByte (w : BitVec 64) (k : Nat) (b : BitVec 8) : BitVec 64 :=
  (w &&& ~~~(0xFF#64 <<< (8 * k))) ||| (b.setWidth 64 <<< (8 * k))

def storeByte (memory : BitVec 64 → BitVec 64) (a : BitVec 64) (b : BitVec 8) :
    BitVec 64 → BitVec 64 :=
  Function.update memory (wordOf a) (setByte (memory (wordOf a)) (a.toNat % 8) b)

/-- The number in the `n` bytes from `a` on. -/
def numberAt (memory : BitVec 64 → BitVec 64) : BitVec 64 → Nat → BitVec 64
  | _, 0 => 0#64
  | a, n + 1 => (byteAt memory a).setWidth 64 ||| numberAt memory (a + 1#64) n <<< 8

variable {memory memory' : BitVec 64 → BitVec 64} {a b : BitVec 64} {c : BitVec 8} {n k : Nat}

theorem add_ofNat_succ (a : BitVec 64) (k : Nat) :
    a + BitVec.ofNat 64 (k + 1) = a + 1#64 + BitVec.ofNat 64 k := by
  rw [Nat.add_comm k 1, BitVec.ofNat_add, BitVec.add_assoc]

theorem wordOf_toNat (a : BitVec 64) : (wordOf a).toNat = a.toNat / 8 * 8 := by
  have hshift : wordOf a = (a >>> 3) <<< 3 := by
    have hmask : ∀ j < 64, (7#64).getLsbD j = decide (j < 3) := by decide
    refine BitVec.eq_of_getLsbD_eq fun j hj => ?_
    rw [wordOf, BitVec.getLsbD_and, BitVec.getLsbD_not, hmask j hj, BitVec.getLsbD_shiftLeft,
      BitVec.getLsbD_ushiftRight]
    by_cases hlow : j < 3
    · simp [hlow]
    · simp [hlow, hj, show 3 + (j - 3) = j by omega]
  have hbound := a.isLt
  rw [hshift, BitVec.toNat_shiftLeft, BitVec.toNat_ushiftRight, Nat.shiftRight_eq_div_pow,
    Nat.shiftLeft_eq]
  omega

/-- A byte is found by its word and its place in it. -/
theorem eq_of_wordOf (hword : wordOf a = wordOf b) (hplace : a.toNat % 8 = b.toNat % 8) : a = b := by
  have hnat := congrArg BitVec.toNat hword
  rw [wordOf_toNat, wordOf_toNat] at hnat
  exact BitVec.eq_of_toNat_eq (by omega)

theorem byteAt_congr (h : memory' (wordOf a) = memory (wordOf a)) : byteAt memory' a = byteAt memory a := by
  rw [byteAt, byteAt, h]

/-! ## Storing a byte -/

theorem getLsbD_setByte (w : BitVec 64) (c : BitVec 8) {j i : Nat} (hj : j < 8) (hi : i < 8) :
    (setByte w k c).getLsbD (8 * j + i) = if j = k then c.getLsbD i else w.getLsbD (8 * j + i) := by
  have hbound : 8 * j + i < 64 := by omega
  have hmask : ∀ j < 64, (0xFF#64).getLsbD j = decide (j < 8) := by decide
  rw [setByte, BitVec.getLsbD_or, BitVec.getLsbD_and, BitVec.getLsbD_not, BitVec.getLsbD_shiftLeft,
    BitVec.getLsbD_shiftLeft, BitVec.getLsbD_setWidth]
  split_ifs with hjk
  · subst hjk
    rw [hmask _ (by omega)]
    simp [hbound, show 8 * j + i - 8 * j = i by omega, hi, show i < 64 by omega,
      show ¬ 8 * j + i < 8 * j by omega]
  · by_cases hlow : 8 * j + i < 8 * k
    · simp [hbound, hlow]
    · rw [hmask _ (by omega), decide_eq_false (by omega : ¬ 8 * j + i - 8 * k < 8),
        BitVec.getLsbD_of_ge c _ (by omega)]
      simp [hbound]

theorem shiftRight_setByte (w : BitVec 64) (c : BitVec 8) {j : Nat} (hj : j < 8) :
    (setByte w k c >>> (8 * j)).setWidth 8 = if j = k then c else (w >>> (8 * j)).setWidth 8 := by
  refine BitVec.eq_of_getLsbD_eq fun i hi => ?_
  rw [BitVec.getLsbD_setWidth, BitVec.getLsbD_ushiftRight, getLsbD_setByte w c hj hi]
  split_ifs
  · simp [hi]
  · rw [BitVec.getLsbD_setWidth, BitVec.getLsbD_ushiftRight]

/-- Storing a byte changes this byte only. -/
theorem byteAt_storeByte (memory : BitVec 64 → BitVec 64) (a b : BitVec 64) (c : BitVec 8) :
    byteAt (storeByte memory a c) b = if b = a then c else byteAt memory b := by
  rw [byteAt, storeByte]
  by_cases hword : wordOf b = wordOf a
  · rw [hword, Function.update_self, shiftRight_setByte _ _ (Nat.mod_lt _ (by decide))]
    by_cases hplace : b.toNat % 8 = a.toNat % 8
    · rw [if_pos hplace, if_pos (eq_of_wordOf hword hplace)]
    · rw [if_neg hplace, if_neg (fun he => hplace (by rw [he])), byteAt, hword]
  · rw [Function.update_of_ne hword, if_neg (fun he => hword (by rw [he])), byteAt]

theorem storeByte_of_ne (h : b ≠ wordOf a) : storeByte memory a c b = memory b :=
  Function.update_of_ne h _ _

/-! ## Numbers -/

theorem numberAt_congr
    (h : ∀ k < n, byteAt memory' (a + BitVec.ofNat 64 k) = byteAt memory (a + BitVec.ofNat 64 k)) :
    numberAt memory' a n = numberAt memory a n := by
  induction n generalizing a with
  | zero => rfl
  | succ n ih =>
    have hfirst := h 0 (Nat.succ_pos n)
    rw [BitVec.add_zero] at hfirst
    rw [numberAt, numberAt, hfirst, ih fun k hk => ?_]
    have hnext := h (k + 1) (Nat.succ_lt_succ hk)
    rwa [add_ofNat_succ] at hnext

/-! ## A memory of one byte -/

/-- The word all of whose bytes are `c`. -/
def repeated (c : BitVec 8) : BitVec 64 := BitVec.replicate 8 c

theorem byteAt_repeated (h : memory (wordOf a) = repeated c) : byteAt memory a = c := by
  refine BitVec.eq_of_getLsbD_eq fun i hi => ?_
  have hplace : a.toNat % 8 < 8 := Nat.mod_lt _ (by decide)
  rw [byteAt, h, repeated, BitVec.getLsbD_setWidth, BitVec.getLsbD_ushiftRight,
    BitVec.getLsbD_replicate, decide_eq_true hi, Bool.true_and,
    decide_eq_true (show 8 * (a.toNat % 8) + i < 8 * 8 by omega), Bool.true_and,
    Nat.mul_add_mod, Nat.mod_eq_of_lt hi]

end Tern.Lib
