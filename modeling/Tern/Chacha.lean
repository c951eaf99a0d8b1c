import Mathlib.Data.BitVec
import Mathlib.Data.List.Basic

/-! The stream cipher of the random number generator. The position in its keystream
is the block counter alone, and a run of `xor_chacha` uses up at least one block,
also for an empty buffer. -/

namespace Tern

/-- `struct chacha`. -/
structure Chacha where
  counter : BitVec 32
  key : Vector (BitVec 8) 32
  nonce : Vector (BitVec 8) 12
  deriving DecidableEq, Repr

abbrev ChachaState := Vector (BitVec 32) 16

/-! ## Blocks -/

def rol (x : BitVec 32) (n : Nat) : BitVec 32 := x <<< n ||| x >>> (32 - n)

/-- `QUARTER_ROUND (a, b, c, d)`. -/
def quarterRound (a b c d : Fin 16) (state : ChachaState) : ChachaState :=
  let state := state.set a (state[a] + state[b])
  let state := state.set d (rol (state[d] ^^^ state[a]) 16)
  let state := state.set c (state[c] + state[d])
  let state := state.set b (rol (state[b] ^^^ state[c]) 12)
  let state := state.set a (state[a] + state[b])
  let state := state.set d (rol (state[d] ^^^ state[a]) 8)
  let state := state.set c (state[c] + state[d])
  state.set b (rol (state[b] ^^^ state[c]) 7)

/-- One round of the loop of `do_chacha_block`: the columns, then the diagonals. -/
def doubleRound (state : ChachaState) : ChachaState :=
  let state := quarterRound 0 4 8 12 state
  let state := quarterRound 1 5 9 13 state
  let state := quarterRound 2 6 10 14 state
  let state := quarterRound 3 7 11 15 state
  let state := quarterRound 0 5 10 15 state
  let state := quarterRound 1 6 11 12 state
  let state := quarterRound 2 7 8 13 state
  quarterRound 3 4 9 14 state

/-- `rounds` is an `int`, and its half is rounded towards 0. -/
def doChachaBlock (state : ChachaState) (rounds : BitVec 32) (reAdd : Bool) : ChachaState :=
  let mixed := doubleRound^[(rounds.toInt.tdiv 2).toNat] state
  if reAdd then mixed.zipWith (· + ·) state else mixed

/-- Byte `i` of an array of 32-bit words. -/
def stateByte (state : ChachaState) (i : Fin 64) : BitVec 8 :=
  state[i.val / 4].extractLsb' (8 * (i.val % 4)) 8

/-- Word `i` of an array of bytes. -/
def wordOfBytes {n : Nat} (bytes : Vector (BitVec 8) (4 * n)) (i : Fin n) : BitVec 32 :=
  bytes[4 * i.val + 3] ++ bytes[4 * i.val + 2] ++ bytes[4 * i.val + 1] ++ bytes[4 * i.val]

namespace Chacha

def initialState (cc : Chacha) : ChachaState :=
  (#v[0x61707865#32, 0x3320646E#32, 0x79622D32#32, 0x6B206574#32] : Vector (BitVec 32) 4) ++
    Vector.ofFn (wordOfBytes (n := 8) cc.key) ++ #v[cc.counter] ++
    Vector.ofFn (wordOfBytes (n := 3) cc.nonce)

/-- The bytes of the keystream at the counter. -/
def block (cc : Chacha) (rounds : BitVec 32) : List (BitVec 8) :=
  List.ofFn (stateByte (doChachaBlock cc.initialState rounds true))

/-- `cc->counter++`. -/
def next (cc : Chacha) : Chacha := { cc with counter := cc.counter + 1 }

end Chacha

/-- The buffer and the struct afterwards; `buf` is what the buffer has from `count` on. -/
def xorChacha (cc : Chacha) (rounds : BitVec 32) (buf : List (BitVec 8)) :
    List (BitVec 8) × Chacha :=
  let out := List.zipWith (· ^^^ ·) (buf.take 64) (cc.block rounds)
  if 64 < buf.length then
    let (rest, cc) := xorChacha cc.next rounds (buf.drop 64)
    (out ++ rest, cc)
  else (out, cc.next)
termination_by buf.length
decreasing_by
  rw [List.length_drop]
  omega

/-! ## Runs -/

/-- How many blocks a buffer of this length uses up. -/
def chachaBlocks (len : Nat) : Nat := max 1 ((len + 63) / 64)

section

variable {cc : Chacha} {rounds : BitVec 32} {b buf : List (BitVec 8)}

theorem xorChacha_long (h : 64 < buf.length) : xorChacha cc rounds buf =
    (List.zipWith (· ^^^ ·) (buf.take 64) (cc.block rounds) ++
      (xorChacha cc.next rounds (buf.drop 64)).1, (xorChacha cc.next rounds (buf.drop 64)).2) := by
  rw [xorChacha]
  simp only [h, if_true]

theorem xorChacha_short (h : buf.length ≤ 64) : xorChacha cc rounds buf =
    (List.zipWith (· ^^^ ·) (buf.take 64) (cc.block rounds), cc.next) := by
  rw [xorChacha]
  simp only [Nat.not_lt.mpr h, if_false]

/-- The counter afterwards; it is all of the struct that a run changes. -/
theorem xorChacha_counter (cc : Chacha) (rounds : BitVec 32) (buf : List (BitVec 8)) :
    (xorChacha cc rounds buf).2 =
      { cc with counter := cc.counter + BitVec.ofNat 32 (chachaBlocks buf.length) } := by
  induction cc, buf using xorChacha.induct rounds with
  | case1 cc buf hlong _ _ _ ih =>
    have hblocks : chachaBlocks buf.length = 1 + chachaBlocks (buf.drop 64).length := by
      simp only [chachaBlocks, List.length_drop]
      omega
    rw [xorChacha_long hlong]
    dsimp only
    rw [ih, hblocks, BitVec.ofNat_add, ← BitVec.add_assoc]
    rfl
  | case2 cc buf hshort =>
    have hblocks : chachaBlocks buf.length = 1 := by
      simp only [chachaBlocks]
      omega
    rw [xorChacha_short (Nat.not_lt.mp hshort), hblocks]
    rfl

/-- Behind whole blocks, and at least one, the rest of the buffer is treated as a
buffer of its own. -/
theorem xorChacha_append {cc : Chacha} {a : List (BitVec 8)} (hdvd : 64 ∣ a.length) (ha : a ≠ [])
    (hb : b ≠ []) :
    xorChacha cc rounds (a ++ b) =
      ((xorChacha cc rounds a).1 ++ (xorChacha (xorChacha cc rounds a).2 rounds b).1,
        (xorChacha (xorChacha cc rounds a).2 rounds b).2) := by
  have hpos := List.length_pos_iff.mpr ha
  have hpos' := List.length_pos_iff.mpr hb
  have hlong : 64 < (a ++ b).length := by
    rw [List.length_append]
    omega
  have hle : 64 ≤ a.length := Nat.le_of_dvd hpos hdvd
  rw [xorChacha_long hlong, List.take_append_of_le_length hle, List.drop_append_of_le_length hle]
  rcases hle.lt_or_eq with hlt | heq
  · -- one block off both
    have hrest : a.drop 64 ≠ [] := by
      rw [ne_eq, List.drop_eq_nil_iff, Nat.not_le]
      exact hlt
    have hdvd' : 64 ∣ (a.drop 64).length := by
      rw [List.length_drop]
      exact Nat.dvd_sub hdvd (dvd_refl 64)
    rw [xorChacha_append hdvd' hrest hb, xorChacha_long hlt, List.append_assoc]
  · rw [xorChacha_short heq.ge, List.drop_of_length_le heq.ge, List.nil_append]
termination_by a.length
decreasing_by
  rw [List.length_drop]
  omega

end

/-- A buffer in two parts, the first of whole blocks, comes out as one buffer would, with
the same counter, if and only if neither part is empty. -/
theorem xor_chacha_append_iff (cc : Chacha) (rounds : BitVec 32) {a b : List (BitVec 8)}
    (hdvd : 64 ∣ a.length) :
    ((xorChacha cc rounds a).1 ++ (xorChacha (xorChacha cc rounds a).2 rounds b).1 =
        (xorChacha cc rounds (a ++ b)).1 ∧
      (xorChacha (xorChacha cc rounds a).2 rounds b).2.counter =
        (xorChacha cc rounds (a ++ b)).2.counter) ↔ a ≠ [] ∧ b ≠ [] := by
  constructor
  · rintro ⟨-, hcounter⟩
    simp only [xorChacha_counter, BitVec.add_assoc, BitVec.add_right_inj, ← BitVec.ofNat_add]
      at hcounter
    have hmod := congrArg BitVec.toNat hcounter
    simp only [BitVec.toNat_ofNat, chachaBlocks, List.length_append] at hmod
    refine ⟨?_, ?_⟩
    · rintro rfl
      rw [List.length_nil] at hmod
      omega
    · rintro rfl
      rw [List.length_nil] at hmod
      omega
  · rintro ⟨ha, hb⟩
    rw [xorChacha_append hdvd ha hb]
    exact ⟨rfl, rfl⟩

/-- A block and a byte. -/
theorem xor_chacha_append_iff_block :
    (xorChacha (xorChacha ⟨0, .replicate 32 0, .replicate 12 0⟩ 20 (List.replicate 64 0)).2 20
      [0]).2.counter =
      (xorChacha ⟨0, .replicate 32 0, .replicate 12 0⟩ 20 (List.replicate 64 0 ++ [0])).2.counter := by
  have hdvd : 64 ∣ (List.replicate 64 (0 : BitVec 8)).length := by
    rw [List.length_replicate]
  exact ((xor_chacha_append_iff ⟨0, .replicate 32 0, .replicate 12 0⟩ 20 hdvd).mpr
    ⟨by simp, by simp⟩).2

/-- An empty buffer uses up a block of the keystream. -/
theorem xor_chacha_empty_first :
    ∃ (cc : Chacha) (rounds : BitVec 32) (a b : List (BitVec 8)), 64 ∣ a.length ∧
      (xorChacha (xorChacha cc rounds a).2 rounds b).2.counter ≠
        (xorChacha cc rounds (a ++ b)).2.counter := by
  refine ⟨⟨0, .replicate 32 0, .replicate 12 0⟩, 20, [], [0], dvd_zero 64, ?_⟩
  simp only [xorChacha_counter]
  decide

end Tern
