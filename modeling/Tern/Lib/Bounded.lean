import Mathlib.Data.BitVec

/-! Writing with a limit. A function writes pieces, each up to what is left of its limit,
and hands the rest of its limit on to the functions it calls; so do these. Whatever the
pieces are, the limit cuts off the end of the text and nothing else: `Upto` says that, and
there is one rule for a piece and one for a call. -/

namespace Tern.Lib

/-- What was written so far, and the counter of it. -/
structure Written (w : Nat) (α : Type) where
  count : BitVec w
  out : List α

namespace Written

variable {w : Nat} {α : Type} {limit : BitVec w} {s : Written w α} {text data : List α}

def start : Written w α := ⟨0#w, []⟩

def write (limit : BitVec w) (data : List α) (s : Written w α) : Written w α :=
  if s.count < limit then
    let size := BitVec.ofNat w data.length
    let canWrite := if size < limit - s.count then size else limit - s.count
    ⟨s.count + canWrite, s.out ++ data.take canWrite.toNat⟩
  else s

/-- A call with what is left of the limit, its counter added to this one. -/
def call (limit : BitVec w) (f : BitVec w → Written w α) (s : Written w α) : Written w α :=
  let called := f (limit - s.count)
  ⟨s.count + called.count, s.out ++ called.out⟩

/-- What was to be written is `text`, and it was written up to the limit. -/
structure Upto (limit : BitVec w) (text : List α) (s : Written w α) : Prop where
  out : s.out = text.take limit.toNat
  count : s.count.toNat = s.out.length

namespace Upto

theorem start : Upto limit [] (start : Written w α) where
  out := List.take_nil.symm
  count := rfl

theorem count_eq (h : Upto limit text s) : s.count.toNat = min limit.toNat text.length := by
  rw [h.count, h.out, List.length_take]

theorem left_toNat (h : Upto limit text s) :
    (limit - s.count).toNat = limit.toNat - text.length := by
  have hcount := h.count_eq
  rw [BitVec.toNat_sub_of_le (by rw [BitVec.le_def]; omega)]
  omega

/-- The rule for more text behind the text so far. -/
theorem append {t : Written w α} (h : Upto limit text s)
    (hout : t.out = s.out ++ data.take (limit.toNat - text.length))
    (hcount : t.count = s.count + BitVec.ofNat w (data.take (limit.toNat - text.length)).length) :
    Upto limit (text ++ data) t := by
  have hle := h.count_eq
  have hlimit := limit.isLt
  refine ⟨by rw [hout, h.out, List.take_append], ?_⟩
  rw [hout, hcount, List.length_append, ← h.count, BitVec.toNat_add, BitVec.toNat_ofNat,
    List.length_take]
  rw [Nat.add_mod_mod, Nat.mod_eq_of_lt (by omega)]

theorem write (h : Upto limit text s) (hdata : data.length < 2 ^ w) :
    Upto limit (text ++ data) (s.write limit data) := by
  have hcount := h.count_eq
  have hleft := h.left_toNat
  have hsize : (BitVec.ofNat w data.length).toNat = data.length := Nat.mod_eq_of_lt hdata
  rw [Written.write]
  by_cases hmore : s.count < limit
  · rw [if_pos hmore]
    dsimp only
    by_cases hfits : BitVec.ofNat w data.length < limit - s.count
    · -- all of it
      rw [if_pos hfits]
      rw [BitVec.lt_def, hsize, hleft] at hfits
      refine h.append ?_ ?_
      · rw [hsize, List.take_of_length_le le_rfl, List.take_of_length_le hfits.le]
      · rw [List.take_of_length_le hfits.le]
    · -- what fits
      rw [if_neg hfits]
      rw [BitVec.lt_def, hsize, hleft, Nat.not_lt] at hfits
      refine h.append ?_ ?_
      · rw [hleft]
      · rw [List.length_take, Nat.min_eq_left hfits, ← hleft, BitVec.ofNat_toNat,
          BitVec.setWidth_eq]
  · -- nothing is left of the limit
    rw [if_neg hmore]
    rw [BitVec.lt_def, Nat.not_lt] at hmore
    have hzero : limit.toNat - text.length = 0 := by omega
    refine h.append ?_ ?_
    · rw [hzero, List.take_zero, List.append_nil]
    · rw [hzero, List.take_zero, List.length_nil, BitVec.add_zero]

theorem call {f : BitVec w → Written w α} (h : Upto limit text s)
    (hf : ∀ m, Upto m data (f m)) : Upto limit (text ++ data) (s.call limit f) := by
  have hcalled := hf (limit - s.count)
  refine h.append ?_ ?_
  · rw [← h.left_toNat, ← hcalled.out]
    rfl
  · rw [← h.left_toNat, ← hcalled.out, ← hcalled.count, BitVec.ofNat_toNat, BitVec.setWidth_eq]
    rfl

end Upto

end Written

end Tern.Lib
