import Mathlib.Algebra.Ring.Parity
import Mathlib.Tactic.Ring

/-! Cutting an interval of numbers into blocks of power-of-two size that are
aligned to their size. `pieces s e` is how many it takes, read off the bits of
both ends; taking the largest block that fits, again and again, needs no more,
and no cut needs fewer. -/

namespace Tern.Lib

/-- The blocks, each a start and an exponent, lie end to end from `s` to `e` and
are aligned to their size. -/
def Tiles (s e : Nat) : List (Nat × Nat) → Prop
  | [] => s = e
  | (a, k) :: l => a = s ∧ 2 ^ k ∣ a ∧ Tiles (a + 2 ^ k) e l

theorem Tiles.le {s e : Nat} {l : List (Nat × Nat)} (h : Tiles s e l) : s ≤ e := by
  induction l generalizing s with
  | nil => exact Nat.le_of_eq h
  | cons b l ih =>
    obtain ⟨rfl, -, hrest⟩ := h
    exact (Nat.le_add_right _ _).trans (ih hrest)

/-- At each scale, a block for an odd start and one for an odd end. -/
def pieces (s e : Nat) : Nat :=
  if s < e then s % 2 + e % 2 + pieces ((s + 1) / 2) (e / 2) else 0
termination_by e - s

theorem pieces_of_le {s e : Nat} (h : e ≤ s) : pieces s e = 0 := by
  rw [pieces, if_neg h.not_gt]

theorem pieces_of_lt {s e : Nat} (h : s < e) :
    pieces s e = s % 2 + e % 2 + pieces ((s + 1) / 2) (e / 2) := by
  rw [pieces, if_pos h]

/-- From an even start, one scale up. -/
theorem pieces_two_mul {t e : Nat} (h : 2 * t ≤ e) :
    pieces (2 * t) e = e % 2 + pieces t (e / 2) := by
  rcases h.eq_or_lt with rfl | hlt
  · rw [pieces_of_le le_rfl, pieces_of_le (by omega)]
    omega
  · rw [pieces_of_lt hlt, show (2 * t + 1) / 2 = t by omega]
    omega

/-- A unit block at the start is at most one more. -/
theorem pieces_succ_le {s e : Nat} (h : s < e) : pieces s e ≤ 1 + pieces (s + 1) e := by
  induction e using Nat.strong_induction_on generalizing s with
  | _ e ih =>
    rcases Nat.even_or_odd' s with ⟨t, rfl | rfl⟩
    · rw [pieces_two_mul h.le]
      rcases Nat.lt_or_ge (2 * t + 1) e with hlt | hge
      · have hhalf := ih (e / 2) (by omega) (s := t) (by omega)
        rw [pieces_of_lt hlt, show (2 * t + 1 + 1) / 2 = t + 1 by omega]
        omega
      · rw [pieces_of_le (s := t) (by omega)]
        omega
    · have hodd : 2 * t + 1 + 1 = 2 * (t + 1) := by ring
      rw [hodd, pieces_two_mul (by omega), pieces_of_lt h,
        show (2 * t + 1 + 1) / 2 = t + 1 by omega]
      omega

/-- Any block at the start is at most one more. -/
theorem pieces_block_le {s e i : Nat} (hdvd : 2 ^ i ∣ s) (hle : s + 2 ^ i ≤ e) :
    pieces s e ≤ 1 + pieces (s + 2 ^ i) e := by
  induction i generalizing s e with
  | zero => exact pieces_succ_le hle
  | succ i ih =>
    obtain ⟨q, rfl⟩ := hdvd
    have hstart : 2 ^ (i + 1) * q = 2 * (2 ^ i * q) := by ring
    have hnext : 2 * (2 ^ i * q) + 2 ^ (i + 1) = 2 * (2 ^ i * q + 2 ^ i) := by ring
    have hpos := Nat.two_pow_pos (i + 1)
    rw [hstart] at hle ⊢
    have hhalf := ih (s := 2 ^ i * q) (e := e / 2) ⟨q, rfl⟩ (by omega)
    rw [hnext] at hle ⊢
    rw [pieces_two_mul (by omega), pieces_two_mul hle]
    omega

/-- The largest block that fits at the start is one of the pieces. -/
theorem pieces_largest {s e j : Nat} (hdvd : 2 ^ j ∣ s) (hle : s + 2 ^ j ≤ e)
    (hmax : ∀ i, 2 ^ i ∣ s → s + 2 ^ i ≤ e → i ≤ j) :
    pieces s e = 1 + pieces (s + 2 ^ j) e := by
  induction j generalizing s e with
  | zero =>
    have hlt : s < e := hle
    have hodd : 2 ∣ s → e ≤ s + 1 := by
      intro heven
      by_contra hroom
      exact absurd (hmax 1 heven (by omega)) (by decide)
    rcases Nat.even_or_odd' s with ⟨t, rfl | rfl⟩
    · have hend := hodd ⟨t, rfl⟩
      rw [pieces_two_mul hlt.le, pieces_of_le (s := t) (by omega),
        pieces_of_le (s := 2 * t + 2 ^ 0) hend]
      omega
    · have hnext : 2 * t + 1 + 2 ^ 0 = 2 * (t + 1) := by ring
      rw [hnext, pieces_two_mul (by omega), pieces_of_lt hlt,
        show (2 * t + 1 + 1) / 2 = t + 1 by omega]
      omega
  | succ j ih =>
    obtain ⟨q, rfl⟩ := hdvd
    have hstart : 2 ^ (j + 1) * q = 2 * (2 ^ j * q) := by ring
    have hnext : 2 * (2 ^ j * q) + 2 ^ (j + 1) = 2 * (2 ^ j * q + 2 ^ j) := by ring
    have hpos := Nat.two_pow_pos (j + 1)
    rw [hstart] at hle hmax ⊢
    have hhalf := ih (s := 2 ^ j * q) (e := e / 2) ⟨q, rfl⟩ (by omega) fun i hi hfit => by
      have hdouble : 2 ^ (i + 1) = 2 * 2 ^ i := by ring
      have hup := hmax (i + 1) (by rw [hdouble]; exact Nat.mul_dvd_mul_left 2 hi) (by omega)
      omega
    rw [hnext] at hle ⊢
    rw [pieces_two_mul (by omega), pieces_two_mul hle, hhalf]
    omega

/-- No cut has fewer blocks. -/
theorem Tiles.pieces_le {s e : Nat} {l : List (Nat × Nat)} (h : Tiles s e l) :
    pieces s e ≤ l.length := by
  induction l generalizing s with
  | nil => rw [pieces_of_le (h : s = e).ge, List.length_nil]
  | cons b l ih =>
    obtain ⟨rfl, hdvd, hrest⟩ := h
    have hblock := pieces_block_le hdvd hrest.le
    have htail := ih hrest
    rw [List.length_cons]
    omega

/-- A block that starts before `2 ^ w - 2 ^ k` and ends behind it reaches `2 ^ w`. -/
theorem block_reaches {w a j k : Nat} (hj : j ≤ w) (hdvd : 2 ^ j ∣ a)
    (hlt : a < 2 ^ w - 2 ^ k) (hpast : 2 ^ w - 2 ^ k < a + 2 ^ j) : 2 ^ w ≤ a + 2 ^ j := by
  have hwj : 2 ^ j ∣ 2 ^ w := Nat.pow_dvd_pow 2 hj
  rcases Nat.lt_or_ge k j with hkj | hjk
  · have hpow : 2 ^ k < 2 ^ j := Nat.pow_lt_pow_right (by decide) hkj
    by_contra hshort
    have hgap : 2 ^ j ≤ 2 ^ w - (a + 2 ^ j) :=
      Nat.le_of_dvd (by omega) (Nat.dvd_sub hwj (Nat.dvd_add hdvd dvd_rfl))
    omega
  · -- the point is aligned to the block
    have hpoint : 2 ^ j ∣ 2 ^ w - 2 ^ k - a :=
      Nat.dvd_sub (Nat.dvd_sub hwj (Nat.pow_dvd_pow 2 hjk)) hdvd
    have hgap := Nat.le_of_dvd (by omega) hpoint
    omega

end Tern.Lib
