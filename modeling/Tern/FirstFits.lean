import Mathlib.Order.Bounds.Basic
import Tern.Cptrs

/-! What the two searches of the cptr allocator return, in terms of the bits of
its array: a first fit, for the one that shifts a 64-bit word, and for the other
one as long as the first clear bit is low in its word. -/

namespace Tern

open Lib

/-- The bits from `s` to `s + n - 1` exist and are clear. -/
def ClearRun (b : CptrBitmap) (n s : Nat) : Prop :=
  ∀ c, s ≤ c → c < s + n → c < 64 * 512 ∧ b.taken c = false

/-- `r` is the first run of `n` clear bits, and `b'` has these bits set as well;
there is none only if there is no such run, and then nothing changes. -/
structure TakesFirst (b : CptrBitmap) (n : Nat) (r : Option Nat) (b' : CptrBitmap) : Prop where
  least : ∀ s, r = some s → IsLeast {s | ClearRun b n s} s
  sets : ∀ s, r = some s → ∀ c, b'.taken c = (b.taken c || decide (s ≤ c ∧ c < s + n))
  none_iff : r = none ↔ ∀ s, ¬ClearRun b n s
  unchanged : r = none → b' = b

theorem clearRun_iff_fits {b : CptrBitmap} {n s : Nat} :
    ClearRun b n s ↔ CptrCall.Fits (.allocRange n) b s := by
  constructor
  · intro h c hc
    exact (h c hc.1 hc.2).2
  · intro h c hle hlt
    have hfree := h c ⟨hle, hlt⟩
    have hin := Bitmap.lt_of_not_taken hfree
    exact ⟨by omega, hfree⟩

theorem clearRun_one {b : CptrBitmap} {c : Nat} : ClearRun b 1 c ↔ b.taken c = false := by
  constructor
  · intro h
    exact (h c le_rfl (by omega)).2
  · intro h d hle hlt
    obtain rfl : d = c := by omega
    have hin := Bitmap.lt_of_not_taken h
    exact ⟨by omega, h⟩

/-- Only one result is a first fit. -/
theorem TakesFirst.unique {b b₁ b₂ : CptrBitmap} {n : Nat} {r₁ r₂ : Option Nat}
    (h₁ : TakesFirst b n r₁ b₁) (h₂ : TakesFirst b n r₂ b₂) : r₁ = r₂ ∧ b₁ = b₂ := by
  cases r₁ with
  | none =>
    obtain rfl : r₂ = none := h₂.none_iff.mpr (h₁.none_iff.mp rfl)
    exact ⟨rfl, (h₁.unchanged rfl).trans (h₂.unchanged rfl).symm⟩
  | some s =>
    cases r₂ with
    | none => exact absurd (h₁.least s rfl).1 (h₂.none_iff.mp rfl s)
    | some t =>
      obtain rfl : s = t := (h₁.least s rfl).unique (h₂.least t rfl)
      refine ⟨rfl, Bitmap.eq_of_taken fun c => ?_⟩
      rw [h₁.sets s rfl, h₂.sets s rfl]

/-- For every bitmap and every `n` from 1 on. -/
theorem cptr_alloc_range_first (b : CptrBitmap) {n : Nat} (hn : 1 ≤ n) :
    ∃ r b', cptrAllocRange b n = some (r, b') ∧ TakesFirst b n r b' := by
  obtain ⟨r, b', hrun, hfound⟩ := cptrAllocRange_spec b hn
  refine ⟨r, b', hrun, ?_⟩
  rcases hfound with ⟨rfl, rfl, hnot⟩ | ⟨q, rfl, hq, hfirst, htaken⟩
  · refine ⟨nofun, nofun, ?_, fun _ => rfl⟩
    exact iff_of_true rfl fun s hs => hnot s (clearRun_iff_fits.mp hs)
  · have hrun : ClearRun b n q := clearRun_iff_fits.mpr hq
    refine ⟨?_, ?_, ?_, nofun⟩
    · rintro s ⟨⟩
      exact ⟨hrun, fun p hp => hfirst p (clearRun_iff_fits.mp hp)⟩
    · rintro s ⟨⟩ c
      rw [Bool.eq_iff_iff, htaken c, Bool.or_eq_true, decide_eq_true_eq]
      rfl
    · exact iff_of_false nofun fun hnone => hnone q hrun

/-- A run across the end of a word of an empty bitmap, with the first 40 bits
already set. -/
theorem cptr_alloc_range_first_across :
    ∃ b r b', cptrAllocRange b 30 = some (r, b') ∧ TakesFirst b 30 r b' ∧ r = some 40 := by
  obtain ⟨b, hb⟩ := modifyAll_isSome (f := fun i => (· ||| 1#64 <<< (i % 64)))
    (l := List.range 40) (fun i hi => by have := List.mem_range.mp hi; omega)
    (Bitmap.zeros 64 512)
  have htaken : ∀ c < 64 * 512, b.taken c = decide (c < 40) := by
    intro c hc
    rw [takeAll hb c, Bitmap.taken_zeros (by omega), Bool.false_or]
    simp only [List.mem_range]
  obtain ⟨r, b', hrun, hfirst⟩ := cptr_alloc_range_first b (n := 30) (by decide)
  refine ⟨b, r, b', hrun, hfirst, ?_⟩
  have hclear : ClearRun b 30 40 := by
    intro c hle hlt
    refine ⟨by omega, ?_⟩
    rw [htaken c (by omega), decide_eq_false_iff_not]
    omega
  cases r with
  | none => exact absurd hclear (hfirst.none_iff.mp rfl 40)
  | some s =>
    have hleast := hfirst.least s rfl
    have hle : s ≤ 40 := hleast.2 hclear
    have hfree := (hleast.1 s le_rfl (by omega)).2
    rw [htaken s (by omega), decide_eq_false_iff_not] at hfree
    rw [show s = 40 by omega]

/-! ## `cptr_alloc` -/

/-- A low bit's mask has only that bit. -/
theorem masks_iff_of_low {c d : Nat} (hc : c % 64 < 31) : Masks c d ↔ d = c := by
  unfold Masks
  omega

/-- Low in its word, the first clear bit is the first place that fits. -/
theorem fits_of_low {b : CptrBitmap} {c : Nat} (hfree : b.taken c = false) (hc : c % 64 < 31) :
    CptrCall.Fits .alloc b c := by
  intro d hd
  obtain rfl := (masks_iff_of_low hc).mp hd
  exact hfree

/-- Nothing that is set by a call whose first clear bit is low was set before. -/
theorem FirstFit.takesFirst {b b' : CptrBitmap} {r : Option Nat} (h : FirstFit .alloc b r b')
    (hlow : ∀ c, IsLeast {c | b.taken c = false} c → c % 64 < 31) : TakesFirst b 1 r b' := by
  by_cases hclear : ∃ c, b.taken c = false
  · have hleast : IsLeast {c | b.taken c = false} (Nat.find hclear) :=
      ⟨Nat.find_spec hclear, fun c hc => Nat.find_min' hclear hc⟩
    generalize Nat.find hclear = c at hleast
    have hc := hlow c hleast
    have hfits := fits_of_low hleast.1 hc
    rcases h with ⟨-, -, hnot⟩ | ⟨q, rfl, hq, hfirst, hmarks⟩
    · exact absurd hfits (hnot c)
    · -- no place before the first clear bit fits
      have hle := hfirst c hfits
      have hge : c ≤ 64 * (q / 64) + q % 32 := hleast.2 (hq _ (masks_low q))
      obtain rfl : q = c := by omega
      refine ⟨?_, ?_, ?_, nofun⟩
      · rintro s ⟨⟩
        exact ⟨clearRun_one.mpr hleast.1, fun p hp => hleast.2 (clearRun_one.mp hp)⟩
      · rintro s ⟨⟩ d
        rw [Bool.eq_iff_iff, hmarks d, Bool.or_eq_true, decide_eq_true_eq]
        refine or_congr_right ((masks_iff_of_low hc).trans ?_)
        omega
      · exact iff_of_false nofun fun hnone => hnone q (clearRun_one.mpr hleast.1)
  · have hnone : ∀ s, b.taken s ≠ false := fun s hs => hclear ⟨s, hs⟩
    rcases h with ⟨rfl, rfl, -⟩ | ⟨q, rfl, hq, -⟩
    · exact ⟨nofun, nofun, iff_of_true rfl fun s hs => hnone s (clearRun_one.mp hs), fun _ => rfl⟩
    · exact absurd (hq _ (masks_low q)) (hnone _)

/-- A call that takes the first clear bit and no other: that bit is low. -/
theorem FirstFit.low {b b' : CptrBitmap} {r : Option Nat} (h : FirstFit .alloc b r b')
    (htakes : TakesFirst b 1 r b') {c : Nat} (hleast : IsLeast {c | b.taken c = false} c) :
    c % 64 < 31 := by
  rcases h with ⟨rfl, -, -⟩ | ⟨q, rfl, hq, -, hmarks⟩
  · exact absurd (clearRun_one.mpr hleast.1) (htakes.none_iff.mp rfl c)
  · have hfirst := htakes.least q rfl
    obtain rfl : q = c := by
      refine le_antisymm (hfirst.2 (clearRun_one.mpr hleast.1)) ?_
      exact hleast.2 (clearRun_one.mp hfirst.1)
    by_contra hhigh
    -- the mask of a higher bit starts before it, or covers the next one as well
    have hlow : q ≤ 64 * (q / 64) + q % 32 := hleast.2 (hq _ (masks_low q))
    have hmask : Masks q (q + 1) := ⟨by omega, by omega⟩
    have hset := (hmarks (q + 1)).mpr (.inr hmask)
    rw [htakes.sets q rfl, hq _ hmask, Bool.false_or, decide_eq_true_eq] at hset
    omega

/-- `cptr_alloc` takes the first clear bit and no other, as
`cptr_alloc_range (1)` does, if and only if that bit is one of the first 31 of
its word, or no bit is clear. -/
theorem cptr_alloc_first_iff (b : CptrBitmap) :
    (∃ r b', cptrAlloc b = some (r, b') ∧ cptrAllocRange b 1 = some (r, b') ∧
      TakesFirst b 1 r b') ↔ ∀ c, IsLeast {c | b.taken c = false} c → c % 64 < 31 := by
  obtain ⟨r, b₁, hrun, hfound⟩ := cptrAlloc_spec b
  constructor
  · rintro ⟨r', b', hrun', -, htakes⟩ c hleast
    rw [hrun] at hrun'
    cases hrun'
    exact hfound.low htakes hleast
  · intro hlow
    have htakes := hfound.takesFirst hlow
    obtain ⟨r', b₂, hrange, hfirst⟩ := cptr_alloc_range_first b (n := 1) le_rfl
    obtain ⟨rfl, rfl⟩ := htakes.unique hfirst
    exact ⟨r, b₁, hrun, hrange, htakes⟩

/-- Right after `cptr_alloc_init` on the empty range [95, 4096), the first clear
bit is the bit 31 of its word: 33 bits are set and one cptr is handed out. -/
theorem cptr_alloc_takes_more : ∃ b r b',
    cptrAllocInit ⟨⟨95, 4096⟩⟩ (Bitmap.zeros 64 512) = some b ∧
    cptrAlloc b = some (r, b') ∧ ¬TakesFirst b 1 r b' ∧
    r = some 95 ∧ b.taken 127 = false ∧ b'.taken 127 = true := by
  obtain ⟨b, hb, -⟩ := cptr_start ⟨⟨95, 4096⟩⟩ (by decide)
  have htaken : ∀ c, c / 64 < 512 → (b.taken c = true ↔ c < 95) := by
    intro c hc
    rw [cptrAllocInit_taken hb hc]
    simp only [initCnodeSlots]
    omega
  have hclear : ∀ c, 95 ≤ c → c / 64 < 512 → b.taken c = false := by
    intro c hle hc
    rw [← Bool.not_eq_true, htaken c hc]
    omega
  have hleast : IsLeast {c | b.taken c = false} 95 := by
    refine ⟨hclear 95 le_rfl (by decide), fun c hc => ?_⟩
    have hin := Bitmap.lt_of_not_taken hc
    have hnot := (htaken c hin).not.mp (by rw [show b.taken c = false from hc]; decide)
    omega
  have hfits : CptrCall.Fits .alloc b 95 := by
    rintro c ⟨hword, hmask⟩
    exact hclear c (by omega) (by omega)
  obtain ⟨r, b', hrun, hfound⟩ := cptrAlloc_spec b
  have hmore : ¬TakesFirst b 1 r b' := fun htakes =>
    absurd (hfound.low htakes hleast) (by decide)
  rcases hfound with ⟨-, -, hnone⟩ | ⟨q, rfl, hq, hfirst, hmarks⟩
  · exact absurd hfits (hnone 95)
  · have hle := hfirst 95 hfits
    have hge : 95 ≤ 64 * (q / 64) + q % 32 := hleast.2 (hq _ (masks_low q))
    obtain rfl : q = 95 := by omega
    exact ⟨b, _, b', hb, hrun, hmore, rfl, hclear 127 (by decide) (by decide),
      (hmarks 127).mpr (.inr ⟨rfl, .inr (by decide)⟩)⟩

end Tern
