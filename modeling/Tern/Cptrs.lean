import Mathlib.Order.Interval.Set.Defs
import Mathlib.Data.Set.Lattice
import Mathlib.Order.CompletePartialOrder
import Tern.Lib.Bitmap
import Tern.Lib.Transition
import Tern.Basic

/-! The allocator of capability pointers in the user library. Its bitmap has a
bit for 32768 cptrs, eight times as many as the initial cnode has slots, and two
of its functions shift an `int` where the others shift a 64-bit word. -/

namespace Tern

open Lib

/-- `struct cap_range`. -/
structure CapRange where
  start : Nat
  stop : Nat
  deriving DecidableEq, Repr

/-- What `cptr_alloc_init` reads of `struct boot_info`. -/
structure BootInfo where
  emptyRange : CapRange
  deriving DecidableEq, Repr

/-- `uint64_t bitmap[BITMAP_SIZE]`. -/
abbrev CptrBitmap := Bitmap 64 512

/-! In the functions below `none` is an access outside of the array, and `none`
as a cptr is -1. -/

def cptrSetRange (b : CptrBitmap) (start stop : Nat) : Option CptrBitmap :=
  (List.range' start (stop - start)).foldlM
    (fun b i => b.modify (i / 64) (· ||| 1#64 <<< (i % 64))) b

def cptrClearRange (b : CptrBitmap) (start stop : Nat) : Option CptrBitmap :=
  (List.range' start (stop - start)).foldlM
    (fun b i => b.modify (i / 64) (· &&& ~~~(1#64 <<< (i % 64)))) b

/-- `BIT (INIT_CNODE_SIZE_BITS)`. -/
def initCnodeSlots : Nat := 2 ^ 12

def cptrAllocInit (bi : BootInfo) (b : CptrBitmap) : Option CptrBitmap := do
  let b ← cptrSetRange b 0 initCnodeSlots
  cptrClearRange b bi.emptyRange.start bi.emptyRange.stop

/-- `1 << j`: an `int`, so the count is taken modulo 32. -/
def intBit (j : Nat) : BitVec 32 := 1#32 <<< (j % 32)

def cptrAlloc (b : CptrBitmap) : Option (Option Nat × CptrBitmap) :=
  let found := (List.range 512).findSome? fun i =>
    if b.word i != BitVec.allOnes 64 then
      ((List.range 64).find? fun j => b.word i &&& (intBit j).signExtend 64 == 0#64).map (i, ·)
    else none
  match found with
  | some (i, j) => do
    let b ← b.modify i (· ||| (intBit j).signExtend 64)
    return (some (i * 64 + j), b)
  | none => return (none, b)

/-- The loop over `k` that computes `found`. -/
def cptrRangeFound (b : CptrBitmap) (n i j : Nat) : Bool :=
  (List.range n).all fun k =>
    !(512 ≤ i + (j + k) / 64 || b.word (i + (j + k) / 64) &&& 1#64 <<< ((j + k) % 64) != 0#64)

/-- The loop over `j` stands inside another one, whose `j` nothing reads. -/
def cptrAllocRange (b : CptrBitmap) (n : Nat) : Option (Option Nat × CptrBitmap) :=
  let found := (List.range 512).findSome? fun i =>
    if b.word i != BitVec.allOnes 64 then
      (List.range 64).findSome? fun _ =>
        ((List.range 64).find? fun j => cptrRangeFound b n i j).map (i, ·)
    else none
  match found with
  | some (i, j) => do
    let b ← (List.range n).foldlM (fun b k =>
      b.modify ((i * 64 + j + k) / 64) (· ||| 1#64 <<< ((j + k) % 64))) b
    return (some (i * 64 + j), b)
  | none => return (none, b)

def cptrFree (b : CptrBitmap) (cptr : Nat) : Option CptrBitmap :=
  b.modify (cptr / 64) (· &&& (~~~intBit (cptr % 64)).signExtend 64)

/-- The bits that `1 << (c % 64)` covers in the word of `c`. -/
def Masks (c d : Nat) : Prop := d / 64 = c / 64 ∧ (d % 64 = c % 32 ∨ c % 32 = 31 ∧ 31 ≤ d % 64)

instance (c d : Nat) : Decidable (Masks c d) := inferInstanceAs (Decidable (_ ∧ _))

theorem oneShift_getLsbD {j k : Nat} (hk : k < 64) :
    (1#64 <<< j).getLsbD k = (k == j) := by
  rw [BitVec.getLsbD_shiftLeft, BitVec.getLsbD_one]
  grind

theorem intBit_getLsbD {j k : Nat} (hk : k < 64) :
    ((intBit j).signExtend 64).getLsbD k = decide (k = j % 32 ∨ j % 32 = 31 ∧ 31 ≤ k) := by
  have hmsb : (intBit j).msb = decide (j % 32 = 31) := by
    simp [intBit, BitVec.msb_eq_getLsbD_last]
    grind
  rw [BitVec.getLsbD_signExtend, hmsb]
  simp only [intBit, BitVec.getLsbD_shiftLeft, BitVec.getLsbD_one]
  grind

theorem notIntBit_getLsbD {j k : Nat} (hk : k < 64) :
    ((~~~intBit j).signExtend 64).getLsbD k = !((intBit j).signExtend 64).getLsbD k := by
  simp [hk]

theorem and_eq_zero_iff {x m : Word} :
    (x &&& m == 0#64) = true ↔ ∀ k < 64, m.getLsbD k → x.getLsbD k = false := by
  rw [beq_iff_eq]
  constructor
  · intro h k hk hm
    have hbit := congrArg (BitVec.getLsbD · k) h
    simpa [hm] using hbit
  · intro h
    refine BitVec.eq_of_getLsbD_eq fun k hk => ?_
    have hbit := h k hk
    cases hm : m.getLsbD k <;> simp_all

/-! ## What the loops do to the bits -/

theorem takeAll {l : List Nat} {b b' : CptrBitmap}
    (h : l.foldlM (fun b i => b.modify (i / 64) (· ||| 1#64 <<< (i % 64))) b = some b') (c : Nat) :
    b'.taken c = (b.taken c || decide (c ∈ l)) := by
  induction l generalizing b with
  | nil =>
    cases h
    simp
  | cons i l ih =>
    obtain ⟨b₁, hb₁, hrest⟩ := Option.bind_eq_some_iff.mp h
    have hbit : (c / 64 == i / 64 && (1#64 <<< (i % 64)).getLsbD (c % 64)) = decide (c = i) := by
      rw [oneShift_getLsbD (Nat.mod_lt _ (by decide))]
      grind
    rw [ih hrest, Bitmap.taken_or hb₁, hbit]
    simp [Bool.or_assoc]

/-- A loop over places of the array ends. -/
theorem modifyAll_isSome {f : Nat → Word → Word} {l : List Nat} (hl : ∀ i ∈ l, i / 64 < 512)
    (b : CptrBitmap) : ∃ b', l.foldlM (fun b i => b.modify (i / 64) (f i)) b = some b' := by
  induction l generalizing b with
  | nil => exact ⟨b, rfl⟩
  | cons i l ih =>
    obtain ⟨b₁, hb₁⟩ := b.modify_isSome (hl i List.mem_cons_self) (f i)
    obtain ⟨b', hb'⟩ := ih (fun k hk => hl k (List.mem_cons_of_mem i hk)) b₁
    exact ⟨b', Option.bind_eq_some_iff.mpr ⟨b₁, hb₁, hb'⟩⟩

theorem releaseAll {l : List Nat} {b b' : CptrBitmap}
    (h : l.foldlM (fun b i => b.modify (i / 64) (· &&& ~~~(1#64 <<< (i % 64)))) b = some b')
    {c : Nat} (hc : c / 64 < 512) : b'.taken c = (b.taken c && decide (c ∉ l)) := by
  induction l generalizing b with
  | nil =>
    cases h
    simp
  | cons i l ih =>
    obtain ⟨b₁, hb₁, hrest⟩ := Option.bind_eq_some_iff.mp h
    have hbit : (!(c / 64 == i / 64) || (~~~(1#64 <<< (i % 64))).getLsbD (c % 64)) =
        decide (c ≠ i) := by
      have hlt : c % 64 < 64 := Nat.mod_lt _ (by decide)
      rw [BitVec.getLsbD_not, oneShift_getLsbD hlt]
      grind
    rw [ih hrest, Bitmap.taken_and hb₁ hc, hbit]
    simp [Bool.and_assoc]

/-- `cptr_alloc_init` stays inside the array if the empty range does. -/
theorem cptrAllocInit_isSome {bi : BootInfo} (h : bi.emptyRange.stop ≤ 64 * 512)
    (b : CptrBitmap) : ∃ b', cptrAllocInit bi b = some b' := by
  have hin : ∀ start stop, stop ≤ 64 * 512 → ∀ i ∈ List.range' start (stop - start), i / 64 < 512 := by
    intro start stop hstop i hi
    have hi := List.mem_range'_1.mp hi
    omega
  obtain ⟨b₁, hset⟩ := modifyAll_isSome (f := fun i => (· ||| 1#64 <<< (i % 64)))
    (hin 0 initCnodeSlots (by decide)) b
  obtain ⟨b', hclear⟩ := modifyAll_isSome (f := fun i => (· &&& ~~~(1#64 <<< (i % 64))))
    (hin _ _ h) b₁
  refine ⟨b', ?_⟩
  unfold cptrAllocInit
  exact Option.bind_eq_some_iff.mpr ⟨b₁, hset, hclear⟩

/-- After `cptr_alloc_init` the slots of the initial cnode outside of the empty
range are taken, and nothing else. -/
theorem cptrAllocInit_taken {bi : BootInfo} {b : CptrBitmap}
    (h : cptrAllocInit bi (Bitmap.zeros 64 512) = some b) {c : Nat} (hc : c / 64 < 512) :
    b.taken c = true ↔
      c < initCnodeSlots ∧ ¬(bi.emptyRange.start ≤ c ∧ c < bi.emptyRange.stop) := by
  unfold cptrAllocInit at h
  obtain ⟨b₁, hset, hclear⟩ := Option.bind_eq_some_iff.mp h
  rw [releaseAll hclear hc, takeAll hset c, Bitmap.taken_zeros hc]
  simp only [List.mem_range'_1, Bool.false_or, Bool.and_eq_true, decide_eq_true_eq]
  omega

theorem cptrFree_taken {b b' : CptrBitmap} {cptr c : Nat} (h : cptrFree b cptr = some b')
    (hc : c / 64 < 512) : b'.taken c = true ↔ b.taken c = true ∧ ¬Masks cptr c := by
  have hlt : c % 64 < 64 := Nat.mod_lt _ (by decide)
  rw [Bitmap.taken_and h hc, notIntBit_getLsbD hlt, intBit_getLsbD hlt, Masks]
  have hmod : cptr % 64 % 32 = cptr % 32 := Nat.mod_mod_of_dvd _ (by decide)
  rw [hmod]
  simp only [Bool.and_eq_true, Bool.or_eq_true, Bool.not_eq_true', beq_eq_false_iff_ne,
    decide_eq_false_iff_not]
  tauto

/-! ## The calls -/

inductive CptrCall
  | alloc
  | allocRange (n : Nat)
  | free (cptr : Nat)
  deriving DecidableEq, Repr

namespace CptrCall

/-- What the call returns, and the bitmap after it. -/
def run : CptrCall → CptrBitmap → Option (Option Nat × CptrBitmap)
  | .alloc, b => cptrAlloc b
  | .allocRange n, b => cptrAllocRange b n
  | .free cptr, b => (cptrFree b cptr).map (none, ·)

/-- How many cptrs the call asks for. -/
def size : CptrCall → Nat
  | .alloc => 1
  | .allocRange n => n
  | .free _ => 0

/-- The cptrs handed out by a call that returns `r`. -/
def cptrs (l : CptrCall) (r : Option Nat) : Set Nat :=
  {c | ∃ q, r = some q ∧ q ≤ c ∧ c < q + l.size}

/-- The cptrs given back. -/
def freed : CptrCall → Set Nat
  | .free cptr => {cptr}
  | _ => ∅

/-- The bits that the call sets when it returns `q`. -/
def Marks : CptrCall → Nat → Nat → Prop
  | .alloc, q, c => Masks q c
  | .allocRange n, q, c => q ≤ c ∧ c < q + n
  | .free _, _, _ => False

/-- The bits that the call would set for `q` are clear. -/
def Fits (l : CptrCall) (b : CptrBitmap) (q : Nat) : Prop :=
  ∀ c, l.Marks q c → b.taken c = false

/-- The call asks for at least one cptr. -/
def Allocates : CptrCall → Prop
  | .alloc => True
  | .allocRange n => 1 ≤ n
  | .free _ => False

end CptrCall

/-- A search that sets what it found: the first place that fits. -/
def FirstFit (l : CptrCall) (b : CptrBitmap) (r : Option Nat) (b' : CptrBitmap) : Prop :=
  (r = none ∧ b' = b ∧ ∀ p, ¬l.Fits b p) ∨
    ∃ q, r = some q ∧ l.Fits b q ∧ (∀ p, l.Fits b p → q ≤ p) ∧
      ∀ c, b'.taken c = true ↔ b.taken c = true ∨ l.Marks q c

theorem masks_self {c : Nat} (hc : c % 64 < 32) : Masks c c :=
  ⟨rfl, .inl (by omega)⟩

/-- The place in the word of `p` whose bit the mask of `p` starts with. -/
theorem masks_low (p : Nat) : Masks p (64 * (p / 64) + p % 32) := by
  refine ⟨by omega, .inl (by omega)⟩

theorem masks_mod {p c : Nat} : Masks (64 * (p / 64) + p % 32) c ↔ Masks p c := by
  unfold Masks
  have hdiv : (64 * (p / 64) + p % 32) / 64 = p / 64 := by omega
  have hmod : (64 * (p / 64) + p % 32) % 32 = p % 32 := by omega
  rw [hdiv, hmod]

theorem CptrCall.Fits.lt {l : CptrCall} {b : CptrBitmap} {p : Nat} (hl : l.Allocates)
    (h : l.Fits b p) : p / 64 < 512 := by
  cases l with
  | alloc =>
    have hlow := Bitmap.lt_of_not_taken (h _ (masks_low p))
    omega
  | allocRange n =>
    have hn : 1 ≤ n := hl
    exact Bitmap.lt_of_not_taken (h p ⟨le_rfl, by omega⟩)
  | free _ => exact hl.elim

/-- A place that fits has a clear bit in its word. -/
theorem CptrCall.Fits.word_ne {l : CptrCall} {b : CptrBitmap} {p : Nat} (hl : l.Allocates)
    (h : l.Fits b p) : b.word (p / 64) ≠ BitVec.allOnes 64 := by
  obtain ⟨c, hword, hc⟩ : ∃ c, c / 64 = p / 64 ∧ b.taken c = false := by
    cases l with
    | alloc =>
      exact ⟨_, (masks_low p).1, h _ (masks_low p)⟩
    | allocRange n =>
      have hn : 1 ≤ n := hl
      exact ⟨p, rfl, h p ⟨le_rfl, by omega⟩⟩
    | free _ => exact hl.elim
  intro hones
  have hlt : c % 64 < 64 := Nat.mod_lt _ (by decide)
  rw [← Bitmap.word_getLsbD (Bitmap.lt_of_not_taken hc) rfl, hword, hones,
    BitVec.getLsbD_allOnes, decide_eq_false_iff_not] at hc
  exact hc hlt

/-- The search of a call whose test is `P`. -/
theorem search_spec {l : CptrCall} {b : CptrBitmap} {P : Nat → Nat → Bool} (hl : l.Allocates)
    (hP : ∀ p, p / 64 < 512 → (P (p / 64) (p % 64) = true ↔ l.Fits b p)) :
    let found := (List.range 512).findSome? fun i =>
      if b.word i != BitVec.allOnes 64 then ((List.range 64).find? (P i)).map (i, ·) else none
    (found = none ∧ ∀ p, ¬l.Fits b p) ∨
      ∃ q, found = some (q / 64, q % 64) ∧ l.Fits b q ∧ ∀ p, l.Fits b p → q ≤ p := by
  intro found
  have hfound : found = ((List.range (64 * 512)).find? fun p => P (p / 64) (p % 64)).map
      fun p => (p / 64, p % 64) := by
    refine findSome_words 512 Prod.mk fun i j hi hj hPij => ?_
    have hdiv : (64 * i + j) / 64 = i := by omega
    have hmod : (64 * i + j) % 64 = j := by omega
    have hfits := (hP (64 * i + j) (by omega)).mp (by rwa [hdiv, hmod])
    have hne := hfits.word_ne hl
    rw [hdiv] at hne
    exact bne_iff_ne.mpr hne
  rw [hfound]
  rcases find_range_spec (64 * 512) fun p => P (p / 64) (p % 64) with
    ⟨hnone, hnot⟩ | ⟨q, hq, hsome, hPq, hfirst⟩
  · refine .inl ⟨by rw [hnone, Option.map_none], fun p hp => ?_⟩
    have hlt := hp.lt hl
    have hno := hnot p (by omega)
    rw [(hP p hlt).mpr hp] at hno
    cases hno
  · refine .inr ⟨q, by rw [hsome, Option.map_some], (hP q (by omega)).mp hPq, fun p hp => ?_⟩
    exact hfirst p ((hP p (hp.lt hl)).mpr hp)

theorem cptrAlloc_test {b : CptrBitmap} {p : Nat} (hp : p / 64 < 512) :
    (b.word (p / 64) &&& (intBit (p % 64)).signExtend 64 == 0#64) = true ↔
      CptrCall.Fits .alloc b p := by
  rw [and_eq_zero_iff]
  constructor
  · rintro h c ⟨hword, hmask⟩
    have hlt : c % 64 < 64 := Nat.mod_lt _ (by decide)
    have hbit := h (c % 64) hlt (by rw [intBit_getLsbD hlt, decide_eq_true_eq]; omega)
    rwa [← hword, Bitmap.word_getLsbD (by omega) rfl] at hbit
  · intro h k hk hm
    rw [intBit_getLsbD hk, decide_eq_true_eq] at hm
    have hdiv : (64 * (p / 64) + k) / 64 = p / 64 := by omega
    have hmod : (64 * (p / 64) + k) % 64 = k := by omega
    have hbit := h (64 * (p / 64) + k) ⟨hdiv, by omega⟩
    rwa [← Bitmap.word_getLsbD (by omega) hmod, hdiv] at hbit

theorem cptrAlloc_spec (b : CptrBitmap) :
    ∃ r b', cptrAlloc b = some (r, b') ∧ FirstFit .alloc b r b' := by
  unfold cptrAlloc
  rcases search_spec (l := .alloc) (b := b)
    (P := fun i j => b.word i &&& (intBit j).signExtend 64 == 0#64) trivial
    (fun p hp => cptrAlloc_test hp) with
    ⟨hnone, hnot⟩ | ⟨q, hsome, hq, hfirst⟩
  · exact ⟨none, b, by rw [hnone]; rfl, .inl ⟨rfl, rfl, hnot⟩⟩
  · have hlt : q / 64 < 512 := CptrCall.Fits.lt (l := .alloc) trivial hq
    obtain ⟨b', hb'⟩ := b.modify_isSome hlt (· ||| (intBit (q % 64)).signExtend 64)
    refine ⟨some q, b', ?_, .inr ⟨q, rfl, hq, hfirst, fun c => ?_⟩⟩
    · have hplace : q / 64 * 64 + q % 64 = q := by omega
      simp only [hsome, hb', hplace]
      rfl
    · have hc : c % 64 < 64 := Nat.mod_lt _ (by decide)
      rw [Bitmap.taken_or hb', intBit_getLsbD hc, Bool.or_eq_true, Bool.and_eq_true, beq_iff_eq,
        decide_eq_true_eq, Nat.mod_mod_of_dvd q (by decide)]
      rfl

theorem cptrRangeFound_iff {b : CptrBitmap} {n p : Nat} :
    cptrRangeFound b n (p / 64) (p % 64) = true ↔ CptrCall.Fits (.allocRange n) b p := by
  have hbit : ∀ k, (!(512 ≤ p / 64 + (p % 64 + k) / 64 ||
      b.word (p / 64 + (p % 64 + k) / 64) &&& 1#64 <<< ((p % 64 + k) % 64) != 0#64)) = true ↔
      b.taken (p + k) = false := by
    intro k
    have hdiv : p / 64 + (p % 64 + k) / 64 = (p + k) / 64 := by omega
    have hmod : (p % 64 + k) % 64 = (p + k) % 64 := by omega
    have hlt : (p + k) % 64 < 64 := Nat.mod_lt _ (by decide)
    rw [hdiv, hmod, Bool.not_eq_true', Bool.or_eq_false_iff, decide_eq_false_iff_not,
      bne_eq_false_iff_eq, ← beq_iff_eq, and_eq_zero_iff]
    constructor
    · rintro ⟨hin, hbit⟩
      have hb := hbit ((p + k) % 64) hlt (by rw [oneShift_getLsbD hlt, beq_self_eq_true])
      rwa [Bitmap.word_getLsbD (by omega) rfl] at hb
    · intro hb
      have hin := Bitmap.lt_of_not_taken hb
      refine ⟨by omega, fun j hj hm => ?_⟩
      rw [oneShift_getLsbD hj, beq_iff_eq] at hm
      rwa [hm, Bitmap.word_getLsbD hin rfl]
  unfold cptrRangeFound
  rw [List.all_eq_true]
  constructor
  · rintro h c ⟨hle, hlt⟩
    have hk := (hbit (c - p)).mp (h (c - p) (List.mem_range.mpr (by omega)))
    rwa [Nat.add_sub_cancel' hle] at hk
  · intro h k hk
    have hk := List.mem_range.mp hk
    exact (hbit k).mpr (h (p + k) ⟨by omega, by omega⟩)

theorem findSome_const {α β : Type*} {l : List α} (hl : l ≠ []) (x : Option β) :
    l.findSome? (fun _ => x) = x := by
  cases l with
  | nil => exact absurd rfl hl
  | cons a l => cases x <;> simp

theorem cptrAllocRange_spec (b : CptrBitmap) {n : Nat} (hn : 1 ≤ n) :
    ∃ r b', cptrAllocRange b n = some (r, b') ∧ FirstFit (.allocRange n) b r b' := by
  unfold cptrAllocRange
  simp only [findSome_const (l := List.range 64) (by decide)]
  rcases search_spec (l := .allocRange n) (b := b) (P := cptrRangeFound b n) hn
    (fun p _ => cptrRangeFound_iff) with
    ⟨hnone, hnot⟩ | ⟨q, hsome, hq, hfirst⟩
  · exact ⟨none, b, by rw [hnone]; rfl, .inl ⟨rfl, rfl, hnot⟩⟩
  · have hplace : q / 64 * 64 + q % 64 = q := by omega
    have hloop : ∀ b : CptrBitmap, (List.range n).foldlM (fun b k =>
        b.modify ((q / 64 * 64 + q % 64 + k) / 64) (· ||| 1#64 <<< ((q % 64 + k) % 64))) b =
        ((List.range n).map (q + ·)).foldlM
          (fun b i => b.modify (i / 64) (· ||| 1#64 <<< (i % 64))) b := by
      intro b
      rw [List.foldlM_map, hplace]
      have hmod : ∀ k, (q % 64 + k) % 64 = (q + k) % 64 := by omega
      simp only [hmod]
    have hin : ∀ i ∈ (List.range n).map (q + ·), i / 64 < 512 := by
      intro i hi
      obtain ⟨k, hk, rfl⟩ := List.mem_map.mp hi
      have hk := List.mem_range.mp hk
      exact Bitmap.lt_of_not_taken (hq (q + k) ⟨by omega, by omega⟩)
    obtain ⟨b', hb'⟩ := modifyAll_isSome (f := fun i => (· ||| 1#64 <<< (i % 64))) hin b
    refine ⟨some q, b', ?_, .inr ⟨q, rfl, hq, hfirst, fun c => ?_⟩⟩
    · rw [hsome]
      dsimp only
      rw [hloop, hb', hplace]
      rfl
    · rw [takeAll hb' c, Bool.or_eq_true, decide_eq_true_eq, List.mem_map]
      refine or_congr_right ⟨?_, fun ⟨hle, hlt⟩ => ?_⟩
      · rintro ⟨k, hk, rfl⟩
        have hk := List.mem_range.mp hk
        exact ⟨by omega, by omega⟩
      · exact ⟨c - q, List.mem_range.mpr (by omega), by omega⟩

theorem CptrCall.run_spec {l : CptrCall} (hl : l.Allocates) (b : CptrBitmap) :
    ∃ r b', l.run b = some (r, b') ∧ FirstFit l b r b' := by
  cases l with
  | alloc => exact cptrAlloc_spec b
  | allocRange n =>
    have hrange := cptrAllocRange_spec b (n := n) hl
    exact hrange
  | free _ => exact hl.elim

/-- What fits at the first place is free: the cptrs from there on. -/
theorem FirstFit.free {l : CptrCall} {b b' : CptrBitmap} {r : Option Nat} (hl : l.Allocates)
    (h : FirstFit l b r b') {c : Nat} (hc : c ∈ l.cptrs r) :
    b.taken c = false ∧ b'.taken c = true := by
  obtain ⟨q, rfl, hle, hlt⟩ := hc
  rcases h with ⟨hr, -⟩ | ⟨_, hr, hfits, hfirst, htaken⟩
  · cases hr
  · cases hr
    have hmark : l.Marks q c := by
      cases l with
      | alloc =>
        -- a place in the upper half of a word fits only if one in the lower half does
        have hlow := hfirst (64 * (q / 64) + q % 32) fun d hd =>
          hfits d ((masks_mod (p := q) (c := d)).mp hd)
        have hsize : c < q + 1 := hlt
        obtain rfl : c = q := by omega
        exact masks_self (by omega)
      | allocRange n => exact ⟨hle, hlt⟩
      | free _ => exact hl.elim
    exact ⟨hfits c hmark, (htaken c).mpr (.inr hmark)⟩

theorem FirstFit.mono {l : CptrCall} {b b' : CptrBitmap} {r : Option Nat}
    (h : FirstFit l b r b') {c : Nat} (hc : b.taken c = true) : b'.taken c = true := by
  rcases h with ⟨-, rfl, -⟩ | ⟨q, -, -, -, htaken⟩
  · exact hc
  · exact (htaken c).mpr (.inl hc)

/-! ## Runs -/

/-- The bitmap, and the cptrs that were returned so far and those of them that
were not freed since. -/
structure CptrState where
  bitmap : CptrBitmap
  returned : Set Nat
  live : Set Nat

/-- A call that the allocator's users may make: only cptrs that were returned are
freed. -/
def CptrCall.Valid (s : CptrState) : CptrCall → Prop
  | .free cptr => cptr ∈ s.returned
  | l => l.Allocates

def cptrSystem (bi : BootInfo) : Transition CptrState CptrCall where
  start s := cptrAllocInit bi (Bitmap.zeros 64 512) = some s.bitmap ∧ s.returned = ∅ ∧ s.live = ∅
  step s l t := l.Valid s ∧ ∃ r, l.run s.bitmap = some (r, t.bitmap) ∧
    t.returned = s.returned ∪ l.cptrs r ∧ t.live = s.live \ l.freed ∪ l.cptrs r

/-- No bit of another live cptr is among those that a free clears. -/
def CptrCall.Spares (s : CptrState) : CptrCall → Prop
  | .free cptr => ∀ c ∈ s.live, Masks cptr c → c = cptr
  | _ => True

theorem CptrCall.run_free {cptr : Nat} {b b' : CptrBitmap} {r : Option Nat}
    (h : (CptrCall.free cptr).run b = some (r, b')) : r = none ∧ cptrFree b cptr = some b' := by
  obtain ⟨b₁, hb₁, heq⟩ := Option.map_eq_some_iff.mp h
  cases heq
  exact ⟨rfl, hb₁⟩

/-- The bits of the live cptrs are set. -/
theorem live_taken {bi : BootInfo} {s : CptrState}
    (h : (cptrSystem bi).ReachedBy (fun s l => l.Spares s) s) :
    ∀ c ∈ s.live, s.bitmap.taken c = true := by
  refine h.invariant (I := fun s => ∀ c ∈ s.live, s.bitmap.taken c = true) ?_ ?_
  · rintro s ⟨-, -, hlive⟩ c hc
    rw [hlive] at hc
    exact hc.elim
  · rintro s l t ih hspares ⟨hvalid, r, hrun, -, hlive⟩ c hc
    rw [hlive] at hc
    by_cases hl : l.Allocates
    · obtain ⟨r', b', hrun', hfound⟩ := CptrCall.run_spec hl s.bitmap
      obtain ⟨rfl, rfl⟩ : r' = r ∧ b' = t.bitmap := by simpa [hrun] using hrun'.symm
      rcases hc with ⟨hc, -⟩ | hc
      · exact hfound.mono (ih c hc)
      · exact (hfound.free hl hc).2
    · cases l with
      | free cptr =>
        obtain ⟨rfl, hfree⟩ := CptrCall.run_free hrun
        rcases hc with ⟨hc, hne⟩ | ⟨q, hq, -⟩
        · by_cases hin : c / 64 < 512
          · exact (cptrFree_taken hfree hin).mpr ⟨ih c hc, fun hm => hne (hspares c hc hm)⟩
          · exact dif_neg hin
        · cases hq
      | alloc => exact absurd hvalid hl
      | allocRange n => exact absurd hvalid hl

/-- No call returns a live cptr as long as every free spares the others. -/
theorem cptr_alloc_not_live {bi : BootInfo} {s : CptrState}
    (h : (cptrSystem bi).ReachedBy (fun s l => l.Spares s) s) {l : CptrCall} (hl : l.Valid s)
    {r : Option Nat} {b : CptrBitmap} (hrun : l.run s.bitmap = some (r, b)) :
    Disjoint (l.cptrs r) s.live := by
  refine Set.disjoint_left.mpr fun c hc hlive => ?_
  have htaken := live_taken h c hlive
  by_cases hall : l.Allocates
  · obtain ⟨r', b', hrun', hfound⟩ := CptrCall.run_spec hall s.bitmap
    obtain ⟨rfl, rfl⟩ : r' = r ∧ b' = b := by simpa [hrun] using hrun'.symm
    have hfree := (hfound.free hall hc).1
    rw [htaken] at hfree
    cases hfree
  · cases l with
    | free cptr =>
      obtain ⟨rfl, -⟩ := CptrCall.run_free hrun
      obtain ⟨q, hq, -⟩ := hc
      cases hq
    | alloc => exact hall hl
    | allocRange n => exact hall hl

/-- One more call of a run. -/
theorem cptr_call {bi : BootInfo} {ok : CptrState → CptrCall → Prop} {s : CptrState}
    (h : (cptrSystem bi).ReachedBy ok s) {l : CptrCall} (hok : ok s l) (hl : l.Allocates) :
    ∃ r b, l.run s.bitmap = some (r, b) ∧ FirstFit l s.bitmap r b ∧
      (cptrSystem bi).ReachedBy ok ⟨b, s.returned ∪ l.cptrs r, s.live \ l.freed ∪ l.cptrs r⟩ := by
  obtain ⟨r, b, hrun, hfound⟩ := CptrCall.run_spec hl s.bitmap
  have hvalid : l.Valid s := by
    cases l with
    | free _ => exact hl.elim
    | alloc => exact hl
    | allocRange n => exact hl
  exact ⟨r, b, hrun, hfound, .step h hok ⟨hvalid, r, hrun, rfl, rfl⟩⟩

theorem cptr_start (bi : BootInfo) (h : bi.emptyRange.stop ≤ 64 * 512) :
    ∃ b, cptrAllocInit bi (Bitmap.zeros 64 512) = some b ∧ (cptrSystem bi).start ⟨b, ∅, ∅⟩ := by
  obtain ⟨b, hb⟩ := cptrAllocInit_isSome h (Bitmap.zeros 64 512)
  exact ⟨b, hb, hb, rfl, rfl⟩

/-- `cptr_alloc_range (n)` right after `cptr_alloc_init` on the empty range
[64, 4096). -/
theorem cptr_first_range (ok : CptrState → CptrCall → Prop) (n : Nat)
    (hok : ∀ s, ok s (.allocRange n)) (hn : 1 ≤ n) (hroom : 64 + n ≤ 64 * 512) :
    ∃ s t, (cptrSystem ⟨⟨64, 4096⟩⟩).start s ∧ (cptrSystem ⟨⟨64, 4096⟩⟩).ReachedBy ok t ∧
      cptrAllocRange s.bitmap n = some (some 64, t.bitmap) ∧
      (∀ c, c ∈ t.returned ↔ 64 ≤ c ∧ c < 64 + n) ∧ (∀ c, c ∈ t.live ↔ 64 ≤ c ∧ c < 64 + n) ∧
      ∀ c, c / 64 < 512 → (t.bitmap.taken c = true ↔ c < 64 + n) := by
  obtain ⟨b, hb, hstart⟩ := cptr_start ⟨⟨64, 4096⟩⟩ (by decide)
  have hinit : ∀ c, c / 64 < 512 → (b.taken c = true ↔ c < 64) := by
    intro c hc
    rw [cptrAllocInit_taken hb hc]
    simp only [initCnodeSlots]
    omega
  have hfits : CptrCall.Fits (.allocRange n) b 64 := by
    rintro c ⟨hle, hlt⟩
    rw [← Bool.not_eq_true, hinit c (by omega)]
    omega
  obtain ⟨r, b', hrun, hfound, ht⟩ := cptr_call (.start hstart) (hok _) (l := .allocRange n) hn
  rcases hfound with ⟨-, -, hnone⟩ | ⟨q, rfl, hq, hfirst, htaken⟩
  · exact absurd hfits (hnone 64)
  have hq64 : q = 64 := by
    have hle := hfirst 64 hfits
    have hfree := hq q ⟨le_rfl, by omega⟩
    have hge := (hinit q (by omega)).not.mp (by rw [hfree]; decide)
    omega
  subst hq64
  have hcptrs : ∀ c, c ∈ CptrCall.cptrs (.allocRange n) (some 64) ↔ 64 ≤ c ∧ c < 64 + n := by
    intro c
    constructor
    · rintro ⟨q, hq, hle, hlt⟩
      cases hq
      exact ⟨hle, hlt⟩
    · exact fun ⟨hle, hlt⟩ => ⟨64, rfl, hle, hlt⟩
  refine ⟨_, _, hstart, ht, hrun, fun c => ?_, fun c => ?_, fun c hc => ?_⟩
  · rw [Set.empty_union, hcptrs]
  · rw [Set.empty_sdiff, Set.empty_union, hcptrs]
  · rw [htaken c, hinit c hc]
    simp only [CptrCall.Marks]
    omega

/-- Then a free of `f` that clears the bit of 72, and `cptr_alloc ()`. -/
theorem cptr_alloc_after_free (ok : CptrState → CptrCall → Prop) {f : Nat}
    (hrange : ∀ s, ok s (.allocRange 41))
    (hfree : ∀ s, (∀ c, c ∈ s.live ↔ 64 ≤ c ∧ c < 105) → ok s (.free f))
    (hf : 64 ≤ f ∧ f < 105) (hmask : ∀ c, Masks f c ↔ c = 72) :
    ∃ s, (cptrSystem ⟨⟨64, 4096⟩⟩).ReachedBy ok s ∧
      (∀ c, c ∈ s.live ↔ (64 ≤ c ∧ c < 105) ∧ c ≠ f) ∧
      ∃ b, cptrAlloc s.bitmap = some (some 72, b) := by
  obtain ⟨-, t, -, ht, -, hreturned, hlive, htaken⟩ :=
    cptr_first_range ok 41 hrange (by decide) (by decide)
  obtain ⟨b, hb⟩ := t.bitmap.modify_isSome (i := f / 64) (by omega)
    (· &&& (~~~intBit (f % 64)).signExtend 64)
  have hstep : (cptrSystem ⟨⟨64, 4096⟩⟩).ReachedBy ok
      ⟨b, t.returned ∪ CptrCall.cptrs (.free f) none,
        t.live \ CptrCall.freed (.free f) ∪ CptrCall.cptrs (.free f) none⟩ := by
    exact .step ht (hfree t hlive)
      ⟨(hreturned f).mpr hf, none, Option.map_eq_some_iff.mpr ⟨b, hb, rfl⟩, rfl, rfl⟩
  have htaken' : ∀ c, c / 64 < 512 → (b.taken c = true ↔ c < 105 ∧ c ≠ 72) := by
    intro c hc
    rw [cptrFree_taken hb hc, htaken c hc, hmask c]
  refine ⟨_, hstep, fun c => ?_, ?_⟩
  · have hnone : c ∉ CptrCall.cptrs (.free f) none := by
      rintro ⟨q, hq, -⟩
      cases hq
    simp [CptrCall.freed, hnone, hlive c]
  · have hfits : CptrCall.Fits .alloc b 72 := by
      rintro c ⟨hword, hmask⟩
      rw [← Bool.not_eq_true, htaken' c (by omega)]
      omega
    obtain ⟨r, b', hrun, hfound⟩ := cptrAlloc_spec b
    rcases hfound with ⟨-, -, hnone⟩ | ⟨q, rfl, hq, hfirst, -⟩
    · exact absurd hfits (hnone 72)
    · have hle := hfirst 72 hfits
      have hlow := hq _ (masks_low q)
      have hge := (htaken' (64 * (q / 64) + q % 32) (by omega)).not.mp (by rw [hlow]; decide)
      obtain rfl : q = 72 := by omega
      exact ⟨b', hrun⟩

/-- Freeing 104, whose bit is in the upper half of its word, clears the bit of 72,
and 72 is handed out while it is live. -/
theorem cptr_alloc_range_free_alloc : ∃ s, (cptrSystem ⟨⟨64, 4096⟩⟩).Reached s ∧
    ∃ b, cptrAlloc s.bitmap = some (some 72, b) ∧ 72 ∈ s.live := by
  have hmask : ∀ c, Masks 104 c ↔ c = 72 := by
    intro c
    unfold Masks
    omega
  obtain ⟨s, hs, hlive, b, hb⟩ := cptr_alloc_after_free (fun _ _ => True)
    (fun _ => trivial) (fun _ _ => trivial) (by decide) hmask
  exact ⟨s, hs, b, hb, (hlive 72).mpr (by decide)⟩

/-- Freeing 72 clears no other bit, and 72 is handed out again. -/
theorem cptr_alloc_not_live_freed : ∃ s, (cptrSystem ⟨⟨64, 4096⟩⟩).Reached s ∧ 71 ∈ s.live ∧
    ∃ b, cptrAlloc s.bitmap = some (some 72, b) ∧
      Disjoint (CptrCall.cptrs .alloc (some 72)) s.live := by
  have hmask : ∀ c, Masks 72 c ↔ c = 72 := by
    intro c
    unfold Masks
    omega
  obtain ⟨s, hs, hlive, b, hb⟩ := cptr_alloc_after_free (fun s l => l.Spares s)
    (fun _ => trivial) (fun s _ c _ hc => (hmask c).mp hc) (by decide) hmask
  exact ⟨s, hs.reached, (hlive 71).mpr (by decide), b, hb,
    cptr_alloc_not_live hs (l := .alloc) trivial hb⟩

/-! ## The empty range -/

/-- Below the last slot of the initial cnode only the empty range is ever free. -/
theorem free_inside {bi : BootInfo} {s : CptrState}
    (h : (cptrSystem bi).ReachedBy (fun _ l => l.Allocates) s) {c : Nat}
    (hc : s.bitmap.taken c = false) :
    initCnodeSlots ≤ c ∨ bi.emptyRange.start ≤ c ∧ c < bi.emptyRange.stop := by
  refine h.invariant (I := fun s => ∀ c, s.bitmap.taken c = false →
    initCnodeSlots ≤ c ∨ bi.emptyRange.start ≤ c ∧ c < bi.emptyRange.stop) ?_ ?_ c hc
  · rintro s ⟨hinit, -, -⟩ c hc
    have hnot := (cptrAllocInit_taken hinit (Bitmap.lt_of_not_taken hc)).not.mp (by simp [hc])
    omega
  · rintro s l t ih hl ⟨-, r, hrun, -, -⟩ c hc
    obtain ⟨r', b', hrun', hfound⟩ := CptrCall.run_spec hl s.bitmap
    obtain ⟨rfl, rfl⟩ : r' = r ∧ b' = t.bitmap := by simpa [hrun] using hrun'.symm
    refine ih c (Bool.eq_false_iff.mpr fun hset => ?_)
    rw [hfound.mono hset] at hc
    cases hc

/-- A call stays inside the empty range if and only if nothing fits anywhere, or
something fits that ends with the empty range; and, should the empty range start
past the initial cnode, nothing fits before it. -/
theorem cptr_alloc_inside_iff {bi : BootInfo} {s : CptrState}
    (h : (cptrSystem bi).ReachedBy (fun _ l => l.Allocates) s) {l : CptrCall} (hl : l.Allocates)
    {r : Option Nat} {b : CptrBitmap} (hrun : l.run s.bitmap = some (r, b)) :
    (∀ c ∈ l.cptrs r, bi.emptyRange.start ≤ c ∧ c < bi.emptyRange.stop) ↔
      (∀ p, ¬l.Fits s.bitmap p) ∨
        (∃ p, l.Fits s.bitmap p ∧ p + l.size ≤ bi.emptyRange.stop) ∧
          (bi.emptyRange.start ≤ initCnodeSlots ∨
            ∀ p, l.Fits s.bitmap p → bi.emptyRange.start ≤ p) := by
  have hsize : 1 ≤ l.size := by
    cases l with
    | alloc => exact le_rfl
    | allocRange n => exact hl
    | free _ => exact hl.elim
  obtain ⟨r', b', hrun', hfound⟩ := CptrCall.run_spec hl s.bitmap
  obtain ⟨rfl, rfl⟩ : r' = r ∧ b' = b := by simpa [hrun] using hrun'.symm
  have hfree := fun c (hc : c ∈ l.cptrs r') => (hfound.free hl hc).1
  rcases hfound with ⟨rfl, -, hnone⟩ | ⟨q, rfl, hq, hfirst, -⟩
  · refine ⟨fun _ => .inl hnone, ?_⟩
    rintro - c ⟨q, hq, -⟩
    cases hq
  constructor
  · intro hinside
    have hlow := hinside q ⟨q, rfl, le_rfl, by omega⟩
    have hhigh := hinside (q + l.size - 1) ⟨q, rfl, by omega, by omega⟩
    exact .inr ⟨⟨q, hq, by omega⟩, .inr fun p hp => hlow.1.trans (hfirst p hp)⟩
  · rintro (hnone | ⟨⟨p, hp, hend⟩, hstart⟩) c ⟨q', hq', hle, hlt⟩
    · exact absurd hq (hnone q)
    cases hq'
    have hqp := hfirst p hp
    have hqstart : bi.emptyRange.start ≤ q := by
      rcases hstart with hstart | hstart
      · have hin := free_inside h (hfree q ⟨q, rfl, le_rfl, by omega⟩)
        omega
      · exact hstart q hq
    exact ⟨by omega, by omega⟩

/-- On the empty range [64, 4096), `cptr_alloc_range (4033)` returns 64, and the
last cptr of its range is not in the empty range. -/
theorem cptr_alloc_range_outside : ∃ s, (cptrSystem ⟨⟨64, 4096⟩⟩).start s ∧
    ∃ b, cptrAllocRange s.bitmap 4033 = some (some 64, b) ∧
      4096 ∈ CptrCall.cptrs (.allocRange 4033) (some 64) ∧ ¬4096 < 4096 := by
  obtain ⟨s, t, hs, -, hrun, -⟩ := cptr_first_range (fun _ _ => True) 4033
    (fun _ => trivial) (by decide) (by decide)
  exact ⟨s, hs, _, hrun, ⟨64, rfl, by decide, by decide⟩, by decide⟩

/-- The largest request that stays inside. -/
theorem cptr_alloc_inside_iff_largest : ∃ s, (cptrSystem ⟨⟨64, 4096⟩⟩).start s ∧
    ∃ b, cptrAllocRange s.bitmap 4032 = some (some 64, b) ∧
      ((∀ c ∈ CptrCall.cptrs (.allocRange 4032) (some 64), 64 ≤ c ∧ c < 4096) ↔
        (∀ p, ¬CptrCall.Fits (.allocRange 4032) s.bitmap p) ∨
          (∃ p, CptrCall.Fits (.allocRange 4032) s.bitmap p ∧ p + 4032 ≤ 4096) ∧
            (64 ≤ initCnodeSlots ∨
              ∀ p, CptrCall.Fits (.allocRange 4032) s.bitmap p → 64 ≤ p)) := by
  obtain ⟨s, t, hs, -, hrun, -⟩ := cptr_first_range (fun _ _ => True) 4032
    (fun _ => trivial) (by decide) (by decide)
  exact ⟨s, hs, _, hrun, cptr_alloc_inside_iff (Transition.ReachedBy.start hs)
    (l := .allocRange 4032) (show 1 ≤ 4032 by decide) hrun⟩

end Tern
