import Tern.Cap
import Tern.Lib.Transition

/-! The kernel's page allocator: the usable memory is cut into regions of
power-of-two size, each of which serves either the kernel's pages or one of the
first untyped capabilities. -/

namespace Tern

open Lib

def pageSize : Word := 4096#64

/-- `struct physical_extent`. -/
structure PhysicalExtent where
  start : Word
  len : Word
  deriving DecidableEq, Repr

/-- `struct power_of_two_region`; `sizeBits` counts from the page size. -/
structure PowerOfTwoRegion where
  addr : Word := 0
  sizeBits : BitVec 8 := 0
  inKernelUse : Bool := false
  inUserUse : Bool := false
  forPages : Bool := false
  watermark : Word := 0
  deriving DecidableEq, Repr

/-- `regions[MAX_REGIONS]` and `region_count`. -/
structure PageMap where
  regions : Vector PowerOfTwoRegion 64
  regionCount : Nat
  deriving DecidableEq

namespace PageMap

def empty : PageMap := ⟨Vector.replicate 64 {}, 0⟩

/-- `regions[i]`. -/
def region (m : PageMap) (i : Nat) : PowerOfTwoRegion := m.regions[i]?.getD {}

def setRegion (m : PageMap) (i : Nat) (r : PowerOfTwoRegion) : Result PageMap :=
  if h : i < 64 then .ok { m with regions := m.regions.set i r } else .error .fault

/-- `regions[region_count++] = r`. -/
def push (m : PageMap) (r : PowerOfTwoRegion) : Result PageMap := do
  let m ← m.setRegion m.regionCount r
  return { m with regionCount := m.regionCount + 1 }

end PageMap

/-- The loop of `largest_fitting_block`; a block is shifted out after 64 rounds. -/
def shrinkBlock (start stop : Word) : Nat → Word → Word
  | 0, block => block
  | fuel + 1, block =>
    if stop < start + block then shrinkBlock start stop fuel (block >>> 1) else block

def largestFittingBlock (start stop : Word) : Word :=
  shrinkBlock start stop 64 (start &&& -start)

def pageCount (blockSize : Word) : Word := blockSize.ctz - 12#64

/-- The loop of `allocate_aligned_regions`: every round fills a region. -/
def allocateAlignedRegions (stop : Word) : Nat → PageMap → Word → Result PageMap
  | 0, _, _ => .error .outOfFuel
  | fuel + 1, m, start =>
    if start < stop then do
      let block := largestFittingBlock start stop
      let m ← m.push { addr := start, sizeBits := (pageCount block).setWidth 8 }
      allocateAlignedRegions stop fuel m (start + block)
    else return m

/-- `init_page_mmap` on the extents of the boot memory map. -/
def initPageMmap (extents : List PhysicalExtent) : Result PageMap :=
  extents.foldlM (fun m e => allocateAlignedRegions (e.start + e.len) 65 m e.start) .empty

/-- `struct untyped_desc`. -/
structure UntypedDesc where
  base : Word
  sizeBits : BitVec 8
  isDevice : Bool := false
  deriving DecidableEq, Repr

/-- The loop of `create_init_untyped_caps` from round `i` on. The test that ends
it is skipped by `continue`, so when the last region is the kernel's it goes on
to `regions[region_count]`. -/
def createInitUntypedCapsFrom (n : Nat) :
    Nat → Nat → PageMap → Result (PageMap × List (Cap × UntypedDesc))
  | 0, _, _ => .error .outOfFuel
  | fuel + 1, i, m =>
    if i < n then
      let r := m.region i
      if r.inKernelUse then createInitUntypedCapsFrom n fuel (i + 1) m
      else do
        let m ← m.setRegion i { r with inUserUse := true }
        let cap ← newUntypedCap r.addr ((r.sizeBits + 12#8).setWidth 6)
        let desc : UntypedDesc := { base := r.addr, sizeBits := r.sizeBits + 12#8 }
        if (BitVec.ofNat 64 m.regionCount - 1#64).toNat ≤ i then return (m, [(cap, desc)])
        else do
          let (m, caps) ← createInitUntypedCapsFrom n fuel (i + 1) m
          return (m, (cap, desc) :: caps)
    else return (m, [])

/-- `create_init_untyped_caps` with `*count` equal to `n`: what it leaves in `base`
and `desc`. -/
def createInitUntypedCaps (n : Nat) (m : PageMap) : Result (PageMap × List (Cap × UntypedDesc)) :=
  createInitUntypedCapsFrom n 65 0 m

/-- The region is the kernel's and has a page left. -/
def PowerOfTwoRegion.hasPage (r : PowerOfTwoRegion) : Bool :=
  r.inKernelUse && r.forPages &&
    r.watermark < pageSize <<< (r.sizeBits.toNat % 64) - pageSize

def allocPage (m : PageMap) : Result (Word × PageMap) :=
  match (List.range m.regionCount).find? fun i => (m.region i).hasPage with
  | some i => do
    let r := m.region i
    let m ← m.setRegion i { r with watermark := r.watermark + pageSize }
    return (r.addr + r.watermark, m)
  | none =>
    match (List.range m.regionCount).find? fun i =>
      !(m.region i).inKernelUse && !(m.region i).inUserUse with
    | some i => do
      let r := m.region i
      let m ← m.setRegion i { r with inKernelUse := true, forPages := true, watermark := pageSize }
      return (r.addr, m)
    | none => .error .panic

/-! ## Blocks -/

/-- The lowest bit of a word, alone. -/
theorem and_neg_self {x : Word} (hx : x ≠ 0#64) :
    ∃ k < 64, (x &&& -x).toNat = 2 ^ k ∧ x.getLsbD k = true ∧ ∀ j < k, x.getLsbD j = false := by
  have hk : x.ctz.toNat < 64 := by
    have hlt := BitVec.ctz_lt_iff_ne_zero.mpr hx
    rw [BitVec.lt_def] at hlt
    exact hlt
  have hset := BitVec.getLsbD_true_ctz_of_ne_zero hx
  have hbelow : ∀ j < x.ctz.toNat, x.getLsbD j = false :=
    fun j hj => BitVec.getLsbD_false_of_lt_ctz hj
  refine ⟨x.ctz.toNat, hk, ?_, hset, hbelow⟩
  have hpow : x &&& -x = BitVec.twoPow 64 x.ctz.toNat := by
    refine BitVec.eq_of_getLsbD_eq fun i hi => ?_
    rw [BitVec.getLsbD_and, BitVec.getLsbD_neg, BitVec.getLsbD_twoPow]
    rcases Nat.lt_trichotomy i x.ctz.toNat with hlt | heq | hgt
    · simp [hbelow i hlt]
      omega
    · have hnone : ¬∃ j < i, x.getLsbD j = true := by
        rintro ⟨j, hj, hbit⟩
        rw [hbelow j (by omega)] at hbit
        cases hbit
      rw [decide_eq_false hnone, heq, hset]
      simp [hk]
    · have hsome : ∃ j < i, x.getLsbD j = true := ⟨_, hgt, hset⟩
      rw [decide_eq_true hsome]
      simp [hi, show ¬x.ctz.toNat = i by omega]
  rw [hpow, BitVec.toNat_twoPow]
  exact Nat.mod_eq_of_lt (Nat.pow_lt_pow_right (by decide) hk)

theorem two_pow_dvd {x : Word} {k : Nat} (h : ∀ j < k, x.getLsbD j = false) :
    2 ^ k ∣ x.toNat := by
  refine Nat.dvd_of_mod_eq_zero (Nat.eq_of_testBit_eq fun j => ?_)
  rw [Nat.testBit_mod_two_pow, Nat.zero_testBit]
  by_cases hj : j < k
  · simp [hj, BitVec.testBit_toNat, h j hj]
  · simp [hj]

/-- The largest block that is aligned at `x`. -/
theorem lowestBlock_spec {x : Word} (hx : x ≠ 0#64) :
    ∃ k < 64, (x &&& -x).toNat = 2 ^ k ∧ 2 ^ k ∣ x.toNat ∧ x.toNat + 2 ^ k ≤ 2 ^ 64 ∧
      ∀ i, 2 ^ i ∣ x.toNat → i ≤ k := by
  obtain ⟨k, hk, hpow, hset, hlow⟩ := and_neg_self hx
  have hdvd := two_pow_dvd hlow
  refine ⟨k, hk, hpow, hdvd, ?_, fun i hi => ?_⟩
  · have hspace : 2 ^ k ∣ 2 ^ 64 := Nat.pow_dvd_pow 2 hk.le
    have hle := Nat.le_of_dvd (by have := x.isLt; omega) (Nat.dvd_sub hspace hdvd)
    have hlt := x.isLt
    omega
  · by_contra hhigh
    have hbit := Nat.testBit_mod_two_pow x.toNat i k
    rw [Nat.mod_eq_zero_of_dvd hi, Nat.zero_testBit, BitVec.testBit_toNat, hset] at hbit
    simp at hbit
    omega

theorem ctz_of_two_pow {x : Word} {j : Nat} (h : x.toNat = 2 ^ j) : x.ctz.toNat = j := by
  have hx : x ≠ 0#64 := by
    rintro rfl
    exact absurd h.symm (Nat.two_pow_pos j).ne'
  have hset := BitVec.getLsbD_true_ctz_of_ne_zero hx
  rw [← BitVec.testBit_toNat, h, Nat.testBit_two_pow] at hset
  exact (by simpa using hset : j = x.ctz.toNat).symm

theorem pageCount_toNat {x : Word} {j : Nat} (h : x.toNat = 2 ^ j) (hj : 12 ≤ j) :
    ((pageCount x).setWidth 8).toNat = j - 12 := by
  have hctz := ctz_of_two_pow h
  have hlt : j < 64 := by
    have hlt := x.isLt
    rw [h] at hlt
    exact (Nat.pow_lt_pow_iff_right (by decide)).mp hlt
  have hsub : (pageCount x).toNat = j - 12 := by
    rw [pageCount, BitVec.toNat_sub_of_le (by rw [BitVec.le_def, hctz]; exact hj), hctz]
    rfl
  rw [BitVec.toNat_setWidth, hsub]
  omega

/-- The loop ends at the largest block that fits, unless the first block ends at
the end of the address space. -/
theorem shrinkBlock_spec {start stop : Word} (hroom : start.toNat + 2 ^ 12 ≤ stop.toNat)
    {fuel k : Nat} {block : Word} (hk : 12 ≤ k) (hfuel : k ≤ fuel + 12)
    (hblock : block.toNat = 2 ^ k) (hend : start.toNat + 2 ^ k ≤ 2 ^ 64) :
    ∃ j ≤ k, 12 ≤ j ∧ (shrinkBlock start stop fuel block).toNat = 2 ^ j ∧
      (start.toNat + 2 ^ j ≤ stop.toNat ∨ start.toNat + 2 ^ j = 2 ^ 64) ∧
      (j = k ∨ stop.toNat < start.toNat + 2 ^ (j + 1)) := by
  induction fuel generalizing k block with
  | zero =>
    obtain rfl : k = 12 := by omega
    exact ⟨12, le_rfl, le_rfl, hblock, .inl hroom, .inl rfl⟩
  | succ fuel ih =>
    rw [shrinkBlock]
    split
    · next hpast =>
      rw [BitVec.lt_def, BitVec.toNat_add, hblock] at hpast
      obtain ⟨k, rfl⟩ : ∃ l, k = l + 1 := ⟨k - 1, by omega⟩
      have hpow : 2 ^ (k + 1) = 2 * 2 ^ k := Nat.pow_succ'
      have hk12 : 12 ≤ k := by
        by_contra hsmall
        obtain rfl : k = 11 := by omega
        omega
      have hhalf : (block >>> 1).toNat = 2 ^ k := by
        rw [BitVec.toNat_ushiftRight, hblock, hpow, Nat.shiftRight_eq_div_pow]
        omega
      obtain ⟨j, hj, hj12, hsize, hfits, hlargest⟩ := ih hk12 (by omega) hhalf (by omega)
      refine ⟨j, by omega, hj12, hsize, hfits, .inr ?_⟩
      rcases hlargest with rfl | hlargest
      · omega
      · exact hlargest
    · next hfits =>
      rw [BitVec.lt_def, BitVec.toNat_add, hblock] at hfits
      exact ⟨k, le_rfl, hk, hblock, by omega, .inl rfl⟩

theorem largestFittingBlock_spec {start stop : Word} (hzero : start ≠ 0#64)
    (hstart : start.toNat % 4096 = 0) (hstop : stop.toNat % 4096 = 0) (hlt : start < stop) :
    ∃ j < 64, 12 ≤ j ∧ (largestFittingBlock start stop).toNat = 2 ^ j ∧ 2 ^ j ∣ start.toNat ∧
      (start.toNat + 2 ^ j ≤ stop.toNat ∨ start.toNat + 2 ^ j = 2 ^ 64) ∧
      ∀ i, 2 ^ i ∣ start.toNat → start.toNat + 2 ^ i ≤ stop.toNat → i ≤ j := by
  obtain ⟨k, hk, hpow, hdvd, hend, hlowest⟩ := lowestBlock_spec hzero
  rw [BitVec.lt_def] at hlt
  have hk12 : 12 ≤ k := hlowest 12 (Nat.dvd_of_mod_eq_zero hstart)
  have hroom : start.toNat + 2 ^ 12 ≤ stop.toNat := by omega
  have hfuel : k ≤ 64 + 12 := by omega
  obtain ⟨j, hj, hj12, hsize, hfits, hlargest⟩ := shrinkBlock_spec hroom hk12 hfuel hpow hend
  refine ⟨j, by omega, hj12, hsize, (Nat.pow_dvd_pow 2 hj).trans hdvd, hfits, fun i hi hroom => ?_⟩
  rcases hlargest with rfl | hpast
  · exact hlowest i hi
  · by_contra hhigh
    have hpow : 2 ^ (j + 1) ≤ 2 ^ i := Nat.pow_le_pow_right (by decide) (by omega)
    omega

/-! ## Blocks that end at the end of the address space -/

/-- `start + block` wraps to 0 for the first block at `a`. -/
def WrapsAt (a : Word) : Prop := a + (a &&& -a) = 0#64

instance (a : Word) : Decidable (WrapsAt a) := inferInstanceAs (Decidable (_ = _))

theorem wrapsAt_zero : WrapsAt 0#64 := by decide

theorem WrapsAt.largestFittingBlock {start : Word} (h : WrapsAt start) (stop : Word) :
    largestFittingBlock start stop = start &&& -start := by
  have hno : ¬stop < start + (start &&& -start) := by
    rw [show start + (start &&& -start) = 0#64 from h, BitVec.lt_def]
    exact Nat.not_lt_zero _
  rw [Tern.largestFittingBlock, shrinkBlock, if_neg hno]

/-- Apart from 0 these are the addresses `2 ^ 64 - 2 ^ k`. -/
theorem WrapsAt.eq_sub {a : Word} (h : WrapsAt a) (hzero : a ≠ 0#64) :
    ∃ k < 64, a.toNat = 2 ^ 64 - 2 ^ k := by
  obtain ⟨k, hk, hpow, -, hend, -⟩ := lowestBlock_spec hzero
  refine ⟨k, hk, ?_⟩
  have hsum := congrArg BitVec.toNat h
  rw [BitVec.toNat_add, hpow] at hsum
  have hpos := Nat.two_pow_pos k
  have hsum : (a.toNat + 2 ^ k) % 2 ^ 64 = 0 := hsum
  omega

/-- A block that is aligned at its start and ends at the end of the address space. -/
theorem wrapsAt_of_block {a : Word} {j : Nat} (hzero : a ≠ 0#64) (hdvd : 2 ^ j ∣ a.toNat)
    (hend : a.toNat + 2 ^ j = 2 ^ 64) : WrapsAt a := by
  obtain ⟨k, hk, hpow, -, hroom, hmax⟩ := lowestBlock_spec hzero
  have hle := Nat.pow_le_pow_right (n := 2) (by decide) (hmax j hdvd)
  refine BitVec.eq_of_toNat_eq ?_
  rw [BitVec.toNat_add, hpow, show a.toNat + 2 ^ k = 2 ^ 64 by omega]
  rfl

/-- The first region of a cut, and where the rest starts. -/
theorem largestFittingBlock_next {start stop : Word} (hstart : start.toNat % 4096 = 0)
    (hstop : stop.toNat % 4096 = 0) (hlt : start < stop) (hwraps : ¬WrapsAt start) :
    ∃ j, 12 ≤ j ∧ ((pageCount (largestFittingBlock start stop)).setWidth 8).toNat + 12 = j ∧
      (start + largestFittingBlock start stop).toNat = start.toNat + 2 ^ j ∧
      2 ^ j ∣ start.toNat ∧ start.toNat + 2 ^ j ≤ stop.toNat ∧
      ∀ i, 2 ^ i ∣ start.toNat → start.toNat + 2 ^ i ≤ stop.toNat → i ≤ j := by
  have hzero : start ≠ 0#64 := by
    rintro rfl
    exact hwraps wrapsAt_zero
  obtain ⟨j, hj, hj12, hblock, hdvd, hfits, hmax⟩ :=
    largestFittingBlock_spec hzero hstart hstop hlt
  have hbound := stop.isLt
  have hfits : start.toNat + 2 ^ j ≤ stop.toNat :=
    hfits.resolve_right fun hend => hwraps (wrapsAt_of_block hzero hdvd hend)
  have hbits := pageCount_toNat hblock hj12
  refine ⟨j, hj12, by omega, ?_, hdvd, hfits, hmax⟩
  rw [BitVec.toNat_add, hblock, Nat.mod_eq_of_lt (by omega)]

/-! ## Regions -/

namespace PowerOfTwoRegion

variable (r r' : PowerOfTwoRegion)

def size : Nat := 2 ^ (r.sizeBits.toNat + 12)

/-- Page-aligned, and not up to the end of the address space. -/
structure Block : Prop where
  aligned : r.addr.toNat % 4096 = 0
  small : r.sizeBits.toNat < 52
  below : r.addr.toNat + r.size < 2 ^ 64

def Apart : Prop :=
  r.addr.toNat + r.size ≤ r'.addr.toNat ∨ r'.addr.toNat + r'.size ≤ r.addr.toNat

end PowerOfTwoRegion

namespace PageMap

variable {m m' : PageMap} {i j : Nat} {r : PowerOfTwoRegion}

theorem setRegion_eq_ok : m.setRegion i r = .ok m' → i < 64 ∧ m'.regionCount = m.regionCount ∧
    m'.region i = r ∧ ∀ j, j ≠ i → m'.region j = m.region j := by
  intro h
  unfold setRegion at h
  split at h
  · next hi =>
    cases h
    refine ⟨hi, rfl, ?_, fun j hj => ?_⟩
    · simp [region, hi]
    · simp [region, Ne.symm hj]
  · cases h

theorem push_eq_ok (h : m.push r = .ok m') : m'.regionCount = m.regionCount + 1 ∧
    m'.region m.regionCount = r ∧ ∀ j, j ≠ m.regionCount → m'.region j = m.region j := by
  simp only [push, bind_eq_ok, pure_eq_ok] at h
  obtain ⟨m₁, hset, rfl⟩ := h
  obtain ⟨-, hcount, hnew, hold⟩ := setRegion_eq_ok hset
  exact ⟨by rw [hcount], hnew, hold⟩

end PageMap

/-- The regions in use as blocks that do not overlap, each in an allowed place. -/
structure Layout (m : PageMap) (R : Nat → Nat → Prop) : Prop where
  block : ∀ i < m.regionCount, (m.region i).Block
  inside : ∀ i < m.regionCount,
    R (m.region i).addr.toNat ((m.region i).addr.toNat + (m.region i).size)
  apart : ∀ i < m.regionCount, ∀ j < m.regionCount, i ≠ j → (m.region i).Apart (m.region j)
  rest : ∀ i, m.regionCount ≤ i → (m.region i).addr = 0#64 ∧ (m.region i).sizeBits = 0#8

/-- No region is in use. -/
def Fresh (m : PageMap) : Prop :=
  ∀ i, (m.region i).inKernelUse = false ∧ (m.region i).inUserUse = false

namespace Layout

variable {m m' : PageMap} {R R' : Nat → Nat → Prop} {r : PowerOfTwoRegion}

theorem mono (h : Layout m R) (hR : ∀ lo hi, R lo hi → R' lo hi) : Layout m R' :=
  ⟨h.block, fun i hi => hR _ _ (h.inside i hi), h.apart, h.rest⟩

/-- The layout is about addresses and sizes only. -/
theorem congr (h : Layout m R) (hcount : m'.regionCount = m.regionCount)
    (hsame : ∀ i, (m'.region i).addr = (m.region i).addr ∧
      (m'.region i).sizeBits = (m.region i).sizeBits) : Layout m' R := by
  have hsize : ∀ i, (m'.region i).size = (m.region i).size := by
    intro i
    rw [PowerOfTwoRegion.size, PowerOfTwoRegion.size, (hsame i).2]
  refine ⟨fun i hi => ?_, fun i hi => ?_, fun i hi j hj hne => ?_, fun i hi => ?_⟩
  · obtain ⟨haligned, hsmall, hbelow⟩ := h.block i (hcount ▸ hi)
    constructor
    · rw [(hsame i).1]
      exact haligned
    · rw [(hsame i).2]
      exact hsmall
    · rw [(hsame i).1, hsize]
      exact hbelow
  · rw [(hsame i).1, hsize]
    exact h.inside i (hcount ▸ hi)
  · unfold PowerOfTwoRegion.Apart
    rw [(hsame i).1, hsize, (hsame j).1, hsize]
    exact h.apart i (hcount ▸ hi) j (hcount ▸ hj) hne
  · rw [(hsame i).1, (hsame i).2]
    exact h.rest i (hcount ▸ hi)

theorem empty (R : Nat → Nat → Prop) : Layout .empty R := by
  refine ⟨nofun, nofun, nofun, fun i _ => ?_⟩
  by_cases hi : i < 64 <;> simp [PageMap.region, PageMap.empty, hi]

/-- A new block beside all others. -/
theorem push (h : Layout m R) (hpush : m.push r = .ok m') (hblock : r.Block)
    (hR : R r.addr.toNat (r.addr.toNat + r.size))
    (hapart : ∀ i < m.regionCount, (m.region i).Apart r) : Layout m' R := by
  obtain ⟨hcount, hnew, hold⟩ := PageMap.push_eq_ok hpush
  have hsplit : ∀ i < m'.regionCount, i = m.regionCount ∧ m'.region i = r ∨
      i < m.regionCount ∧ m'.region i = m.region i := by
    intro i hi
    rcases eq_or_ne i m.regionCount with rfl | hne
    · exact .inl ⟨rfl, hnew⟩
    · exact .inr ⟨by omega, hold i hne⟩
  refine ⟨fun i hi => ?_, fun i hi => ?_, fun i hi j hj hne => ?_, fun i hi => ?_⟩
  · rcases hsplit i hi with ⟨-, heq⟩ | ⟨hlt, heq⟩ <;> rw [heq]
    · exact hblock
    · exact h.block i hlt
  · rcases hsplit i hi with ⟨-, heq⟩ | ⟨hlt, heq⟩ <;> rw [heq]
    · exact hR
    · exact h.inside i hlt
  · rcases hsplit i hi with ⟨hi', heq⟩ | ⟨hlt, heq⟩ <;>
      rcases hsplit j hj with ⟨hj', heq'⟩ | ⟨hlt', heq'⟩ <;> rw [heq, heq']
    · exact absurd (hi'.trans hj'.symm) hne
    · exact (hapart j hlt').symm
    · exact hapart i hlt
    · exact h.apart i hlt j hlt' hne
  · rw [hold i (by omega)]
    exact h.rest i (by omega)

end Layout

theorem Fresh.push {m m' : PageMap} {r : PowerOfTwoRegion} (h : Fresh m)
    (hpush : m.push r = .ok m') (hr : r.inKernelUse = false ∧ r.inUserUse = false) : Fresh m' := by
  obtain ⟨-, hnew, hold⟩ := PageMap.push_eq_ok hpush
  intro i
  rcases eq_or_ne i m.regionCount with rfl | hne
  · rwa [hnew]
  · rw [hold i hne]
    exact h i

/-- From address 0 the loop never ends. -/
theorem allocateAlignedRegions_zero {stop : Word} (hstop : 0#64 < stop) (fuel : Nat) (m m' : PageMap) :
    allocateAlignedRegions stop fuel m 0#64 ≠ .ok m' := by
  induction fuel generalizing m with
  | zero => nofun
  | succ fuel ih =>
    rw [allocateAlignedRegions, if_pos hstop, wrapsAt_zero.largestFittingBlock]
    intro h
    simp only [bind_eq_ok] at h
    obtain ⟨m₁, -, hrest⟩ := h
    exact ih m₁ hrest

/-- Where the first block wraps, the rest starts at address 0. -/
theorem WrapsAt.allocateAlignedRegions {start stop : Word} (h : WrapsAt start) (hlt : start < stop)
    (fuel : Nat) (m m' : PageMap) : Tern.allocateAlignedRegions stop fuel m start ≠ .ok m' := by
  cases fuel with
  | zero => nofun
  | succ fuel =>
    intro hok
    rw [Tern.allocateAlignedRegions, if_pos hlt, h.largestFittingBlock] at hok
    simp only [bind_eq_ok] at hok
    obtain ⟨m₁, -, hrest⟩ := hok
    rw [show start + (start &&& -start) = 0#64 from h] at hrest
    refine allocateAlignedRegions_zero ?_ fuel m₁ m' hrest
    rw [BitVec.lt_def] at hlt ⊢
    exact Nat.zero_lt_of_lt hlt

/-- Cutting an extent whose rest, from `start` to `stop`, no region touches. -/
theorem allocateAlignedRegions_spec {stop : Word} (hstop : stop.toNat % 4096 = 0)
    {R' : Nat → Nat → Prop} {fuel : Nat} {m m' : PageMap} {start : Word} {R : Nat → Nat → Prop}
    (hok : allocateAlignedRegions stop fuel m start = .ok m') (h : Layout m R) (hfresh : Fresh m)
    (hstart : start.toNat % 4096 = 0)
    (hR : ∀ lo hi, R lo hi → R' lo hi ∧ (hi ≤ start.toNat ∨ stop.toNat ≤ lo))
    (hnew : ∀ lo hi, start.toNat ≤ lo → hi ≤ stop.toNat → R' lo hi) :
    Layout m' R' ∧ Fresh m' := by
  induction fuel generalizing m start R with
  | zero => cases hok
  | succ fuel ih =>
    by_cases hlt : start < stop
    · have hwraps : ¬WrapsAt start := fun hwraps => hwraps.allocateAlignedRegions hlt _ _ _ hok
      obtain ⟨j, hj12, hbits, hnext, -, hfits, -⟩ :=
        largestFittingBlock_next hstart hstop hlt hwraps
      rw [allocateAlignedRegions, if_pos hlt] at hok
      simp only [bind_eq_ok] at hok
      obtain ⟨m₁, hpush, hrest⟩ := hok
      let r : PowerOfTwoRegion :=
        { addr := start, sizeBits := (pageCount (largestFittingBlock start stop)).setWidth 8 }
      have hsize : r.size = 2 ^ j := by rw [PowerOfTwoRegion.size, hbits]
      have hpage : 2 ^ j % 4096 = 0 := Nat.mod_eq_zero_of_dvd (Nat.pow_dvd_pow 2 hj12)
      have hbelow : start.toNat + 2 ^ j < 2 ^ 64 := hfits.trans_lt stop.isLt
      have hj : j < 64 := by
        refine (Nat.pow_lt_pow_iff_right (a := 2) (by decide)).mp ?_
        omega
      have hsmall : r.sizeBits.toNat < 52 := by
        show ((pageCount (largestFittingBlock start stop)).setWidth 8).toNat < 52
        omega
      have hr : r.Block := ⟨hstart, hsmall, by rw [hsize]; exact hbelow⟩
      have hm₁ : Layout m₁ fun lo hi => R lo hi ∨ start.toNat ≤ lo ∧ hi ≤ start.toNat + 2 ^ j := by
        refine (h.mono fun lo hi hlo => .inl hlo).push hpush hr (.inr ⟨le_rfl, ?_⟩) fun i hi => ?_
        · rw [hsize]
        · rcases (hR _ _ (h.inside i hi)).2 with hbefore | hafter
          · exact .inl hbefore
          · refine .inr ?_
            rw [hsize]
            exact hfits.trans hafter
      refine ih hrest hm₁ (hfresh.push hpush ⟨rfl, rfl⟩) (by omega) ?_ ?_
      · rintro lo hi (hlo | ⟨hlo, hhi⟩)
        · obtain ⟨hin, hout⟩ := hR lo hi hlo
          exact ⟨hin, by omega⟩
        · exact ⟨hnew lo hi hlo (by omega), by omega⟩
      · exact fun lo hi hlo hhi => hnew lo hi (by omega) hhi
    · rw [allocateAlignedRegions, if_neg hlt] at hok
      cases hok
      exact ⟨h.mono fun lo hi hlo => (hR lo hi hlo).1, hfresh⟩

/-! ## The boot memory map -/

namespace PhysicalExtent

/-- The bounds of an extent, without overflow. -/
def lo (e : PhysicalExtent) : Nat := e.start.toNat

def hi (e : PhysicalExtent) : Nat := e.start.toNat + e.len.toNat

/-- Page-aligned, and not at address 0. -/
structure Aligned (e : PhysicalExtent) : Prop where
  start : e.start.toNat % 4096 = 0
  len : e.len.toNat % 4096 = 0
  nonzero : e.start ≠ 0#64

def Disjoint (e f : PhysicalExtent) : Prop := e.hi ≤ f.lo ∨ f.hi ≤ e.lo

end PhysicalExtent

/-- The range is usable memory: inside of one of the extents. -/
def Usable (extents : List PhysicalExtent) (lo hi : Nat) : Prop :=
  ∃ e ∈ extents, e.lo ≤ lo ∧ hi ≤ e.hi

/-- The extents one after the other, from where `done` are cut up. -/
theorem allocateExtents_spec {todo : List PhysicalExtent} (done : List PhysicalExtent)
    {m m' : PageMap}
    (hok : todo.foldlM (fun m e => allocateAlignedRegions (e.start + e.len) 65 m e.start) m = .ok m')
    (haligned : ∀ e ∈ todo, e.Aligned)
    (hdisjoint : (done ++ todo).Pairwise PhysicalExtent.Disjoint)
    (h : Layout m (Usable done)) (hfresh : Fresh m) :
    Layout m' (Usable (done ++ todo)) ∧ Fresh m' := by
  induction todo generalizing done m with
  | nil =>
    cases hok
    rw [List.append_nil]
    exact ⟨h, hfresh⟩
  | cons e todo ih =>
    rw [List.foldlM_cons, bind_eq_ok] at hok
    obtain ⟨m₁, hcut, hrest⟩ := hok
    obtain ⟨hstart, hlen, -⟩ := haligned e List.mem_cons_self
    have hstop : (e.start + e.len).toNat % 4096 = 0 := by
      rw [BitVec.toNat_add]
      omega
    have hle : (e.start + e.len).toNat ≤ e.hi := by
      rw [BitVec.toNat_add, PhysicalExtent.hi]
      exact Nat.mod_le _ _
    have hlater : ∀ d ∈ done, d.Disjoint e := by
      intro d hd
      exact (List.pairwise_append.mp hdisjoint).2.2 d hd e List.mem_cons_self
    have hm₁ : Layout m₁ (Usable (done ++ [e])) ∧ Fresh m₁ := by
      refine allocateAlignedRegions_spec hstop hcut h hfresh hstart ?_ ?_
      · rintro lo hi ⟨d, hd, hlo, hhi⟩
        refine ⟨⟨d, List.mem_append_left _ hd, hlo, hhi⟩, ?_⟩
        rcases hlater d hd with hbefore | hafter
        · exact .inl (hhi.trans hbefore)
        · exact .inr (hle.trans (hafter.trans hlo))
      · exact fun lo hi hlo hhi => ⟨e, by simp, hlo, hhi.trans hle⟩
    have hnext := ih (done ++ [e]) hrest
      (fun f hf => haligned f (List.mem_cons_of_mem e hf)) (by simpa using hdisjoint) hm₁.1 hm₁.2
    simpa using hnext

theorem initPageMmap_spec {extents : List PhysicalExtent} (haligned : ∀ e ∈ extents, e.Aligned)
    (hdisjoint : extents.Pairwise PhysicalExtent.Disjoint) {m : PageMap}
    (hok : initPageMmap extents = .ok m) : Layout m (Usable extents) ∧ Fresh m := by
  have hempty : Fresh .empty := by
    intro i
    by_cases hi : i < 64 <;> simp [PageMap.region, PageMap.empty, hi]
  exact allocateExtents_spec [] hok haligned hdisjoint (.empty _) hempty

/-! ## Pages and untyped capabilities -/

/-- The page allocator, the pages it has returned, and the untyped capabilities
once they were created. -/
structure PageState where
  map : PageMap
  pages : List Word
  caps : Option (List (Cap × UntypedDesc))

inductive PageCall
  | allocPage
  | createInitUntypedCaps (n : Nat)

def pageSystem (extents : List PhysicalExtent) : Transition PageState PageCall where
  start s := initPageMmap extents = .ok s.map ∧ s.pages = [] ∧ s.caps = none
  step s l t :=
    match l with
    | .allocPage => ∃ p, Tern.allocPage s.map = .ok (p, t.map) ∧ t.pages = p :: s.pages ∧
        t.caps = s.caps
    | .createInitUntypedCaps n => s.caps = none ∧ t.pages = s.pages ∧
        ∃ caps, Tern.createInitUntypedCaps n s.map = .ok (t.map, caps) ∧ t.caps = some caps

/-- The region has handed out the page. -/
def PowerOfTwoRegion.Holds (r : PowerOfTwoRegion) (p : Word) : Prop :=
  r.inKernelUse = true ∧
    ∃ off, p.toNat = r.addr.toNat + off ∧ off % 4096 = 0 ∧ off < r.watermark.toNat

/-- The capability is one to the memory of the region. -/
def PowerOfTwoRegion.Gives (r : PowerOfTwoRegion) (c : Cap) : Prop :=
  r.inUserUse = true ∧ capPtr c = r.addr ∧ c.sizeBits.toNat = r.sizeBits.toNat + 12

/-- What the flags and watermarks say. -/
structure Allotted (extents : List PhysicalExtent) (s : PageState) : Prop where
  layout : Layout s.map (Usable extents)
  kernel : ∀ i, (s.map.region i).inKernelUse = true → i < s.map.regionCount ∧
    (s.map.region i).forPages = true ∧ (s.map.region i).inUserUse = false ∧
    (s.map.region i).watermark.toNat % 4096 = 0 ∧
    (s.map.region i).watermark.toNat ≤ (s.map.region i).size
  pages : ∀ p ∈ s.pages, ∃ i, (s.map.region i).Holds p
  nodup : s.pages.Nodup
  caps : ∀ l ∈ s.caps, ∀ c ∈ l, ∃ i, (s.map.region i).Gives c.1

theorem find_range {n i : Nat} {P : Nat → Bool} (h : (List.range n).find? P = some i) :
    i < n ∧ P i = true :=
  ⟨List.mem_range.mp (List.mem_of_find?_eq_some h), List.find?_some h⟩

theorem pageShift_toNat {r : PowerOfTwoRegion} (hsmall : r.sizeBits.toNat < 52) :
    (pageSize <<< (r.sizeBits.toNat % 64)).toNat = r.size := by
  have hpow : 2 ^ (r.sizeBits.toNat + 12) < 2 ^ 64 :=
    Nat.pow_lt_pow_right (by decide) (by omega)
  have hpage : pageSize.toNat = 2 ^ 12 := rfl
  rw [BitVec.toNat_shiftLeft, Nat.mod_eq_of_lt (show r.sizeBits.toNat < 64 by omega),
    Nat.shiftLeft_eq, hpage, ← Nat.pow_add, Nat.add_comm, PowerOfTwoRegion.size,
    Nat.mod_eq_of_lt hpow]

theorem PowerOfTwoRegion.page_le (r : PowerOfTwoRegion) : 4096 ≤ r.size := by
  have hpow : 2 ^ 12 ≤ 2 ^ (r.sizeBits.toNat + 12) := Nat.pow_le_pow_right (by decide) (by omega)
  exact hpow

theorem PowerOfTwoRegion.hasPage_iff {r : PowerOfTwoRegion} (hsmall : r.sizeBits.toNat < 52) :
    r.hasPage = true ↔
      r.inKernelUse = true ∧ r.forPages = true ∧ r.watermark.toNat < r.size - 4096 := by
  have hsize := pageShift_toNat hsmall
  have hle : pageSize ≤ pageSize <<< (r.sizeBits.toNat % 64) := by
    rw [BitVec.le_def, hsize]
    exact r.page_le
  rw [hasPage, Bool.and_eq_true, Bool.and_eq_true, decide_eq_true_eq, BitVec.lt_def,
    BitVec.toNat_sub_of_le hle, hsize, and_assoc]
  rfl

/-- A call of `alloc_page`: the next page of a region that is open for pages, or
the first page of a region that was not in use. -/
theorem allocPage_cases {m m' : PageMap} {p : Word} (hok : allocPage m = .ok (p, m')) :
    ∃ i < m.regionCount, m'.regionCount = m.regionCount ∧
      (∀ j, j ≠ i → m'.region j = m.region j) ∧
      ((m.region i).hasPage = true ∧ p = (m.region i).addr + (m.region i).watermark ∧
          m'.region i = { m.region i with watermark := (m.region i).watermark + pageSize } ∨
        (∀ j < m.regionCount, (m.region j).hasPage = false) ∧
          (m.region i).inKernelUse = false ∧ (m.region i).inUserUse = false ∧
          p = (m.region i).addr ∧ m'.region i = { m.region i with
            inKernelUse := true, forPages := true, watermark := pageSize }) := by
  unfold allocPage at hok
  split at hok
  · next i hfind =>
    obtain ⟨hi, hhas⟩ := find_range hfind
    simp only [bind_eq_ok, pure_eq_ok, Prod.mk.injEq] at hok
    obtain ⟨m₁, hset, rfl, rfl⟩ := hok
    obtain ⟨-, hcount, hnew, hold⟩ := PageMap.setRegion_eq_ok hset
    exact ⟨i, hi, hcount, hold, .inl ⟨hhas, rfl, hnew⟩⟩
  · next hnone =>
    split at hok
    · next i hfind =>
      obtain ⟨hi, hfree⟩ := find_range hfind
      simp only [Bool.and_eq_true, Bool.not_eq_true'] at hfree
      simp only [bind_eq_ok, pure_eq_ok, Prod.mk.injEq] at hok
      obtain ⟨m₁, hset, rfl, rfl⟩ := hok
      obtain ⟨-, hcount, hnew, hold⟩ := PageMap.setRegion_eq_ok hset
      refine ⟨i, hi, hcount, hold, .inr ⟨fun j hj => ?_, hfree.1, hfree.2, rfl, hnew⟩⟩
      simpa using List.find?_eq_none.mp hnone j (List.mem_range.mpr hj)
    · cases hok

theorem allocPage_panics {m : PageMap} (h : allocPage m = .error .panic) :
    ∀ j < m.regionCount, (m.region j).hasPage = false := by
  unfold allocPage at h
  split at h
  · simp only [bind_eq_error] at h
    rcases h with hset | ⟨m', -, hret⟩
    · rw [PageMap.setRegion] at hset
      split at hset <;> cases hset
    · cases hret
  · next hnone =>
    intro j hj
    simpa using List.find?_eq_none.mp hnone j (List.mem_range.mpr hj)

/-- The page that `alloc_page` returns, at offset `off` of region `i`, whose
watermark it moves behind the page. -/
theorem allocPage_spec {m m' : PageMap} {p : Word} {R : Nat → Nat → Prop} (h : Layout m R)
    (hkernel : ∀ i, (m.region i).inKernelUse = true → (m.region i).inUserUse = false ∧
      (m.region i).watermark.toNat % 4096 = 0)
    (hok : allocPage m = .ok (p, m')) :
    ∃ i off, i < m.regionCount ∧ (m.region i).inUserUse = false ∧
      p.toNat = (m.region i).addr.toNat + off ∧ off % 4096 = 0 ∧ off + 4096 ≤ (m.region i).size ∧
      ((m.region i).inKernelUse = true → (m.region i).watermark.toNat = off) ∧
      m'.regionCount = m.regionCount ∧ (∀ j, j ≠ i → m'.region j = m.region j) ∧
      m'.region i = { m.region i with
        inKernelUse := true, forPages := true, watermark := BitVec.ofNat 64 (off + 4096) } := by
  obtain ⟨i, hi, hcount, hold, ⟨hhas, rfl, hnew⟩ | ⟨-, huse, huser, rfl, hnew⟩⟩ :=
    allocPage_cases hok
  · have hblock := h.block i hi
    have hbelow := hblock.below
    obtain ⟨huse, hfor, hroom⟩ := (PowerOfTwoRegion.hasPage_iff hblock.small).mp hhas
    obtain ⟨huser, haligned⟩ := hkernel i huse
    refine ⟨i, (m.region i).watermark.toNat, hi, huser, ?_, haligned, by omega, fun _ => rfl,
      hcount, hold, ?_⟩
    · rw [BitVec.toNat_add]
      omega
    · have hmark : (m.region i).watermark + pageSize =
          BitVec.ofNat 64 ((m.region i).watermark.toNat + 4096) := by
        rw [BitVec.ofNat_add, BitVec.ofNat_toNat, BitVec.setWidth_eq]
        rfl
      rw [hnew, hmark]
      simp [huse, hfor]
  · refine ⟨i, 0, hi, huser, rfl, rfl, (m.region i).page_le, fun h => ?_, hcount, hold, hnew⟩
    rw [huse] at h
    cases h

/-- From `m` to `m'` only regions that are not the kernel's were given away. -/
structure GivesAway (m m' : PageMap) : Prop where
  count : m'.regionCount = m.regionCount
  same : ∀ i, { m'.region i with inUserUse := (m.region i).inUserUse } = m.region i
  given : ∀ i, (m.region i).inUserUse = true → (m'.region i).inUserUse = true
  kernel : ∀ i, (m.region i).inKernelUse = true →
    (m'.region i).inUserUse = (m.region i).inUserUse

namespace GivesAway

variable {m m' m'' : PageMap}

theorem refl (m : PageMap) : GivesAway m m := ⟨rfl, fun _ => rfl, fun _ h => h, fun _ _ => rfl⟩

theorem fields (h : GivesAway m m') (i : Nat) : (m'.region i).addr = (m.region i).addr ∧
    (m'.region i).sizeBits = (m.region i).sizeBits ∧
    (m'.region i).inKernelUse = (m.region i).inKernelUse ∧
    (m'.region i).forPages = (m.region i).forPages ∧
    (m'.region i).watermark = (m.region i).watermark := by
  have hsame := h.same i
  rw [← hsame]
  exact ⟨rfl, rfl, rfl, rfl, rfl⟩

theorem trans (h : GivesAway m m') (h' : GivesAway m' m'') : GivesAway m m'' := by
  refine ⟨h'.count.trans h.count, fun i => ?_, fun i hi => h'.given i (h.given i hi), fun i hi => ?_⟩
  · rw [← h.same i, ← h'.same i]
  · rw [h'.kernel i (by rw [(h.fields i).2.2.1]; exact hi), h.kernel i hi]

theorem layout {R : Nat → Nat → Prop} (h : GivesAway m m') (hm : Layout m R) : Layout m' R :=
  hm.congr h.count fun i => ⟨(h.fields i).1, (h.fields i).2.1⟩

theorem gives (h : GivesAway m m') {i : Nat} {c : Cap} (hc : (m.region i).Gives c) :
    (m'.region i).Gives c := by
  obtain ⟨huser, hptr, hsize⟩ := hc
  obtain ⟨haddr, hbits, -⟩ := h.fields i
  exact ⟨h.given i huser, by rw [haddr, hptr], by rw [hbits, hsize]⟩

/-- One region is given away. -/
theorem setRegion {m₁ : PageMap} {i : Nat} (huse : ¬(m.region i).inKernelUse = true)
    (hset : m.setRegion i { m.region i with inUserUse := true } = .ok m₁) : GivesAway m m₁ := by
  obtain ⟨-, hcount, hnew, hold⟩ := PageMap.setRegion_eq_ok hset
  refine ⟨hcount, fun j => ?_, fun j hj => ?_, fun j hj => ?_⟩ <;> rcases eq_or_ne j i with rfl | hne
  · rw [hnew]
  · rw [hold j hne]
  · rw [hnew]
  · rwa [hold j hne]
  · exact absurd hj huse
  · rw [hold j hne]

end GivesAway

theorem PowerOfTwoRegion.Gives.of_newUntypedCap {r : PowerOfTwoRegion} {c : Cap}
    (hsmall : r.sizeBits.toNat < 52)
    (hcap : newUntypedCap r.addr ((r.sizeBits + 12#8).setWidth 6) = .ok c) :
    ({ r with inUserUse := true } : PowerOfTwoRegion).Gives c := by
  rw [newUntypedCap, capSetPtr_eq_ok] at hcap
  obtain ⟨hsafe, rfl⟩ := hcap
  refine ⟨rfl, capPtr_withPtr _ _ hsafe, ?_⟩
  simp only [Cap.withPtr, BitVec.toNat_setWidth, BitVec.toNat_add, BitVec.toNat_ofNat]
  omega

theorem Layout.small {m : PageMap} {R : Nat → Nat → Prop} (h : Layout m R) (i : Nat) :
    (m.region i).sizeBits.toNat < 52 := by
  by_cases hi : i < m.regionCount
  · exact (h.block i hi).small
  · rw [(h.rest i (by omega)).2]
    decide

theorem createInitUntypedCapsFrom_spec {n fuel i : Nat} {m m' : PageMap}
    {caps : List (Cap × UntypedDesc)} {R : Nat → Nat → Prop} (h : Layout m R)
    (hok : createInitUntypedCapsFrom n fuel i m = .ok (m', caps)) :
    GivesAway m m' ∧ ∀ c ∈ caps, ∃ j, (m'.region j).Gives c.1 := by
  induction fuel generalizing i m caps with
  | zero => cases hok
  | succ fuel ih =>
    rw [createInitUntypedCapsFrom] at hok
    split at hok
    · dsimp only at hok
      split at hok
      · exact ih h hok
      · next huse =>
        simp only [bind_eq_ok] at hok
        obtain ⟨m₁, hset, c, hcap, hok⟩ := hok
        obtain ⟨-, -, hnew, -⟩ := PageMap.setRegion_eq_ok hset
        have hgive : GivesAway m m₁ := .setRegion huse hset
        have hgives : (m₁.region i).Gives c := by
          rw [hnew]
          exact .of_newUntypedCap (h.small i) hcap
        split at hok
        · cases hok
          refine ⟨hgive, fun d hd => ?_⟩
          obtain rfl := List.mem_singleton.mp hd
          exact ⟨i, hgives⟩
        · simp only [bind_eq_ok, pure_eq_ok] at hok
          obtain ⟨⟨m₂, caps'⟩, hrest, heq⟩ := hok
          cases heq
          obtain ⟨hgive', hcaps⟩ := ih (hgive.layout h) hrest
          refine ⟨hgive.trans hgive', fun d hd => ?_⟩
          rcases List.mem_cons.mp hd with rfl | hd
          · exact ⟨i, hgive'.gives hgives⟩
          · exact hcaps d hd
    · cases hok
      exact ⟨.refl _, by rintro _ ⟨⟩⟩

/-- A region holds its pages also when one more was taken from it. -/
theorem PowerOfTwoRegion.Holds.raise {r : PowerOfTwoRegion} {q : Word} {off : Nat} (h : r.Holds q)
    (hmark : r.inKernelUse = true → r.watermark.toNat = off)
    (hoff : (BitVec.ofNat 64 (off + 4096)).toNat = off + 4096) :
    ({ r with inKernelUse := true, forPages := true, watermark := BitVec.ofNat 64 (off + 4096) } :
      PowerOfTwoRegion).Holds q := by
  obtain ⟨huse, off', hq, halign, hlt⟩ := h
  rw [hmark huse] at hlt
  refine ⟨rfl, off', hq, halign, ?_⟩
  show off' < (BitVec.ofNat 64 (off + 4096)).toNat
  omega

namespace Allotted

variable {extents : List PhysicalExtent} {s t : PageState} {p : Word}

theorem start (haligned : ∀ e ∈ extents, e.Aligned)
    (hdisjoint : extents.Pairwise PhysicalExtent.Disjoint) (h : (pageSystem extents).start s) :
    Allotted extents s := by
  obtain ⟨hinit, hpages, hcaps⟩ := h
  obtain ⟨hlayout, hfresh⟩ := initPageMmap_spec haligned hdisjoint hinit
  refine ⟨hlayout, fun i hi => ?_, ?_, ?_, ?_⟩
  · rw [(hfresh i).1] at hi
    cases hi
  · rw [hpages]
    exact nofun
  · rw [hpages]
    exact List.nodup_nil
  · rw [hcaps]
    exact nofun

/-- A page lies in the region that holds it. -/
theorem holds_inside (h : Allotted extents s) {i : Nat} (hp : (s.map.region i).Holds p) :
    i < s.map.regionCount ∧ (s.map.region i).inUserUse = false ∧ p.toNat % 4096 = 0 ∧
      (s.map.region i).addr.toNat ≤ p.toNat ∧
      p.toNat + 4096 ≤ (s.map.region i).addr.toNat + (s.map.region i).size := by
  obtain ⟨huse, off, hoff, halign, hlt⟩ := hp
  obtain ⟨hi, -, huser, hmark, hle⟩ := h.kernel i huse
  have haddr := (h.layout.block i hi).aligned
  exact ⟨hi, huser, by omega, by omega, by omega⟩

theorem allocPage (h : Allotted extents s) (hok : Tern.allocPage s.map = .ok (p, t.map))
    (hpages : t.pages = p :: s.pages) (hcaps : t.caps = s.caps) : Allotted extents t := by
  obtain ⟨i, off, hi, huser, hp, halign, hroom, hmark, hcount, hold, hnew⟩ :=
    allocPage_spec h.layout (fun j hj => ⟨(h.kernel j hj).2.2.1, (h.kernel j hj).2.2.2.1⟩) hok
  have hblock := h.layout.block i hi
  have hbelow := hblock.below
  have hoff : (BitVec.ofNat 64 (off + 4096)).toNat = off + 4096 := by
    rw [BitVec.toNat_ofNat, Nat.mod_eq_of_lt (by omega)]
  have hold' : ∀ q, q ∈ s.pages → ∃ j, (t.map.region j).Holds q := by
    intro q hq
    obtain ⟨j, hj⟩ := h.pages q hq
    rcases eq_or_ne j i with rfl | hne
    · exact ⟨j, by rw [hnew]; exact hj.raise hmark hoff⟩
    · exact ⟨j, by rwa [hold j hne]⟩
  refine ⟨?_, fun j hj => ?_, fun q hq => ?_, ?_, fun l hl c hc => ?_⟩
  · refine h.layout.congr hcount fun j => ?_
    rcases eq_or_ne j i with rfl | hne
    · rw [hnew]
      exact ⟨rfl, rfl⟩
    · rw [hold j hne]
      exact ⟨rfl, rfl⟩
  · rcases eq_or_ne j i with rfl | hne
    · rw [hcount, hnew]
      refine ⟨hi, rfl, huser, ?_, ?_⟩
      · show (BitVec.ofNat 64 (off + 4096)).toNat % 4096 = 0
        omega
      · show (BitVec.ofNat 64 (off + 4096)).toNat ≤ (s.map.region j).size
        omega
    · rw [hold j hne] at hj ⊢
      rw [hcount]
      exact h.kernel j hj
  · rw [hpages] at hq
    rcases List.mem_cons.mp hq with rfl | hq
    · refine ⟨i, by rw [hnew], off, by rw [hnew]; exact hp, halign, ?_⟩
      rw [hnew]
      show off < (BitVec.ofNat 64 (off + 4096)).toNat
      omega
    · exact hold' q hq
  · rw [hpages]
    refine List.nodup_cons.mpr ⟨fun hmem => ?_, h.nodup⟩
    obtain ⟨j, hj⟩ := h.pages p hmem
    rcases eq_or_ne j i with rfl | hne
    · obtain ⟨huse, off', hq, -, hlt⟩ := hj
      have hmark := hmark huse
      omega
    · obtain ⟨hj', -, -, hlo, hhi⟩ := h.holds_inside hj
      rcases h.layout.apart j hj' i hi hne with hapart | hapart <;> omega
  · rw [hcaps] at hl
    obtain ⟨j, hj⟩ := h.caps l hl c hc
    refine ⟨j, ?_⟩
    rcases eq_or_ne j i with rfl | hne
    · rw [hj.1] at huser
      cases huser
    · rwa [hold j hne]

theorem createInitUntypedCaps (h : Allotted extents s) {n : Nat} {caps : List (Cap × UntypedDesc)}
    (hok : Tern.createInitUntypedCaps n s.map = .ok (t.map, caps)) (hpages : t.pages = s.pages)
    (hcaps : t.caps = some caps) : Allotted extents t := by
  obtain ⟨hgive, hgives⟩ := createInitUntypedCapsFrom_spec h.layout hok
  refine ⟨hgive.layout h.layout, fun i hi => ?_, fun p hp => ?_, hpages ▸ h.nodup, ?_⟩
  · obtain ⟨-, hbits, huse, hfor, hmark⟩ := hgive.fields i
    rw [huse] at hi
    rw [hgive.count, hfor, hgive.kernel i hi, hmark, PowerOfTwoRegion.size, hbits]
    exact h.kernel i hi
  · rw [hpages] at hp
    obtain ⟨i, huse, off, hoff, halign, hlt⟩ := h.pages p hp
    obtain ⟨haddr, -, huse', -, hmark⟩ := hgive.fields i
    exact ⟨i, by rw [huse', huse], off, by rw [haddr, hoff], halign, by rwa [hmark]⟩
  · rw [hcaps]
    intro l hl c hc
    cases hl
    exact hgives c hc

end Allotted

theorem Layout.page_apart {m : PageMap} {extents : List PhysicalExtent}
    (h : Layout m (Usable extents)) (haligned : ∀ e ∈ extents, e.Aligned) {i j : Nat}
    (hi : i < m.regionCount) (hne : j ≠ i) :
    (m.region j).Apart (m.region i) ∨ (m.region j).addr.toNat + (m.region j).size ≤
      (m.region i).addr.toNat := by
  by_cases hj : j < m.regionCount
  · exact .inl (h.apart j hj i hi hne)
  · -- the zeroed region behind the last one is the page at address 0
    obtain ⟨haddr, hbits⟩ := h.rest j (by omega)
    obtain ⟨e, he, hlo, -⟩ := h.inside i hi
    obtain ⟨hstart, -, hzero⟩ := haligned e he
    have hpos : 0 < e.start.toNat := by
      rw [Nat.pos_iff_ne_zero]
      exact fun h0 => hzero (BitVec.eq_of_toNat_eq h0)
    refine .inr ?_
    rw [PowerOfTwoRegion.size, haddr, hbits]
    show 0 + 4096 ≤ _
    have hlo : e.start.toNat ≤ (m.region i).addr.toNat := hlo
    omega

/-- Pages are aligned, distinct, inside the usable extents, and apart from the
memory of every untyped capability that was created. -/
theorem alloc_page_exclusive {extents : List PhysicalExtent} (haligned : ∀ e ∈ extents, e.Aligned)
    (hdisjoint : extents.Pairwise PhysicalExtent.Disjoint) {s : PageState}
    (h : (pageSystem extents).Reached s) :
    (∀ p ∈ s.pages, p.toNat % 4096 = 0 ∧ Usable extents p.toNat (p.toNat + 4096) ∧
      ∀ l ∈ s.caps, ∀ c ∈ l, p.toNat + 4096 ≤ (capPtr c.1).toNat ∨
        (capPtr c.1).toNat + (capSize c.1).toNat ≤ p.toNat) ∧
      s.pages.Nodup := by
  have hallot : Allotted extents s := by
    refine h.invariant (I := Allotted extents) (fun s hs => .start haligned hdisjoint hs) ?_
    rintro s (_ | n) t hs - hstep
    · obtain ⟨p, hok, hpages, hcaps⟩ := hstep
      exact hs.allocPage hok hpages hcaps
    · obtain ⟨-, hpages, caps, hok, hcaps⟩ := hstep
      exact hs.createInitUntypedCaps hok hpages hcaps
  refine ⟨fun p hp => ?_, hallot.nodup⟩
  obtain ⟨i, hi⟩ := hallot.pages p hp
  obtain ⟨hcount, huser, halign, hlo, hhi⟩ := hallot.holds_inside hi
  obtain ⟨e, he, helo, hehi⟩ := hallot.layout.inside i hcount
  refine ⟨halign, ⟨e, he, helo.trans hlo, hhi.trans hehi⟩, fun l hl c hc => ?_⟩
  obtain ⟨j, hgiven, hptr, hbits⟩ := hallot.caps l hl c hc
  have hne : j ≠ i := by
    rintro rfl
    rw [hgiven] at huser
    cases huser
  have hsize : (capSize c.1).toNat = (s.map.region j).size := by
    have hsmall := hallot.layout.small j
    rw [capSize, bit_toNat, BitVec.toNat_setWidth, hbits, PowerOfTwoRegion.size]
    congr 1
    omega
  rw [hptr, hsize]
  rcases hallot.layout.page_apart haligned hcount hne with (hapart | hapart) | hapart <;> omega

/-- Seven pages from 1 MiB on: a page before and a page after the hand-over, which
gives away the two smaller regions. -/
theorem alloc_page_exclusive_shared :
    ∃ s, (pageSystem [⟨0x100000#64, 0x7000#64⟩]).Reached s ∧
      s.pages = [0x101000#64, 0x100000#64] ∧
      (∃ l ∈ s.caps, l.map (capPtr ∘ Prod.fst) = [0x104000#64, 0x106000#64]) ∧
      (∀ p ∈ s.pages, p.toNat % 4096 = 0 ∧
        Usable [⟨0x100000#64, 0x7000#64⟩] p.toNat (p.toNat + 4096) ∧
        ∀ l ∈ s.caps, ∀ c ∈ l, p.toNat + 4096 ≤ (capPtr c.1).toNat ∨
          (capPtr c.1).toNat + (capSize c.1).toNat ≤ p.toNat) ∧
      s.pages.Nodup := by
  have hrun : (do
      let m ← initPageMmap [⟨0x100000#64, 0x7000#64⟩]
      let (p, m) ← allocPage m
      let (m, caps) ← createInitUntypedCaps 10 m
      let (q, _) ← allocPage m
      return decide (p = 0x100000#64 ∧ q = 0x101000#64 ∧
        caps.map (capPtr ∘ Prod.fst) = [0x104000#64, 0x106000#64])) = .ok true := by
    decide +kernel
  simp only [bind_eq_ok, pure_eq_ok, decide_eq_true_eq] at hrun
  obtain ⟨m, hm, ⟨p, m₁⟩, hp, ⟨m₂, caps⟩, hcaps, ⟨q, m₃⟩, hq, rfl, rfl, hptrs⟩ := hrun
  have hstart : (pageSystem [⟨0x100000#64, 0x7000#64⟩]).Reached ⟨m, [], none⟩ :=
    .start ⟨hm, rfl, rfl⟩
  have hbefore : (pageSystem [⟨0x100000#64, 0x7000#64⟩]).Reached ⟨m₁, [0x100000#64], none⟩ :=
    .step (l := PageCall.allocPage) hstart trivial ⟨_, hp, rfl, rfl⟩
  have hgiven : (pageSystem [⟨0x100000#64, 0x7000#64⟩]).Reached
      ⟨m₂, [0x100000#64], some caps⟩ :=
    .step (l := PageCall.createInitUntypedCaps 10) hbefore trivial ⟨rfl, rfl, caps, hcaps, rfl⟩
  have hafter : (pageSystem [⟨0x100000#64, 0x7000#64⟩]).Reached
      ⟨m₃, [0x101000#64, 0x100000#64], some caps⟩ :=
    .step (l := PageCall.allocPage) hgiven trivial ⟨_, hq, rfl, rfl⟩
  refine ⟨_, hafter, rfl, ⟨caps, rfl, hptrs⟩, alloc_page_exclusive (fun e he => ?_) ?_ hafter⟩
  · obtain rfl := List.mem_singleton.mp he
    exact ⟨by decide, by decide, by decide⟩
  · exact List.pairwise_singleton _ _

end Tern
