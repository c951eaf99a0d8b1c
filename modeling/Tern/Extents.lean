import Tern.Lib.Dyadic
import Tern.Pages

/-! From the boot memory map to the table of regions: what the cutting of an
extent appends, and which memory maps fit into the table. -/

namespace Tern

open Lib

/-- `struct limine_memmap_entry`. -/
structure LimineMemmapEntry where
  base : Word
  length : Word
  type : Word
  deriving DecidableEq, Repr

def limineMemmapUsable : Word := 0#64

/-- `get_physical_extents` with room for `maxExtents`. -/
def getPhysicalExtents (maxExtents : Nat) (entries : List LimineMemmapEntry) :
    List PhysicalExtent :=
  entries.foldl (fun extents entry =>
    if entry.type == limineMemmapUsable && extents.length < maxExtents then
      extents ++ [{ start := entry.base, len := entry.length }]
    else extents) []

/-- `MAX_EXTENTS`. -/
def maxExtents : Nat := 32

/-- `init_page_mmap` on the memory map of the boot loader. -/
def initPageMmapFrom (entries : List LimineMemmapEntry) : Result PageMap :=
  initPageMmap (getPhysicalExtents maxExtents entries)

/-- The end of an extent, as the code computes it. -/
def PhysicalExtent.stop (e : PhysicalExtent) : Word := e.start + e.len

/-! ## One extent -/

/-- From `lo` on and before `hi`, no first block wraps to 0. -/
def NoWrapIn (lo hi : Nat) : Prop :=
  ∀ a : Word, lo ≤ a.toNat → a.toNat < hi → ¬WrapsAt a

/-- None of them lies in the lower half of the address space, 0 apart. -/
theorem not_wrapsAt_of_lt {a : Word} (hzero : a ≠ 0#64) (hlow : a.toNat < 2 ^ 63) : ¬WrapsAt a := by
  intro h
  obtain ⟨k, hk, heq⟩ := h.eq_sub hzero
  have hle : 2 ^ k ≤ 2 ^ 63 := Nat.pow_le_pow_right (by decide) (by omega)
  omega

theorem noWrapIn_of_lt {lo hi : Nat} (hlo : 0 < lo) (hhi : hi ≤ 2 ^ 63) : NoWrapIn lo hi := by
  intro a hle hlt
  refine not_wrapsAt_of_lt ?_ (by omega)
  rintro rfl
  simp at hle
  omega


namespace PageMap

/-- The blocks of the regions that `m'` has behind those of `m`. -/
def added (m m' : PageMap) : List (Nat × Nat) :=
  (List.range' m.regionCount (m'.regionCount - m.regionCount)).map fun i =>
    ((m'.region i).addr.toNat, (m'.region i).sizeBits.toNat + 12)

end PageMap

/-- The regions appended to `m` cover `lo` to `hi` in their order, each of
`4096 << size_bits` bytes and aligned to its size. -/
structure Covers (m m' : PageMap) (lo hi : Nat) : Prop where
  grows : m.regionCount ≤ m'.regionCount
  kept : ∀ i < m.regionCount, m'.region i = m.region i
  tiles : Tiles lo hi (m.added m')

namespace Covers

variable {m m₁ m' : PageMap} {lo hi : Nat}

theorem refl (m : PageMap) (lo : Nat) : Covers m m lo lo := by
  refine ⟨le_rfl, fun _ _ => rfl, ?_⟩
  rw [PageMap.added, Nat.sub_self]
  rfl

/-- A block, and the cover of the rest. -/
theorem cons {r : PowerOfTwoRegion} {k : Nat} (hpush : m.push r = .ok m₁) (haddr : r.addr.toNat = lo)
    (hbits : r.sizeBits.toNat + 12 = k) (hdvd : 2 ^ k ∣ lo) (h : Covers m₁ m' (lo + 2 ^ k) hi) :
    Covers m m' lo hi := by
  obtain ⟨hcount, hnew, hold⟩ := PageMap.push_eq_ok hpush
  obtain ⟨hgrows, hkept, htiles⟩ := h
  refine ⟨by omega, fun i hi => ?_, ?_⟩
  · rw [hkept i (by omega), hold i (by omega)]
  · have hfirst : m'.region m.regionCount = r := by rw [hkept _ (by omega), hnew]
    have hlength : m'.regionCount - m.regionCount = m'.regionCount - m₁.regionCount + 1 := by omega
    have hadded : m.added m' = (lo, k) :: m₁.added m' := by
      rw [PageMap.added, hlength, List.range'_succ, List.map_cons, hfirst, haddr, hbits, ← hcount]
      rfl
    rw [hadded]
    exact ⟨rfl, hdvd, htiles⟩

/-- A cover has at least the pieces that its bounds call for. -/
theorem pieces_le (h : Covers m m' lo hi) : m.regionCount + pieces lo hi ≤ m'.regionCount := by
  have hle := h.tiles.pieces_le
  have hgrows := h.grows
  rw [PageMap.added, List.length_map, List.length_range'] at hle
  omega

end Covers

theorem PageMap.setRegion_isOk {m : PageMap} {i : Nat} {r : PowerOfTwoRegion} (hi : i < 64) :
    ∃ m', m.setRegion i r = .ok m' :=
  ⟨_, dif_pos hi⟩

theorem PageMap.push_isOk {m : PageMap} {r : PowerOfTwoRegion} (h : m.regionCount < 64) :
    ∃ m', m.push r = .ok m' := by
  obtain ⟨m', hm'⟩ := PageMap.setRegion_isOk (m := m) (r := r) h
  refine ⟨{ m' with regionCount := m'.regionCount + 1 }, ?_⟩
  rw [PageMap.push, hm']
  rfl

theorem PageMap.push_cases (m : PageMap) (r : PowerOfTwoRegion) :
    (∃ m', m.push r = .ok m') ∨ m.push r = .error .fault := by
  rcases Nat.lt_or_ge m.regionCount 64 with hroom | hfull
  · exact .inl (PageMap.push_isOk hroom)
  · refine .inr ?_
    rw [PageMap.push, PageMap.setRegion, dif_neg (by omega)]
    rfl

theorem PageMap.push_le {m m' : PageMap} {r : PowerOfTwoRegion} (h : m.push r = .ok m') :
    m'.regionCount ≤ 64 := by
  have hcount := (PageMap.push_eq_ok h).1
  simp only [PageMap.push, bind_eq_ok] at h
  obtain ⟨m₁, hset, -⟩ := h
  have hlt := (PageMap.setRegion_eq_ok hset).1
  omega

section Cut

variable {stop start : Word} {m m' : PageMap} {fuel : Nat}

theorem allocateAlignedRegions_covers (hstart : start.toNat % 4096 = 0)
    (hstop : stop.toNat % 4096 = 0) (hle : start.toNat ≤ stop.toNat)
    (hplain : NoWrapIn start.toNat stop.toNat)
    (hok : allocateAlignedRegions stop fuel m start = .ok m') :
    Covers m m' start.toNat stop.toNat := by
  induction fuel generalizing m start with
  | zero => cases hok
  | succ fuel ih =>
    rw [allocateAlignedRegions] at hok
    split at hok
    · next hlt =>
      obtain ⟨j, hj12, hbits, hnext, hdvd, hfits, -⟩ :=
        largestFittingBlock_next hstart hstop hlt (hplain start le_rfl hlt)
      have hpage : 4096 ∣ 2 ^ j := Nat.pow_dvd_pow 2 hj12
      simp only [bind_eq_ok] at hok
      obtain ⟨m₁, hpush, hrest⟩ := hok
      have hcovers := ih (by omega) (by omega) (fun a ha => hplain a (by omega)) hrest
      rw [hnext] at hcovers
      exact .cons hpush rfl hbits hdvd hcovers
    · next hge =>
      rw [BitVec.lt_def] at hge
      cases hok
      rw [show stop.toNat = start.toNat by omega]
      exact .refl _ _

/-- With room in the table for the pieces, the cut ends. -/
theorem allocateAlignedRegions_progress (hstart : start.toNat % 4096 = 0)
    (hstop : stop.toNat % 4096 = 0) (hplain : NoWrapIn start.toNat stop.toNat)
    (hroom : m.regionCount + pieces start.toNat stop.toNat ≤ 64)
    (hfuel : pieces start.toNat stop.toNat < fuel) :
    ∃ m', allocateAlignedRegions stop fuel m start = .ok m' ∧
      m'.regionCount = m.regionCount + pieces start.toNat stop.toNat := by
  induction fuel generalizing m start with
  | zero => omega
  | succ fuel ih =>
    rw [allocateAlignedRegions]
    split
    · next hlt =>
      obtain ⟨j, hj12, hbits, hnext, hdvd, hfits, hmax⟩ :=
        largestFittingBlock_next hstart hstop hlt (hplain start le_rfl hlt)
      have hpage : 4096 ∣ 2 ^ j := Nat.pow_dvd_pow 2 hj12
      have hpieces := pieces_largest hdvd hfits hmax
      rw [← hnext] at hpieces
      obtain ⟨m₁, hpush⟩ := PageMap.push_isOk (m := m) (r := {
        addr := start
        sizeBits := (pageCount (largestFittingBlock start stop)).setWidth 8 }) (by omega)
      have hcount := (PageMap.push_eq_ok hpush).1
      have haligned : (start + largestFittingBlock start stop).toNat % 4096 = 0 := by omega
      have hroom' : m₁.regionCount +
          pieces (start + largestFittingBlock start stop).toNat stop.toNat ≤ 64 := by omega
      obtain ⟨m', hrest, hcount'⟩ := ih haligned (fun a ha => hplain a (by omega)) hroom' (by omega)
      refine ⟨m', ?_, by omega⟩
      dsimp only
      rw [hpush]
      exact hrest
    · next hge =>
      rw [BitVec.lt_def] at hge
      exact ⟨m, rfl, by rw [pieces_of_le (by omega), Nat.add_zero]⟩

/-- An address at which the first block wraps is the start of a region, unless the
cut starts behind it; and from address 0 it never ends. -/
theorem allocateAlignedRegions_wraps (hstart : start.toNat % 4096 = 0)
    (hstop : stop.toNat % 4096 = 0) {x : Word} (hx : WrapsAt x) (hlo : start.toNat ≤ x.toNat)
    (hhi : x.toNat < stop.toNat) : allocateAlignedRegions stop fuel m start ≠ .ok m' := by
  induction fuel generalizing m start with
  | zero => nofun
  | succ fuel ih =>
    have hlt : start < stop := by
      rw [BitVec.lt_def]
      omega
    intro hok
    by_cases hwraps : WrapsAt start
    · exact hwraps.allocateAlignedRegions hlt _ _ _ hok
    · rw [allocateAlignedRegions, if_pos hlt] at hok
      simp only [bind_eq_ok] at hok
      obtain ⟨m₁, -, hrest⟩ := hok
      obtain ⟨j, hj12, -, hnext, hdvd, hfits, -⟩ :=
        largestFittingBlock_next hstart hstop hlt hwraps
      have hpage : 4096 ∣ 2 ^ j := Nat.pow_dvd_pow 2 hj12
      have haligned : (start + largestFittingBlock start stop).toNat % 4096 = 0 := by omega
      refine ih haligned ?_ hrest
      by_contra hpast
      have hne : start ≠ x := by
        rintro rfl
        exact hwraps hx
      have hne : start.toNat ≠ x.toNat := fun heq => hne (BitVec.eq_of_toNat_eq heq)
      have hzero : x ≠ 0#64 := by
        rintro rfl
        exact hne (Nat.le_zero.mp hlo)
      obtain ⟨k, hk, hsub⟩ := hx.eq_sub hzero
      have hbound := stop.isLt
      have hj : j ≤ 64 := by
        by_contra hbig
        have hpow : 2 ^ 64 ≤ 2 ^ j := Nat.pow_le_pow_right (by decide) (by omega)
        omega
      have hreach := block_reaches hj (k := k) hdvd (by omega) (by omega)
      omega

theorem allocateAlignedRegions_count (hok : allocateAlignedRegions stop fuel m start = .ok m')
    (hm : m.regionCount ≤ 64) : m'.regionCount ≤ 64 := by
  induction fuel generalizing m start with
  | zero => cases hok
  | succ fuel ih =>
    rw [allocateAlignedRegions] at hok
    split at hok
    · simp only [bind_eq_ok] at hok
      obtain ⟨m₁, hpush, hrest⟩ := hok
      exact ih hrest (PageMap.push_le hpush)
    · cases hok
      exact hm

/-- Every round fills a region, so the table is full before the rounds run out. -/
theorem allocateAlignedRegions_fuel (hm : m.regionCount ≤ 64) (hfuel : 64 < fuel + m.regionCount) :
    (∃ m', allocateAlignedRegions stop fuel m start = .ok m') ∨
      allocateAlignedRegions stop fuel m start = .error .fault := by
  induction fuel generalizing m start with
  | zero => omega
  | succ fuel ih =>
    rw [allocateAlignedRegions]
    split
    · dsimp only
      rcases PageMap.push_cases m { addr := start, sizeBits :=
        (pageCount (largestFittingBlock start stop)).setWidth 8 } with ⟨m₁, hpush⟩ | hfull
      · have hcount := (PageMap.push_eq_ok hpush).1
        rw [hpush]
        exact ih (PageMap.push_le hpush) (by omega)
      · rw [hfull]
        exact .inr rfl
    · exact .inl ⟨m, rfl⟩

/-- A cut that ends has used up the pieces that its bounds call for. -/
theorem allocateAlignedRegions_pieces (hstart : start.toNat % 4096 = 0)
    (hstop : stop.toNat % 4096 = 0) (hok : allocateAlignedRegions stop fuel m start = .ok m') :
    NoWrapIn start.toNat stop.toNat ∧
      m.regionCount + pieces start.toNat stop.toNat ≤ m'.regionCount := by
  have hplain : NoWrapIn start.toNat stop.toNat := fun a hlo hhi hwraps =>
    allocateAlignedRegions_wraps hstart hstop hwraps hlo hhi hok
  refine ⟨hplain, ?_⟩
  rcases Nat.lt_or_ge start.toNat stop.toNat with hlt | hge
  · exact (allocateAlignedRegions_covers hstart hstop hlt.le hplain hok).pieces_le
  · rw [pieces_of_le hge, Nat.add_zero]
    cases fuel with
    | zero => cases hok
    | succ fuel =>
      have hno : ¬start < stop := by
        rw [BitVec.lt_def]
        omega
      rw [allocateAlignedRegions, if_neg hno] at hok
      cases hok
      exact le_rfl

end Cut

/-- The regions appended for an extent tile it if and only if no first block in it
wraps and the table has room for its pieces. -/
theorem allocate_aligned_regions_tiles_iff {m : PageMap} (hm : m.regionCount ≤ 64)
    {e : PhysicalExtent} (he : e.Aligned) (hend : e.hi ≤ 2 ^ 64) :
    (∃ m', allocateAlignedRegions e.stop 65 m e.start = .ok m' ∧ Covers m m' e.lo e.hi) ↔
      NoWrapIn e.lo e.hi ∧ m.regionCount + pieces e.lo e.hi ≤ 64 := by
  have hstop : e.stop.toNat = e.hi % 2 ^ 64 := BitVec.toNat_add _ _
  rcases hend.lt_or_eq with hlt | htop
  · rw [Nat.mod_eq_of_lt hlt] at hstop
    have haligned : e.stop.toNat % 4096 = 0 := by
      have hhi : e.hi = e.start.toNat + e.len.toNat := rfl
      have hstart := he.start
      have hlen := he.len
      omega
    rw [← hstop]
    constructor
    · rintro ⟨m', hok, -⟩
      obtain ⟨hplain, hroom⟩ := allocateAlignedRegions_pieces he.start haligned hok
      exact ⟨hplain, hroom.trans (allocateAlignedRegions_count hok hm)⟩
    · rintro ⟨hplain, hroom⟩
      have hfuel : pieces e.start.toNat e.stop.toNat < 65 := by
        have hroom : m.regionCount + pieces e.start.toNat e.stop.toNat ≤ 64 := hroom
        omega
      obtain ⟨m', hok, -⟩ :=
        allocateAlignedRegions_progress he.start haligned hplain hroom hfuel
      have hle : e.start.toNat ≤ e.stop.toNat := by
        rw [hstop]
        exact Nat.le_add_right _ _
      exact ⟨m', hok, allocateAlignedRegions_covers he.start haligned hle hplain hok⟩
  · -- the end is 0 as a word, and the loop does not even start
    have hzero : e.stop = 0#64 := by
      refine BitVec.eq_of_toNat_eq ?_
      rw [hstop, htop]
      rfl
    have hlt : e.lo < e.hi := by
      rw [htop]
      exact e.start.isLt
    have hnone : ¬e.start < 0#64 := by
      rw [BitVec.lt_def]
      exact Nat.not_lt_zero _
    rw [hzero]
    constructor
    · rintro ⟨m', hok, hcovers⟩
      rw [allocateAlignedRegions, if_neg hnone] at hok
      cases hok
      have htiles := hcovers.tiles
      rw [PageMap.added, Nat.sub_self] at htiles
      exact absurd (htiles : e.lo = e.hi) hlt.ne
    · rintro ⟨hplain, -⟩
      refine absurd (by decide : WrapsAt (BitVec.allOnes 64)) (hplain _ ?_ ?_)
      · have hbound := e.start.isLt
        rw [BitVec.toNat_allOnes]
        show e.start.toNat ≤ _
        omega
      · rw [htop, BitVec.toNat_allOnes]
        decide

/-- The 7 pages from 1 MiB on are 4, 2 and 1 of them. -/
theorem allocate_aligned_regions_tiles_iff_mebibyte :
    (∃ m', allocateAlignedRegions 0x107000#64 65 .empty 0x100000#64 = .ok m' ∧
      Covers .empty m' 0x100000 0x107000) ∧ pieces 0x100000 0x107000 = 3 := by
  have hpieces : pieces 0x100000 0x107000 = 3 := by simp [pieces]
  have hiff := allocate_aligned_regions_tiles_iff (m := .empty) (Nat.zero_le 64)
    (e := ⟨0x100000#64, 0x7000#64⟩) ⟨by decide, by decide, by decide⟩ (by decide)
  refine ⟨hiff.mpr ⟨noWrapIn_of_lt (by decide) (by decide), ?_⟩, hpieces⟩
  show 0 + pieces 0x100000 0x107000 ≤ 64
  omega

/-- The last page but one of the address space: `start + block` is 0, which is not
past the end, and the block is twice as long as the extent. And a full table, which
has no room for one page more. -/
theorem allocate_aligned_regions_past_end :
    (PhysicalExtent.Aligned ⟨0xFFFFFFFFFFFFE000#64, 0x1000#64⟩ ∧
      PhysicalExtent.hi ⟨0xFFFFFFFFFFFFE000#64, 0x1000#64⟩ ≤ 2 ^ 64 ∧
      largestFittingBlock 0xFFFFFFFFFFFFE000#64 0xFFFFFFFFFFFFF000#64 = 0x2000#64 ∧
      ¬∃ m', allocateAlignedRegions 0xFFFFFFFFFFFFF000#64 65 .empty 0xFFFFFFFFFFFFE000#64 =
        .ok m' ∧ Covers .empty m' 0xFFFFFFFFFFFFE000 0xFFFFFFFFFFFFF000) ∧
    PhysicalExtent.Aligned ⟨0x1000#64, 0x1000#64⟩ ∧
      ¬∃ m', allocateAlignedRegions 0x2000#64 65 { PageMap.empty with regionCount := 64 } 0x1000#64 =
        .ok m' ∧ Covers { PageMap.empty with regionCount := 64 } m' 0x1000 0x2000 := by
  refine ⟨⟨⟨by decide, by decide, by decide⟩, by decide, by decide +kernel, ?_⟩,
    ⟨by decide, by decide, by decide⟩, ?_⟩
  · rintro ⟨m', hok, -⟩
    have hfault : allocateAlignedRegions 0xFFFFFFFFFFFFF000#64 65 .empty 0xFFFFFFFFFFFFE000#64 =
        .error .fault := by decide +kernel
    rw [hfault] at hok
    cases hok
  · rintro ⟨m', hok, -⟩
    have hfault : allocateAlignedRegions 0x2000#64 65 { PageMap.empty with regionCount := 64 }
        0x1000#64 = .error .fault := by decide +kernel
    rw [hfault] at hok
    cases hok

/-! ## The memory map -/

section MemoryMap

variable {extents : List PhysicalExtent} {m : PageMap}

/-- Start and length are whole pages. -/
def PhysicalExtent.Paged (e : PhysicalExtent) : Prop :=
  e.start.toNat % 4096 = 0 ∧ e.len.toNat % 4096 = 0

theorem PhysicalExtent.Paged.stop {e : PhysicalExtent} (h : e.Paged) : e.stop.toNat % 4096 = 0 := by
  obtain ⟨hstart, hlen⟩ := h
  rw [PhysicalExtent.stop, BitVec.toNat_add]
  omega

/-- How many regions the extents take. -/
def piecesOf (extents : List PhysicalExtent) : Nat :=
  (extents.map fun e => pieces e.start.toNat e.stop.toNat).sum

theorem piecesOf_cons (e : PhysicalExtent) (extents : List PhysicalExtent) :
    piecesOf (e :: extents) = pieces e.start.toNat e.stop.toNat + piecesOf extents := by
  rw [piecesOf, List.map_cons, List.sum_cons]
  rfl

/-- One extent after the other. -/
theorem cutAll_ok_iff (hpaged : ∀ e ∈ extents, e.Paged) (hm : m.regionCount ≤ 64) :
    (∃ m', extents.foldlM (fun m e => allocateAlignedRegions e.stop 65 m e.start) m = .ok m') ↔
      (∀ e ∈ extents, NoWrapIn e.start.toNat e.stop.toNat) ∧
        m.regionCount + piecesOf extents ≤ 64 := by
  induction extents generalizing m with
  | nil => exact iff_of_true ⟨m, rfl⟩ ⟨nofun, hm⟩
  | cons e extents ih =>
    have he := hpaged e List.mem_cons_self
    have hrest : ∀ e ∈ extents, e.Paged := fun f hf => hpaged f (List.mem_cons_of_mem e hf)
    rw [piecesOf_cons]
    simp only [List.foldlM_cons, bind_eq_ok]
    constructor
    · rintro ⟨m', m₁, hok, hall⟩
      obtain ⟨hplain, hcount⟩ := allocateAlignedRegions_pieces he.1 he.stop hok
      obtain ⟨hplains, hroom⟩ := (ih hrest (allocateAlignedRegions_count hok hm)).mp ⟨m', hall⟩
      refine ⟨fun f hf => ?_, by omega⟩
      rcases List.mem_cons.mp hf with rfl | hf
      · exact hplain
      · exact hplains f hf
    · rintro ⟨hplains, hroom⟩
      have hfuel : pieces e.start.toNat e.stop.toNat < 65 := by omega
      have hroom' : m.regionCount + pieces e.start.toNat e.stop.toNat ≤ 64 := by omega
      obtain ⟨m₁, hok, hcount⟩ := allocateAlignedRegions_progress he.1 he.stop
        (hplains e List.mem_cons_self) hroom' hfuel
      obtain ⟨m', hall⟩ := (ih hrest (allocateAlignedRegions_count hok hm)).mpr
        ⟨fun f hf => hplains f (List.mem_cons_of_mem e hf), by omega⟩
      exact ⟨m', m₁, hok, hall⟩

/-- The cut of a list of extents ends, or writes past the table. -/
theorem cutAll_fuel (hm : m.regionCount ≤ 64) :
    (∃ m', extents.foldlM (fun m e => allocateAlignedRegions e.stop 65 m e.start) m = .ok m') ∨
      extents.foldlM (fun m e => allocateAlignedRegions e.stop 65 m e.start) m =
        .error .fault := by
  induction extents generalizing m with
  | nil => exact .inl ⟨m, rfl⟩
  | cons e extents ih =>
    rw [List.foldlM_cons]
    have hfuel : 64 < 65 + m.regionCount := by omega
    have hcut : (∃ m₁, allocateAlignedRegions e.stop 65 m e.start = .ok m₁) ∨
        allocateAlignedRegions e.stop 65 m e.start = .error .fault :=
      allocateAlignedRegions_fuel hm hfuel
    rcases hcut with ⟨m₁, hok⟩ | hfault
    · rw [hok]
      exact ih (allocateAlignedRegions_count hok hm)
    · rw [hfault]
      exact .inr rfl

end MemoryMap

/-- The extents are usable entries of the memory map. -/
theorem mem_getPhysicalExtents {entries : List LimineMemmapEntry} {n : Nat} {e : PhysicalExtent}
    (he : e ∈ getPhysicalExtents n entries) :
    ∃ entry ∈ entries, entry.type = limineMemmapUsable ∧ e = ⟨entry.base, entry.length⟩ := by
  have hfold : ∀ (entries : List LimineMemmapEntry) (extents : List PhysicalExtent),
      e ∈ entries.foldl (fun extents entry =>
        if entry.type == limineMemmapUsable && extents.length < n then
          extents ++ [{ start := entry.base, len := entry.length }]
        else extents) extents →
      e ∈ extents ∨ ∃ entry ∈ entries, entry.type = limineMemmapUsable ∧
        e = ⟨entry.base, entry.length⟩ := by
    intro entries
    induction entries with
    | nil => exact fun extents he => .inl he
    | cons entry entries ih =>
      intro extents he
      rcases ih _ he with hin | ⟨other, hother, hrest⟩
      · dsimp only at hin
        split at hin
        · next hcond =>
          rcases List.mem_append.mp hin with hin | hin
          · exact .inl hin
          · rw [Bool.and_eq_true, beq_iff_eq] at hcond
            exact .inr ⟨entry, List.mem_cons_self, hcond.1, List.mem_singleton.mp hin⟩
        · exact .inl hin
      · exact .inr ⟨other, List.mem_cons_of_mem entry hother, hrest⟩
  exact (hfold entries [] he).resolve_left List.not_mem_nil

/-- The usable entries of the memory map are whole pages. -/
def PagedMap (entries : List LimineMemmapEntry) : Prop :=
  ∀ entry ∈ entries, entry.type = limineMemmapUsable →
    entry.base.toNat % 4096 = 0 ∧ entry.length.toNat % 4096 = 0

/-- `init_page_mmap` stays inside the table if and only if no extent has a first
block that wraps, and all extents together have at most 64 pieces. -/
theorem init_page_mmap_in_table_iff {entries : List LimineMemmapEntry} (h : PagedMap entries) :
    (initPageMmapFrom entries ≠ .error .fault ↔
      (∀ e ∈ getPhysicalExtents maxExtents entries,
        NoWrapIn e.start.toNat e.stop.toNat) ∧
      piecesOf (getPhysicalExtents maxExtents entries) ≤ 64) ∧
    (initPageMmapFrom entries ≠ .error .fault → ∃ m, initPageMmapFrom entries = .ok m) := by
  have hpaged : ∀ e ∈ getPhysicalExtents maxExtents entries, e.Paged := by
    intro e he
    obtain ⟨entry, hentry, htype, rfl⟩ := mem_getPhysicalExtents he
    exact h entry hentry htype
  have hends : (∃ m, initPageMmapFrom entries = .ok m) ∨
      initPageMmapFrom entries = .error .fault := cutAll_fuel (Nat.zero_le 64)
  have hiff : (∃ m, initPageMmapFrom entries = .ok m) ↔ _ :=
    cutAll_ok_iff hpaged (Nat.zero_le 64)
  rw [show PageMap.empty.regionCount = 0 from rfl, Nat.zero_add] at hiff
  rw [← hiff]
  refine ⟨⟨hends.resolve_right, ?_⟩, hends.resolve_right⟩
  rintro ⟨m, hok⟩ hfault
  rw [hok] at hfault
  cases hfault

/-- Seven pages from 1 MiB on. -/
theorem init_page_mmap_in_table_iff_mebibyte :
    ∃ m, initPageMmapFrom [⟨0#64, 0x1000#64, 1#64⟩, ⟨0x100000#64, 0x7000#64, 0#64⟩] = .ok m := by
  have hextents : getPhysicalExtents maxExtents
      [⟨0#64, 0x1000#64, 1#64⟩, ⟨0x100000#64, 0x7000#64, 0#64⟩] =
        [⟨0x100000#64, 0x7000#64⟩] := by decide
  have hpaged : PagedMap [⟨0#64, 0x1000#64, 1#64⟩, ⟨0x100000#64, 0x7000#64, 0#64⟩] := by
    unfold PagedMap
    decide
  obtain ⟨hiff, hends⟩ := init_page_mmap_in_table_iff hpaged
  rw [hextents] at hiff
  refine hends (hiff.mpr ⟨fun e he => ?_, ?_⟩)
  · obtain rfl := List.mem_singleton.mp he
    exact noWrapIn_of_lt (by decide) (by decide)
  · show pieces 0x100000 0x107000 + 0 ≤ 64
    have hpieces : pieces 0x100000 0x107000 = 3 := by simp [pieces]
    omega

/-- Six usable extents of 504 KiB, each a page off both ends of its 512 KiB: 12
blocks for each of them. -/
theorem init_page_mmap_overflows :
    PagedMap ((List.range 6).map fun i => ⟨BitVec.ofNat 64 (0x100000 + 0x80000 * i + 0x1000),
        0x7E000#64, 0#64⟩) ∧
      initPageMmapFrom ((List.range 6).map fun i =>
        ⟨BitVec.ofNat 64 (0x100000 + 0x80000 * i + 0x1000), 0x7E000#64, 0#64⟩) =
          .error .fault := by
  refine ⟨?_, by decide +kernel⟩
  unfold PagedMap
  decide

end Tern
