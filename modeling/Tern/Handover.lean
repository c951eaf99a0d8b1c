import Mathlib.Data.List.Forall2
import Tern.Extents

/-! The untyped capabilities that are made at boot, against the regions that are
not in kernel use. -/

namespace Tern

open Lib

/-- A capability and its entry in the boot information, with a region's address
and size. -/
structure Describes (r : PowerOfTwoRegion) (x : Cap × UntypedDesc) : Prop where
  untyped : x.1.type = .untyped
  memory : x.1.isDevice = false ∧ x.2.isDevice = false
  ptr : capPtr x.1 = r.addr
  size : x.1.sizeBits.toNat = r.sizeBits.toNat + 12
  base : x.2.base = r.addr
  descSize : x.2.sizeBits.toNat = r.sizeBits.toNat + 12

/-- The regions from `i` on that are not in kernel use. -/
def freeRegionsFrom (m : PageMap) (i : Nat) : List PowerOfTwoRegion :=
  ((List.range' i (m.regionCount - i)).map m.region).filter (!·.inKernelUse)

def freeRegions (m : PageMap) : List PowerOfTwoRegion := freeRegionsFrom m 0

/-- A capability can hold the region's address and size. -/
def PowerOfTwoRegion.Encodable (r : PowerOfTwoRegion) : Prop :=
  isSafeCapPtr r.addr = true ∧ r.sizeBits.toNat + 12 < 64

/-- The entries past the last region were never written. -/
def PageMap.Blank (m : PageMap) : Prop := ∀ i, m.regionCount ≤ i → m.region i = {}

section Handover

variable {m m' : PageMap} {n fuel i : Nat} {caps : List (Cap × UntypedDesc)}

theorem freeRegionsFrom_succ (hi : i < m.regionCount) :
    freeRegionsFrom m i = [m.region i].filter (!·.inKernelUse) ++ freeRegionsFrom m (i + 1) := by
  have hlength : m.regionCount - i = m.regionCount - (i + 1) + 1 := by omega
  rw [freeRegionsFrom, hlength, List.range'_succ, List.map_cons, ← List.singleton_append,
    List.filter_append]
  rfl

theorem freeRegionsFrom_end (hi : m.regionCount ≤ i) : freeRegionsFrom m i = [] := by
  rw [freeRegionsFrom, Nat.sub_eq_zero_of_le hi]
  rfl

theorem freeRegionsFrom_congr (hcount : m'.regionCount = m.regionCount)
    (hsame : ∀ j, i ≤ j → m'.region j = m.region j) : freeRegionsFrom m' i = freeRegionsFrom m i := by
  rw [freeRegionsFrom, freeRegionsFrom, hcount]
  congr 1
  refine List.map_congr_left fun j hj => hsame j ?_
  exact (List.mem_range'_1.mp hj).1

/-- The capability made for a region. -/
def regionCap (r : PowerOfTwoRegion) : Result Cap :=
  newUntypedCap r.addr ((r.sizeBits + 12#8).setWidth 6)

def regionDesc (r : PowerOfTwoRegion) : UntypedDesc :=
  { base := r.addr, sizeBits := r.sizeBits + 12#8 }

theorem regionCap_describes_iff {r : PowerOfTwoRegion} :
    (∃ c, regionCap r = .ok c ∧ Describes r (c, regionDesc r)) ↔ r.Encodable := by
  have hbits := r.sizeBits.isLt
  simp only [regionCap, newUntypedCap, capSetPtr_eq_ok]
  constructor
  · rintro ⟨c, ⟨hsafe, rfl⟩, hdescribes⟩
    refine ⟨hsafe, ?_⟩
    have hsize := hdescribes.size
    simp only [Cap.withPtr] at hsize
    have hlt := ((r.sizeBits + 12#8).setWidth 6).isLt
    omega
  · rintro ⟨hsafe, hsmall⟩
    refine ⟨_, ⟨hsafe, rfl⟩, rfl, ⟨rfl, rfl⟩, capPtr_withPtr _ _ hsafe, ?_, rfl, ?_⟩
    · simp only [Cap.withPtr, BitVec.toNat_setWidth, BitVec.toNat_add, BitVec.toNat_ofNat]
      omega
    · simp only [regionDesc, BitVec.toNat_add, BitVec.toNat_ofNat]
      omega

theorem createInitUntypedCapsFrom_kernel (hi : i < n) (huse : (m.region i).inKernelUse = true) :
    createInitUntypedCapsFrom n (fuel + 1) i m = createInitUntypedCapsFrom n fuel (i + 1) m := by
  rw [createInitUntypedCapsFrom, if_pos hi]
  dsimp only
  rw [if_pos huse]

/-- A round with a free region: its capability, and the rest unless it is the last
region or behind it. -/
theorem createInitUntypedCapsFrom_free (hi : i < n) (huse : (m.region i).inKernelUse = false) :
    createInitUntypedCapsFrom n (fuel + 1) i m = .ok (m', caps) ↔
      ∃ m₁ c rest, m.setRegion i { m.region i with inUserUse := true } = .ok m₁ ∧
        regionCap (m.region i) = .ok c ∧ caps = (c, regionDesc (m.region i)) :: rest ∧
        if (BitVec.ofNat 64 m₁.regionCount - 1#64).toNat ≤ i then m' = m₁ ∧ rest = []
        else createInitUntypedCapsFrom n fuel (i + 1) m₁ = .ok (m', rest) := by
  rw [createInitUntypedCapsFrom, if_pos hi]
  dsimp only
  rw [huse, if_neg Bool.false_ne_true]
  simp only [bind_eq_ok]
  constructor
  · rintro ⟨m₁, hset, c, hcap, hrest⟩
    split at hrest
    · next hlast =>
      cases hrest
      exact ⟨_, c, [], hset, hcap, rfl, by rw [if_pos hlast]; exact ⟨rfl, rfl⟩⟩
    · next hmore =>
      simp only [bind_eq_ok, pure_eq_ok, Prod.mk.injEq] at hrest
      obtain ⟨⟨m₂, rest⟩, hrest, rfl, rfl⟩ := hrest
      exact ⟨m₁, c, rest, hset, hcap, rfl, by rw [if_neg hmore]; exact hrest⟩
  · rintro ⟨m₁, c, rest, hset, hcap, rfl, hrest⟩
    refine ⟨m₁, hset, c, hcap, ?_⟩
    split at hrest
    · next hlast =>
      obtain ⟨rfl, rfl⟩ := hrest
      rw [if_pos hlast]
      rfl
    · next hmore =>
      rw [if_neg hmore]
      simp only [bind_eq_ok, pure_eq_ok]
      exact ⟨_, hrest, rfl⟩

/-- The round after the last region, which is reached when that region is in
kernel use, makes one more capability. -/
theorem createInitUntypedCapsFrom_past (hi : i < n) (huse : (m.region i).inKernelUse = false)
    (hok : createInitUntypedCapsFrom n fuel i m = .ok (m', caps)) : caps ≠ [] := by
  cases fuel with
  | zero => cases hok
  | succ fuel =>
    obtain ⟨m₁, c, rest, -, -, rfl, -⟩ := (createInitUntypedCapsFrom_free hi huse).mp hok
    exact List.cons_ne_nil _ _

/-- A free region that is not the last one: its own entry, and those of the regions
behind it. -/
theorem createInitUntypedCapsFrom_free_next {m₁ : PageMap} {rs : List PowerOfTwoRegion}
    (hi : i < n) (huse : (m.region i).inKernelUse = false)
    (hset : m.setRegion i { m.region i with inUserUse := true } = .ok m₁)
    (hmore : ¬(BitVec.ofNat 64 m₁.regionCount - 1#64).toNat ≤ i) :
    (∃ m' caps, createInitUntypedCapsFrom n (fuel + 1) i m = .ok (m', caps) ∧
      List.Forall₂ Describes (m.region i :: rs) caps) ↔
      (m.region i).Encodable ∧ ∃ m' caps, createInitUntypedCapsFrom n fuel (i + 1) m₁ =
        .ok (m', caps) ∧ List.Forall₂ Describes rs caps := by
  rw [← regionCap_describes_iff]
  constructor
  · rintro ⟨m', caps, hok, hall⟩
    obtain ⟨m₂, c, rest, hset', hcap, rfl, hok⟩ := (createInitUntypedCapsFrom_free hi huse).mp hok
    rw [hset] at hset'
    cases hset'
    rw [if_neg hmore] at hok
    obtain ⟨hhead, htail⟩ := List.forall₂_cons.mp hall
    exact ⟨⟨c, hcap, hhead⟩, m', rest, hok, htail⟩
  · rintro ⟨⟨c, hcap, hhead⟩, m', rest, hok, htail⟩
    refine ⟨m', (c, regionDesc (m.region i)) :: rest, ?_, .cons hhead htail⟩
    refine (createInitUntypedCapsFrom_free hi huse).mpr ⟨m₁, c, rest, hset, hcap, rfl, ?_⟩
    rw [if_neg hmore]
    exact hok

/-- The last region, when it is free. -/
theorem createInitUntypedCapsFrom_free_last {m₁ : PageMap} (hi : i < n)
    (huse : (m.region i).inKernelUse = false)
    (hset : m.setRegion i { m.region i with inUserUse := true } = .ok m₁)
    (hlast : (BitVec.ofNat 64 m₁.regionCount - 1#64).toNat ≤ i) :
    (∃ m' caps, createInitUntypedCapsFrom n (fuel + 1) i m = .ok (m', caps) ∧
      List.Forall₂ Describes [m.region i] caps) ↔ (m.region i).Encodable := by
  rw [← regionCap_describes_iff]
  constructor
  · rintro ⟨m', caps, hok, hall⟩
    obtain ⟨m₂, c, rest, -, hcap, rfl, -⟩ := (createInitUntypedCapsFrom_free hi huse).mp hok
    exact ⟨c, hcap, (List.forall₂_cons.mp hall).1⟩
  · rintro ⟨c, hcap, hhead⟩
    refine ⟨m₁, [(c, regionDesc (m.region i))], ?_, .cons hhead .nil⟩
    refine (createInitUntypedCapsFrom_free hi huse).mpr ⟨m₁, c, [], hset, hcap, rfl, ?_⟩
    rw [if_pos hlast]
    exact ⟨rfl, rfl⟩

/-- Behind the last region: nothing is made there if and only if the budget ends too. -/
theorem createInitUntypedCapsFrom_end_iff (hblank : m.Blank) (hn : m.regionCount ≤ n) :
    (∃ m' caps, createInitUntypedCapsFrom n (fuel + 1) m.regionCount m = .ok (m', caps) ∧
      List.Forall₂ Describes [] caps) ↔ n = m.regionCount := by
  constructor
  · rintro ⟨m', caps, hok, hall⟩
    by_contra hne
    have hpast : (m.region m.regionCount).inKernelUse = false := by
      rw [hblank _ le_rfl]
    exact createInitUntypedCapsFrom_past (by omega) hpast hok (List.forall₂_nil_left_iff.mp hall)
  · rintro rfl
    refine ⟨m, [], ?_, .nil⟩
    rw [createInitUntypedCapsFrom, if_neg (Nat.lt_irrefl _)]
    rfl

/-- The untyped capabilities made from region `i` on are exactly those of the free
regions if and only if the last region is free or the budget ends with it, and
every free region can be encoded. -/
theorem createInitUntypedCapsFrom_exact_iff (hblank : m.Blank) (hroom : m.regionCount ≤ 64)
    (hn : m.regionCount ≤ n) (hi : i < m.regionCount) (hfuel : 65 ≤ fuel + i) :
    (∃ m' caps, createInitUntypedCapsFrom n fuel i m = .ok (m', caps) ∧
      List.Forall₂ Describes (freeRegionsFrom m i) caps) ↔
      ((m.region (m.regionCount - 1)).inKernelUse = false ∨ n = m.regionCount) ∧
        ∀ r ∈ freeRegionsFrom m i, r.Encodable := by
  induction fuel generalizing m i with
  | zero => omega
  | succ fuel ih =>
    have hlast : (BitVec.ofNat 64 m.regionCount - 1#64).toNat = m.regionCount - 1 := by
      rw [BitVec.toNat_sub_of_le (by rw [BitVec.le_def]; simp; omega), BitVec.toNat_ofNat,
        Nat.mod_eq_of_lt (by omega)]
      rfl
    cases huse : (m.region i).inKernelUse with
    | true =>
      have hsplit : freeRegionsFrom m i = freeRegionsFrom m (i + 1) := by
        rw [freeRegionsFrom_succ hi]
        simp [huse]
      rw [createInitUntypedCapsFrom_kernel (by omega) huse, hsplit]
      rcases Nat.lt_or_ge (i + 1) m.regionCount with hmore | hend
      · exact ih hblank hroom hn hmore (by omega)
      · -- the test for the last region was skipped
        obtain rfl : i = m.regionCount - 1 := by omega
        obtain ⟨fuel, rfl⟩ : ∃ f, fuel = f + 1 := ⟨fuel - 1, by omega⟩
        rw [freeRegionsFrom_end hend, Nat.sub_add_cancel (by omega),
          createInitUntypedCapsFrom_end_iff hblank hn, huse]
        simp
    | false =>
      have hsplit : freeRegionsFrom m i = m.region i :: freeRegionsFrom m (i + 1) := by
        rw [freeRegionsFrom_succ hi]
        simp [huse]
      obtain ⟨m₁, hset⟩ := PageMap.setRegion_isOk (m := m)
        (r := { m.region i with inUserUse := true }) (show i < 64 by omega)
      obtain ⟨-, hcount, -, hold⟩ := PageMap.setRegion_eq_ok hset
      rw [hsplit, List.forall_mem_cons]
      rcases Nat.lt_or_ge (i + 1) m.regionCount with hmore | hend
      · have hgo : ¬(BitVec.ofNat 64 m₁.regionCount - 1#64).toNat ≤ i := by
          rw [hcount, hlast]
          omega
        have hrest := ih (m := m₁) (i := i + 1) (fun j hj => by
          rw [hold j (by omega), hblank j (by omega)]) (by omega) (by omega) (by omega) (by omega)
        rw [hcount, hold _ (by omega), freeRegionsFrom_congr hcount fun j hj => hold j (by omega)]
          at hrest
        rw [createInitUntypedCapsFrom_free_next (by omega) huse hset hgo, hrest, and_left_comm]
      · have hstop : (BitVec.ofNat 64 m₁.regionCount - 1#64).toNat ≤ i := by
          rw [hcount, hlast]
          omega
        obtain rfl : i = m.regionCount - 1 := by omega
        rw [freeRegionsFrom_end hend, huse,
          createInitUntypedCapsFrom_free_last (by omega) huse hset hstop]
        simp

end Handover

/-- One untyped for each region that is not in kernel use, in table order, and no
other, if and only if the last region is free or the budget ends with it, and every
free region can be encoded. -/
theorem create_init_untyped_caps_exact_iff {m : PageMap} {n : Nat} (hblank : m.Blank)
    (hpos : 1 ≤ m.regionCount) (hroom : m.regionCount ≤ 64) (hn : m.regionCount ≤ n) :
    (∃ m' caps, createInitUntypedCaps n m = .ok (m', caps) ∧
      List.Forall₂ Describes (freeRegions m) caps) ↔
      ((m.region (m.regionCount - 1)).inKernelUse = false ∨ n = m.regionCount) ∧
        ∀ r ∈ freeRegions m, r.Encodable :=
  createInitUntypedCapsFrom_exact_iff hblank hroom hn hpos le_rfl

/-- Four pages for the kernel, and two that are free. -/
def handoverMap : PageMap where
  regions := ((Vector.replicate 64 ({} : PowerOfTwoRegion)).set 0 {
    addr := 0x100000#64
    sizeBits := 2#8
    inKernelUse := true
    forPages := true
    watermark := 0x1000#64 }).set 1 { addr := 0x104000#64, sizeBits := 1#8 }
  regionCount := 2

theorem PageMap.blank_of_lt {m : PageMap} (h : ∀ i < 64, m.regionCount ≤ i → m.region i = {}) :
    m.Blank := by
  intro i hi
  rcases Nat.lt_or_ge i 64 with hlt | hge
  · exact h i hlt hi
  · simp [PageMap.region, hge]

/-- The two pages are handed over. -/
theorem create_init_untyped_caps_exact_iff_handover :
    ∃ m' caps, createInitUntypedCaps 4090 handoverMap = .ok (m', caps) ∧
      List.Forall₂ Describes [{ addr := 0x104000#64, sizeBits := 1#8 }] caps := by
  have hblank : handoverMap.Blank := PageMap.blank_of_lt (by decide)
  have hfree : freeRegions handoverMap = [{ addr := 0x104000#64, sizeBits := 1#8 }] := by decide
  have hiff := create_init_untyped_caps_exact_iff (n := 4090) hblank (by decide) (by decide)
    (by decide)
  rw [hfree] at hiff
  refine hiff.mpr ⟨.inl (by decide), fun r hr => ?_⟩
  obtain rfl := List.mem_singleton.mp hr
  exact ⟨by decide, by decide⟩

/-- Eight pages from 1 MiB on are one region, and the kernel opens it for a page:
no region is left, and an untyped at address 0 is made. -/
theorem create_init_untyped_caps_past_last :
    ∃ m p m₁ m' caps, initPageMmap [⟨0x100000#64, 0x8000#64⟩] = .ok m ∧
      allocPage m = .ok (p, m₁) ∧ createInitUntypedCaps 4090 m₁ = .ok (m', caps) ∧
      freeRegions m₁ = [] ∧ caps.map (capPtr ∘ Prod.fst) = [0#64] ∧
      ¬List.Forall₂ Describes (freeRegions m₁) caps := by
  have hrun : (do
      let m ← initPageMmap [⟨0x100000#64, 0x8000#64⟩]
      let page ← allocPage m
      let caps ← createInitUntypedCaps 4090 page.2
      return decide (freeRegions page.2 = [] ∧
        caps.2.map (capPtr ∘ Prod.fst) = [0#64])) = .ok true := by
    decide +kernel
  simp only [bind_eq_ok, pure_eq_ok, decide_eq_true_eq] at hrun
  obtain ⟨m, hm, ⟨p, m₁⟩, hp, ⟨m', caps⟩, hcaps, hfree, hptrs⟩ := hrun
  refine ⟨m, p, m₁, m', caps, hm, hp, hcaps, hfree, hptrs, fun hall => ?_⟩
  rw [hfree] at hall
  obtain rfl := List.forall₂_nil_left_iff.mp hall
  cases hptrs

end Tern
