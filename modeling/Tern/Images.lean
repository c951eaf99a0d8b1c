import Tern.Loading
import Tern.Lib.Patches

/-! What `load_elf` leaves in memory. A segment is a patch: it sets its own bytes, and it
reaches all of the pages that it is mapped in, because each of them is mapped anew. So a
segment is lost where a later one is mapped in a page of it. -/

namespace Tern

open Lib Lib.Trees

/-! ## Reading the image -/

/-- The image is the same in both memories. -/
def SameImage (e : Word) (size : Nat) (memory memory' : Word → Word) : Prop :=
  ∀ k < size, byteAt memory' (e + BitVec.ofNat 64 k) = byteAt memory (e + BitVec.ofNat 64 k)

section

variable {memory memory' : Word → Word} {e a p : Word} {size n k i : Nat}

namespace SameImage

variable (h : SameImage e size memory memory')

include h

theorem byteAt_eq (hlow : e.toNat ≤ a.toNat) (hhigh : a.toNat < e.toNat + size) :
    byteAt memory' a = byteAt memory a := by
  have ha : a = e + BitVec.ofNat 64 (a.toNat - e.toNat) := by
    refine BitVec.eq_of_toNat_eq ?_
    rw [BitVec.toNat_add, BitVec.toNat_ofNat]
    omega
  rw [ha]
  exact h _ (by omega)

theorem numberAt_eq (hlow : e.toNat ≤ a.toNat) (hhigh : a.toNat + n ≤ e.toNat + size)
    (hbound : e.toNat + size ≤ 2 ^ 64) : numberAt memory' a n = numberAt memory a n := by
  refine numberAt_congr fun k hk => ?_
  have hnat : (a + BitVec.ofNat 64 k).toNat = a.toNat + k := by
    rw [BitVec.toNat_add, BitVec.toNat_ofNat]
    omega
  exact h.byteAt_eq (by omega) (by omega)

/-- A header that is inside of the image. -/
theorem elfPhdrAt_eq (hlow : e.toNat ≤ p.toNat) (hhigh : p.toNat + 56 ≤ e.toNat + size)
    (hbound : e.toNat + size ≤ 2 ^ 64) : elfPhdrAt memory' p = elfPhdrAt memory p := by
  have hfield : ∀ off n, off.toNat + n ≤ 56 →
      numberAt memory' (p + off) n = numberAt memory (p + off) n := by
    intro off n hoff
    cases n with
    | zero => rfl
    | succ n =>
      have hnat : (p + off).toNat = p.toNat + off.toNat := BitVec.toNat_add_of_lt (by omega)
      exact h.numberAt_eq (by omega) (by omega) hbound
  have hfirst := hfield 0#64 4 (by decide)
  rw [BitVec.add_zero] at hfirst
  rw [elfPhdrAt, elfPhdrAt, hfirst, hfield 8#64 8 (by decide), hfield 16#64 8 (by decide),
    hfield 32#64 8 (by decide), hfield 40#64 8 (by decide)]

/-- The header of the file. -/
theorem header_eq (himage : IsElfImage memory e size) :
    phnum memory' e = phnum memory e ∧ ∀ i, phdr memory' e i = phdr memory e i := by
  have hbound := himage.bound
  have hheader := himage.header
  have hfield : ∀ off n, off.toNat + n ≤ 64 → 0 < n →
      numberAt memory' (e + off) n = numberAt memory (e + off) n := by
    intro off n hoff hn
    have hnat : (e + off).toNat = e.toNat + off.toNat := BitVec.toNat_add_of_lt (by omega)
    exact h.numberAt_eq (by omega) (by omega) hbound
  refine ⟨hfield 56#64 2 (by decide) (by decide), fun i => ?_⟩
  rw [phdr, phdr, hfield 32#64 8 (by decide) (by decide), hfield 54#64 2 (by decide) (by decide)]

theorem segments_eq (himage : IsElfImage memory e size) : segments memory' e = segments memory e := by
  obtain ⟨hphnum, hphdr⟩ := h.header_eq himage
  rw [segments, segments, hphnum]
  congr 1
  refine List.map_congr_left fun i hi => ?_
  obtain ⟨hlow, hhigh⟩ := himage.headers i (List.mem_range.mp hi)
  rw [hphdr, h.elfPhdrAt_eq hlow hhigh himage.bound]

/-- The bytes of the file for a segment. -/
theorem contents_eq (himage : IsElfImage memory e size) {p : ElfPhdr} (hp : p ∈ segments memory e)
    (ha : p.vaddr.toNat ≤ a.toNat) :
    p.contents memory' e a = p.contents memory e a := by
  rw [ElfPhdr.contents, ElfPhdr.contents]
  have hfile := himage.file p hp
  have hsize := himage.bound
  split_ifs with hlt
  · have hnat : (e + p.offset + (a - p.vaddr)).toNat =
        e.toNat + p.offset.toNat + (a.toNat - p.vaddr.toNat) := by
      rw [BitVec.toNat_add, BitVec.toNat_add, BitVec.toNat_sub_of_le ha]
      omega
    exact h.byteAt_eq (by omega) (by omega)
  · rfl

end SameImage

end

/-! ## Pages of a segment -/

namespace ElfPhdr

variable {p : ElfPhdr} {a pg : Word}

theorem maps_iff : p.Maps a ↔
    p.vaddr.toNat / 4096 ≤ a.toNat / 4096 ∧ a.toNat / 4096 < p.vaddr.toNat / 4096 + p.pageTotal := by
  rw [Maps, pageTotal]
  omega

theorem Holds.maps (h : p.Holds a) : p.Maps a := by
  obtain ⟨hlow, hhigh⟩ := h
  exact ⟨Nat.div_le_div_right hlow, by omega⟩

theorem length_mapped (p : ElfPhdr) : p.mapped.length = p.pageTotal := by
  rw [mapped, List.length_map, List.length_range]

theorem mem_mapped {k : Nat} (hk : k < p.pageTotal) : p.pageAt k ∈ p.mapped :=
  List.mem_map.mpr ⟨k, List.mem_range.mpr hk, rfl⟩

theorem pageAt_zero (p : ElfPhdr) : p.pageAt 0 = alignDown p.vaddr pageSize := by
  refine BitVec.eq_of_toNat_eq (Eq.trans ?_ (pageOf_toNat p.vaddr).symm)
  have hbound := p.vaddr.isLt
  rw [pageAt, BitVec.toNat_ofNat]
  omega

theorem pageAt_succ (p : ElfPhdr) (k : Nat) : p.pageAt k + pageSize = p.pageAt (k + 1) := by
  rw [pageAt, pageAt, pageSize, ← BitVec.ofNat_add, ← Nat.add_assoc, Nat.succ_mul]

section

variable {k : Nat} (huser : p.vaddr.toNat + p.memsz.toNat ≤ 2 ^ 47) (hk : k ≤ p.pageTotal)

include huser hk

theorem pageAt_toNat : (p.pageAt k).toNat = (p.vaddr.toNat / 4096 + k) * 4096 := by
  rw [pageTotal] at hk
  rw [pageAt, BitVec.toNat_ofNat]
  omega

/-- The loop of `map_elf_phdr` goes on up to the last page. -/
theorem pageAt_lt_iff : p.pageAt k < p.vaddr + p.memsz ↔ k < p.pageTotal := by
  rw [BitVec.lt_def, pageAt_toNat huser hk, BitVec.toNat_add]
  rw [pageTotal] at hk ⊢
  omega

end

/-- The segment as a patch of user memory. -/
def patch (p : ElfPhdr) (memory : Word → Word) (e : Word) : Patch Word (BitVec 8) where
  region := { a | p.Holds a }
  reach := { a | p.Maps a }
  value := p.contents memory e

end ElfPhdr

theorem tablePaths_mono {l l' : List Word} (h : l ⊆ l') : tablePaths l ⊆ tablePaths l' :=
  Finset.biUnion_subset_biUnion_of_subset_left _ fun _ ha =>
    List.mem_toFinset.mpr (h (List.mem_toFinset.mp ha))

theorem length_of_mem_tablePaths {l : List Word} {q : List Word} (hq : q ∈ tablePaths l) :
    q.length ≤ 3 := by
  obtain ⟨a, -, hq⟩ := Finset.mem_biUnion.mp hq
  simp only [Finset.mem_insert, Finset.mem_singleton] at hq
  rcases hq with rfl | rfl | rfl <;> simp [path]

/-- `e->phnum` is 16 bits wide. -/
theorem phnum_lt (memory : Word → Word) (e : Word) : (phnum memory e).toNat < 2 ^ 16 := by
  have hbyte : ∀ b : BitVec 8, (b.setWidth 64).toNat < 2 ^ 8 := fun b => by
    rw [BitVec.toNat_setWidth]
    omega
  have hlow := hbyte (byteAt memory (e + 56#64))
  have hhigh := hbyte (byteAt memory (e + 56#64 + 1#64))
  simp only [phnum, numberAt, BitVec.zero_shiftLeft, BitVec.or_zero]
  rw [BitVec.toNat_or, BitVec.toNat_shiftLeft, Nat.shiftLeft_eq]
  exact Nat.or_lt_two_pow (by omega) (by omega)

/-- What a load of the image at `e` relies on. -/
structure Setting.ForImage (c : Setting) (cr3 e : Word) (size : Nat) : Prop where
  root : tableOf c.dm cr3 = c.root
  elf : IsElfImage c.memory e size
  image : c.image = IsImagePage e size
  paths : tablePaths ((segments c.memory e).flatMap ElfPhdr.mapped) ⊆ c.paths
  user : ∀ p ∈ segments c.memory e, p.vaddr.toNat + p.memsz.toNat ≤ 2 ^ 47
  sizes : ∀ p ∈ segments c.memory e, p.filesz.toNat ≤ p.memsz.toNat

/-- The PT_LOAD segments of `k` headers from header `i` on. -/
def segmentsFrom (memory : Word → Word) (e : Word) (i k : Nat) : List ElfPhdr :=
  ((List.range' i k).map fun j => elfPhdrAt memory (phdr memory e (BitVec.ofNat 64 j))).filter
    fun p => p.type = ptLoad

theorem segments_eq_from (memory : Word → Word) (e : Word) :
    segments memory e = segmentsFrom memory e 0 (phnum memory e).toNat := by
  rw [segments, segmentsFrom, List.range_eq_range']

theorem segmentsFrom_succ (memory : Word → Word) (e : Word) (i k : Nat) :
    segmentsFrom memory e i (k + 1) =
      if (elfPhdrAt memory (phdr memory e (BitVec.ofNat 64 i))).type = ptLoad then
        elfPhdrAt memory (phdr memory e (BitVec.ofNat 64 i)) :: segmentsFrom memory e (i + 1) k
      else segmentsFrom memory e (i + 1) k := by
  rw [segmentsFrom, List.range'_succ, List.map_cons, List.filter_cons]
  simp only [decide_eq_true_eq]
  rfl

theorem mem_segments {memory : Word → Word} {e : Word} {i : Nat} (hi : i < (phnum memory e).toNat)
    (htype : (elfPhdrAt memory (phdr memory e (BitVec.ofNat 64 i))).type = ptLoad) :
    elfPhdrAt memory (phdr memory e (BitVec.ofNat 64 i)) ∈ segments memory e :=
  List.mem_filter.mpr ⟨List.mem_map.mpr ⟨i, List.mem_range.mpr hi, rfl⟩, decide_eq_true htype⟩

/-! ## The loops -/

section

variable {c : Setting} {used : Word → Prop} {frames : Nat → Option Word} {n k i fuel : Nat}
  {s : VmState} {cr3 e p : Word} {P : ElfPhdr}

namespace Loading

/-- The loop of `map_elf_phdr` with `k` pages to go. -/
theorem mapElfPhdrFrom (hroot : tableOf c.dm cr3 = c.root)
    (hread : ∀ used frames n s, Loading c used frames n s → elfPhdrAt s.memory p = P)
    (huser : P.vaddr.toNat + P.memsz.toNat ≤ 2 ^ 47) (hpaths : tablePaths P.mapped ⊆ c.paths)
    (h : Loading c used frames (n + k) s) (hk : i + k = P.pageTotal) (hfuel : k < fuel) :
    ∃ s' used' frames', Tern.mapElfPhdrFrom c.dm cr3 p fuel (P.pageAt i) s = .ok s' ∧
      Loading c used' frames' n s' ∧ (∀ q, (frames q).isSome → (frames' q).isSome) ∧
      ∀ a : Word, if P.vaddr.toNat / 4096 + i ≤ a.toNat / 4096 ∧
          a.toNat / 4096 < P.vaddr.toNat / 4096 + P.pageTotal then
        (frames' (a.toNat / 4096)).isSome ∧ c.Fresh (view frames' s'.memory a)
      else view frames' s'.memory a = view frames s.memory a := by
  induction k generalizing i used frames s fuel with
  | zero =>
    obtain ⟨fuel, rfl⟩ := Nat.exists_eq_add_of_le' hfuel
    have hstop : ¬ P.pageAt i < P.vaddr + P.memsz :=
      mt (ElfPhdr.pageAt_lt_iff huser hk.le).mp (by omega)
    refine ⟨s, used, frames, ?_, h, fun _ hq => hq, fun a => ?_⟩
    · rw [Tern.mapElfPhdrFrom, hread _ _ _ _ h, if_neg hstop]
      rfl
    · rw [if_neg (by omega)]
  | succ k ih =>
    obtain ⟨fuel, rfl⟩ := Nat.exists_eq_add_of_le' (Nat.zero_lt_of_lt hfuel)
    have hi : i < P.pageTotal := by omega
    have hpage := ElfPhdr.pageAt_toNat huser hi.le
    have hgo := (ElfPhdr.pageAt_lt_iff huser hi.le).mpr hi
    have hlow : (P.pageAt i).toNat < 2 ^ 47 := by
      rw [hpage]
      rw [ElfPhdr.pageTotal] at hi
      omega
    have hsingle : tablePaths [P.pageAt i] ⊆ c.paths :=
      (tablePaths_mono (List.cons_subset.mpr ⟨P.mem_mapped hi, List.nil_subset _⟩)).trans hpaths
    obtain ⟨page, pages, s₁, used₁, u, halloc, hrun₁, h₁, hview₁⟩ := h.mapPage hroot hlow hsingle
    rw [hpage, Nat.mul_div_cancel _ (by decide)] at h₁ hview₁
    obtain ⟨s', used', frames', hrun', h', hmono, hview'⟩ :=
      ih h₁ (show i + 1 + k = P.pageTotal by omega) (show k < fuel by omega)
    refine ⟨s', used', frames', ?_, h', fun q hq => hmono q ?_, fun a => ?_⟩
    · rw [Tern.mapElfPhdrFrom, hread _ _ _ _ h, if_pos hgo]
      simp only [bind_eq_ok]
      exact ⟨(page, pages), halloc, s₁, hrun₁, by rw [P.pageAt_succ, hrun']⟩
    · rw [Function.update_apply]
      split_ifs
      · rfl
      · exact hq
    · have hlater := hview' a
      have hfirst := hview₁ a
      by_cases ha : a.toNat / 4096 = P.vaddr.toNat / 4096 + i
      · rw [if_neg (by omega)] at hlater
        rw [if_pos ha] at hfirst
        rw [if_pos (by omega), hlater]
        exact ⟨hmono _ (by rw [ha, Function.update_self]; rfl), hfirst⟩
      · rw [if_neg ha] at hfirst
        by_cases hrest : P.vaddr.toNat / 4096 + (i + 1) ≤ a.toNat / 4096 ∧
            a.toNat / 4096 < P.vaddr.toNat / 4096 + P.pageTotal
        · rw [if_pos hrest] at hlater
          rwa [if_pos (by omega)]
        · rw [if_neg hrest] at hlater
          rw [if_neg (by omega), hlater, hfirst]

/-- The bytes of the file and the zeros, once the pages are there. -/
theorem storeSegment (hroot : tableOf c.dm cr3 = c.root)
    (hfile : ∀ used frames n s, Loading c used frames n s → ∀ j < P.filesz.toNat,
      byteAt s.memory (e + P.offset + BitVec.ofNat 64 j) =
        byteAt c.memory (e + P.offset + BitVec.ofNat 64 j))
    (hsizes : P.filesz.toNat ≤ P.memsz.toNat) (huser : P.vaddr.toNat + P.memsz.toNat ≤ 2 ^ 47)
    (hmapped : ∀ a, P.Holds a → (frames (a.toNat / 4096)).isSome) (h : Loading c used frames n s) :
    ∃ s₁ s', Tern.memcpy c.dm s cr3 P.vaddr (e + P.offset) P.filesz = .ok s₁ ∧
      Loading c used frames n s₁ ∧
      Tern.memset c.dm s₁ cr3 (P.vaddr + P.filesz) 0#8 (P.memsz - P.filesz) = .ok s' ∧
      Loading c used frames n s' ∧
      ∀ a, view frames s'.memory a =
        if P.Holds a then P.contents c.memory e a else view frames s.memory a := by
  obtain ⟨s₁, hrun₁, h₁, hview₁⟩ := h.memcpy hroot
    (fun a hlow hhigh => hmapped a ⟨hlow, by omega⟩)
    (show P.vaddr.toNat + P.filesz.toNat ≤ 2 ^ 47 by omega) (hfile _ _ _)
  have hdest : (P.vaddr + P.filesz).toNat = P.vaddr.toNat + P.filesz.toNat :=
    BitVec.toNat_add_of_lt (by omega)
  have hrest : (P.memsz - P.filesz).toNat = P.memsz.toNat - P.filesz.toNat :=
    BitVec.toNat_sub_of_le (BitVec.le_def.mpr hsizes)
  have hmapped' : ∀ a : Word, (P.vaddr + P.filesz).toNat ≤ a.toNat →
      a.toNat < (P.vaddr + P.filesz).toNat + (P.memsz - P.filesz).toNat →
      (frames (a.toNat / 4096)).isSome :=
    fun a hlow hhigh => hmapped a ⟨by omega, by omega⟩
  obtain ⟨s', hrun', h', hview'⟩ := h₁.memset hroot hmapped' (by omega) 0#8
  rw [hdest, hrest] at hview'
  refine ⟨s₁, s', hrun₁, h₁, hrun', h', fun a => ?_⟩
  by_cases ha : P.Holds a
  · obtain ⟨hlow, hhigh⟩ := ha
    rw [if_pos ⟨hlow, hhigh⟩, ElfPhdr.contents, hview']
    by_cases hlt : a.toNat < P.vaddr.toNat + P.filesz.toNat
    · rw [if_neg (by omega), hview₁, if_pos ⟨hlow, hlt⟩, if_pos hlt]
    · rw [if_pos ⟨by omega, by omega⟩, if_neg hlt]
  · rw [if_neg ha, hview', if_neg fun hzero => ha ⟨by omega, by omega⟩, hview₁,
      if_neg fun hcopied => ha ⟨hcopied.1, by omega⟩]

/-- A segment is loaded: its patch is applied, and its pages are mapped. -/
theorem loadSegment (hroot : tableOf c.dm cr3 = c.root)
    (hread : ∀ used frames n s, Loading c used frames n s → elfPhdrAt s.memory p = P)
    (hfile : ∀ used frames n s, Loading c used frames n s → ∀ j < P.filesz.toNat,
      byteAt s.memory (e + P.offset + BitVec.ofNat 64 j) =
        byteAt c.memory (e + P.offset + BitVec.ofNat 64 j))
    (hsizes : P.filesz.toNat ≤ P.memsz.toNat) (huser : P.vaddr.toNat + P.memsz.toNat ≤ 2 ^ 47)
    (hpaths : tablePaths P.mapped ⊆ c.paths) (h : Loading c used frames (n + P.pageTotal) s)
    (hfuel : P.pageTotal < fuel) :
    ∃ s' used' frames', Tern.loadSegment c.dm fuel s cr3 e p = .ok s' ∧
      Loading c used' frames' n s' ∧ (∀ q, (frames q).isSome → (frames' q).isSome) ∧
      (∀ a, P.Maps a → (frames' (a.toNat / 4096)).isSome) ∧
      (P.patch c.memory e).Applied c.Fresh (view frames s.memory) (view frames' s'.memory) := by
  obtain ⟨s₁, used', frames', hrun₁, h₁, hmono, hview₁⟩ :=
    h.mapElfPhdrFrom hroot hread huser hpaths (Nat.zero_add _) hfuel
  rw [P.pageAt_zero] at hrun₁
  have hpages : ∀ a, if P.Maps a then
      (frames' (a.toNat / 4096)).isSome ∧ c.Fresh (view frames' s₁.memory a)
      else view frames' s₁.memory a = view frames s.memory a := by
    intro a
    rw [if_congr ElfPhdr.maps_iff rfl rfl]
    exact hview₁ a
  have hmapped : ∀ a, P.Maps a → (frames' (a.toNat / 4096)).isSome := by
    intro a ha
    have hpage := hpages a
    rw [if_pos ha] at hpage
    exact hpage.1
  obtain ⟨s₂, s', hrun₂, h₂, hrun', h', hview'⟩ :=
    h₁.storeSegment hroot hfile hsizes huser fun a ha => hmapped a ha.maps
  refine ⟨s', used', frames', ?_, h', hmono, hmapped, fun a ha => ?_, fun a ha hne => ?_,
    fun a ha => ?_⟩
  · simp only [Tern.loadSegment, bind_eq_ok, mapElfPhdr, hread _ _ _ _ h]
    refine ⟨s₁, hrun₁, s₂, ?_, ?_⟩
    · rw [hread _ _ _ _ h₁]
      exact hrun₂
    · rw [hread _ _ _ _ h₂]
      exact hrun'
  · rw [hview', if_pos (show P.Holds a from ha)]
    rfl
  · have hpage := hpages a
    rw [if_pos (show P.Maps a from ha)] at hpage
    rw [hview', if_neg (show ¬ P.Holds a from hne)]
    exact hpage.2
  · have hnot : ¬ P.Maps a := ha
    have hpage := hpages a
    rw [if_neg hnot] at hpage
    rw [hview', if_neg fun hholds => hnot hholds.maps, hpage]

variable {size rounds : Nat}

theorem sameImage (h : Loading c used frames n s) (himage : c.image = IsImagePage e size) :
    SameImage e size c.memory s.memory := by
  intro k hk
  refine byteAt_congr (h.same _ (.inl ?_))
  rw [pageOf_wordOf, himage]
  exact ⟨k, hk, rfl⟩

/-- A PT_LOAD header of the image. -/
theorem loadSegmentAt (hc : c.ForImage cr3 e size) (hi : i < (phnum c.memory e).toNat)
    (hP : elfPhdrAt c.memory (phdr c.memory e (BitVec.ofNat 64 i)) = P) (htype : P.type = ptLoad)
    (h : Loading c used frames (n + P.pageTotal) s) (hrounds : P.pageTotal < rounds) :
    ∃ s' used' frames',
      Tern.loadSegment c.dm rounds s cr3 e (phdr c.memory e (BitVec.ofNat 64 i)) = .ok s' ∧
      Loading c used' frames' n s' ∧ (∀ q, (frames q).isSome → (frames' q).isSome) ∧
      (∀ a, P.Maps a → (frames' (a.toNat / 4096)).isSome) ∧
      (P.patch c.memory e).Applied c.Fresh (view frames s.memory) (view frames' s'.memory) := by
  have hbound := hc.elf.bound
  have hin : P ∈ segments c.memory e := hP ▸ mem_segments hi (by rw [hP, htype])
  have hfile := hc.elf.file P hin
  have hread : ∀ used frames n s, Loading c used frames n s →
      elfPhdrAt s.memory (phdr c.memory e (BitVec.ofNat 64 i)) = P := by
    intro _ _ _ s hs
    obtain ⟨hlow, hhigh⟩ := hc.elf.headers i hi
    rw [(hs.sameImage hc.image).elfPhdrAt_eq hlow hhigh hbound, hP]
  refine h.loadSegment hc.root hread (fun _ _ _ s hs j hj => ?_) (hc.sizes P hin) (hc.user P hin)
    ((tablePaths_mono fun a ha => List.mem_flatMap.mpr ⟨P, hin, ha⟩).trans hc.paths) hrounds
  have hnat : (e + P.offset + BitVec.ofNat 64 j).toNat = e.toNat + P.offset.toNat + j := by
    rw [BitVec.toNat_add, BitVec.toNat_add, BitVec.toNat_ofNat]
    omega
  exact (hs.sameImage hc.image).byteAt_eq (by omega) (by omega)

/-- The loop of `load_elf` with `k` headers to go. -/
theorem loadElfFrom (hc : c.ForImage cr3 e size)
    (hrounds : ∀ p ∈ segments c.memory e, p.pageTotal < rounds)
    (h : Loading c used frames (n + ((segmentsFrom c.memory e i k).flatMap ElfPhdr.mapped).length) s)
    (hk : i + k = (phnum c.memory e).toNat) (hfuel : k < fuel) :
    ∃ s' used' frames',
      Tern.loadElfFrom c.dm rounds cr3 e fuel (BitVec.ofNat 64 i) s = .ok s' ∧
      Loading c used' frames' n s' ∧ (∀ q, (frames q).isSome → (frames' q).isSome) ∧
      (∀ p ∈ segmentsFrom c.memory e i k, ∀ a, p.Maps a → (frames' (a.toNat / 4096)).isSome) ∧
      Patched c.Fresh ((segmentsFrom c.memory e i k).map (·.patch c.memory e))
        (view frames s.memory) (view frames' s'.memory) := by
  have hcount := (phnum c.memory e).isLt
  induction k generalizing i used frames s fuel with
  | zero =>
    obtain ⟨fuel, rfl⟩ := Nat.exists_eq_add_of_le' hfuel
    have hstop : ¬ BitVec.ofNat 64 i < phnum c.memory e := by
      rw [BitVec.lt_def, BitVec.toNat_ofNat]
      omega
    refine ⟨s, used, frames, ?_, h, fun _ hq => hq, fun p hp => absurd hp List.not_mem_nil, .nil _⟩
    rw [Tern.loadElfFrom, ((h.sameImage hc.image).header_eq hc.elf).1, if_neg hstop]
    rfl
  | succ k ih =>
    obtain ⟨fuel, rfl⟩ := Nat.exists_eq_add_of_le' (Nat.zero_lt_of_lt hfuel)
    have hi : i < (phnum c.memory e).toNat := by omega
    have hgo : BitVec.ofNat 64 i < phnum c.memory e := by
      rw [BitVec.lt_def, BitVec.toNat_ofNat]
      omega
    have hnext : BitVec.ofNat 64 i + 1#64 = BitVec.ofNat 64 (i + 1) := by
      rw [BitVec.ofNat_add]
    obtain ⟨hlow, hhigh⟩ := hc.elf.headers i hi
    obtain ⟨hphnum, hphdr⟩ := (h.sameImage hc.image).header_eq hc.elf
    rw [Tern.loadElfFrom, hphnum, if_pos hgo, hphdr,
      (h.sameImage hc.image).elfPhdrAt_eq hlow hhigh hc.elf.bound, hnext]
    rw [segmentsFrom_succ] at h ⊢
    generalize hP : elfPhdrAt c.memory (phdr c.memory e (BitVec.ofNat 64 i)) = P at h ⊢
    by_cases htype : P.type = ptLoad
    · rw [if_pos htype] at h ⊢
      rw [List.flatMap_cons, List.length_append, P.length_mapped, Nat.add_comm P.pageTotal,
        ← Nat.add_assoc] at h
      have hin : P ∈ segments c.memory e := hP ▸ mem_segments hi (by rw [hP, htype])
      obtain ⟨s₁, used₁, frames₁, hrun₁, h₁, hmono₁, hmaps₁, hpatch⟩ :=
        h.loadSegmentAt hc hi hP htype (hrounds P hin)
      obtain ⟨s', used', frames', hrun', h', hmono, hmaps, hpatched⟩ :=
        ih h₁ (show i + 1 + k = _ by omega) (show k < fuel by omega)
      refine ⟨s', used', frames', ?_, h', fun q hq => hmono q (hmono₁ q hq), fun p hp a ha => ?_,
        .cons hpatch hpatched⟩
      · rw [if_neg (not_not_intro htype)]
        simp only [bind_eq_ok]
        exact ⟨s₁, hrun₁, hrun'⟩
      · rcases List.mem_cons.mp hp with rfl | hp
        · exact hmono _ (hmaps₁ a ha)
        · exact hmaps p hp a ha
    · rw [if_neg htype] at h ⊢
      rw [if_pos htype]
      exact ih h (show i + 1 + k = _ by omega) (show k < fuel by omega)

end Loading

end

/-! ## The memory of the segments -/

/-- In use before the load: the tables of user addresses and the pages of the image. -/
def InUse (dm : DirectMap) (memory : Word → Word) (root e : Word) (size : Nat) (f : Word) : Prop :=
  IsUserTable dm memory (tableOf dm root) f ∨ IsImagePage e size f

/-- An image of `size` bytes at `e` whose segments are apart as ranges of bytes and lie in
user memory, and an address space of a tree of tables that the image is outside of.
`alloc_page` returns as many pages as are asked for, each of them distinct from all others
and from what is in use. -/
structure Loadable (dm : DirectMap) (s : VmState) (root e : Word) (size : Nat) : Prop where
  image : IsElfImage s.memory e size
  user : ∀ p ∈ segments s.memory e, p.vaddr.toNat + p.memsz.toNat ≤ 2 ^ 47
  sizes : ∀ p ∈ segments s.memory e, p.filesz.toNat ≤ p.memsz.toNat
  apart : (segments s.memory e).Pairwise fun p q => ∀ a, p.Holds a → ¬ q.Holds a
  tree : PageTree dm s.memory (tableOf dm root) 256
  outside : ∀ f, IsImagePage e size f → ¬ IsUserTable dm s.memory (tableOf dm root) f
  pages : Supplies dm (pagesNeeded dm s.memory (tableOf dm root) e)
    (InUse dm s.memory root e size) s.pages

/-- Every byte of every PT_LOAD segment is that of the file, or zero behind the file's bytes. -/
def Loaded (dm : DirectMap) (before after : Word → Word) (root e : Word) : Prop :=
  ∀ p ∈ segments before e, ∀ a, p.Holds a → userByte dm after root a = some (p.contents before e a)

namespace Loadable

variable {dm : DirectMap} {s : VmState} {root e a : Word} {size fuel : Nat} {p q : ElfPhdr}
  {memory : Word → Word}

/-- The pages not in use may hold anything. -/
theorem congr (h : Loadable dm s root e size)
    (hagree : ∀ a, InUse dm s.memory root e size (pageOf a) → memory a = s.memory a) :
    Loadable dm { s with memory } root e size ∧ SameImage e size s.memory memory ∧
      ∀ f, InUse dm memory root e size f ↔ InUse dm s.memory root e size f := by
  have hsame : SameImage e size s.memory memory := by
    intro k hk
    refine byteAt_congr (hagree _ (.inr ⟨k, hk, ?_⟩))
    rw [pageOf_wordOf]
  have hentries : ∀ t i, Reaches (tableAt dm s.memory (tableOf dm root) 256) (tableOf dm root) 3 t →
      HasEntry (tableOf dm root) 256 t i → memory (entryAt t i) = s.memory (entryAt t i) := by
    intro t i ht hi
    obtain ⟨q, hq, hpath⟩ := ht
    refine hagree _ (.inl ?_)
    rw [pageOf_entryAt (h.tree.aligned hpath) hi.1]
    exact ⟨q, hq, hpath⟩
  have htables : ∀ f, IsUserTable dm memory (tableOf dm root) f ↔
      IsUserTable dm s.memory (tableOf dm root) f :=
    fun f => exists_congr fun q => and_congr_right fun hq => by
      rw [PageTree.congr_descend hentries hq]
  have hused : ∀ f, InUse dm memory root e size f ↔ InUse dm s.memory root e size f :=
    fun f => or_congr_left (htables f)
  obtain ⟨hphnum, hphdr⟩ := hsame.header_eq h.image
  have hsegments := hsame.segments_eq h.image
  have hneeded : pagesNeeded dm memory (tableOf dm root) e =
      pagesNeeded dm s.memory (tableOf dm root) e := by
    rw [pagesNeeded, pagesNeeded, hsegments]
    congr 2
    refine Finset.filter_congr fun q hq => ?_
    rw [PageTree.congr_descend hentries (length_of_mem_tablePaths hq)]
  refine ⟨⟨⟨h.image.bound, h.image.header, fun i hi => ?_, ?_⟩, ?_, ?_, ?_, h.tree.congr hentries,
    fun f hf ht => h.outside f hf ((htables f).mp ht), ?_⟩, hsame, hused⟩
  · show e.toNat ≤ (phdr memory e _).toNat ∧ _
    rw [hphdr]
    exact h.image.headers i (hphnum ▸ hi)
  · exact hsegments ▸ h.image.file
  · exact hsegments ▸ h.user
  · exact hsegments ▸ h.sizes
  · exact hsegments ▸ h.apart
  · show Supplies dm (pagesNeeded dm memory _ e) _ _
    rw [hneeded]
    exact h.pages.anti fun f hf => (hused f).mp hf

/-- The run of `load_elf`: the segments are patches of user memory. -/
theorem run (h : Loadable dm s root e size) (hfuel : 2 ^ 36 ≤ fuel) :
    ∃ (s' : VmState) (v v' : Word → BitVec 8), loadElf dm fuel s root e = .ok s' ∧
      Patched (fun b => ∃ x, ¬ InUse dm s.memory root e size (pageOf x) ∧ byteAt s.memory x = b)
        ((segments s.memory e).map (·.patch s.memory e)) v v' ∧
      ∀ p ∈ segments s.memory e, ∀ a, p.Maps a → userByte dm s'.memory root a = some (v' a) := by
  let c : Setting :=
    { dm, root := tableOf dm root, paths := tablePaths ((segments s.memory e).flatMap ElfPhdr.mapped)
      image := IsImagePage e size, used := InUse dm s.memory root e size, memory := s.memory }
  have hc : c.ForImage root e size := ⟨rfl, h.image, rfl, subset_rfl, h.user, h.sizes⟩
  have hstart : Loading c (InUse dm s.memory root e size) (fun _ => none)
      (0 + ((segmentsFrom s.memory e 0 (phnum s.memory e).toNat).flatMap ElfPhdr.mapped).length) s := by
    refine ⟨⟨h.tree, fun f hf => .inl hf, fun q hq => length_of_mem_tablePaths hq, ?_⟩, fun _ hf => hf,
      fun f hf => ⟨.inr hf, h.outside f hf⟩, fun _ _ => rfl, ?_, ?_, ?_, ?_⟩
    · rw [Nat.zero_add, ← segments_eq_from]
      exact h.pages
    all_goals intros; contradiction
  have htotal : ∀ p ∈ segments s.memory e, p.pageTotal < fuel := by
    intro p hp
    have hbound := h.user p hp
    rw [ElfPhdr.pageTotal]
    omega
  have hphnum : (phnum s.memory e).toNat < fuel := by
    have hlt := phnum_lt s.memory e
    omega
  obtain ⟨s', used', frames', hrun, h', -, hmaps, hpatched⟩ :=
    hstart.loadElfFrom hc htotal (Nat.zero_add _) hphnum
  refine ⟨s', view (fun _ => none) s.memory, view frames' s'.memory, hrun, ?_, fun p hp a ha => ?_⟩
  · rw [segments_eq_from]
    exact hpatched
  · rw [segments_eq_from] at hp
    obtain ⟨f, hf⟩ := Option.isSome_iff_exists.mp (hmaps p hp a ha)
    obtain ⟨phys, htranslate, hphys⟩ := h'.translate_eq hc.root hf
    have hbyte : userByte dm s'.memory root a = some (byteAt s'.memory (dm.directMapOf phys)) := by
      rw [userByte, htranslate]
      rfl
    rw [hbyte, hphys, view, hf]

/-- Segments that no later one reaches into are loaded. -/
theorem loads (h : Loadable dm s root e size) (hfuel : 2 ^ 36 ≤ fuel)
    (hreach : (segments s.memory e).Pairwise fun p q => ∀ a, p.Holds a → ¬ q.Maps a) :
    ∃ s', loadElf dm fuel s root e = .ok s' ∧ Loaded dm s.memory s'.memory root e := by
  obtain ⟨s', v, v', hrun, hpatched, hbytes⟩ := h.run hfuel
  refine ⟨s', hrun, fun p hp a ha => ?_⟩
  rw [hbytes p hp a ha.maps, hpatched.set (List.pairwise_map.mpr hreach) (List.mem_map_of_mem hp) ha]
  rfl

/-- A byte in a page of a later segment is one that was in a page not in use. -/
theorem lost (h : Loadable dm s root e size) (hfuel : 2 ^ 36 ≤ fuel)
    (hpq : [p, q].Sublist (segments s.memory e)) (ha : p.Holds a) (hq : q.Maps a) :
    ∃ s' b, loadElf dm fuel s root e = .ok s' ∧ userByte dm s'.memory root a = some b ∧
      ∃ x, ¬ InUse dm s.memory root e size (pageOf x) ∧ byteAt s.memory x = b := by
  obtain ⟨s', v, v', hrun, hpatched, hbytes⟩ := h.run hfuel
  have hp : p ∈ segments s.memory e := hpq.subset List.mem_cons_self
  exact ⟨s', v' a, hrun, hbytes p hp a ha.maps,
    hpatched.spoiled (hpq.map _) (List.pairwise_map.mpr h.apart) ha hq⟩

end Loadable

/-- Whatever the pages not in use hold, `load_elf` gives every PT_LOAD segment the bytes of
the file and then zeros, if and only if no later segment is mapped in a page with a byte of
an earlier one. -/
theorem load_elf_loads_iff {dm : DirectMap} {s : VmState} {root e : Word} {size fuel : Nat}
    (h : Loadable dm s root e size) (hfuel : 2 ^ 36 ≤ fuel) :
    (∀ memory, (∀ a, InUse dm s.memory root e size (pageOf a) → memory a = s.memory a) →
      ∃ s', loadElf dm fuel { s with memory } root e = .ok s' ∧ Loaded dm s.memory s'.memory root e) ↔
      (segments s.memory e).Pairwise fun p q => ∀ a, p.Holds a → ¬ q.Maps a := by
  constructor
  · intro hall
    rw [List.pairwise_iff_forall_sublist]
    intro p q hpq a ha hq
    -- the free pages are filled with a byte that is wrong at `a`
    classical
    let wrong : BitVec 8 := p.contents s.memory e a + 1#8
    let memory : Word → Word := fun w =>
      if InUse dm s.memory root e size (pageOf w) then s.memory w else repeated wrong
    have hagree : ∀ w, InUse dm s.memory root e size (pageOf w) → memory w = s.memory w :=
      fun w hw => if_pos hw
    obtain ⟨h', hsame, hused⟩ := h.congr hagree
    have hsegments := hsame.segments_eq h.image
    obtain ⟨s', b, hrun, hbyte, x, hx, hb⟩ := h'.lost hfuel (hsegments ▸ hpq) ha hq
    obtain ⟨s'', hrun', hloaded⟩ := hall memory hagree
    rw [hrun] at hrun'
    obtain rfl := Except.ok.inj hrun'
    have hright := hloaded p (hpq.subset List.mem_cons_self) a ha
    rw [hbyte] at hright
    have hfree : memory (wordOf x) = repeated wrong := by
      refine if_neg fun hin => hx ((hused _).mpr ?_)
      rwa [pageOf_wordOf] at hin
    rw [byteAt_repeated hfree] at hb
    have hsum : p.contents s.memory e a + 1#8 = p.contents s.memory e a :=
      hb.trans (Option.some.inj hright)
    simp at hsum
  · intro hreach memory hagree
    obtain ⟨h', hsame, -⟩ := h.congr hagree
    have hsegments := hsame.segments_eq h.image
    obtain ⟨s', hrun, hloaded⟩ := h'.loads hfuel (by rw [hsegments]; exact hreach)
    refine ⟨s', hrun, fun p hp a ha => ?_⟩
    rw [hloaded p (by rw [hsegments]; exact hp) a ha, hsame.contents_eq h.image hp ha.1]

/-! ## Two segments -/

/-- Where the image is, in the page at 32 KiB. -/
def exampleElf : Word := lowMap.directMapOf 0x8000#64

/-- The words of the image that are not zero. The first segment has its 8 bytes of the file
and 8 zeros at 4 MiB, the second one its at `vaddr`. -/
def elfWords (vaddr : Word) : List (Word × Word) :=
  [(32#64, 64#64), (48#64, 0x0038000000000000#64), (56#64, 2#64),
    (64#64, 1#64), (72#64, 176#64), (80#64, 0x400000#64), (96#64, 8#64), (104#64, 16#64),
    (120#64, 1#64), (128#64, 184#64), (136#64, vaddr), (152#64, 8#64), (160#64, 16#64),
    (176#64, 0x4141414141414141#64), (184#64, 0x4242424242424242#64)]

/-- The image, a PML4 without entries at 4 KiB, and 16 free pages at 64 KiB, all zero. -/
def elfVm (vaddr : Word) : VmState where
  memory a :=
    if inMemory exampleElf 192#64 a then ((elfWords vaddr).lookup (a - exampleElf)).getD 0#64
    else 0#64
  pages := exampleVm.pages

theorem elfVm_memory {vaddr a : Word} (h : pageOf a ≠ exampleElf) : (elfVm vaddr).memory a = 0#64 := by
  refine if_neg fun hin => h ?_
  have hlt : a - exampleElf < 192#64 := of_decide_eq_true hin
  rw [pageOf_eq_iff (by decide)]
  rw [BitVec.lt_def, BitVec.toNat_sub] at hlt
  have he : exampleElf.toNat = 0xFFFF800000008000 := by decide
  have hbound := a.isLt
  simp only [BitVec.toNat_ofNat] at hlt
  omega

theorem elfVm_empty (vaddr i : Word) :
    tableAt lowMap (elfVm vaddr).memory (tableOf lowMap 0x1000#64) 256 (tableOf lowMap 0x1000#64) i =
      none := by
  by_cases hi : i.toNat < 512
  · refine tableAt_eq_none ?_
    rw [present, elfVm_memory]
    · rfl
    · rw [pageOf_entryAt (by decide) hi]
      decide
  · exact if_neg fun h => hi h.1.1

theorem isImagePage_elf {f : Word} : IsImagePage exampleElf 192 f → f = exampleElf := by
  rintro ⟨k, hk, rfl⟩
  rw [pageOf_eq_iff (by decide), BitVec.toNat_add, BitVec.toNat_ofNat]
  have he : exampleElf.toNat = 0xFFFF800000008000 := by decide
  omega

theorem inUse_elf {vaddr f : Word} (h : InUse lowMap (elfVm vaddr).memory 0x1000#64 exampleElf 192 f) :
    f = tableOf lowMap 0x1000#64 ∨ f = exampleElf :=
  h.imp (reaches_of_empty (elfVm_empty vaddr)) isImagePage_elf

def firstSegment : ElfPhdr where
  type := 1#32
  offset := 176#64
  vaddr := 0x400000#64
  filesz := 8#64
  memsz := 16#64

/-- The segments of the image. -/
def elfSegments (vaddr : Word) : List ElfPhdr :=
  [firstSegment, { firstSegment with offset := 184#64, vaddr }]

/-- The five pages that are needed are there: two, and three tables. -/
theorem elfVm_supplies (vaddr : Word) :
    Supplies lowMap 5 (InUse lowMap (elfVm vaddr).memory 0x1000#64 exampleElf 192)
      (elfVm vaddr).pages := by
  have hfree : ∀ f : Word, f ≠ tableOf lowMap 0x1000#64 → f ≠ exampleElf →
      ¬ InUse lowMap (elfVm vaddr).memory 0x1000#64 exampleElf 192 f :=
    fun f hroot himage hf => (inUse_elf hf).elim hroot himage
  show Supplies lowMap 5 _ exampleVm.pages
  refine ⟨0x10000#64, _, rfl, by decide, by decide, hfree _ (by decide) (by decide), ?_⟩
  refine ⟨0x11000#64, _, rfl, by decide, by decide, not_or.mpr ⟨by decide, ?_⟩, ?_⟩
  · exact hfree _ (by decide) (by decide)
  refine ⟨0x12000#64, _, rfl, by decide, by decide, not_or.mpr ⟨by decide, not_or.mpr ⟨by decide, ?_⟩⟩, ?_⟩
  · exact hfree _ (by decide) (by decide)
  refine ⟨0x13000#64, _, rfl, by decide, by decide, ?_, ?_⟩
  · exact not_or.mpr ⟨by decide, not_or.mpr ⟨by decide,
      not_or.mpr ⟨by decide, hfree _ (by decide) (by decide)⟩⟩⟩
  refine ⟨0x14000#64, _, rfl, by decide, by decide, ?_, trivial⟩
  exact not_or.mpr ⟨by decide, not_or.mpr ⟨by decide, not_or.mpr ⟨by decide,
    not_or.mpr ⟨by decide, hfree _ (by decide) (by decide)⟩⟩⟩⟩

theorem elfVm_loadable {vaddr : Word} (hlow : 0x400010#64 ≤ vaddr) (hhigh : vaddr.toNat + 16 ≤ 2 ^ 47)
    (himage : IsElfImage (elfVm vaddr).memory exampleElf 192)
    (hsegments : segments (elfVm vaddr).memory exampleElf = elfSegments vaddr)
    (hneeded : pagesNeeded lowMap (elfVm vaddr).memory (tableOf lowMap 0x1000#64) exampleElf = 5) :
    Loadable lowMap (elfVm vaddr) 0x1000#64 exampleElf 192 := by
  have hframe : IsFrame lowMap (tableOf lowMap 0x1000#64) :=
    ⟨0x1000#64, by decide, by decide, by decide⟩
  refine ⟨himage, ?_, ?_, ?_, .of_empty (elfVm_empty vaddr) hframe, fun f hf ht => ?_, ?_⟩
  · rw [hsegments]
    simpa [elfSegments, firstSegment] using hhigh
  · rw [hsegments]
    simp [elfSegments, firstSegment]
  · rw [hsegments]
    simp [elfSegments, firstSegment, ElfPhdr.Holds]
    intro a _ hlt hle
    rw [BitVec.le_def] at hlow
    simp only [BitVec.toNat_ofNat] at hlow
    omega
  · rw [isImagePage_elf hf] at ht
    exact absurd (reaches_of_empty (elfVm_empty vaddr) ht) (by decide)
  · rw [hneeded]
    exact elfVm_supplies vaddr

theorem elfVm_shared : Loadable lowMap (elfVm 0x400010#64) 0x1000#64 exampleElf 192 := by
  have himage : IsElfImage (elfVm 0x400010#64).memory exampleElf 192 :=
    ⟨by decide, by decide, by decide +kernel, by decide +kernel⟩
  exact elfVm_loadable (by decide) (by decide) himage (by decide +kernel) (by decide +kernel)

/-- With the second segment in the next page both are loaded. -/
theorem load_elf_loads_iff_apart :
    ∃ s', loadElf lowMap (2 ^ 36) (elfVm 0x401000#64) 0x1000#64 exampleElf = .ok s' ∧
      Loaded lowMap (elfVm 0x401000#64).memory s'.memory 0x1000#64 exampleElf := by
  have himage : IsElfImage (elfVm 0x401000#64).memory exampleElf 192 :=
    ⟨by decide, by decide, by decide +kernel, by decide +kernel⟩
  have hsegments : segments (elfVm 0x401000#64).memory exampleElf = elfSegments 0x401000#64 := by
    decide +kernel
  have hloadable := elfVm_loadable (by decide) (by decide) himage hsegments (by decide +kernel)
  refine (load_elf_loads_iff hloadable le_rfl).mpr ?_ _ fun _ _ => rfl
  rw [hsegments]
  simp [elfSegments, firstSegment, ElfPhdr.Holds, ElfPhdr.Maps]
  omega

/-- With both in one page, 16 bytes apart, the second mapping takes the page from the
first segment: its bytes of the file are gone. -/
theorem load_elf_shared_page :
    Loadable lowMap (elfVm 0x400010#64) 0x1000#64 exampleElf 192 ∧
      ∃ s', loadElf lowMap (2 ^ 36) (elfVm 0x400010#64) 0x1000#64 exampleElf = .ok s' ∧
        ¬ Loaded lowMap (elfVm 0x400010#64).memory s'.memory 0x1000#64 exampleElf := by
  have hsegments : segments (elfVm 0x400010#64).memory exampleElf = elfSegments 0x400010#64 := by
    decide +kernel
  have hpq : (elfSegments 0x400010#64).Sublist (segments (elfVm 0x400010#64).memory exampleElf) := by
    rw [hsegments]
  obtain ⟨s', b, hrun, hbyte, x, hfree, hb⟩ := elfVm_shared.lost le_rfl hpq
    (show ElfPhdr.Holds _ 0x400000#64 by decide) (show ElfPhdr.Maps _ 0x400000#64 by decide)
  refine ⟨elfVm_shared, s', hrun, fun hloaded => ?_⟩
  have hright := hloaded _ (hpq.subset List.mem_cons_self) 0x400000#64 (by decide)
  have hzero : (elfVm 0x400010#64).memory (wordOf x) = 0#64 := by
    refine elfVm_memory fun he => hfree (.inr ⟨0, by decide, ?_⟩)
    rw [pageOf_wordOf] at he
    rw [he]
    decide
  rw [hbyte, ← hb, byteAt, hzero, Option.some.injEq] at hright
  rw [BitVec.zero_ushiftRight] at hright
  exact absurd hright (by decide +kernel)

end Tern
