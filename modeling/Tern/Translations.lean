import Tern.KernelHalf

/-! The walk of the processor through the page tables, and what `x86_64_page_map` and
`x86_64_huge_page_map` make of it. The attribute word of the caller goes into the
entry as it is: address bits of it move the page, and without the page-size bit
the entry of a huge page leads to a page table. -/

namespace Tern

/-! ## The walk -/

def ptePse : Word := 0x80#64

/-- `PTE (pte)`. -/
def tableOf (dm : DirectMap) (pte : Word) : Word := dm.directMapOf (pteAddr pte)

/-- The address in an entry for 2 MiB. -/
def hugeAddr (pde : Word) : Word := pde &&& 0x000FFFFFFFE00000#64

/-- Bits 20 to 13 of an entry for 2 MiB are reserved. -/
def pdeReserved : Word := 0x1FE000#64

section

variable (dm : DirectMap) (memory : Word → Word)

/-- The entry of a page directory as a 2 MiB leaf, which faults with a reserved bit. -/
def hugeLeaf (pde virt : Word) : Option Word :=
  if pde &&& pdeReserved = 0#64 then some (hugeAddr pde ||| (virt &&& 0x1FFFFF#64)) else none

/-- The entry of a page table. -/
def pageLeaf (pte virt : Word) : Option Word :=
  if present memory pte then some (pteAddr (memory pte) ||| (virt &&& 0xFFF#64)) else none

/-- The physical address that the processor finds for `virt`. -/
def translate (root virt : Word) : Option Word :=
  if present memory (getPml4e dm root virt) ∧ present memory (getPdpte dm memory root virt) ∧
      present memory (getPde dm memory root virt) then
    let pde := memory (getPde dm memory root virt)
    if pde &&& ptePse ≠ 0#64 then hugeLeaf pde virt
    else pageLeaf memory (getPte dm memory root virt) virt
  else none

end

/-- Bits 47 to 12 of an address. -/
def pageNumber (addr : Word) : BitVec 36 := (addr >>> 12).setWidth 36

section

/-! ## Addresses -/

theorem index_getLsbD (addr : Word) (shift b : Nat) :
    (index addr shift).getLsbD b = (decide (b < 9) && addr.getLsbD (shift + b)) := by
  rw [index, BitVec.getLsbD_and, BitVec.getLsbD_ushiftRight]
  have hmask : ∀ b < 64, (0x1FF#64).getLsbD b = decide (b < 9) := by decide
  by_cases hb : b < 64
  · rw [hmask b hb, Bool.and_comm]
  · rw [BitVec.getLsbD_of_ge addr (shift + b) (by omega), Bool.false_and, Bool.and_false]

theorem index_eq_iff {a b : Word} {shift : Nat} :
    index a shift = index b shift ↔ ∀ k < 9, a.getLsbD (shift + k) = b.getLsbD (shift + k) := by
  constructor
  · intro h k hk
    have hbit := congrArg (BitVec.getLsbD · k) h
    simpa [index_getLsbD, hk] using hbit
  · intro h
    refine BitVec.eq_of_getLsbD_eq fun k _ => ?_
    rw [index_getLsbD, index_getLsbD]
    by_cases hk : k < 9
    · rw [h k hk]
    · simp [hk]

/-- The four indices are the page number. -/
theorem samePage_iff {a b : Word} : SamePage a b ↔ pageNumber a = pageNumber b := by
  have hbits : pageNumber a = pageNumber b ↔ ∀ k < 36, a.getLsbD (12 + k) = b.getLsbD (12 + k) := by
    constructor
    · intro h k hk
      have hbit := congrArg (BitVec.getLsbD · k) h
      simpa [pageNumber, hk] using hbit
    · intro h
      refine BitVec.eq_of_getLsbD_eq fun k hk => ?_
      simp [pageNumber, hk, h k hk]
  simp only [SamePage, path, List.cons.injEq, and_true, index_eq_iff, hbits]
  constructor
  · rintro ⟨⟨h39, h30, h21⟩, h12⟩ k hk
    rcases lt_or_ge k 9 with h | h
    · exact h12 k h
    rcases lt_or_ge k 18 with h | h
    · have := h21 (k - 9) (by omega)
      rwa [show 21 + (k - 9) = 12 + k by omega] at this
    rcases lt_or_ge k 27 with h | h
    · have := h30 (k - 18) (by omega)
      rwa [show 30 + (k - 18) = 12 + k by omega] at this
    · have := h39 (k - 27) (by omega)
      rwa [show 39 + (k - 27) = 12 + k by omega] at this
  · intro h
    refine ⟨⟨fun k hk => ?_, fun k hk => ?_, fun k hk => ?_⟩, fun k hk => h k (by omega)⟩
    · have := h (27 + k) (by omega)
      rwa [show 12 + (27 + k) = 39 + k by omega] at this
    · have := h (18 + k) (by omega)
      rwa [show 12 + (18 + k) = 30 + k by omega] at this
    · have := h (9 + k) (by omega)
      rwa [show 12 + (9 + k) = 21 + k by omega] at this

theorem pteAddr_or (a b : Word) : pteAddr (a ||| b) = pteAddr a ||| pteAddr b :=
  BitVec.and_or_distrib_right

/-- A page frame below 2^52 is all address. -/
theorem pteAddr_of_page {p : Word} (haligned : p.toNat % 4096 = 0) (hbelow : p.toNat < 2 ^ 52) :
    pteAddr p = p := by
  refine BitVec.eq_of_getLsbD_eq fun k hk => ?_
  rw [pteAddr, BitVec.getLsbD_and]
  have hmask : ∀ k < 64, (0x000FFFFFFFFFF000#64).getLsbD k = decide (12 ≤ k ∧ k < 52) := by decide
  rw [hmask k hk]
  by_cases hmid : 12 ≤ k ∧ k < 52
  · simp [hmid]
  · rw [decide_eq_false hmid, Bool.and_false, BitVec.getLsbD, eq_comm]
    rcases not_and_or.mp hmid with hlow | hhigh
    · rw [show p.toNat = 2 ^ 12 * (p.toNat / 4096) by omega, Nat.testBit_two_pow_mul,
        decide_eq_false (by omega), Bool.false_and]
    · exact Nat.testBit_lt_two_pow (hbelow.trans_le (Nat.pow_le_pow_right (by decide) (by omega)))

/-! ## Address fields -/

theorem pteAddr_pteAddr (v : Word) : pteAddr (pteAddr v) = pteAddr v := by
  rw [pteAddr, pteAddr, BitVec.and_assoc, BitVec.and_self]

theorem pteAddr_offset (a : Word) : pteAddr (a &&& 0xFFF#64) = 0#64 := by
  rw [pteAddr, BitVec.and_assoc]
  simp

/-- Two frames with the same offset in them. -/
theorem or_offset_inj {p q a : Word} (hp : pteAddr p = p) (hq : pteAddr q = q)
    (h : p ||| (a &&& 0xFFF#64) = q ||| (a &&& 0xFFF#64)) : p = q := by
  have haddr := congrArg pteAddr h
  simpa [pteAddr_or, pteAddr_offset, hp, hq] using haddr

theorem pteAddr_hugeAddr (pde : Word) : pteAddr (hugeAddr pde) = hugeAddr pde := by
  rw [pteAddr, hugeAddr, BitVec.and_assoc]
  simp

theorem hugeAddr_hugeAddr (pde : Word) : hugeAddr (hugeAddr pde) = hugeAddr pde := by
  rw [hugeAddr, hugeAddr, BitVec.and_assoc, BitVec.and_self]

theorem hugeAddr_offset (a : Word) : hugeAddr (a &&& 0x1FFFFF#64) = 0#64 := by
  rw [hugeAddr, BitVec.and_assoc]
  simp

theorem hugeAddr_or (a b : Word) : hugeAddr (a ||| b) = hugeAddr a ||| hugeAddr b :=
  BitVec.and_or_distrib_right

/-- Page `i` of a huge page. -/
theorem pteAddr_nth {i : Word} (hi : i.toNat < 512) : pteAddr (i <<< 12) = i <<< 12 := by
  have hshift : (i <<< 12).toNat = i.toNat * 4096 := by
    rw [BitVec.toNat_shiftLeft, Nat.shiftLeft_eq]
    omega
  exact pteAddr_of_page (by omega) (by omega)

/-- The offset in a huge page: which page of it, and where in the page. -/
theorem huge_offset (a : Word) :
    a &&& 0x1FFFFF#64 = (index a 12 <<< 12) ||| (a &&& 0xFFF#64) := by
  have hmask : ∀ k < 64, (0x1FFFFF#64).getLsbD k = decide (k < 21) := by decide
  have hlow : ∀ k < 64, (0xFFF#64).getLsbD k = decide (k < 12) := by decide
  refine BitVec.eq_of_getLsbD_eq fun k hk => ?_
  simp only [BitVec.getLsbD_and, BitVec.getLsbD_or, BitVec.getLsbD_shiftLeft, index_getLsbD,
    hmask k hk, hlow k hk]
  by_cases h12 : k < 12
  · simp [h12, show k < 21 by omega]
  · rw [show 12 + (k - 12) = k by omega]
    by_cases h21 : k < 21
    · simp [h12, h21, hk, show k - 12 < 9 by omega]
    · simp [h12, h21, show ¬ k - 12 < 9 by omega]

/-! ## The entries on the way -/

section

variable {dm : DirectMap} {memory memory' : Word → Word} {root pdpt pd pt virt a : Word}

/-- The tables in which `virt` is looked up. -/
structure WalkOf (dm : DirectMap) (memory : Word → Word) (root virt pdpt pd pt : Word) : Prop where
  first : child dm memory root (index virt 39) = pdpt
  second : child dm memory pdpt (index virt 30) = pd
  third : child dm memory pd (index virt 21) = pt

theorem translate_eq (hroot : IsFrame dm root) (h : WalkOf dm memory root virt pdpt pd pt) :
    translate dm memory root virt =
      if present memory (entryAt root (index virt 39)) ∧
          present memory (entryAt pdpt (index virt 30)) ∧
          present memory (entryAt pd (index virt 21)) then
        if memory (entryAt pd (index virt 21)) &&& ptePse ≠ 0#64 then
          hugeLeaf (memory (entryAt pd (index virt 21))) virt
        else pageLeaf memory (entryAt pt (index virt 12)) virt
      else none := by
  rw [translate, getPte_eq hroot, getPde_eq hroot, getPdpte_eq hroot, getPml4e_eq hroot, h.first,
    h.second, h.third]

/-- An address with the same upper indices is looked up in the same tables. -/
theorem WalkOf.congr (h : WalkOf dm memory root virt pdpt pd pt) (hpath : path a = path virt) :
    WalkOf dm memory root a pdpt pd pt := by
  simp only [path, List.cons.injEq, and_true] at hpath
  obtain ⟨h39, h30, h21⟩ := hpath
  exact ⟨h39 ▸ h.first, h30 ▸ h.second, h21 ▸ h.third⟩

theorem WalkOf.aligned (h : WalkOf dm memory root virt pdpt pd pt) (hroot : IsFrame dm root) :
    root.toNat % 4096 = 0 ∧ pdpt.toNat % 4096 = 0 ∧ pd.toNat % 4096 = 0 ∧ pt.toNat % 4096 = 0 := by
  have hbits := hroot.bits_le
  refine ⟨hroot.toNat.1, ?_, ?_, ?_⟩
  · exact h.first ▸ directMapOf_pteAddr_aligned hbits _
  · exact h.second ▸ directMapOf_pteAddr_aligned hbits _
  · exact h.third ▸ directMapOf_pteAddr_aligned hbits _

/-- A write elsewhere leaves the entry. -/
theorem update_entryAt_of_ne {t t' i i' value : Word} (ht : t.toNat % 4096 = 0)
    (ht' : t'.toNat % 4096 = 0) (hi : i.toNat < 512) (hi' : i'.toNat < 512) (hne : t' ≠ t) :
    Function.update memory (entryAt t i) value (entryAt t' i') = memory (entryAt t' i') :=
  Function.update_of_ne (fun he => hne (entryAt_inj_of_aligned ht' ht hi' hi he).1) _ _

/-- The tables are there. -/
structure Walked (memory : Word → Word) (root virt pdpt pd : Word) : Prop where
  first : present memory (entryAt root (index virt 39)) = true
  second : present memory (entryAt pdpt (index virt 30)) = true
  third : present memory (entryAt pd (index virt 21)) = true

theorem Walked.translate_eq (h : Walked memory root virt pdpt pd) (hroot : IsFrame dm root)
    (hwalk : WalkOf dm memory root virt pdpt pd pt) :
    translate dm memory root virt =
      if memory (entryAt pd (index virt 21)) &&& ptePse ≠ 0#64 then
        hugeLeaf (memory (entryAt pd (index virt 21))) virt
      else pageLeaf memory (entryAt pt (index virt 12)) virt := by
  rw [Tern.translate_eq hroot hwalk, if_pos ⟨h.first, h.second, h.third⟩]

/-- With the upper two entries as before, the entry of the page directory decides. -/
theorem translate_of_kept {after : Word → Word} {pde : Word} (hroot : IsFrame dm root)
    (hwalk : WalkOf dm memory root virt pdpt pd pt)
    (hfirst : present memory (entryAt root (index virt 39)) = true)
    (hsecond : present memory (entryAt pdpt (index virt 30)) = true)
    (hkept₁ : after (entryAt root (index virt 39)) = memory (entryAt root (index virt 39)))
    (hkept₂ : after (entryAt pdpt (index virt 30)) = memory (entryAt pdpt (index virt 30)))
    (hpde : after (entryAt pd (index virt 21)) = pde) (hpresent : pde &&& ptePresent ≠ 0#64)
    (ha : path a = path virt) :
    translate dm after root a =
      if pde &&& ptePse ≠ 0#64 then hugeLeaf pde a
      else pageLeaf after (entryAt (tableOf dm pde) (index a 12)) a := by
  have hwalk' : WalkOf dm after root virt pdpt pd (tableOf dm pde) := by
    refine ⟨?_, ?_, ?_⟩
    · rw [child, hkept₁]
      exact hwalk.first
    · rw [child, hkept₂]
      exact hwalk.second
    · rw [child, hpde]
      rfl
  have hpath : index a 39 = index virt 39 ∧ index a 30 = index virt 30 ∧
      index a 21 = index virt 21 := by
    simpa [path] using ha
  have hthere : Walked after root a pdpt pd := by
    refine ⟨?_, ?_, ?_⟩
    · rw [hpath.1, present, hkept₁]
      exact hfirst
    · rw [hpath.2.1, present, hkept₂]
      exact hsecond
    · rw [hpath.2.2, present, hpde]
      exact bne_iff_ne.mpr hpresent
  rw [hthere.translate_eq hroot (hwalk'.congr ha), hpath.2.2, hpde]

/-- The page after its entry was written; a large page does not read it. -/
theorem translate_write_pte {value : Word} (hroot : IsFrame dm root)
    (hwalk : WalkOf dm memory root virt pdpt pd pt) (hapart : [root, pdpt, pd, pt].Nodup)
    (hthere : Walked memory root virt pdpt pd) (hvalue : value &&& ptePresent ≠ 0#64)
    (ha : SamePage a virt) :
    translate dm (Function.update memory (entryAt pt (index virt 12)) value) root a =
      if memory (entryAt pd (index virt 21)) &&& ptePse ≠ 0#64 then
        hugeLeaf (memory (entryAt pd (index virt 21))) a
      else some (pteAddr value ||| (a &&& 0xFFF#64)) := by
  obtain ⟨hrootAligned, hpdptAligned, hpdAligned, hptAligned⟩ := hwalk.aligned hroot
  simp only [List.nodup_cons, List.mem_cons, List.not_mem_nil, or_false, not_or, List.nodup_nil,
    and_true, not_false_iff] at hapart
  obtain ⟨⟨-, -, hne₁⟩, ⟨-, hne₂⟩, hne₃⟩ := hapart
  have hpt : tableOf dm (memory (entryAt pd (index virt 21))) = pt := hwalk.third
  have hleaf : pageLeaf (Function.update memory (entryAt pt (index virt 12)) value)
      (entryAt pt (index virt 12)) a = some (pteAddr value ||| (a &&& 0xFFF#64)) := by
    rw [pageLeaf, present, Function.update_self, if_pos (bne_iff_ne.mpr hvalue)]
  rw [translate_of_kept hroot hwalk hthere.first hthere.second
    (update_entryAt_of_ne hptAligned hrootAligned (index_lt _ _) (index_lt _ _) hne₁)
    (update_entryAt_of_ne hptAligned hpdptAligned (index_lt _ _) (index_lt _ _) hne₂)
    (update_entryAt_of_ne hptAligned hpdAligned (index_lt _ _) (index_lt _ _) hne₃)
    (bne_iff_ne.mp hthere.third) ha.1, hpt, ha.2, hleaf]

/-- The region after the entry in the page directory was written. -/
theorem translate_write_pde {value : Word} (hroot : IsFrame dm root)
    (hwalk : WalkOf dm memory root virt pdpt pd pt) (hapart : [root, pdpt, pd].Nodup)
    (hfirst : present memory (entryAt root (index virt 39)) = true)
    (hsecond : present memory (entryAt pdpt (index virt 30)) = true)
    (hvalue : value &&& ptePresent ≠ 0#64) (ha : path a = path virt) :
    translate dm (Function.update memory (entryAt pd (index virt 21)) value) root a =
      if value &&& ptePse ≠ 0#64 then hugeLeaf value a
      else pageLeaf (Function.update memory (entryAt pd (index virt 21)) value)
        (entryAt (tableOf dm value) (index a 12)) a := by
  obtain ⟨hrootAligned, hpdptAligned, hpdAligned, -⟩ := hwalk.aligned hroot
  simp only [List.nodup_cons, List.mem_cons, List.not_mem_nil, or_false, not_or, List.nodup_nil,
    and_true, not_false_iff] at hapart
  obtain ⟨⟨-, hne₁⟩, hne₂⟩ := hapart
  exact translate_of_kept hroot hwalk hfirst hsecond
    (update_entryAt_of_ne hpdAligned hrootAligned (index_lt _ _) (index_lt _ _) hne₁)
    (update_entryAt_of_ne hpdAligned hpdptAligned (index_lt _ _) (index_lt _ _) hne₂)
    (Function.update_self ..) hvalue ha

end

/-! ## Pages -/

section

variable (dm : DirectMap) (k : Kernel) (cte vspace vaddr attr : Word)

/-- `physical_of (cap_ptr (cte))`. -/
def frameOf : Word := dm.physicalOf (capPtr (k.slots cte).cap)

/-- The page of `vaddr` is the frame. -/
def MapsPage (memory : Word → Word) : Prop :=
  ∀ a, SamePage a vaddr →
    translate dm memory (rootOf k.slots vspace) a = some (frameOf dm k cte ||| (a &&& 0xFFF#64))

/-- The 2 MiB region of `vaddr` is the frame. -/
def MapsHugePage (memory : Word → Word) : Prop :=
  ∀ a, path a = path vaddr →
    translate dm memory (rootOf k.slots vspace) a = some (frameOf dm k cte ||| (a &&& 0x1FFFFF#64))

/-- The entry of the page directory on the way. -/
def pdeAt : Word := k.memory (getPde dm k.memory (rootOf k.slots vspace) vaddr)

/-- The address bits of the attribute word are in the frame's address; or there is a
large page, which maps the page to the frame already. -/
def PageMapExact : Prop :=
  if pdeAt dm k vspace vaddr &&& ptePse = 0#64 then pteAddr attr ||| frameOf dm k cte = frameOf dm k cte
  else translate dm k.memory (rootOf k.slots vspace) vaddr =
    some (frameOf dm k cte ||| (vaddr &&& 0xFFF#64))

/-- The attribute word has the page-size bit, and its address bits are in the frame's
address; or the words that are then taken for a page table map the frame's pages in
their order. -/
def HugePageMapExact : Prop :=
  if attr &&& ptePse = 0#64 then
    ∀ i : Word, i.toNat < 512 →
      present k.memory (entryAt (tableOf dm (frameOf dm k cte ||| attr)) i) = true ∧
      pteAddr (k.memory (entryAt (tableOf dm (frameOf dm k cte ||| attr)) i)) =
        frameOf dm k cte ||| (i <<< 12)
  else attr &&& pdeReserved = 0#64 ∧ hugeAddr attr ||| frameOf dm k cte = frameOf dm k cte

end

section

variable {dm : DirectMap} {k k' : Kernel} {cte vspace vaddr attr pdpt pd pt : Word}

theorem mapEntry_ok {above : List (Word × Word)} {entry value : Word}
    (h : (mapEntry k above entry value).1.isOk = true) :
    (∀ e ∈ above, present k.memory e.1 = true) ∧ present k.memory entry = false ∧
      (mapEntry k above entry value).2 =
        { k with memory := Function.update k.memory entry value } := by
  unfold mapEntry at h ⊢
  cases hfind : above.find? fun e => !present k.memory e.1 with
  | some e =>
    rw [hfind] at h
    cases h
  | none =>
    rw [hfind] at h
    cases hpresent : present k.memory entry with
    | true =>
      rw [hpresent] at h
      cases h
    | false => exact ⟨by simpa using List.find?_eq_none.mp hfind, rfl, rfl⟩

/-- A page frame is address only. -/
theorem IsFrame.frameOf (h : IsFrame dm (capPtr (k.slots cte).cap)) :
    pteAddr (frameOf dm k cte) = frameOf dm k cte := by
  obtain ⟨p, hp, hbits, he⟩ := h
  rw [Tern.frameOf, he, physicalOf_directMapOf (by omega), hp]

end

/-- The entry that a page is mapped with leads to the frame, moved by the attribute
word. -/
theorem pteAddr_entry {p : Word} (hp : pteAddr p = p) (attr : Word) :
    pteAddr (p ||| ptePresent ||| pteUser ||| attr) = p ||| pteAddr attr := by
  have hflags : pteAddr ptePresent = 0#64 ∧ pteAddr pteUser = 0#64 := by decide
  rw [pteAddr_or, pteAddr_or, pteAddr_or, hp, hflags.1, hflags.2, BitVec.or_zero, BitVec.or_zero]

theorem present_entry (p attr : Word) :
    (p ||| ptePresent ||| pteUser ||| attr) &&& ptePresent ≠ 0#64 := by
  intro hzero
  have hbit := congrArg (BitVec.getLsbD · 0) hzero
  simp [ptePresent, pteUser] at hbit

/-- A large page maps all of a page alike. -/
theorem hugeLeaf_page {p pde a : Word} (hp : pteAddr p = p) (ha : SamePage a vaddr)
    (h : hugeLeaf pde vaddr = some (p ||| (vaddr &&& 0xFFF#64))) :
    hugeLeaf pde a = some (p ||| (a &&& 0xFFF#64)) := by
  unfold hugeLeaf at h ⊢
  split_ifs at h ⊢ with hreserved
  have haddr := Option.some.inj h
  rw [huge_offset, ← BitVec.or_assoc] at haddr
  have hpage : hugeAddr pde ||| (index vaddr 12 <<< 12) = p := by
    refine or_offset_inj ?_ hp haddr
    rw [pteAddr_or, pteAddr_hugeAddr, pteAddr_nth (index_lt _ _)]
  rw [huge_offset, ← BitVec.or_assoc, ha.2, hpage]

/-- Where `x86_64_page_map` does without an error, it maps the page to the frame if and
only if the attribute word does not move it, or it is mapped there already. -/
theorem pageMap_maps_iff (hroot : IsFrame dm (rootOf k.slots vspace))
    (hframe : IsFrame dm (capPtr (k.slots cte).cap))
    (hwalk : WalkOf dm k.memory (rootOf k.slots vspace) vaddr pdpt pd pt)
    (hapart : [rootOf k.slots vspace, pdpt, pd, pt].Nodup)
    (hok : (pageMap dm k cte vspace vaddr attr).1.isOk = true) :
    MapsPage dm k cte vspace vaddr (pageMap dm k cte vspace vaddr attr).2.memory ↔
      PageMapExact dm k cte vspace vaddr attr := by
  have hp := hframe.frameOf
  have hpde : pdeAt dm k vspace vaddr = k.memory (entryAt pd (index vaddr 21)) := by
    rw [pdeAt, getPde_eq hroot, hwalk.first, hwalk.second]
  obtain ⟨habove, -, hafter⟩ := mapEntry_ok hok
  have hmemory : (pageMap dm k cte vspace vaddr attr).2.memory =
      Function.update k.memory (entryAt pt (index vaddr 12))
        (frameOf dm k cte ||| ptePresent ||| pteUser ||| attr) := by
    rw [pageMap, hafter, ← rootOf, getPte_eq hroot, hwalk.first, hwalk.second, hwalk.third, frameOf]
  rw [← rootOf, getPml4e_eq hroot, getPdpte_eq hroot, getPde_eq hroot, hwalk.first,
    hwalk.second] at habove
  simp only [List.forall_mem_cons, List.not_mem_nil, false_imp_iff, implies_true,
    and_true] at habove
  have hthere : Walked k.memory (rootOf k.slots vspace) vaddr pdpt pd :=
    ⟨habove.1, habove.2.1, habove.2.2⟩
  have htranslate : ∀ a, SamePage a vaddr → translate dm (pageMap dm k cte vspace vaddr attr).2.memory
      (rootOf k.slots vspace) a =
        if pdeAt dm k vspace vaddr &&& ptePse ≠ 0#64 then hugeLeaf (pdeAt dm k vspace vaddr) a
        else some (frameOf dm k cte ||| pteAddr attr ||| (a &&& 0xFFF#64)) := by
    intro a ha
    rw [hmemory, translate_write_pte hroot hwalk hapart hthere (present_entry _ _) ha,
      pteAddr_entry hp, hpde]
  rw [MapsPage, PageMapExact]
  by_cases hpse : pdeAt dm k vspace vaddr &&& ptePse = 0#64
  · rw [if_pos hpse]
    simp only [hpse, ne_eq, not_true_eq_false, if_false] at htranslate
    constructor
    · intro hmaps
      have hsame := (htranslate vaddr ⟨rfl, rfl⟩).symm.trans (hmaps vaddr ⟨rfl, rfl⟩)
      rw [BitVec.or_comm]
      refine or_offset_inj ?_ hp (Option.some.inj hsame)
      rw [pteAddr_or, hp, pteAddr_pteAddr]
    · intro hattr a ha
      rw [htranslate a ha, BitVec.or_comm (frameOf dm k cte), hattr]
  · rw [if_neg hpse]
    simp only [hpse, ne_eq, not_false_eq_true, if_true] at htranslate
    have hbefore : translate dm k.memory (rootOf k.slots vspace) vaddr =
        hugeLeaf (pdeAt dm k vspace vaddr) vaddr := by
      rw [hthere.translate_eq hroot hwalk, ← hpde, if_pos hpse]
    rw [hbefore]
    constructor
    · intro hmaps
      rw [← htranslate vaddr ⟨rfl, rfl⟩, hmaps vaddr ⟨rfl, rfl⟩]
    · intro hmapped a ha
      rw [htranslate a ha, hugeLeaf_page hp ha hmapped]

/-! ## Huge pages -/

/-- A 2 MiB frame, by its direct-map address. -/
def IsHugeFrame (dm : DirectMap) (t : Word) : Prop :=
  ∃ p, pteAddr p = p ∧ p.toNat % 2 ^ 21 = 0 ∧ p.toNat + 2 ^ 21 ≤ 2 ^ dm.bits ∧ t = dm.directMapOf p

theorem hugeAddr_of_aligned {p : Word} (hp : pteAddr p = p) (haligned : p.toNat % 2 ^ 21 = 0) :
    hugeAddr p = p := by
  refine BitVec.eq_of_getLsbD_eq fun j hj => ?_
  have hmask : ∀ j < 64, (0x000FFFFFFFE00000#64).getLsbD j =
      (decide (21 ≤ j) && (0x000FFFFFFFFFF000#64).getLsbD j) := by decide
  have hbit : p.getLsbD j = (p.getLsbD j && (0x000FFFFFFFFFF000#64).getLsbD j) := by
    rw [← BitVec.getLsbD_and, ← pteAddr, hp]
  rw [hugeAddr, BitVec.getLsbD_and, hmask j hj]
  by_cases hlow : j < 21
  · have hzero : p.getLsbD j = false := by
      rw [BitVec.getLsbD, show p.toNat = 2 ^ 21 * (p.toNat / 2 ^ 21) by omega,
        Nat.testBit_two_pow_mul, decide_eq_false (by omega), Bool.false_and]
    rw [hzero, Bool.false_and]
  · rw [decide_eq_true (by omega), Bool.true_and, ← hbit]

/-- A huge frame is address only. -/
theorem IsHugeFrame.frameOf (h : IsHugeFrame dm (capPtr (k.slots cte).cap)) :
    hugeAddr (frameOf dm k cte) = frameOf dm k cte := by
  obtain ⟨p, hp, haligned, hbits, he⟩ := h
  rw [Tern.frameOf, he, physicalOf_directMapOf (by omega), hugeAddr_of_aligned hp haligned]

/-- The bits of an entry for a huge page. -/
theorem huge_entry {p : Word} (hp : hugeAddr p = p) (attr : Word) :
    hugeAddr (p ||| ptePresent ||| pteUser ||| attr) = hugeAddr attr ||| p ∧
    (p ||| ptePresent ||| pteUser ||| attr) &&& pdeReserved = attr &&& pdeReserved ∧
    (p ||| ptePresent ||| pteUser ||| attr) &&& ptePse = attr &&& ptePse := by
  have hand : ∀ x, p &&& x = p &&& hugeAddr x := by
    intro x
    rw [hugeAddr, BitVec.and_comm x, ← BitVec.and_assoc, ← hugeAddr, hp]
  have hflags : hugeAddr ptePresent = 0#64 ∧ hugeAddr pteUser = 0#64 := by decide
  refine ⟨?_, ?_, ?_⟩
  · rw [hugeAddr_or, hugeAddr_or, hugeAddr_or, hp, hflags.1, hflags.2, BitVec.or_zero,
      BitVec.or_zero, BitVec.or_comm]
  · rw [BitVec.and_or_distrib_right, BitVec.and_or_distrib_right, BitVec.and_or_distrib_right, hand]
    simp [pdeReserved, ptePresent, pteUser, hugeAddr]
  · rw [BitVec.and_or_distrib_right, BitVec.and_or_distrib_right, BitVec.and_or_distrib_right, hand]
    simp [ptePse, ptePresent, pteUser, hugeAddr]

/-- Every page of a region has a first address. -/
theorem exists_page (vaddr : Word) {i : Word} (hi : i.toNat < 512) :
    ∃ a, path a = path vaddr ∧ index a 12 = i ∧ a &&& 0xFFF#64 = 0#64 := by
  have hhigh : ∀ j, 9 ≤ j → i.getLsbD j = false := fun j hj =>
    Nat.testBit_lt_two_pow
      (hi.trans_le (show 2 ^ 9 ≤ 2 ^ j from Nat.pow_le_pow_right (by decide) hj))
  have hbit : ∀ k < 64, (maskLow vaddr 21 ||| (i <<< 12)).getLsbD k =
      if k < 12 then false else if k < 21 then i.getLsbD (k - 12) else vaddr.getLsbD k := by
    intro k hk
    simp only [maskLow, BitVec.getLsbD_or, BitVec.getLsbD_shiftLeft, BitVec.getLsbD_ushiftRight]
    by_cases h12 : k < 12
    · simp [h12, show k < 21 by omega]
    by_cases h21 : k < 21
    · simp [h12, h21, hk]
    · simp [h12, h21, hk, hhigh (k - 12) (by omega), show 21 + (k - 21) = k by omega]
  have hupper : ∀ shift, 21 ≤ shift → shift ≤ 39 →
      index (maskLow vaddr 21 ||| (i <<< 12)) shift = index vaddr shift := by
    intro shift hlow hle
    refine index_eq_iff.mpr fun k hk => ?_
    rw [hbit (shift + k) (by omega), if_neg (by omega), if_neg (by omega)]
  refine ⟨maskLow vaddr 21 ||| (i <<< 12), ?_, ?_, ?_⟩
  · rw [path, path, hupper 39 (by decide) le_rfl, hupper 30 (by decide) (by decide),
      hupper 21 le_rfl (by decide)]
  · refine BitVec.eq_of_getLsbD_eq fun k hk => ?_
    rw [index_getLsbD]
    by_cases h9 : k < 9
    · rw [hbit (12 + k) (by omega), if_neg (by omega), if_pos (by omega), decide_eq_true h9,
        Bool.true_and, Nat.add_sub_cancel_left]
    · rw [decide_eq_false h9, Bool.false_and, hhigh k (by omega)]
  · have hlow : ∀ k < 64, (0xFFF#64).getLsbD k = decide (k < 12) := by decide
    refine BitVec.eq_of_getLsbD_eq fun k hk => ?_
    rw [BitVec.getLsbD_and, hbit k hk, hlow k hk, BitVec.getLsbD_zero]
    by_cases h12 : k < 12 <;> simp [h12]

/-- The region through a page table is the frame if and only if the table has the
frame's pages in their order. -/
theorem pageLeaf_region_iff {after : Word → Word} {t p : Word} :
    (∀ a, path a = path vaddr →
      pageLeaf after (entryAt t (index a 12)) a = some (p ||| (a &&& 0x1FFFFF#64))) ↔
      ∀ i : Word, i.toNat < 512 → present after (entryAt t i) = true ∧
        pteAddr (after (entryAt t i)) = p ||| (i <<< 12) := by
  constructor
  · intro hmaps i hi
    obtain ⟨a, hpath, hindex, hoffset⟩ := exists_page vaddr hi
    have hleaf := hmaps a hpath
    rw [huge_offset, hindex, hoffset, BitVec.or_zero, pageLeaf] at hleaf
    split_ifs at hleaf with hpresent
    rw [hoffset, BitVec.or_zero, Option.some.injEq] at hleaf
    exact ⟨hpresent, hleaf⟩
  · intro hall a _
    obtain ⟨hpresent, haddr⟩ := hall (index a 12) (index_lt _ _)
    rw [pageLeaf, if_pos hpresent, haddr, huge_offset a, BitVec.or_assoc]

theorem hugeLeaf_region_iff {pde p : Word} (hp : hugeAddr p = p) :
    (∀ a, path a = path vaddr → hugeLeaf pde a = some (p ||| (a &&& 0x1FFFFF#64))) ↔
      pde &&& pdeReserved = 0#64 ∧ hugeAddr pde = p := by
  constructor
  · intro hmaps
    have hsame := hmaps vaddr rfl
    unfold hugeLeaf at hsame
    split_ifs at hsame with hzero
    have hbits := congrArg hugeAddr (Option.some.inj hsame)
    rw [hugeAddr_or, hugeAddr_or, hugeAddr_offset, hugeAddr_hugeAddr, hp, BitVec.or_zero,
      BitVec.or_zero] at hbits
    exact ⟨hzero, hbits⟩
  · rintro ⟨hzero, hbits⟩ a -
    rw [hugeLeaf, if_pos hzero, hbits]

/-- An entry that was absent and is no page of the frame now does not help. -/
theorem table_update_iff {memory : Word → Word} {t e value p : Word}
    (habsent : present memory e = false)
    (hother : ∀ i : Word, i.toNat < 512 → entryAt t i = e → pteAddr value ≠ p ||| (i <<< 12)) :
    (∀ i : Word, i.toNat < 512 → present (Function.update memory e value) (entryAt t i) = true ∧
      pteAddr (Function.update memory e value (entryAt t i)) = p ||| (i <<< 12)) ↔
      ∀ i : Word, i.toNat < 512 → present memory (entryAt t i) = true ∧
        pteAddr (memory (entryAt t i)) = p ||| (i <<< 12) := by
  refine forall₂_congr fun i hi => ?_
  by_cases he : entryAt t i = e
  · rw [he, Function.update_self, habsent]
    refine iff_of_false (fun h => hother i hi he h.2) (fun h => ?_)
    cases h.1
  · rw [present, Function.update_of_ne he, ← present]

/-- Where `x86_64_huge_page_map` does without an error, it maps the region to the frame
if and only if the attribute word makes a 2 MiB leaf of the entry and does not move it,
or what is then taken for a page table maps the frame already. -/
theorem hugePageMap_maps_iff (hroot : IsFrame dm (rootOf k.slots vspace))
    (hframe : IsHugeFrame dm (capPtr (k.slots cte).cap))
    (hwalk : WalkOf dm k.memory (rootOf k.slots vspace) vaddr pdpt pd pt)
    (hapart : [rootOf k.slots vspace, pdpt, pd].Nodup)
    (houtside : ∀ i : Word, i.toNat < 512 → pd ≠ dm.directMapOf (frameOf dm k cte ||| (i <<< 12)))
    (hok : (hugePageMap dm k cte vspace vaddr attr).1.isOk = true) :
    MapsHugePage dm k cte vspace vaddr (hugePageMap dm k cte vspace vaddr attr).2.memory ↔
      HugePageMapExact dm k cte attr := by
  have hhuge := hframe.frameOf
  have hp : pteAddr (frameOf dm k cte) = frameOf dm k cte := by rw [← hhuge, pteAddr_hugeAddr]
  obtain ⟨habove, habsent, hafter⟩ := mapEntry_ok hok
  have hmemory : (hugePageMap dm k cte vspace vaddr attr).2.memory =
      Function.update k.memory (entryAt pd (index vaddr 21))
        (frameOf dm k cte ||| ptePresent ||| pteUser ||| attr) := by
    rw [hugePageMap, hafter, ← rootOf, getPde_eq hroot, hwalk.first, hwalk.second, frameOf]
  rw [← rootOf, getPml4e_eq hroot, getPdpte_eq hroot, hwalk.first] at habove
  rw [← rootOf, getPde_eq hroot, hwalk.first, hwalk.second] at habsent
  simp only [List.forall_mem_cons, List.not_mem_nil, false_imp_iff, implies_true,
    and_true] at habove
  obtain ⟨haddr, hreserved, hpse⟩ := huge_entry hhuge attr
  have htable : tableOf dm (frameOf dm k cte ||| ptePresent ||| pteUser ||| attr) =
      tableOf dm (frameOf dm k cte ||| attr) := by
    rw [tableOf, tableOf, pteAddr_entry hp, pteAddr_or, hp]
  have htranslate := fun a => translate_write_pde hroot hwalk hapart habove.1 habove.2
    (present_entry (frameOf dm k cte) attr) (a := a)
  rw [htable, hpse] at htranslate
  rw [MapsHugePage, HugePageMapExact, hmemory, forall₂_congr fun a ha => by rw [htranslate a ha]]
  by_cases hattr : attr &&& ptePse = 0#64
  · simp only [hattr, ne_eq, not_true_eq_false, if_false, if_true]
    rw [pageLeaf_region_iff]
    refine table_update_iff habsent fun i hi he hsame => houtside i hi ?_
    -- the page directory itself, which is no page of the frame
    have hpd := (entryAt_inj_of_aligned (directMapOf_pteAddr_aligned hroot.bits_le _)
      (hwalk.aligned hroot).2.2.1 hi (index_lt _ _) he).1
    rw [← hpd, pteAddr_or, hp, ← pteAddr_entry hp, hsame]
  · simp only [hattr, ne_eq, not_false_eq_true, if_true, if_false]
    rw [hugeLeaf_region_iff hhuge, haddr, hreserved]

/-- Where the two methods do without an error, they map the frame of the capability
exactly if the attribute word fits, or other entries happen to do it. -/
theorem page_map_exact_iff (hroot : IsFrame dm (rootOf k.slots vspace))
    (hwalk : WalkOf dm k.memory (rootOf k.slots vspace) vaddr pdpt pd pt)
    (hapart : [rootOf k.slots vspace, pdpt, pd].Nodup) :
    (IsFrame dm (capPtr (k.slots cte).cap) → pt ∉ [rootOf k.slots vspace, pdpt, pd] →
      (pageMap dm k cte vspace vaddr attr).1.isOk = true →
      (MapsPage dm k cte vspace vaddr (pageMap dm k cte vspace vaddr attr).2.memory ↔
        PageMapExact dm k cte vspace vaddr attr)) ∧
    (IsHugeFrame dm (capPtr (k.slots cte).cap) →
      (∀ i : Word, i.toNat < 512 → pd ≠ dm.directMapOf (frameOf dm k cte ||| (i <<< 12))) →
      (hugePageMap dm k cte vspace vaddr attr).1.isOk = true →
      (MapsHugePage dm k cte vspace vaddr (hugePageMap dm k cte vspace vaddr attr).2.memory ↔
        HugePageMapExact dm k cte attr)) := by
  refine ⟨fun hframe hpt hok => ?_, fun hframe houtside hok => ?_⟩
  · refine pageMap_maps_iff hroot hframe hwalk ?_ hok
    simp only [List.nodup_cons, List.mem_cons, List.not_mem_nil, or_false, not_or] at hapart hpt ⊢
    tauto
  · exact hugePageMap_maps_iff hroot hframe hwalk hapart houtside hok

end

/-- The vspace of `tableSlots` with its tables mapped at 0, and in slot 6 a huge page. -/
def exampleTranslations : Kernel := { Kernel.blank with
  slots := fun a =>
    if a = initSlot 6 then { cap := Cap.withPtr { type := .x86HugePage } (lowMap.directMapOf 0x200000#64) }
    else tableSlots a
  memory := fun a =>
    if a = entryAt (exampleFrame 0) 0#64 then 0x11007#64
    else if a = entryAt (exampleFrame 1) 0#64 then 0x12007#64
    else if a = entryAt (exampleFrame 2) 0#64 then 0x13007#64 else 0#64 }

theorem exampleTranslations_root :
    IsFrame lowMap (rootOf exampleTranslations.slots (initSlot 1)) :=
  ⟨0x10000#64, by decide, by decide, by decide +kernel⟩

/-- A page at 4 KiB and a huge page at 2 MiB, where there is no entry yet. -/
theorem page_map_exact_iff_fits :
    MapsPage lowMap exampleTranslations (initSlot 5) (initSlot 1) 0x1000#64
        (pageMap lowMap exampleTranslations (initSlot 5) (initSlot 1) 0x1000#64 7#64).2.memory ∧
      MapsHugePage lowMap exampleTranslations (initSlot 6) (initSlot 1) 0x200000#64
        (hugePageMap lowMap exampleTranslations (initSlot 6) (initSlot 1) 0x200000#64 0x87#64).2.memory := by
  have hwalk : WalkOf lowMap exampleTranslations.memory (rootOf exampleTranslations.slots (initSlot 1))
      0x1000#64 (exampleFrame 1) (exampleFrame 2) (exampleFrame 3) :=
    ⟨by decide +kernel, by decide +kernel, by decide +kernel⟩
  have hwalk' : WalkOf lowMap exampleTranslations.memory (rootOf exampleTranslations.slots (initSlot 1))
      0x200000#64 (exampleFrame 1) (exampleFrame 2) (lowMap.directMapOf 0#64) :=
    ⟨by decide +kernel, by decide +kernel, by decide +kernel⟩
  refine ⟨((page_map_exact_iff exampleTranslations_root hwalk (by decide +kernel)).1
    ⟨0x14000#64, by decide, by decide, by decide +kernel⟩ (by decide +kernel)
    (by decide +kernel)).mpr ?_, ((page_map_exact_iff exampleTranslations_root hwalk'
    (by decide +kernel)).2 ⟨0x200000#64, by decide, by decide, by decide, by decide +kernel⟩ ?_
    (by decide +kernel)).mpr ?_⟩
  · unfold PageMapExact
    decide +kernel
  · intro i _ he
    have hframe : frameOf lowMap exampleTranslations (initSlot 6) = 0x200000#64 := by decide +kernel
    have hbit := congrArg (BitVec.getLsbD · 21) he
    rw [hframe] at hbit
    simp [DirectMap.directMapOf, exampleFrame, lowMap] at hbit
  · unfold HugePageMapExact
    rw [if_neg (by decide)]
    decide +kernel

/-- Without the page-size bit the huge page is read as a page table, which is empty;
and an attribute word with an address bit moves a page. -/
theorem huge_page_map_reads_frame :
    (hugePageMap lowMap exampleTranslations (initSlot 6) (initSlot 1) 0x200000#64 7#64).1.isOk = true ∧
      ¬ MapsHugePage lowMap exampleTranslations (initSlot 6) (initSlot 1) 0x200000#64
        (hugePageMap lowMap exampleTranslations (initSlot 6) (initSlot 1) 0x200000#64 7#64).2.memory ∧
      (pageMap lowMap exampleTranslations (initSlot 5) (initSlot 1) 0x1000#64 0x100007#64).1.isOk = true ∧
      ¬ MapsPage lowMap exampleTranslations (initSlot 5) (initSlot 1) 0x1000#64
        (pageMap lowMap exampleTranslations (initSlot 5) (initSlot 1) 0x1000#64 0x100007#64).2.memory := by
  refine ⟨by decide +kernel, fun h => ?_, by decide +kernel, fun h => ?_⟩
  · exact absurd (h 0x200000#64 rfl) (by decide +kernel)
  · exact absurd (h 0x1000#64 ⟨rfl, rfl⟩) (by decide +kernel)

end Tern
