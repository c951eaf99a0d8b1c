import Tern.AddressSpaces

/-! What `x86_64_pdpt_map` makes of the kernel half of a PML4. The loop that
copies it counts from the entry of the mapped address, not from the table. -/

namespace Tern

open Lib

/-! ## The copy -/

section

variable {α : Type} [DecidableEq α] {β : Type} {dst src : Nat → α}

/-- A copy to different places, none of which is read later, copies every word. -/
theorem copyWords_apply {l : List Nat} (hdst : l.Pairwise fun i j => dst i ≠ dst j)
    (hsrc : l.Pairwise fun i j => dst i ≠ src j) (m : α → β) {i : Nat} (hi : i ∈ l) :
    copyWords dst src l m (dst i) = m (src i) := by
  induction l generalizing m with
  | nil => cases hi
  | cons j l ih =>
    obtain ⟨hj, hdst⟩ := List.pairwise_cons.mp hdst
    obtain ⟨hread, hsrc⟩ := List.pairwise_cons.mp hsrc
    have hstep : copyWords dst src (j :: l) m =
        copyWords dst src l (Function.update m (dst j) (m (src j))) := rfl
    rw [hstep]
    rcases List.mem_cons.mp hi with rfl | hi
    · rw [copyWords_of_ne fun k hk => (hj k hk).symm, Function.update_self]
    · rw [ih hdst hsrc _ hi, Function.update_of_ne (hread i hi).symm]

end

/-- The addresses that `x86_64_pdpt_map` stores to, in their order: those of the
loop, and the entry of the mapped address unless it is refused. -/
def pdptMapStores (dm : DirectMap) (k : Kernel) (cte vspace vaddr : Word) : List Word :=
  let pml4e := getPml4e dm (capPtr (k.slots vspace).cap) (maskLow vaddr 39)
  (List.range 256).map (pml4e + kernelEntry ·) ++
    if (pdptMap dm k cte vspace vaddr).1.isOk then [pml4e] else []

/-- The entry of the address in the PML4 of the vspace. -/
def pml4eAt (k : Kernel) (vspace vaddr : Word) : Word :=
  entryAt (rootOf k.slots vspace) (index vaddr 39)

/-- The memory after the loop. -/
def kernelHalfCopied (dm : DirectMap) (k : Kernel) (vspace vaddr : Word) : Word → Word :=
  copyKernelHalf k.memory (pml4eAt k vspace vaddr) (dm.directMapOf (pteAddr k.vmRoot))

/-- The memory after the entry was written. -/
def pdptMapped (dm : DirectMap) (k : Kernel) (cte vspace vaddr : Word) : Word → Word :=
  Function.update (kernelHalfCopied dm k vspace vaddr) (pml4eAt k vspace vaddr)
    (dm.physicalOf (capPtr (k.slots cte).cap) ||| ptePresent ||| pteWrite ||| pteUser)

section

variable {dm : DirectMap} {k : Kernel} {cte vspace vaddr : Word}

theorem getPml4e_maskLow (hroot : IsFrame dm (rootOf k.slots vspace)) (vaddr : Word) :
    getPml4e dm (rootOf k.slots vspace) (maskLow vaddr 39) = pml4eAt k vspace vaddr := by
  rw [getPml4e_eq hroot, index_maskLow vaddr (le_refl 39)]
  rfl

/-- The entry decides, which the copy leaves alone. -/
theorem pdptMap_eq (hroot : IsFrame dm (rootOf k.slots vspace)) :
    pdptMap dm k cte vspace vaddr =
      if present k.memory (pml4eAt k vspace vaddr) then
        (Reply.deleteFirst, { k with memory := kernelHalfCopied dm k vspace vaddr })
      else (Reply.ok, { k with memory := pdptMapped dm k cte vspace vaddr }) := by
  have hcurrent : getPml4e dm k.vmRoot 0#64 = dm.directMapOf (pteAddr k.vmRoot) := by
    simp [getPml4e, entryIn]
  have hcopied : copyKernelHalf k.memory (pml4eAt k vspace vaddr)
      (dm.directMapOf (pteAddr k.vmRoot)) = kernelHalfCopied dm k vspace vaddr := rfl
  have hkept : present (kernelHalfCopied dm k vspace vaddr) (pml4eAt k vspace vaddr) =
      present k.memory (pml4eAt k vspace vaddr) := by
    rw [present, kernelHalfCopied, copyKernelHalf_self, present]
  have hentry := getPml4e_maskLow hroot vaddr
  rw [rootOf] at hentry
  simp only [pdptMap, hentry, hcurrent, hcopied, mapEntry, List.find?_nil, hkept, alreadyMapped,
    pdptMapped]

theorem pdptMap_isOk (hroot : IsFrame dm (rootOf k.slots vspace)) :
    (pdptMap dm k cte vspace vaddr).1.isOk = !present k.memory (pml4eAt k vspace vaddr) := by
  rw [pdptMap_eq hroot]
  cases present k.memory (pml4eAt k vspace vaddr) <;> rfl

/-- Nothing else is written. -/
theorem pdptMap_memory_of_not_mem (hroot : IsFrame dm (rootOf k.slots vspace)) {a : Word}
    (ha : a ∉ pdptMapStores dm k cte vspace vaddr) :
    (pdptMap dm k cte vspace vaddr).2.memory a = k.memory a := by
  have hentry := getPml4e_maskLow hroot vaddr
  rw [rootOf] at hentry
  rw [pdptMapStores, hentry, pdptMap_isOk hroot, List.mem_append, not_or] at ha
  obtain ⟨hloop, hlast⟩ := ha
  have hcopied : kernelHalfCopied dm k vspace vaddr a = k.memory a := by
    rw [kernelHalfCopied, copyKernelHalf_eq]
    exact copyWords_of_ne (fun i hi he => hloop (List.mem_map.mpr ⟨i, hi, he⟩)) _
  rw [pdptMap_eq hroot]
  cases hpresent : present k.memory (pml4eAt k vspace vaddr) with
  | true =>
    rw [if_pos rfl]
    dsimp only
    exact hcopied
  | false =>
    rw [hpresent, Bool.not_false, if_pos rfl, List.mem_singleton] at hlast
    rw [if_neg Bool.false_ne_true]
    exact (Function.update_of_ne hlast _ _).trans hcopied

/-- The kernel half of the vspace is that of the current root, the entry of the
address leads to the PDPT, the other entries are as before, and only entries of the
table are written. -/
structure InstallsKernelHalf (dm : DirectMap) (k : Kernel) (cte vspace vaddr : Word)
    (memory : Word → Word) : Prop where
  kernel : ∀ j : Word, 256 ≤ j.toNat → j.toNat < 512 → j ≠ index vaddr 39 →
    memory (entryAt (rootOf k.slots vspace) j) =
      k.memory (entryAt (dm.directMapOf (pteAddr k.vmRoot)) j)
  slot : present memory (entryAt (rootOf k.slots vspace) (index vaddr 39)) = true ∧
    child dm memory (rootOf k.slots vspace) (index vaddr 39) = capPtr (k.slots cte).cap
  user : ∀ j : Word, j.toNat < 256 → j ≠ index vaddr 39 →
    memory (entryAt (rootOf k.slots vspace) j) = k.memory (entryAt (rootOf k.slots vspace) j)
  inside : ∀ a ∈ pdptMapStores dm k cte vspace vaddr,
    ∃ j : Word, j.toNat < 512 ∧ a = entryAt (rootOf k.slots vspace) j

/-- The loop at the first entry of a table goes through its upper half. -/
theorem kernelEntry_first (t : Word) {j : Word} (hlow : 256 ≤ j.toNat) :
    entryAt t 0#64 + kernelEntry (j.toNat - 256) = entryAt t j := by
  have hj : BitVec.ofNat 64 (256 + (j.toNat - 256)) = j := by
    rw [Nat.add_sub_cancel' hlow, BitVec.ofNat_toNat, BitVec.setWidth_eq]
  rw [kernelEntry, hj, entryAt, entryAt]
  simp

/-- At the first entry the kernel half is copied as a whole. -/
theorem copyKernelHalf_first {t current : Word} (ht : t.toNat % 4096 = 0)
    (hcurrent : current.toNat % 4096 = 0) (memory : Word → Word) {j : Word} (hlow : 256 ≤ j.toNat)
    (hhigh : j.toNat < 512) :
    copyKernelHalf memory (entryAt t 0#64) current (entryAt t j) = memory (entryAt current j) := by
  have hdst : ∀ i ∈ List.range 256, ∃ d : Word, d.toNat = 256 + i ∧
      entryAt t 0#64 + kernelEntry i = entryAt t d ∧ current + kernelEntry i = entryAt current d := by
    intro i hi
    have hi := List.mem_range.mp hi
    refine ⟨BitVec.ofNat 64 (256 + i), ?_, ?_, rfl⟩
    · rw [BitVec.toNat_ofNat, Nat.mod_eq_of_lt (by omega)]
    · simp [entryAt, kernelEntry]
  have happart : (List.range 256).Pairwise fun i i' =>
      entryAt t 0#64 + kernelEntry i ≠ entryAt t 0#64 + kernelEntry i' ∧
        entryAt t 0#64 + kernelEntry i ≠ current + kernelEntry i' := by
    refine List.Pairwise.imp_of_mem (R := (· < ·)) ?_ List.pairwise_lt_range
    intro i i' hi hi' hlt
    have hi512 := List.mem_range.mp hi
    have hi512' := List.mem_range.mp hi'
    obtain ⟨d, hd, hentry, -⟩ := hdst i hi
    obtain ⟨d', hd', hentry', hsource⟩ := hdst i' hi'
    rw [hentry, hentry', hsource]
    refine ⟨fun he => ?_, fun he => ?_⟩
    · obtain ⟨-, rfl⟩ := entryAt_inj_of_aligned ht ht (by omega) (by omega) he
      omega
    · obtain ⟨-, rfl⟩ := entryAt_inj_of_aligned ht hcurrent (by omega) (by omega) he
      omega
  have hmem : j.toNat - 256 ∈ List.range 256 := List.mem_range.mpr (by omega)
  have hcopy := copyWords_apply (happart.imp And.left) (happart.imp And.right) memory hmem
  have hsource : current + kernelEntry (j.toNat - 256) = entryAt current j := by
    have hfirst := kernelEntry_first current hlow
    rwa [show entryAt current 0#64 = current by simp [entryAt]] at hfirst
  rw [copyKernelHalf_eq, ← kernelEntry_first t hlow, hcopy, hsource]

/-- The loop at the first entry leaves the lower half alone. -/
theorem copyKernelHalf_lower {t : Word} (ht : t.toNat % 4096 = 0) (memory : Word → Word)
    (current : Word) {j : Word} (hj : j.toNat < 256) :
    copyKernelHalf memory (entryAt t 0#64) current (entryAt t j) = memory (entryAt t j) := by
  rw [copyKernelHalf_eq]
  refine copyWords_of_ne (fun i hi he => ?_) memory
  have hi := List.mem_range.mp hi
  have hentry : entryAt t 0#64 + kernelEntry i = entryAt t (BitVec.ofNat 64 (256 + i)) := by
    simp [entryAt, kernelEntry]
  have hnat : (BitVec.ofNat 64 (256 + i)).toNat = 256 + i := by
    rw [BitVec.toNat_ofNat, Nat.mod_eq_of_lt (by omega)]
  rw [hentry] at he
  obtain ⟨-, rfl⟩ := entryAt_inj_of_aligned ht ht (by omega) (by omega) he
  omega

/-- For the first entry all goes as it should. -/
theorem InstallsKernelHalf.of_first (hroot : IsFrame dm (rootOf k.slots vspace))
    (hpdpt : IsFrame dm (capPtr (k.slots cte).cap))
    (habsent : present k.memory (pml4eAt k vspace vaddr) = false)
    (hfirst : index vaddr 39 = 0#64) :
    InstallsKernelHalf dm k cte vspace vaddr (pdptMapped dm k cte vspace vaddr) := by
  have haligned := hroot.toNat.1
  have hcurrent := directMapOf_pteAddr_aligned hroot.bits_le k.vmRoot
  have hentry : pml4eAt k vspace vaddr = entryAt (rootOf k.slots vspace) 0#64 := by
    rw [pml4eAt, hfirst]
  have hother : ∀ j : Word, j.toNat < 512 → j ≠ index vaddr 39 →
      entryAt (rootOf k.slots vspace) j ≠ pml4eAt k vspace vaddr := by
    intro j hj hne he
    exact hne (hroot.entryAt_inj hroot hj (index_lt _ _) he).2
  refine ⟨fun j hlow hhigh hne => ?_, ?_, fun j hj hne => ?_, fun a ha => ?_⟩
  · rw [pdptMapped, Function.update_of_ne (hother j hhigh hne), kernelHalfCopied, hentry]
    exact copyKernelHalf_first haligned hcurrent _ hlow hhigh
  · rw [child, present, ← pml4eAt, pdptMapped, Function.update_self]
    refine ⟨?_, hpdpt.of_entry⟩
    rw [bne_iff_ne]
    intro hzero
    have hbit := congrArg (BitVec.getLsbD · 0) hzero
    simp [ptePresent, pteWrite, pteUser] at hbit
  · rw [pdptMapped, Function.update_of_ne (hother j (by omega) hne), kernelHalfCopied, hentry]
    exact copyKernelHalf_lower haligned _ _ hj
  · have hpml4e := getPml4e_maskLow hroot vaddr
    rw [rootOf] at hpml4e
    rw [pdptMapStores, hpml4e, pdptMap_isOk hroot, habsent, Bool.not_false, if_pos rfl,
      List.mem_append] at ha
    rcases ha with ha | ha
    · obtain ⟨i, hi, rfl⟩ := List.mem_map.mp ha
      have hi := List.mem_range.mp hi
      refine ⟨BitVec.ofNat 64 (256 + i), ?_, ?_⟩
      · rw [BitVec.toNat_ofNat, Nat.mod_eq_of_lt (by omega)]
        omega
      · simp [hentry, entryAt, kernelEntry]
    · exact ⟨0#64, by decide, (List.mem_singleton.mp ha).trans hentry⟩

/-- At any other entry the loop runs past the end of the table. -/
theorem store_outside (t : Word) {i j : Word} (hi : i.toNat < 512) (hne : i ≠ 0#64)
    (hj : j.toNat < 512) : entryAt t i + kernelEntry 255 ≠ entryAt t j := by
  intro he
  have hpos : i.toNat ≠ 0 := fun h0 => hne (BitVec.eq_of_toNat_eq h0)
  rw [entryAt, entryAt, BitVec.add_assoc] at he
  have hnat := congrArg BitVec.toNat (add_left_cancel he)
  simp only [kernelEntry, BitVec.toNat_add, BitVec.toNat_mul, BitVec.toNat_ofNat] at hnat
  omega

/-- `x86_64_pdpt_map` writes at the addresses `pdptMapStores` only. Where it replies
without an error, it installs the kernel half if and only if it is called for the
first entry. -/
theorem pdpt_map_kernel_half_iff (hroot : IsFrame dm (rootOf k.slots vspace))
    (hpdpt : IsFrame dm (capPtr (k.slots cte).cap)) :
    (∀ a, a ∉ pdptMapStores dm k cte vspace vaddr →
      (pdptMap dm k cte vspace vaddr).2.memory a = k.memory a) ∧
    (((pdptMap dm k cte vspace vaddr).1.isOk = true →
      InstallsKernelHalf dm k cte vspace vaddr (pdptMap dm k cte vspace vaddr).2.memory) ↔
      present k.memory (entryAt (rootOf k.slots vspace) (index vaddr 39)) = true ∨
        index vaddr 39 = 0#64) := by
  refine ⟨fun a ha => pdptMap_memory_of_not_mem hroot ha, ?_⟩
  have hentry := getPml4e_maskLow hroot vaddr
  rw [pdptMap_isOk hroot, pdptMap_eq hroot]
  show (_ → _) ↔ present k.memory (pml4eAt k vspace vaddr) = true ∨ _
  cases hpresent : present k.memory (pml4eAt k vspace vaddr) with
  | true => exact iff_of_true nofun (.inl rfl)
  | false =>
    rw [if_neg Bool.false_ne_true]
    constructor
    · intro hinstalls
      refine .inr (by_contra fun hne => ?_)
      obtain ⟨j, hj, he⟩ := (hinstalls rfl).inside (pml4eAt k vspace vaddr + kernelEntry 255)
        (List.mem_append_left _ (List.mem_map.mpr
          ⟨255, List.mem_range.mpr (by decide), by rw [← hentry]; rfl⟩))
      exact store_outside _ (index_lt _ _) hne hj he
    · rintro (h | hfirst) -
      · cases h
      · exact .of_first hroot hpdpt hpresent hfirst

end

/-- In `exampleKernelHalf` the current root has one kernel mapping, in its last entry. -/
def exampleKernelHalf : Kernel := { tableKernel with
  vmRoot := 0x20000#64
  memory := Function.update (fun _ => 0#64) (entryAt (lowMap.directMapOf 0x20000#64) 511#64)
    0x30003#64 }

theorem exampleKernelHalf_frames :
    IsFrame lowMap (rootOf exampleKernelHalf.slots (initSlot 1)) ∧
      IsFrame lowMap (capPtr (exampleKernelHalf.slots (initSlot 2)).cap) :=
  ⟨tableSlots_apart.frame 3 _ ⟨initSlot 1, rfl, rfl⟩,
    tableSlots_apart.frame 2 _ ⟨initSlot 2, rfl, rfl⟩⟩

/-- Mapped at address 0, the PDPT comes with the kernel's last entry. -/
theorem pdpt_map_kernel_half_iff_first :
    InstallsKernelHalf lowMap exampleKernelHalf (initSlot 2) (initSlot 1) 0#64
      (pdptMap lowMap exampleKernelHalf (initSlot 2) (initSlot 1) 0#64).2.memory := by
  obtain ⟨hroot, hpdpt⟩ := exampleKernelHalf_frames
  have hiff : _ ∧ (((pdptMap lowMap exampleKernelHalf (initSlot 2) (initSlot 1) 0#64).1.isOk =
      true → _) ↔ _) := pdpt_map_kernel_half_iff hroot hpdpt
  exact hiff.2.mpr (.inr (by decide)) (by decide +kernel)

/-- Mapped at 512 GiB, the last kernel entry is missing in the vspace, and it is
written to the first word behind the PML4, which here is in the PDPT. -/
theorem pdpt_map_second_slot :
    (pdptMap lowMap exampleKernelHalf (initSlot 2) (initSlot 1) 0x8000000000#64).1.isOk = true ∧
      (pdptMap lowMap exampleKernelHalf (initSlot 2) (initSlot 1) 0x8000000000#64).2.memory
        (entryAt (exampleFrame 0) 511#64) = 0#64 ∧
      (pdptMap lowMap exampleKernelHalf (initSlot 2) (initSlot 1) 0x8000000000#64).2.memory
        (entryAt (exampleFrame 1) 0#64) = 0x30003#64 ∧
      ¬InstallsKernelHalf lowMap exampleKernelHalf (initSlot 2) (initSlot 1) 0x8000000000#64
        (pdptMap lowMap exampleKernelHalf (initSlot 2) (initSlot 1) 0x8000000000#64).2.memory := by
  have hlast : (pdptMap lowMap exampleKernelHalf (initSlot 2) (initSlot 1)
      0x8000000000#64).2.memory (entryAt (exampleFrame 0) 511#64) = 0#64 := by decide +kernel
  refine ⟨by decide +kernel, hlast, by decide +kernel, fun h => ?_⟩
  have hkernel := h.kernel 511#64 (by decide) (by decide) (by decide)
  have hcurrent : exampleKernelHalf.memory
      (entryAt (lowMap.directMapOf (pteAddr exampleKernelHalf.vmRoot)) 511#64) = 0x30003#64 := by
    decide +kernel
  rw [hcurrent, show rootOf exampleKernelHalf.slots (initSlot 1) = exampleFrame 0 by decide +kernel,
    hlast] at hkernel
  exact absurd hkernel (by decide)

end Tern
