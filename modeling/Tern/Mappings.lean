import Tern.PageTrees

/-! `add_vm_mapping` against `resolve_vm_mapping`. Each of the upper three levels
either has the table or gets a cleared page for it, which changes no translation;
then one entry of a page table is written. -/

namespace Tern

open Lib Lib.Trees

/-- Memory and the table of regions that pages are allocated from. -/
structure VmState where
  memory : Word → Word
  pages : PageMap

section

variable (dm : DirectMap)

def allocTable (s : VmState) : Result (Word × VmState) := do
  let (page, pages) ← allocPage s.pages
  return (page, { memory := zeroPage s.memory (dm.directMapOf page), pages })

/-- What `add_vm_mapping` does in each upper level: the table that the entry leads to,
allocated if there is none. -/
def ensureTable (s : VmState) (entry tableFlags : Word) : Result (Word × VmState) :=
  if !present s.memory entry then do
    let (page, s) ← allocTable dm s
    let memory := Function.update s.memory entry (page ||| tableFlags)
    return (tableOf dm page, { s with memory })
  else return (tableOf dm (s.memory entry), s)

def addVmMapping (s : VmState) (root addr phys flags : Word) : Result VmState := do
  let pml4 := tableOf dm root
  let tableFlags := ptePresent ||| pteWrite ||| (flags &&& pteUser)
  let (pdp, s) ← ensureTable dm s (entryAt pml4 (index addr 39)) tableFlags
  let (pd, s) ← ensureTable dm s (entryAt pdp (index addr 30)) tableFlags
  let (pt, s) ← ensureTable dm s (entryAt pd (index addr 21)) tableFlags
  return { s with memory := Function.update s.memory (entryAt pt (index addr 12)) (phys ||| flags) }

/-- `alloc_page` returns `n` pages in a row that are not in use as tables, each in use
from then on. -/
def Supplies : Nat → (Word → Prop) → PageMap → Prop
  | 0, _, _ => True
  | n + 1, used, pages => ∃ page pages', allocPage pages = .ok (page, pages') ∧
      page.toNat % 4096 = 0 ∧ page.toNat < 2 ^ 52 ∧ ¬ used (dm.directMapOf page) ∧
      Supplies n (fun t => t = dm.directMapOf page ∨ used t) pages'

/-- The tables of an address space. -/
def IsTableOf (memory : Word → Word) (root : Word) : Word → Prop :=
  Reaches (tableAt dm memory root 512) root 3

/-- The tables that are missing for the address. -/
def missingTables (memory : Word → Word) (root addr : Word) : Nat :=
  missing (tableAt dm memory root 512) root (path addr)

end

section

variable {dm : DirectMap} {s s' : VmState} {root t i u tableFlags : Word} {p rest : List Word}
  {used used' : Word → Prop} {pages : PageMap}

theorem Supplies.anti {n : Nat} (h : Supplies dm n used pages) (himp : ∀ t, used' t → used t) :
    Supplies dm n used' pages := by
  induction n generalizing used used' pages with
  | zero => trivial
  | succ n ih =>
    obtain ⟨page, pages', halloc, haligned, hbelow, hfresh, hrest⟩ := h
    refine ⟨page, pages', halloc, haligned, hbelow, fun hu => hfresh (himp _ hu), ih hrest ?_⟩
    rintro t (rfl | ht)
    · exact .inl rfl
    · exact .inr (himp t ht)

/-- The flags of a table entry are no address bits, and say that it is there. -/
structure TableFlags (tableFlags : Word) : Prop where
  addr : pteAddr tableFlags = 0#64
  present : tableFlags &&& ptePresent ≠ 0#64
  small : tableFlags &&& ptePse = 0#64

theorem tableFlags_user (flags : Word) :
    TableFlags (ptePresent ||| pteWrite ||| (flags &&& pteUser)) where
  addr := by
    rw [pteAddr_or, pteAddr, pteAddr, BitVec.and_assoc]
    simp [ptePresent, pteWrite, pteUser]
  present := by
    intro h
    have hbit := congrArg (BitVec.getLsbD · 0) h
    simp [ptePresent, pteWrite, pteUser] at hbit
  small := by
    rw [BitVec.and_or_distrib_right, BitVec.and_assoc]
    simp [ptePresent, pteWrite, pteUser, ptePse]

/-- An entry made of a page and flags leads to the page. -/
theorem TableFlags.entry (h : TableFlags tableFlags) {page : Word} (hpage : pteAddr page = page) :
    pteAddr (page ||| tableFlags) = page ∧ (page ||| tableFlags) &&& ptePresent ≠ 0#64 ∧
      (page ||| tableFlags) &&& ptePse = 0#64 := by
  refine ⟨by simp [pteAddr_or, hpage, h.addr], fun hzero => h.present ?_, ?_⟩
  · rw [BitVec.and_or_distrib_right, BitVec.or_eq_zero_iff] at hzero
    exact hzero.2
  · rw [BitVec.and_or_distrib_right, h.small, ← hpage, pteAddr, BitVec.and_assoc]
    simp [ptePse]

/-! ## One level -/

/-- The table `t` at the end of `p` is in place, and there are pages for the tables
that are missing on the rest of the way. -/
structure Ready (dm : DirectMap) (s : VmState) (root : Word) (p : List Word) (t : Word)
    (rest : List Word) : Prop where
  tree : PageTree dm s.memory root 512
  path : descend (tableAt dm s.memory root 512) root p = some t
  pages : Supplies dm (missing (tableAt dm s.memory root 512) t rest) (IsTableOf dm s.memory root)
    s.pages

/-- From `s` to `s'` a page `u` that was not in use was allocated, cleared and put as a
table under entry `i` of `t`, which is at the end of `p`. There are pages for `n` more. -/
structure Allocated (dm : DirectMap) (s s' : VmState) (root : Word) (limit : Nat)
    (used : Word → Prop) (n : Nat) (p : List Word) (t i u : Word) : Prop where
  fresh : ¬ used u
  aligned : u.toNat % 4096 = 0
  cleared : ∀ t j, Reaches (tableAt dm s.memory root limit) root 3 t → HasEntry root limit t j →
    zeroPage s.memory u (entryAt t j) = s.memory (entryAt t j)
  installs : Installs dm (zeroPage s.memory u) s'.memory root limit p t i u
  kept : ∀ a, inMemory u pageSize a = false → a ≠ entryAt t i → s'.memory a = s.memory a
  pages : Supplies dm n (fun t => t = u ∨ used t) s'.pages

theorem Allocated.grows {limit n : Nat} (h : Allocated dm s s' root limit used n p t i u)
    (htree : PageTree dm s.memory root limit) : Grows dm s.memory s'.memory root limit p i u :=
  .of_installs htree h.cleared h.installs

/-- A table that is there is taken. -/
theorem ensureTable_present (hpresent : present s.memory (entryAt t i) = true) :
    ensureTable dm s (entryAt t i) tableFlags = .ok (child dm s.memory t i, s) := by
  rw [ensureTable, hpresent]
  rfl

/-- One that is missing is allocated. -/
theorem ensureTable_absent {limit n : Nat} (htree : PageTree dm s.memory root limit)
    (hpath : descend (tableAt dm s.memory root limit) root p = some t) (hlen : p.length < 3)
    (hentry : HasEntry root limit t i) (hflags : TableFlags tableFlags)
    (habsent : present s.memory (entryAt t i) = false)
    (hused : ∀ t, Reaches (tableAt dm s.memory root limit) root 3 t → used t)
    (hpages : Supplies dm (n + 1) used s.pages) :
    ∃ u s', ensureTable dm s (entryAt t i) tableFlags = .ok (u, s') ∧
      Allocated dm s s' root limit used n p t i u := by
  obtain ⟨page, pages', halloc, haligned, hbelow, hfresh, hrest⟩ := hpages
  have haddr := pteAddr_of_page haligned hbelow
  obtain ⟨hleads, hthere, hsmall⟩ := hflags.entry haddr
  have hu : (dm.directMapOf page).toNat % 4096 = 0 := by
    rw [← haddr]
    exact directMapOf_pteAddr_aligned htree.frame.bits_le page
  have hpage : tableOf dm page = dm.directMapOf page := by rw [tableOf, haddr]
  have hunreached : ¬ Reaches (tableAt dm s.memory root limit) root 3 (dm.directMapOf page) :=
    fun h => hfresh (hused _ h)
  have hcleared : ∀ t j, Reaches (tableAt dm s.memory root limit) root 3 t → HasEntry root limit t j →
      zeroPage s.memory (dm.directMapOf page) (entryAt t j) = s.memory (entryAt t j) :=
    fun t j ht hj => htree.zeroPage_kept hu hunreached ht hj.1
  refine ⟨dm.directMapOf page, ⟨Function.update (zeroPage s.memory (dm.directMapOf page))
    (entryAt t i) (page ||| tableFlags), pages'⟩, ?_, hfresh, hu, hcleared, ?_,
    fun a hout hne => ?_, hrest⟩
  · rw [ensureTable, habsent, Bool.not_false, if_pos rfl, allocTable, halloc]
    show Except.ok (tableOf dm page, _) = _
    rw [hpage]
  · exact .of_cleared htree hcleared hpath hlen hentry habsent hunreached hu
      (fun j hj => zeroPage_entryAt _ hu hj) hthere (by rw [tableOf, hleads]) hsmall
  · show Function.update _ _ _ a = _
    rw [Function.update_of_ne hne, zeroPage, hout, if_neg Bool.false_ne_true]

/-- After one level the next table is in place, and every address is translated as
before. -/
theorem ensureTable_spec (h : Ready dm s root p t (i :: rest)) (hlen : p.length < 3)
    (hi : i.toNat < 512) (hflags : TableFlags tableFlags) :
    ∃ u s', ensureTable dm s (entryAt t i) tableFlags = .ok (u, s') ∧
      Ready dm s' root (p ++ [i]) u rest ∧
      ∀ a, translation dm s'.memory root 512 a = translation dm s.memory root 512 a := by
  have hentry : HasEntry root 512 t i := ⟨hi, fun _ => hi⟩
  have hpages := h.pages
  rw [missing] at hpages
  cases hpresent : present s.memory (entryAt t i) with
  | true =>
    have hnext := tableAt_eq_some dm hentry hpresent
    rw [hnext] at hpages
    refine ⟨child dm s.memory t i, s, ensureTable_present hpresent, ⟨h.tree, ?_, hpages⟩,
      fun _ => rfl⟩
    rw [descend_snoc_of h.path, hnext]
  | false =>
    rw [tableAt_eq_none hpresent] at hpages
    obtain ⟨u, s', hrun, hallocated⟩ :=
      ensureTable_absent h.tree h.path hlen hentry hflags hpresent (fun _ ht => ht) hpages
    have hgrows := hallocated.grows h.tree
    refine ⟨u, s', hrun, ⟨hgrows.tree, hgrows.path, ?_⟩, hgrows.translation⟩
    rw [missing_of_leaf hgrows.leaf]
    exact hallocated.pages.anti fun t' ht' => hgrows.reaches t' ht'

/-! ## The mapping -/

theorem resolveVmMapping_tableOf {memory : Word → Word} (h : IsFrame dm (tableOf dm root))
    (virt : Word) :
    resolveVmMapping dm memory root virt = resolveVmMapping dm memory (tableOf dm root) virt := by
  have hentry : getPml4e dm root virt = getPml4e dm (tableOf dm root) virt := by
    rw [getPml4e_eq h]
    rfl
  rw [resolveVmMapping, resolveVmMapping, hentry]

/-- In a tree without large pages, if `alloc_page` returns pages that are not in use as
tables, `add_vm_mapping` maps the page of the address and no other, and leaves a tree. -/
theorem add_vm_mapping_resolves {addr phys flags : Word}
    (htree : PageTree dm s.memory (tableOf dm root) 512) (haligned : phys.toNat % 4096 = 0)
    (hbelow : phys.toNat < 2 ^ 52) (hpresent : flags &&& ptePresent ≠ 0#64)
    (hflags : pteAddr flags = 0#64)
    (hpages : Supplies dm (missingTables dm s.memory (tableOf dm root) addr)
      (IsTableOf dm s.memory (tableOf dm root)) s.pages) :
    ∃ s', addVmMapping dm s root addr phys flags = .ok s' ∧
      PageTree dm s'.memory (tableOf dm root) 512 ∧
      ∀ a, resolveVmMapping dm s'.memory root a =
        if pageNumber a = pageNumber addr then phys ||| (a &&& 0xFFF#64)
        else resolveVmMapping dm s.memory root a := by
  have hready : Ready dm s (tableOf dm root) [] (tableOf dm root) (path addr) := ⟨htree, rfl, hpages⟩
  have htable := tableFlags_user flags
  obtain ⟨pdp, s₁, hrun₁, hready₁, hsame₁⟩ :=
    ensureTable_spec hready (by decide) (index_lt addr 39) htable
  obtain ⟨pd, s₂, hrun₂, hready₂, hsame₂⟩ :=
    ensureTable_spec hready₁ (by simp) (index_lt addr 30) htable
  obtain ⟨pt, s₃, hrun₃, hready₃, hsame₃⟩ :=
    ensureTable_spec hready₂ (by simp) (index_lt addr 21) htable
  have hpt : descend (tableAt dm s₃.memory (tableOf dm root) 512) (tableOf dm root) (path addr) =
      some pt := hready₃.path
  have htree' := hready₃.tree.write hpt (phys ||| flags)
  have haddr : pteAddr (phys ||| flags) = phys := by
    rw [pteAddr_or, pteAddr_of_page haligned hbelow, hflags, BitVec.or_zero]
  have hthere : (phys ||| flags) &&& ptePresent ≠ 0#64 := by
    rw [BitVec.and_or_distrib_right]
    exact fun hzero => hpresent (BitVec.or_eq_zero_iff.mp hzero).2
  refine ⟨⟨Function.update s₃.memory (entryAt pt (index addr 12)) (phys ||| flags), s₃.pages⟩, ?_,
    htree', fun a => ?_⟩
  · simp only [addVmMapping, bind_eq_ok, pure_eq_ok]
    exact ⟨(pdp, s₁), hrun₁, (pd, s₂), hrun₂, (pt, s₃), hrun₃, rfl⟩
  · have hlimit : (index a 39).toNat < 512 := index_lt a 39
    rw [resolveVmMapping_tableOf htree.frame, resolveVmMapping_tableOf htree.frame,
      htree.resolve_eq hlimit, htree'.resolve_eq hlimit, hready₃.tree.write_translation hpt,
      if_neg hthere, haddr, hsame₃, hsame₂, hsame₁]
    split_ifs <;> rfl

end

/-! ## The first mapping -/

/-- A PML4 without entries at 4 KiB, and one region of 16 pages at 64 KiB. -/
def exampleVm : VmState where
  memory _ := 0#64
  pages := ⟨Vector.ofFn fun i => if i.val = 0 then { addr := 0x10000#64, sizeBits := 4#8 } else {}, 1⟩

theorem exampleVm_absent (entry : Word) : present exampleVm.memory entry = false := by
  simp [present, exampleVm]

theorem exampleVm_supplies : Supplies lowMap
    (missingTables lowMap exampleVm.memory (tableOf lowMap 0x1000#64) 0x400000#64)
    (IsTableOf lowMap exampleVm.memory (tableOf lowMap 0x1000#64)) exampleVm.pages := by
  rw [missingTables, missing_of_leaf fun i => tableAt_eq_none (exampleVm_absent _)]
  refine ⟨0x10000#64, _, rfl, by decide, by decide, fun h => ?_, 0x11000#64, _, rfl, by decide,
    by decide, ?_, 0x12000#64, _, rfl, by decide, by decide, ?_, trivial⟩
  · exact absurd (reaches_of_absent exampleVm_absent h) (by decide)
  · rintro (h | h)
    · exact absurd h (by decide)
    · exact absurd (reaches_of_absent exampleVm_absent h) (by decide)
  · rintro (h | h | h)
    · exact absurd h (by decide)
    · exact absurd h (by decide)
    · exact absurd (reaches_of_absent exampleVm_absent h) (by decide)

/-- All three tables are missing when the page at 4 MiB is mapped. -/
theorem add_vm_mapping_resolves_first :
    ∃ s', addVmMapping lowMap exampleVm 0x1000#64 0x400000#64 0x20000#64 7#64 = .ok s' ∧
      resolveVmMapping lowMap s'.memory 0x1000#64 0x400456#64 = 0x20456#64 ∧
      resolveVmMapping lowMap s'.memory 0x1000#64 0x401456#64 = 0#64 := by
  have hframe : IsFrame lowMap (tableOf lowMap 0x1000#64) :=
    ⟨0x1000#64, by decide, by decide, by decide⟩
  obtain ⟨s', hrun, -, hresolve⟩ := add_vm_mapping_resolves (.of_absent exampleVm_absent hframe)
    (show (0x20000#64).toNat % 4096 = 0 by decide) (by decide)
    (show 7#64 &&& ptePresent ≠ 0#64 by decide) (by decide) exampleVm_supplies
  refine ⟨s', hrun, ?_, ?_⟩
  · rw [hresolve]
    decide
  · rw [hresolve]
    decide

end Tern
