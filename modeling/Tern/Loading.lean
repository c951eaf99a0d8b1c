import Tern.Elf

/-! Pages are mapped into an address space one after the other, and bytes are stored in
them. What is in use but is no table is not disturbed by a mapping; and every page that
was mapped has a frame of its own, so a store changes one byte of user memory. -/

namespace Tern

open Lib Lib.Trees

/-! ## Pages and their bytes -/

/-- The byte of the frame `f` that the address `a` stands for. -/
def byteIn (f a : Word) : Word := f + (a &&& 0xFFF#64)

section

variable {dm : DirectMap} {a b f t i u : Word}

theorem pageOf_toNat (a : Word) : (pageOf a).toNat = a.toNat / 4096 * 4096 := by
  rw [pageOf, alignDown]
  exact mask_toNat (k := 12) rfl

theorem offset_toNat (a : Word) : (a &&& 0xFFF#64).toNat = a.toNat % 4096 := by
  rw [BitVec.toNat_and]
  exact Nat.and_two_pow_sub_one_eq_mod _ 12

theorem pageOf_eq_iff (hf : f.toNat % 4096 = 0) : pageOf a = f ↔ a.toNat / 4096 = f.toNat / 4096 := by
  rw [← BitVec.toNat_inj, pageOf_toNat]
  omega

theorem byteIn_toNat (hf : f.toNat % 4096 = 0) (a : Word) :
    (byteIn f a).toNat = f.toNat + a.toNat % 4096 := by
  have hbound := f.isLt
  rw [byteIn, BitVec.toNat_add, offset_toNat]
  omega

theorem pageOf_byteIn (hf : f.toNat % 4096 = 0) (a : Word) : pageOf (byteIn f a) = f := by
  rw [pageOf_eq_iff hf, byteIn_toNat hf]
  omega

theorem pageOf_wordOf (a : Word) : pageOf (wordOf a) = pageOf a := by
  rw [← BitVec.toNat_inj, pageOf_toNat, pageOf_toNat, wordOf_toNat]
  omega

theorem pageOf_entryAt (ht : t.toNat % 4096 = 0) (hi : i.toNat < 512) : pageOf (entryAt t i) = t := by
  have hbound := t.isLt
  rw [pageOf_eq_iff ht, entryAt, BitVec.toNat_add, BitVec.toNat_mul]
  simp only [BitVec.toNat_ofNat]
  omega

theorem inMemory_page (hu : u.toNat % 4096 = 0) : inMemory u pageSize a = decide (pageOf a = u) := by
  have hbound := u.isLt
  have hbound' := a.isLt
  rw [inMemory, decide_eq_decide, pageOf_eq_iff hu, BitVec.lt_def, BitVec.toNat_sub]
  simp only [pageSize, BitVec.toNat_ofNat]
  omega

/-- The physical address of a byte of a page, in the direct map. -/
theorem directMapOf_offset (hu : (dm.directMapOf f).toNat % 4096 = 0) (a : Word) :
    dm.directMapOf (f ||| (a &&& 0xFFF#64)) = byteIn (dm.directMapOf f) a := by
  have hor : dm.directMapOf (f ||| (a &&& 0xFFF#64)) = dm.directMapOf f ||| (a &&& 0xFFF#64) := by
    rw [DirectMap.directMapOf, DirectMap.directMapOf, BitVec.or_assoc, BitVec.or_comm (a &&& _),
      ← BitVec.or_assoc]
  rw [hor, byteIn, BitVec.add_eq_or_of_and_eq_zero]
  refine BitVec.eq_of_getLsbD_eq fun j hj => ?_
  have hmask : ∀ j < 64, (0xFFF#64).getLsbD j = decide (j < 12) := by decide
  rw [BitVec.getLsbD_and, BitVec.getLsbD_and, hmask j hj, BitVec.getLsbD_zero]
  by_cases hlow : j < 12
  · have hbit : (dm.directMapOf f).getLsbD j = false := by
      rw [BitVec.getLsbD, show (dm.directMapOf f).toNat =
        2 ^ 12 * ((dm.directMapOf f).toNat / 2 ^ 12) by omega, Nat.testBit_two_pow_mul,
        decide_eq_false (by omega), Bool.false_and]
    rw [hbit, Bool.false_and]
  · rw [decide_eq_false hlow, Bool.and_false, Bool.and_false]

/-! ## User addresses -/

/-- Below `2 ^ 48` the page number is the quotient. -/
theorem pageNumber_eq_iff (ha : a.toNat < 2 ^ 48) (hb : b.toNat < 2 ^ 48) :
    pageNumber a = pageNumber b ↔ a.toNat / 4096 = b.toNat / 4096 := by
  rw [← BitVec.toNat_inj, pageNumber, pageNumber, BitVec.toNat_setWidth, BitVec.toNat_setWidth,
    BitVec.toNat_ushiftRight, BitVec.toNat_ushiftRight, Nat.shiftRight_eq_div_pow,
    Nat.shiftRight_eq_div_pow]
  omega

theorem inUserHalf_of_lt (ha : a.toNat < 2 ^ 47) : InUserHalf a := by
  have hle : (index a 39).toNat ≤ (a >>> 39).toNat := by
    rw [index, BitVec.toNat_and]
    exact Nat.and_le_left
  rw [BitVec.toNat_ushiftRight, Nat.shiftRight_eq_div_pow] at hle
  show (index a 39).toNat < 256
  omega

/-- The root counts by its address bits only. -/
theorem translate_tableOf {memory : Word → Word} {root : Word} (h : IsFrame dm (tableOf dm root))
    (virt : Word) : translate dm memory root virt = translate dm memory (tableOf dm root) virt := by
  have hentry : getPml4e dm root virt = getPml4e dm (tableOf dm root) virt := by
    rw [getPml4e_eq h]
    rfl
  unfold translate getPte getPde getPdpte
  rw [hentry]

end

/-! ## The tables -/

/-- The tables of user addresses. -/
def IsUserTable (dm : DirectMap) (memory : Word → Word) (root f : Word) : Prop :=
  Reaches (tableAt dm memory root 256) root 3 f

/-- In use, but not as a table. -/
def Pinned (dm : DirectMap) (root : Word) (used : Word → Prop) (memory : Word → Word) (f : Word) :
    Prop :=
  used f ∧ ¬ IsUserTable dm memory root f

/-- The paths of the list that lead to no table. -/
def missingPaths (dm : DirectMap) (memory : Word → Word) (root : Word)
    (paths : Finset (List Word)) : Finset (List Word) :=
  paths.filter fun q => descend (tableAt dm memory root 256) root q = none

/-- A tree of tables that are in use. There are pages for the tables that are missing on
the paths, and for `n` more. -/
structure Space (dm : DirectMap) (root : Word) (paths : Finset (List Word)) (used : Word → Prop)
    (n : Nat) (s : VmState) : Prop where
  tree : PageTree dm s.memory root 256
  tables : ∀ f, IsUserTable dm s.memory root f → used f
  short : ∀ q ∈ paths, q.length ≤ 3
  pages : Supplies dm (n + (missingPaths dm s.memory root paths).card) used s.pages

/-- From `s` to `s'` more pages came into use, and nothing but tables and these changed. -/
structure Later (dm : DirectMap) (root : Word) (used used' : Word → Prop) (s s' : VmState) :
    Prop where
  more : ∀ f, used f → used' f
  pinned : ∀ f, Pinned dm root used s.memory f → Pinned dm root used' s'.memory f
  kept : ∀ a, Pinned dm root used s.memory (pageOf a) → s'.memory a = s.memory a
  free : ∀ a, ¬ used' (pageOf a) → s'.memory a = s.memory a

section

variable {dm : DirectMap} {root t i u virt : Word} {p : List Word} {paths : Finset (List Word)}
  {used used' used'' : Word → Prop} {n m : Nat} {s s' s'' : VmState} {pages : PageMap}

theorem Supplies.le (h : Supplies dm n used pages) (hle : m ≤ n) : Supplies dm m used pages := by
  induction m generalizing n used pages with
  | zero => trivial
  | succ m ih =>
    obtain ⟨n, rfl⟩ := Nat.exists_eq_add_of_le' (Nat.zero_lt_of_lt hle)
    obtain ⟨page, pages', halloc, haligned, hbelow, hfresh, hrest⟩ := h
    exact ⟨page, pages', halloc, haligned, hbelow, hfresh, ih hrest (Nat.le_of_succ_le_succ hle)⟩

theorem Later.trans (h : Later dm root used used' s s') (h' : Later dm root used' used'' s' s'') :
    Later dm root used used'' s s'' where
  more f hf := h'.more f (h.more f hf)
  pinned f hf := h'.pinned f (h.pinned f hf)
  kept a ha := (h'.kept a (h.pinned _ ha)).trans (h.kept a ha)
  free a ha := (h'.free a ha).trans (h.free a fun hused => ha (h'.more _ hused))

/-! ### A table more -/

/-- A new table takes one path off those that lead nowhere. -/
theorem missingPaths_allocated (h : Space dm root paths used m s)
    (hallocated : Allocated dm s s' root 256 used n p t i u) :
    missingPaths dm s'.memory root paths ⊆ (missingPaths dm s.memory root paths).erase (p ++ [i]) := by
  intro q hq
  obtain ⟨hin, hnone⟩ := Finset.mem_filter.mp hq
  rw [hallocated.installs.descend_cleared h.tree hallocated.cleared (h.short q hin)] at hnone
  split_ifs at hnone with he
  exact Finset.mem_erase.mpr ⟨he, Finset.mem_filter.mpr ⟨hin, hnone⟩⟩

theorem Later.of_allocated (h : Space dm root paths used m s)
    (hpath : descend (tableAt dm s.memory root 256) root p = some t)
    (hallocated : Allocated dm s s' root 256 used n p t i u) :
    Later dm root used (fun f => f = u ∨ used f) s s' := by
  have hgrows := hallocated.grows h.tree
  have htable : IsUserTable dm s.memory root t := ⟨p, hallocated.installs.short.le, hpath⟩
  have hpage : pageOf (entryAt t i) = t :=
    pageOf_entryAt (h.tree.aligned hpath) hallocated.installs.hasEntry.1
  have hsame : ∀ a, pageOf a ≠ u → pageOf a ≠ t → s'.memory a = s.memory a := by
    intro a hu ht
    refine hallocated.kept a ?_ fun he => ht (by rw [he, hpage])
    rw [inMemory_page hallocated.aligned, decide_eq_false hu]
  refine ⟨fun f hf => .inr hf, fun f hf => ⟨.inr hf.1, fun hreaches => ?_⟩, fun a ha => ?_,
    fun a ha => ?_⟩
  · rcases hgrows.reaches f hreaches with rfl | hbefore
    · exact hallocated.fresh hf.1
    · exact hf.2 hbefore
  · exact hsame a (fun he => hallocated.fresh (he ▸ ha.1)) fun he => ha.2 (he ▸ htable)
  · exact hsame a (fun he => ha (.inl he)) fun he => ha (.inr (he ▸ h.tables t htable))

/-- One level of `add_vm_mapping`, on one of the paths. -/
theorem Space.ensureTable {tableFlags : Word} (h : Space dm root paths used n s)
    (hpath : descend (tableAt dm s.memory root 256) root p = some t) (hlen : p.length < 3)
    (hentry : HasEntry root 256 t i) (hflags : TableFlags tableFlags) (hin : p ++ [i] ∈ paths) :
    ∃ u s' used', Tern.ensureTable dm s (entryAt t i) tableFlags = .ok (u, s') ∧
      Space dm root paths used' n s' ∧ Later dm root used used' s s' ∧
      descend (tableAt dm s'.memory root 256) root (p ++ [i]) = some u ∧
      ∀ a, translation dm s'.memory root 256 a = translation dm s.memory root 256 a := by
  cases hpresent : present s.memory (entryAt t i) with
  | true =>
    refine ⟨child dm s.memory t i, s, used, ensureTable_present hpresent, h,
      ⟨fun _ hf => hf, fun _ hf => hf, fun _ _ => rfl, fun _ _ => rfl⟩, ?_, fun _ => rfl⟩
    rw [descend_snoc_of hpath, tableAt_eq_some dm hentry hpresent]
  | false =>
    have hmissing : p ++ [i] ∈ missingPaths dm s.memory root paths := by
      refine Finset.mem_filter.mpr ⟨hin, ?_⟩
      rw [descend_snoc_of hpath, tableAt_eq_none hpresent]
    have hpages := h.pages
    rw [← Finset.card_erase_add_one hmissing, ← Nat.add_assoc] at hpages
    obtain ⟨u, s', hrun, hallocated⟩ :=
      ensureTable_absent h.tree hpath hlen hentry hflags hpresent h.tables hpages
    have hgrows := hallocated.grows h.tree
    refine ⟨u, s', _, hrun, ⟨hgrows.tree, fun f hf => ?_, h.short, ?_⟩, .of_allocated h hpath hallocated,
      hgrows.path, hgrows.translation⟩
    · exact (hgrows.reaches f hf).imp id (h.tables f)
    · exact hallocated.pages.le (Nat.add_le_add_left
        (Finset.card_le_card (missingPaths_allocated h hallocated)) n)

/-- An entry of a page table is written. -/
theorem Space.write {pt : Word} (h : Space dm root paths used n s)
    (hpt : descend (tableAt dm s.memory root 256) root (path virt) = some pt) (value : Word) :
    let s' := { s with memory := Function.update s.memory (entryAt pt (index virt 12)) value }
    Space dm root paths used n s' ∧ Later dm root used used s s' := by
  intro s'
  have hdescend : ∀ q : List Word, q.length ≤ 3 → descend (tableAt dm s'.memory root 256) root q =
      descend (tableAt dm s.memory root 256) root q := fun q hq => h.tree.write_descend hpt hq
  have htables : ∀ f, IsUserTable dm s'.memory root f → IsUserTable dm s.memory root f := by
    rintro f ⟨q, hq, hf⟩
    exact ⟨q, hq, by rwa [hdescend q hq] at hf⟩
  have htable : IsUserTable dm s.memory root pt := ⟨path virt, le_rfl, hpt⟩
  have hpage := pageOf_entryAt (h.tree.aligned hpt) (index_lt virt 12)
  have hsame : ∀ a, pageOf a ≠ pt → s'.memory a = s.memory a :=
    fun a ha => Function.update_of_ne (fun he => ha (by rw [he, hpage])) _ _
  refine ⟨⟨h.tree.write hpt value, fun f hf => h.tables f (htables f hf), h.short, ?_⟩,
    fun f hf => hf, fun f hf => ⟨hf.1, fun ht => hf.2 (htables f ht)⟩, fun a ha => hsame a ?_,
    fun a ha => hsame a ?_⟩
  · refine h.pages.le (Nat.add_le_add_left (Finset.card_le_card fun q hq => ?_) n)
    obtain ⟨hin, hnone⟩ := Finset.mem_filter.mp hq
    rw [hdescend q (h.short q hin)] at hnone
    exact Finset.mem_filter.mpr ⟨hin, hnone⟩
  · exact fun he => ha.2 (he ▸ htable)
  · exact fun he => ha (he ▸ h.tables pt htable)

/-- `add_vm_mapping` at a user address. -/
theorem Space.addVmMapping {cr3 pg page : Word} (h : Space dm root paths used n s)
    (hroot : tableOf dm cr3 = root) (hpg : pg.toNat < 2 ^ 47) (hpaths : tablePaths [pg] ⊆ paths)
    (hpage : page.toNat % 4096 = 0) (hbelow : page.toNat < 2 ^ 52) :
    ∃ s' used', Tern.addVmMapping dm s cr3 pg page (ptePresent ||| pteUser ||| pteWrite) = .ok s' ∧
      Space dm root paths used' n s' ∧ Later dm root used used' s s' ∧
      ∀ a, translation dm s'.memory root 256 a =
        if pageNumber a = pageNumber pg then some (page ||| (a &&& 0xFFF#64))
        else translation dm s.memory root 256 a := by
  have hin : ∀ q ∈ ({[index pg 39], [index pg 39, index pg 30], path pg} : Finset (List Word)),
      q ∈ paths := fun q hq => hpaths (by simpa [tablePaths] using hq)
  have hflags := tableFlags_user (ptePresent ||| pteUser ||| pteWrite)
  have hfirst : HasEntry root 256 root (index pg 39) := ⟨index_lt _ _, fun _ => inUserHalf_of_lt hpg⟩
  obtain ⟨pdp, s₁, used₁, hrun₁, h₁, hlater₁, hpdp, hsame₁⟩ :=
    h.ensureTable (p := []) rfl (by decide) hfirst hflags (hin _ (by simp))
  have hentry₁ : HasEntry root 256 pdp (index pg 30) :=
    hasEntry_of_ne (h₁.tree.ne_root hpdp (by simp) (by simp)) (index_lt _ _)
  obtain ⟨pd, s₂, used₂, hrun₂, h₂, hlater₂, hpd, hsame₂⟩ :=
    h₁.ensureTable hpdp (by simp) hentry₁ hflags (hin _ (by simp))
  have hentry₂ : HasEntry root 256 pd (index pg 21) :=
    hasEntry_of_ne (h₂.tree.ne_root hpd (by simp) (by simp)) (index_lt _ _)
  obtain ⟨pt, s₃, used₃, hrun₃, h₃, hlater₃, hpt, hsame₃⟩ :=
    h₂.ensureTable hpd (by simp) hentry₂ hflags (hin _ (by simp [path]))
  have hpath : descend (tableAt dm s₃.memory root 256) root (path pg) = some pt := hpt
  obtain ⟨hspace, hlast⟩ := h₃.write hpath (page ||| (ptePresent ||| pteUser ||| pteWrite))
  refine ⟨_, used₃, ?_, hspace, ((hlater₁.trans hlater₂).trans hlater₃).trans hlast, fun a => ?_⟩
  · simp only [Tern.addVmMapping, bind_eq_ok, pure_eq_ok, hroot]
    exact ⟨(pdp, s₁), hrun₁, (pd, s₂), hrun₂, (pt, s₃), hrun₃, rfl⟩
  · have hvalue : pteAddr (page ||| (ptePresent ||| pteUser ||| pteWrite)) = page := by
      rw [pteAddr_or, pteAddr_of_page hpage hbelow]
      simp [pteAddr, ptePresent, pteUser, pteWrite]
    have hthere : (page ||| (ptePresent ||| pteUser ||| pteWrite)) &&& ptePresent ≠ 0#64 := by
      rw [BitVec.and_or_distrib_right]
      exact fun hzero => absurd (BitVec.or_eq_zero_iff.mp hzero).2 (by decide)
    rw [h₃.tree.write_translation hpath, if_neg hthere, hvalue, hsame₃, hsame₂, hsame₁]

end

/-! ## Frames -/

/-- What a load starts from: the tables, the paths on which some may be missing, the
pages of the image, the pages in use, and the memory. -/
structure Setting where
  dm : DirectMap
  root : Word
  paths : Finset (List Word)
  image : Word → Prop
  used : Word → Prop
  memory : Word → Word

/-- The bytes of the user pages that have a frame. -/
def view (frames : Nat → Option Word) (memory : Word → Word) (a : Word) : BitVec 8 :=
  match frames (a.toNat / 4096) with
  | some f => byteAt memory (byteIn f a)
  | none => 0#8

/-- A byte that was in a page not in use. -/
def Setting.Fresh (c : Setting) (b : BitVec 8) : Prop :=
  ∃ a, ¬ c.used (pageOf a) ∧ byteAt c.memory a = b

/-- The pages that were mapped have frames of their own, apart from the tables and from the
image. The image and what is not in use are as they were. -/
structure Loading (c : Setting) (used : Word → Prop) (frames : Nat → Option Word) (n : Nat)
    (s : VmState) : Prop extends Space c.dm c.root c.paths used n s where
  more : ∀ f, c.used f → used f
  image : ∀ f, c.image f → Pinned c.dm c.root used s.memory f
  same : ∀ a, c.image (pageOf a) ∨ ¬ used (pageOf a) → s.memory a = c.memory a
  user : ∀ q f, frames q = some f → q < 2 ^ 35
  frame : ∀ q f, frames q = some f →
    Pinned c.dm c.root used s.memory f ∧ ¬ c.image f ∧ f.toNat % 4096 = 0
  apart : ∀ q q' f, frames q = some f → frames q' = some f → q = q'
  mapped : ∀ a f, frames (a.toNat / 4096) = some f →
    ∃ phys, translation c.dm s.memory c.root 256 a = some phys ∧ c.dm.directMapOf phys = byteIn f a

section

variable {c : Setting} {used used' : Word → Prop} {frames : Nat → Option Word} {n m : Nat}
  {s s' : VmState} {cr3 a pg f : Word}

theorem Later.byteAt_eq {dm : DirectMap} {root : Word} (h : Later dm root used used' s s')
    (hf : Pinned dm root used s.memory f) (haligned : f.toNat % 4096 = 0) (a : Word) :
    byteAt s'.memory (byteIn f a) = byteAt s.memory (byteIn f a) :=
  byteAt_congr (h.kept _ (by rwa [pageOf_wordOf, pageOf_byteIn haligned]))

namespace Loading

/-- The address of a mapped page is a user address. -/
theorem lt (h : Loading c used frames n s) (hf : frames (a.toNat / 4096) = some f) :
    a.toNat < 2 ^ 47 := by
  have hq := h.user _ f hf
  omega

theorem view_later (h : Loading c used frames n s) (hlater : Later c.dm c.root used used' s s')
    (a : Word) : view frames s'.memory a = view frames s.memory a := by
  rw [view, view]
  cases hf : frames (a.toNat / 4096) with
  | none => rfl
  | some f =>
    obtain ⟨hpinned, -, haligned⟩ := h.frame _ f hf
    exact hlater.byteAt_eq hpinned haligned a

/-- The page `pg` got the frame `u`, which was not in use. -/
theorem insert {u : Word} (h : Loading c used frames m s)
    (hspace : Space c.dm c.root c.paths used' n s') (hlater : Later c.dm c.root used used' s s')
    (hpg : pg.toNat < 2 ^ 47) (hfresh : ¬ used u) (hu : Pinned c.dm c.root used' s'.memory u)
    (haligned : u.toNat % 4096 = 0)
    (hmapped : ∀ a, a.toNat / 4096 = pg.toNat / 4096 → ∃ phys,
      translation c.dm s'.memory c.root 256 a = some phys ∧ c.dm.directMapOf phys = byteIn u a)
    (hkept : ∀ a, a.toNat < 2 ^ 47 → a.toNat / 4096 ≠ pg.toNat / 4096 →
      translation c.dm s'.memory c.root 256 a = translation c.dm s.memory c.root 256 a) :
    Loading c used' (Function.update frames (pg.toNat / 4096) (some u)) n s' := by
  have hframe : ∀ q f, Function.update frames (pg.toNat / 4096) (some u) q = some f →
      q = pg.toNat / 4096 ∧ f = u ∨ q ≠ pg.toNat / 4096 ∧ frames q = some f := by
    intro q f hf
    rw [Function.update_apply] at hf
    split_ifs at hf with hq
    · exact .inl ⟨hq, (Option.some.inj hf).symm⟩
    · exact .inr ⟨hq, hf⟩
  refine ⟨hspace, fun f hf => hlater.more f (h.more f hf), fun f hf => hlater.pinned f (h.image f hf),
    fun a ha => ?_, fun q f hf => ?_, fun q f hf => ?_, fun q q' f hf hf' => ?_, fun a f hf => ?_⟩
  · rcases ha with himage | hfree
    · rw [hlater.kept a (h.image _ himage), h.same a (.inl himage)]
    · rw [hlater.free a hfree, h.same a (.inr fun hused => hfree (hlater.more _ hused))]
  · rcases hframe q f hf with ⟨rfl, -⟩ | ⟨-, hold⟩
    · omega
    · exact h.user q f hold
  · rcases hframe q f hf with ⟨-, rfl⟩ | ⟨-, hold⟩
    · exact ⟨hu, fun himage => hfresh (h.image _ himage).1, haligned⟩
    · obtain ⟨hpinned, himage, hmod⟩ := h.frame q f hold
      exact ⟨hlater.pinned f hpinned, himage, hmod⟩
  · rcases hframe q f hf with ⟨rfl, rfl⟩ | ⟨-, hold⟩ <;>
      rcases hframe q' _ hf' with ⟨rfl, he⟩ | ⟨-, hold'⟩
    · rfl
    · exact absurd (h.frame q' _ hold').1.1 hfresh
    · exact absurd (h.frame q _ hold).1.1 (he ▸ hfresh)
    · exact h.apart q q' f hold hold'
  · rcases hframe _ f hf with ⟨hq, rfl⟩ | ⟨hq, hold⟩
    · exact hmapped a hq
    · rw [hkept a (h.lt hold) hq]
      exact h.mapped a f hold

/-- What is done for a page: it gets a fresh frame, and nothing else changes. -/
theorem mapPage (h : Loading c used frames (n + 1) s) (hroot : tableOf c.dm cr3 = c.root)
    (hpg : pg.toNat < 2 ^ 47) (hpaths : tablePaths [pg] ⊆ c.paths) :
    ∃ page pages s' used' u, allocPage s.pages = .ok (page, pages) ∧
      addVmMapping c.dm { s with pages } cr3 pg page (ptePresent ||| pteUser ||| pteWrite) = .ok s' ∧
      Loading c used' (Function.update frames (pg.toNat / 4096) (some u)) n s' ∧
      ∀ a, if a.toNat / 4096 = pg.toNat / 4096 then
          c.Fresh (view (Function.update frames (pg.toNat / 4096) (some u)) s'.memory a)
        else view (Function.update frames (pg.toNat / 4096) (some u)) s'.memory a =
          view frames s.memory a := by
  have hpages := h.pages
  rw [Nat.add_right_comm] at hpages
  obtain ⟨page, pages, halloc, hpage, hbelow, hfresh, hrest⟩ := hpages
  have haligned : (c.dm.directMapOf page).toNat % 4096 = 0 := by
    rw [← pteAddr_of_page hpage hbelow]
    exact directMapOf_pteAddr_aligned h.tree.frame.bits_le page
  -- the page is in use from here on
  have hspace : Space c.dm c.root c.paths (fun f => f = c.dm.directMapOf page ∨ used f) n
      { s with pages } := ⟨h.tree, fun f hf => .inr (h.tables f hf), h.short, hrest⟩
  have hlater : Later c.dm c.root used (fun f => f = c.dm.directMapOf page ∨ used f) s
      { s with pages } :=
    ⟨fun _ hf => .inr hf, fun _ hf => ⟨.inr hf.1, hf.2⟩, fun _ _ => rfl, fun _ _ => rfl⟩
  have hpinned : Pinned c.dm c.root (fun f => f = c.dm.directMapOf page ∨ used f) s.memory
      (c.dm.directMapOf page) := ⟨.inl rfl, fun ht => hfresh (h.tables _ ht)⟩
  obtain ⟨s', used', hrun, hspace', htables, htranslate⟩ :=
    hspace.addVmMapping hroot hpg hpaths hpage hbelow
  refine ⟨page, pages, s', used', c.dm.directMapOf page, halloc, hrun,
    h.insert hspace' (hlater.trans htables) hpg hfresh (htables.pinned _ hpinned) haligned
      (fun a ha => ?_) (fun a ha hne => ?_), fun a => ?_⟩
  · have hnumber := (pageNumber_eq_iff (a := a) (b := pg) (by omega) (by omega)).mpr ha
    exact ⟨_, (htranslate a).trans (if_pos hnumber), directMapOf_offset haligned a⟩
  · have hnumber := mt (pageNumber_eq_iff (a := a) (b := pg) (by omega) (by omega)).mp hne
    rw [htranslate, if_neg hnumber]
  · split_ifs with ha
    · rw [view, ha, Function.update_self]
      refine ⟨byteIn (c.dm.directMapOf page) a, ?_, ?_⟩
      · rw [pageOf_byteIn haligned]
        exact fun hused => hfresh (h.more _ hused)
      · show _ = byteAt _ (byteIn (c.dm.directMapOf page) a)
        rw [htables.byteAt_eq hpinned haligned]
        refine (byteAt_congr (h.same _ (.inr ?_))).symm
        rwa [pageOf_wordOf, pageOf_byteIn haligned]
    · rw [← h.view_later (hlater.trans htables) a, view, Function.update_of_ne ha, view]

/-! ### Stores -/

/-- The content of one frame changed. -/
theorem of_frame {q : Nat} {memory : Word → Word} (h : Loading c used frames n s)
    (hf : frames q = some f) (hout : ∀ w, pageOf w ≠ f → memory w = s.memory w) :
    Loading c used frames n { s with memory } := by
  obtain ⟨⟨hused, htable⟩, himage, -⟩ := h.frame q f hf
  have hentries : ∀ t i, Reaches (tableAt c.dm s.memory c.root 256) c.root 3 t →
      HasEntry c.root 256 t i → memory (entryAt t i) = s.memory (entryAt t i) := by
    intro t i ht hi
    refine hout _ fun he => htable ?_
    obtain ⟨q, hq, hpath⟩ := ht
    rw [pageOf_entryAt (h.tree.aligned hpath) hi.1] at he
    exact he ▸ ⟨q, hq, hpath⟩
  have htables : ∀ f, IsUserTable c.dm memory c.root f → IsUserTable c.dm s.memory c.root f := by
    rintro f ⟨q, hq, hpath⟩
    exact ⟨q, hq, by rwa [PageTree.congr_descend hentries hq] at hpath⟩
  have hmissing : missingPaths c.dm memory c.root c.paths = missingPaths c.dm s.memory c.root c.paths :=
    Finset.filter_congr fun q hq => by rw [PageTree.congr_descend hentries (h.short q hq)]
  have hpinned : ∀ f, Pinned c.dm c.root used s.memory f → Pinned c.dm c.root used memory f :=
    fun f hf => ⟨hf.1, fun ht => hf.2 (htables f ht)⟩
  refine ⟨⟨h.tree.congr hentries, fun f hf => h.tables f (htables f hf), h.short, ?_⟩, h.more,
    fun f hf => hpinned f (h.image f hf), fun a ha => ?_, h.user, fun q f hf => ?_, h.apart,
    fun a f hf => ?_⟩
  · rw [hmissing]
    exact h.pages
  · refine (hout a fun he => ?_).trans (h.same a ha)
    rw [he] at ha
    exact ha.elim himage fun hfree => hfree hused
  · exact ⟨hpinned f (h.frame q f hf).1, (h.frame q f hf).2⟩
  · obtain ⟨phys, htranslate, hphys⟩ := h.mapped a f hf
    exact ⟨phys, by rw [← htranslate]; exact h.tree.congr_translation hentries a, hphys⟩

/-- What the processor finds for a mapped page. -/
theorem translate_eq (h : Loading c used frames n s) (hroot : tableOf c.dm cr3 = c.root)
    (hf : frames (a.toNat / 4096) = some f) :
    ∃ phys, translate c.dm s.memory cr3 a = some phys ∧ c.dm.directMapOf phys = byteIn f a := by
  have hframe := h.tree.frame
  rw [← hroot] at hframe
  rw [translate_tableOf hframe, hroot, h.tree.translate_eq (inUserHalf_of_lt (h.lt hf))]
  exact h.mapped a f hf

/-- Two addresses have one byte only if they are the same. -/
theorem byteIn_inj {b g : Word} (h : Loading c used frames n s) (hf : frames (a.toNat / 4096) = some f)
    (hg : frames (b.toNat / 4096) = some g) (he : byteIn g b = byteIn f a) : b = a := by
  have hf' := (h.frame _ f hf).2.2
  have hg' := (h.frame _ g hg).2.2
  have hpage := congrArg pageOf he
  rw [pageOf_byteIn hf', pageOf_byteIn hg'] at hpage
  subst hpage
  have hpage := h.apart _ _ _ hf hg
  have hnat := congrArg BitVec.toNat he
  rw [byteIn_toNat hf', byteIn_toNat hg'] at hnat
  exact BitVec.eq_of_toNat_eq (by omega)

/-- A store changes one byte of user memory. -/
theorem storeUser (h : Loading c used frames n s) (hroot : tableOf c.dm cr3 = c.root)
    (hf : frames (a.toNat / 4096) = some f) (b : BitVec 8) :
    ∃ s', Tern.storeUser c.dm s cr3 a b = .ok s' ∧ Loading c used frames n s' ∧
      ∀ a', view frames s'.memory a' = if a' = a then b else view frames s.memory a' := by
  obtain ⟨phys, htranslate, hphys⟩ := h.translate_eq hroot hf
  have haligned := (h.frame _ f hf).2.2
  refine ⟨{ s with memory := storeByte s.memory (byteIn f a) b }, ?_, h.of_frame hf fun w hw => ?_,
    fun a' => ?_⟩
  · rw [Tern.storeUser, htranslate, ← hphys]
  · refine storeByte_of_ne fun he => hw ?_
    rw [he, pageOf_wordOf, pageOf_byteIn haligned]
  · rw [view, view]
    cases hf' : frames (a'.toNat / 4096) with
    | none =>
      have hne : a' ≠ a := by
        rintro rfl
        rw [hf'] at hf
        cases hf
      rw [if_neg hne]
    | some f' =>
      have hsame : byteIn f' a' = byteIn f a ↔ a' = a := by
        refine ⟨h.byteIn_inj hf hf', ?_⟩
        rintro rfl
        rw [Option.some.inj (hf'.symm.trans hf)]
      show byteAt (storeByte _ _ _) _ = _
      rw [byteAt_storeByte]
      simp only [hsame]

/-- The loops of `memcpy` and `memset`. The bytes that are read do not change meanwhile. -/
theorem storeLoop {value : (Word → Word) → Word → BitVec 8} (bytes : Word → BitVec 8) {k : Nat}
    {dest src : Word} (h : Loading c used frames n s) (hroot : tableOf c.dm cr3 = c.root)
    (hmapped : ∀ a : Word, dest.toNat ≤ a.toNat → a.toNat < dest.toNat + k →
      (frames (a.toNat / 4096)).isSome)
    (hbound : dest.toNat + k ≤ 2 ^ 47)
    (hvalue : ∀ s, Loading c used frames n s → ∀ j < k,
      value s.memory (src + BitVec.ofNat 64 j) = bytes (src + BitVec.ofNat 64 j)) :
    ∃ s', Tern.storeLoop c.dm cr3 value k dest src s = .ok s' ∧ Loading c used frames n s' ∧
      ∀ a, view frames s'.memory a =
        if dest.toNat ≤ a.toNat ∧ a.toNat < dest.toNat + k then bytes (src + (a - dest))
        else view frames s.memory a := by
  induction k generalizing dest src s with
  | zero => exact ⟨s, rfl, h, fun a => by rw [if_neg (by omega)]⟩
  | succ k ih =>
    obtain ⟨f, hf⟩ := Option.isSome_iff_exists.mp (hmapped dest le_rfl (by omega))
    obtain ⟨s₁, hrun₁, h₁, hview₁⟩ := h.storeUser hroot hf (value s.memory src)
    have hnext : (dest + 1#64).toNat = dest.toNat + 1 := by
      rw [BitVec.toNat_add, BitVec.toNat_ofNat]
      omega
    have hfirst : value s.memory src = bytes src := by
      have hzero := hvalue s h 0 (Nat.succ_pos k)
      rwa [BitVec.add_zero] at hzero
    have hrest : ∀ s, Loading c used frames n s → ∀ j < k,
        value s.memory (src + 1#64 + BitVec.ofNat 64 j) = bytes (src + 1#64 + BitVec.ofNat 64 j) := by
      intro s hs j hj
      have hlater := hvalue s hs (j + 1) (Nat.succ_lt_succ hj)
      rwa [add_ofNat_succ] at hlater
    have hmapped' : ∀ a : Word, (dest + 1#64).toNat ≤ a.toNat → a.toNat < (dest + 1#64).toNat + k →
        (frames (a.toNat / 4096)).isSome := fun a hle hlt => hmapped a (by omega) (by omega)
    obtain ⟨s', hrun', h', hview'⟩ := ih h₁ hmapped' (by omega) hrest
    refine ⟨s', ?_, h', fun a => ?_⟩
    · simp only [Tern.storeLoop, bind_eq_ok]
      exact ⟨s₁, hrun₁, hrun'⟩
    · rw [hview', hview₁, hnext]
      by_cases ha : a = dest
      · subst ha
        rw [if_neg (by omega), if_pos rfl, if_pos (by omega), hfirst, BitVec.sub_self,
          BitVec.add_zero]
      · have hne : a.toNat ≠ dest.toNat := fun he => ha (BitVec.eq_of_toNat_eq he)
        have hoffset : src + 1#64 + (a - (dest + 1#64)) = src + (a - dest) := by
          rw [BitVec.add_assoc]
          congr 1
          bv_omega
        rw [if_neg ha, hoffset]
        exact if_congr (by omega) rfl rfl

/-- `memcpy` of bytes that are as they were. -/
theorem memcpy {dest src k : Word} (h : Loading c used frames n s) (hroot : tableOf c.dm cr3 = c.root)
    (hmapped : ∀ a : Word, dest.toNat ≤ a.toNat → a.toNat < dest.toNat + k.toNat →
      (frames (a.toNat / 4096)).isSome)
    (hbound : dest.toNat + k.toNat ≤ 2 ^ 47)
    (hbytes : ∀ s, Loading c used frames n s → ∀ j < k.toNat,
      byteAt s.memory (src + BitVec.ofNat 64 j) = byteAt c.memory (src + BitVec.ofNat 64 j)) :
    ∃ s', Tern.memcpy c.dm s cr3 dest src k = .ok s' ∧ Loading c used frames n s' ∧
      ∀ a, view frames s'.memory a =
        if dest.toNat ≤ a.toNat ∧ a.toNat < dest.toNat + k.toNat then
          byteAt c.memory (src + (a - dest))
        else view frames s.memory a :=
  h.storeLoop (byteAt c.memory) hroot hmapped hbound hbytes

theorem memset {dest k : Word} (h : Loading c used frames n s) (hroot : tableOf c.dm cr3 = c.root)
    (hmapped : ∀ a : Word, dest.toNat ≤ a.toNat → a.toNat < dest.toNat + k.toNat →
      (frames (a.toNat / 4096)).isSome)
    (hbound : dest.toNat + k.toNat ≤ 2 ^ 47) (b : BitVec 8) :
    ∃ s', Tern.memset c.dm s cr3 dest b k = .ok s' ∧ Loading c used frames n s' ∧
      ∀ a, view frames s'.memory a =
        if dest.toNat ≤ a.toNat ∧ a.toNat < dest.toNat + k.toNat then b
        else view frames s.memory a :=
  h.storeLoop (fun _ => b) hroot hmapped hbound fun _ _ _ _ => rfl

end Loading

end

end Tern
