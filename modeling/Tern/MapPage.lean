import Tern.PageTrees
import Tern.PciManager

/-! `map_page`, the library's loop, against the map methods of the kernel. A method
that finds a table missing names its level, which is that of the highest one that is
missing; the loop maps a fresh table there and tries again. -/

namespace Tern

open Lib Lib.Trees
open Pci (invoke invoke_of_handler)

/-! ## The loop -/

/-- `message_label` of an answer. -/
def errorLabel (e : ErrorCode) : BitVec 50 := e.toWord.truncate 50

/-- The tables below a PML4. -/
inductive TableLevel
  | pdpt | pd | pt
  deriving DecidableEq, Repr

namespace TableLevel

/-- The argument of `table_missing`. -/
def number : TableLevel → Word
  | pdpt => 3#64 | pd => 2#64 | pt => 1#64

def ofNumber? (n : Word) : Option TableLevel :=
  if n = 3#64 then some pdpt else if n = 2#64 then some pd else if n = 1#64 then some pt else none

def type : TableLevel → CapType
  | pdpt => .x86Pdpt | pd => .x86Pd | pt => .x86Pt

/-- `x86_64_pdpt_map`, `x86_64_pd_map` and `x86_64_pt_map`, as the library calls them. -/
def map (level : TableLevel) (P : Platform) (fuel : Nat) (k : Kernel) (table vspace addr attr : Word) :
    Result (BitVec 50 × Kernel) :=
  match level with
  | pdpt => invoke P fuel k table .pdptMap (vspace, addr, attr, ())
  | pd => invoke P fuel k table .pdMap (vspace, addr, attr, ())
  | pt => invoke P fuel k table .ptMap (vspace, addr, attr, ())

/-- The indices above the entry that the table is put under, its index, and those
below. -/
def above (level : TableLevel) (addr : Word) : List Word :=
  match level with
  | pdpt => []
  | pd => [index addr 39]
  | pt => [index addr 39, index addr 30]

def entry (level : TableLevel) (addr : Word) : Word :=
  match level with
  | pdpt => index addr 39
  | pd => index addr 30
  | pt => index addr 21

def below (level : TableLevel) (addr : Word) : List Word :=
  match level with
  | pdpt => [index addr 30, index addr 21]
  | pd => [index addr 21]
  | pt => []

end TableLevel

/-- `map_page`, and the tables that it mapped. Of `allocate (untyped, type, 1)` nothing is
known here. -/
def mapPage (P : Platform) (fuel : Nat) (allocate : Kernel → CapType → Result (Word × Kernel))
    (vspace page addr : Word) : Nat → Kernel → Result (BitVec 50 × List Word × Kernel)
  | 0, _ => .error .outOfFuel
  | rounds + 1, k => do
    let (err, k) ← invoke P fuel k page .pageMap (vspace, addr, 0x7#64, ())
    if err ≠ errorLabel .failedLookup then return (err, [], k)
    let mr0 ← getMr k 0
    match TableLevel.ofNumber? mr0 with
    | none => .error .panic
    | some level => do
      let (table, k) ← allocate k level.type
      let (err, k) ← level.map P fuel k table vspace addr 0x7#64
      assert (err == errorLabel .noError)
      let (err, tables, k) ← mapPage P fuel allocate vspace page addr rounds k
      return (err, table :: tables, k)

/-! ## The caller -/

/-- A thread that maps a page: its IPC buffer, its capabilities by address and by slot,
and the memory that these are for. -/
structure Mapper where
  thread : Word
  buffer : Word
  vspace : Word
  page : Word
  vspaceSlot : Word
  pageSlot : Word
  root : Word
  frame : Word

/-- The thread runs and has the capabilities. -/
structure Mapper.Runs (c : Mapper) (dm : DirectMap) (k : Kernel) : Prop where
  current : k.currentTcb = some c.thread
  buffer : (k.tcbs c.thread).ipcBuffer = some c.buffer
  vspace : lookupCapSlot k.slots (cspaceRootOf c.thread) c.vspace 64#64 = .ok (.ok c.vspaceSlot)
  page : lookupCapSlot k.slots (cspaceRootOf c.thread) c.page 64#64 = .ok (.ok c.pageSlot)
  root : rootOf k.slots c.vspaceSlot = c.root
  type : (k.slots c.pageSlot).cap.type = .x86Page
  ptr : capPtr (k.slots c.pageSlot).cap = c.frame
  frame : IsFrame dm c.frame

/-- The tables of user addresses. -/
def userTable (dm : DirectMap) (memory : Word → Word) (root : Word) : Word → Word → Option Word :=
  tableAt dm memory root 256

/-- From `k` to `k'` the thread got a capability to a fresh table: a frame that is no table
of the vspace, cleared. -/
structure Mapper.Gets (c : Mapper) (dm : DirectMap) (k : Kernel) (type : CapType) (table : Word)
    (k' : Kernel) (slot u : Word) : Prop where
  runs : c.Runs dm k'
  lookup : lookupCapSlot k'.slots (cspaceRootOf c.thread) table 64#64 = .ok (.ok slot)
  type : (k'.slots slot).cap.type = type
  ptr : capPtr (k'.slots slot).cap = u
  frame : IsFrame dm u
  fresh : ¬ Reaches (userTable dm k.memory c.root) c.root 3 u
  memory : k'.memory = zeroPage k.memory u

/-- In the next `n` rounds of the loop, `allocate` yields a fresh table whenever one is
missing. -/
def Mapper.Allocates (c : Mapper) (P : Platform) (fuel : Nat)
    (allocate : Kernel → CapType → Result (Word × Kernel)) (addr : Word) : Nat → Kernel → Prop
  | 0, _ => True
  | n + 1, k => ∀ (k₁ : Kernel) (level : TableLevel),
      invoke P fuel k c.page .pageMap (c.vspace, addr, 0x7#64, ()) =
        .ok (errorLabel .failedLookup, k₁) →
      getMr k₁ 0 = .ok level.number →
      ∃ table k₂ slot u, allocate k₁ level.type = .ok (table, k₂) ∧
        c.Gets P.dm k₁ level.type table k₂ slot u ∧
        ∀ err k₃, level.map P fuel k₂ table c.vspace addr 0x7#64 = .ok (err, k₃) →
          c.Allocates P fuel allocate addr n k₃

/-! ## The tree -/

section

variable {dm : DirectMap} {memory : Word → Word} {root t u i virt : Word} {limit : Nat} {k : Kernel}
  {p : List Word} {level : TableLevel}

theorem TableLevel.path_eq (level : TableLevel) (addr : Word) :
    path addr = level.above addr ++ level.entry addr :: level.below addr := by
  cases level <;> rfl

theorem TableLevel.entry_lt (level : TableLevel) (addr : Word) : (level.entry addr).toNat < 512 := by
  cases level <;> exact index_lt _ _

theorem TableLevel.above_length (level : TableLevel) (addr : Word) : (level.above addr).length < 3 := by
  cases level <;> simp [above]

theorem tableAt_eq_some_iff : tableAt dm memory root limit t i = some u ↔
    HasEntry root limit t i ∧ present memory (entryAt t i) = true ∧ child dm memory t i = u := by
  rw [tableAt]
  split_ifs with h
  · simp [h]
  · simp only [false_iff]
    exact fun h' => h ⟨h'.1, h'.2.1⟩

/-- Either the tables of an address are there, or one of a level is missing. -/
theorem exists_table_or_level (dm : DirectMap) (memory : Word → Word) (root : Word) (limit : Nat)
    (addr : Word) :
    (∃ pt, descend (tableAt dm memory root limit) root (path addr) = some pt) ∨
    ∃ (level : TableLevel) (t : Word),
      descend (tableAt dm memory root limit) root (level.above addr) = some t ∧
      tableAt dm memory root limit t (level.entry addr) = none := by
  cases hpdpt : tableAt dm memory root limit root (index addr 39) with
  | none => exact .inr ⟨.pdpt, root, rfl, hpdpt⟩
  | some pdpt =>
    have hpath : descend (tableAt dm memory root limit) root (TableLevel.pd.above addr) = some pdpt := by
      rw [TableLevel.above, descend_cons, hpdpt]
      rfl
    cases hpd : tableAt dm memory root limit pdpt (index addr 30) with
    | none => exact .inr ⟨.pd, pdpt, hpath, hpd⟩
    | some pd =>
      have hpath' : descend (tableAt dm memory root limit) root (TableLevel.pt.above addr) = some pd := by
        rw [TableLevel.above, descend_cons, hpdpt, Option.bind_some, descend_cons, hpd]
        rfl
      cases hpt : tableAt dm memory root limit pd (index addr 21) with
      | none => exact .inr ⟨.pt, pd, hpath', hpt⟩
      | some pt =>
        refine .inl ⟨pt, ?_⟩
        rw [TableLevel.path_eq .pt, descend_append, hpath', Option.bind_some, TableLevel.below,
          descend_cons, TableLevel.entry, hpt]
        rfl

/-! ## The methods on a tree -/

section

variable {vspace cte vaddr attr entry value pt : Word} {above : List (Word × Word)}

theorem mapEntry_missing {l l' : List (Word × Word)} {e : Word × Word}
    (hl : ∀ x ∈ l, present k.memory x.1 = true) (he : present k.memory e.1 = false) :
    mapEntry k (l ++ e :: l') entry value = (tableMissing e.2, k) := by
  have hfind : (l ++ e :: l').find? (fun x => !present k.memory x.1) = some e := by
    have hnone : l.find? (fun x => !present k.memory x.1) = none :=
      List.find?_eq_none.mpr fun x hx => by simp [hl x hx]
    rw [List.find?_append, hnone, Option.none_or, List.find?_cons, he]
    rfl
  rw [mapEntry, hfind]

theorem mapEntry_there (habove : ∀ x ∈ above, present k.memory x.1 = true) :
    mapEntry k above entry value =
      if present k.memory entry then (alreadyMapped, k)
      else (.ok, { k with memory := Function.update k.memory entry value }) := by
  have hfind : above.find? (fun x => !present k.memory x.1) = none :=
    List.find?_eq_none.mpr fun x hx => by simp [habove x hx]
  rw [mapEntry, hfind]

/-- The tables down to a level. -/
theorem walk_above (hpath : descend (tableAt dm memory root limit) root (level.above vaddr) = some t) :
    match level with
    | .pdpt => t = root
    | .pd => present memory (entryAt root (index vaddr 39)) = true ∧
        child dm memory root (index vaddr 39) = t
    | .pt => present memory (entryAt root (index vaddr 39)) = true ∧
        present memory (entryAt (child dm memory root (index vaddr 39)) (index vaddr 30)) = true ∧
        child dm memory (child dm memory root (index vaddr 39)) (index vaddr 30) = t := by
  cases level with
  | pdpt => exact (Option.some.inj hpath).symm
  | pd =>
    obtain ⟨u, hu, hrest⟩ := Option.bind_eq_some_iff.mp hpath
    obtain rfl := Option.some.inj hrest
    exact (tableAt_eq_some_iff.mp hu).2
  | pt =>
    obtain ⟨u, hu, hrest⟩ := Option.bind_eq_some_iff.mp hpath
    obtain ⟨v, hv, hend⟩ := Option.bind_eq_some_iff.mp hrest
    obtain rfl := Option.some.inj hend
    obtain ⟨-, hfirst, rfl⟩ := tableAt_eq_some_iff.mp hu
    exact ⟨hfirst, (tableAt_eq_some_iff.mp hv).2⟩

/-- The entry where the table is missing. -/
theorem missing_entry (htree : PageTree dm memory root limit)
    (hlimit : (index vaddr 39).toNat < limit)
    (hpath : descend (tableAt dm memory root limit) root (level.above vaddr) = some t)
    (hnone : tableAt dm memory root limit t (level.entry vaddr) = none) :
    HasEntry root limit t (level.entry vaddr) ∧
      present memory (entryAt t (level.entry vaddr)) = false := by
  have hentry : HasEntry root limit t (level.entry vaddr) := by
    refine ⟨level.entry_lt vaddr, fun he => ?_⟩
    cases level with
    | pdpt => exact hlimit
    | pd => exact absurd he (htree.ne_root hpath (by simp [TableLevel.above]) (List.cons_ne_nil _ _))
    | pt => exact absurd he (htree.ne_root hpath (by simp [TableLevel.above]) (List.cons_ne_nil _ _))
  refine ⟨hentry, ?_⟩
  by_contra hpresent
  rw [tableAt_eq_some dm hentry (by simpa using hpresent)] at hnone
  cases hnone

/-- `x86_64_page_map` names the level of the table that is missing. -/
theorem pageMap_missing (htree : PageTree dm k.memory root limit) (hroot : rootOf k.slots vspace = root)
    (hlimit : (index vaddr 39).toNat < limit)
    (hpath : descend (tableAt dm k.memory root limit) root (level.above vaddr) = some t)
    (hnone : tableAt dm k.memory root limit t (level.entry vaddr) = none) :
    pageMap dm k cte vspace vaddr attr = (tableMissing level.number, k) := by
  obtain ⟨-, habsent⟩ := missing_entry htree hlimit hpath hnone
  have hwalk := walk_above hpath
  subst hroot
  rw [pageMap, ← rootOf, getPml4e_eq htree.frame, getPdpte_eq htree.frame, getPde_eq htree.frame]
  cases level with
  | pdpt =>
    have hroot : t = rootOf k.slots vspace := hwalk
    rw [hroot] at habsent
    exact mapEntry_missing (l := []) (by rintro _ ⟨⟩) habsent
  | pd =>
    obtain ⟨hfirst, rfl⟩ := hwalk
    exact mapEntry_missing (l := [_]) (by simpa using hfirst) habsent
  | pt =>
    obtain ⟨hfirst, hsecond, rfl⟩ := hwalk
    exact mapEntry_missing (l := [_, _]) (by simpa using ⟨hfirst, hsecond⟩) habsent

/-- The entry of a page. -/
def pageEntry (dm : DirectMap) (k : Kernel) (cte attr : Word) : Word :=
  frameOf dm k cte ||| ptePresent ||| pteUser ||| attr

/-- The memory with the page in an entry. -/
def pageWritten (dm : DirectMap) (k : Kernel) (cte attr entry : Word) : Word → Word :=
  Function.update k.memory entry (pageEntry dm k cte attr)

/-- With all tables there, the entry of the page table decides. -/
theorem pageMap_there (htree : PageTree dm k.memory root limit) (hroot : rootOf k.slots vspace = root)
    (hpt : descend (tableAt dm k.memory root limit) root (path vaddr) = some pt) :
    pageMap dm k cte vspace vaddr attr =
      if present k.memory (entryAt pt (index vaddr 12)) then (alreadyMapped, k)
      else (.ok, { k with memory := pageWritten dm k cte attr (entryAt pt (index vaddr 12)) }) := by
  subst hroot
  obtain ⟨pdpt, hpdpt, hrest⟩ := Option.bind_eq_some_iff.mp hpt
  obtain ⟨pd, hpd, hrest⟩ := Option.bind_eq_some_iff.mp hrest
  obtain ⟨pt', hpt', hend⟩ := Option.bind_eq_some_iff.mp hrest
  obtain rfl := Option.some.inj hend
  obtain ⟨-, hfirst, rfl⟩ := tableAt_eq_some_iff.mp hpdpt
  obtain ⟨-, hsecond, rfl⟩ := tableAt_eq_some_iff.mp hpd
  obtain ⟨-, hthird, rfl⟩ := tableAt_eq_some_iff.mp hpt'
  rw [pageMap, ← rootOf, getPml4e_eq htree.frame, getPdpte_eq htree.frame, getPde_eq htree.frame,
    getPte_eq htree.frame]
  exact mapEntry_there (by simpa using ⟨hfirst, hsecond, hthird⟩)

/-- The method of a level, with no regard to its attributes. -/
def TableLevel.handler (level : TableLevel) (dm : DirectMap) (k : Kernel) (cte vspace vaddr : Word) :
    Reply × Kernel :=
  match level with
  | .pdpt => pdptMap dm k cte vspace vaddr
  | .pd => pdMap dm k cte vspace vaddr
  | .pt => ptMap dm k cte vspace vaddr

/-- The entry of a table. -/
def tableEntry (dm : DirectMap) (k : Kernel) (cte : Word) : Word :=
  frameOf dm k cte ||| ptePresent ||| pteWrite ||| pteUser

/-- The memory when a method comes to write its entry. -/
def TableLevel.prepared (level : TableLevel) (dm : DirectMap) (k : Kernel) (vspace vaddr : Word) :
    Word → Word :=
  match level with
  | .pdpt => kernelHalfCopied dm k vspace vaddr
  | _ => k.memory

/-- Where a table is missing, the method of its level writes the entry. -/
theorem TableLevel.handler_eq (htree : PageTree dm k.memory root limit)
    (hroot : rootOf k.slots vspace = root) (hlimit : (index vaddr 39).toNat < limit)
    (hpath : descend (tableAt dm k.memory root limit) root (level.above vaddr) = some t)
    (hnone : tableAt dm k.memory root limit t (level.entry vaddr) = none) :
    level.handler dm k cte vspace vaddr = (.ok, { k with
      memory := Function.update (level.prepared dm k vspace vaddr) (entryAt t (level.entry vaddr))
        (tableEntry dm k cte) }) := by
  obtain ⟨-, habsent⟩ := missing_entry htree hlimit hpath hnone
  have hwalk := walk_above hpath
  subst hroot
  have hframe := htree.frame
  cases level with
  | pdpt =>
    have hroot : t = rootOf k.slots vspace := hwalk
    subst hroot
    have hentry : present k.memory (pml4eAt k vspace vaddr) = false := habsent
    rw [handler, pdptMap_eq hframe, hentry]
    rfl
  | pd =>
    obtain ⟨hfirst, rfl⟩ := hwalk
    rw [handler, pdMap, ← rootOf, getPml4e_eq hframe, getPdpte_eq hframe,
      index_maskLow vaddr (show 30 ≤ 39 by decide), index_maskLow vaddr (le_refl 30),
      mapEntry_there (by simpa using hfirst), if_neg (by simpa [entry] using habsent)]
    rfl
  | pt =>
    obtain ⟨hfirst, hsecond, rfl⟩ := hwalk
    rw [handler, ptMap, ← rootOf, getPml4e_eq hframe, getPdpte_eq hframe, getPde_eq hframe,
      index_maskLow vaddr (show 21 ≤ 39 by decide), index_maskLow vaddr (show 21 ≤ 30 by decide),
      index_maskLow vaddr (le_refl 21), mapEntry_there (by simpa using ⟨hfirst, hsecond⟩),
      if_neg (by simpa [entry] using habsent)]
    rfl

/-- At the first entry of a PML4 the copy of the kernel half leaves the user tables alone. -/
theorem TableLevel.prepared_kept (hframe : IsFrame dm (rootOf k.slots vspace))
    (hfirst : index vaddr 39 = 0#64) (ht : t.toNat % 4096 = 0)
    (hentry : HasEntry (rootOf k.slots vspace) 256 t i) :
    level.prepared dm k vspace vaddr (entryAt t i) = k.memory (entryAt t i) := by
  cases level with
  | pd => rfl
  | pt => rfl
  | pdpt =>
    have hpml4e : pml4eAt k vspace vaddr = entryAt (rootOf k.slots vspace) 0#64 := by
      rw [pml4eAt, hfirst]
    rw [prepared, kernelHalfCopied, hpml4e]
    by_cases hroot : t = rootOf k.slots vspace
    · rw [hroot]
      exact copyKernelHalf_lower hframe.toNat.1 _ _ (hentry.2 hroot)
    · rw [copyKernelHalf_eq]
      refine copyWords_of_ne (fun j hj he => hroot ?_) k.memory
      have hj := List.mem_range.mp hj
      have hnat : (BitVec.ofNat 64 (256 + j)).toNat = 256 + j := by
        rw [BitVec.toNat_ofNat, Nat.mod_eq_of_lt (by omega)]
      have hcopied : entryAt (rootOf k.slots vspace) 0#64 + kernelEntry j =
          entryAt (rootOf k.slots vspace) (BitVec.ofNat 64 (256 + j)) := by
        simp [entryAt, kernelEntry]
      rw [hcopied] at he
      exact (entryAt_inj_of_aligned hframe.toNat.1 ht (by omega) hentry.1 he).1.symm

/-- The entry of a table leads to it and is no large page. -/
theorem tableEntry_spec (h : IsFrame dm (capPtr (k.slots cte).cap)) :
    tableEntry dm k cte &&& ptePresent ≠ 0#64 ∧
      tableOf dm (tableEntry dm k cte) = capPtr (k.slots cte).cap ∧
      tableEntry dm k cte &&& ptePse = 0#64 := by
  refine ⟨fun hzero => ?_, h.of_entry, ?_⟩
  · have hbit := congrArg (BitVec.getLsbD · 0) hzero
    simp [tableEntry, ptePresent, pteWrite, pteUser] at hbit
  · rw [tableEntry, BitVec.and_or_distrib_right, BitVec.and_or_distrib_right,
      BitVec.and_or_distrib_right, ← h.frameOf, pteAddr, BitVec.and_assoc]
    simp [ptePse, ptePresent, pteWrite, pteUser]

/-- A fresh table, cleared and then mapped where one is missing, makes the tree grow. -/
theorem TableLevel.handler_grows (htree : PageTree dm memory root 256)
    (hfresh : ¬ Reaches (userTable dm memory root) root 3 u) (hmemory : k.memory = zeroPage memory u)
    (hroot : rootOf k.slots vspace = root) (hu : IsFrame dm u) (hptr : capPtr (k.slots cte).cap = u)
    (hfirst : index vaddr 39 = 0#64)
    (hpath : descend (tableAt dm memory root 256) root (level.above vaddr) = some t)
    (hnone : tableAt dm memory root 256 t (level.entry vaddr) = none) :
    ∃ after, level.handler dm k cte vspace vaddr = (.ok, { k with memory := after }) ∧
      Grows dm memory after root 256 (level.above vaddr) (level.entry vaddr) u := by
  have hlimit : (index vaddr 39).toNat < 256 := by
    rw [hfirst]
    decide
  have hlen := level.above_length vaddr
  have haligned := hu.toNat.1
  obtain ⟨hentry, habsent⟩ := missing_entry htree hlimit hpath hnone
  have hzeroed : ∀ t i, Reaches (tableAt dm memory root 256) root 3 t → HasEntry root 256 t i →
      k.memory (entryAt t i) = memory (entryAt t i) := by
    intro t i ht hi
    rw [hmemory]
    exact htree.zeroPage_kept haligned hfresh ht hi.1
  have htree' := htree.congr hzeroed
  have hpath' : descend (tableAt dm k.memory root 256) root (level.above vaddr) = some t := by
    rw [PageTree.congr_descend hzeroed hlen.le, hpath]
  have hnone' : tableAt dm k.memory root 256 t (level.entry vaddr) = none := by
    rw [tableAt_congr fun _ => hzeroed t _ ⟨_, hlen.le, hpath⟩ hentry, hnone]
  have hframe : IsFrame dm (rootOf k.slots vspace) := hroot ▸ htree.frame
  obtain ⟨hpresent, hleads, hsmall⟩ := tableEntry_spec (hptr ▸ hu : IsFrame dm (capPtr (k.slots cte).cap))
  refine ⟨_, handler_eq htree' hroot hlimit hpath' hnone', ?_⟩
  refine .of_write htree (fun t i ht hi => ?_) hpath hlen hentry habsent hfresh haligned
    (fun j hj => ?_) hpresent (hleads.trans hptr) hsmall
  · obtain ⟨q, hq, hqt⟩ := ht
    rw [level.prepared_kept hframe hfirst (htree.aligned hqt) (hroot ▸ hi), hzeroed t i ⟨q, hq, hqt⟩ hi]
  · have hne : u ≠ root := fun he => hfresh (he ▸ .refl)
    have hj' : HasEntry (rootOf k.slots vspace) 256 u j := hroot ▸ hasEntry_of_ne hne hj
    rw [level.prepared_kept hframe hfirst haligned hj', hmemory, zeroPage_entryAt _ haligned hj]

end

end

/-! ## The calls of the thread -/

section

variable {P : Platform} {fuel : Nat} {c : Mapper} {k k' k₁ k₂ : Kernel} {addr u slot table t : Word}
  {level : TableLevel}

/-- Memory and buffers may change. -/
theorem Mapper.Runs.congr (h : c.Runs P.dm k) (hslots : k'.slots = k.slots)
    (htcbs : k'.tcbs = k.tcbs) (hcurrent : k'.currentTcb = k.currentTcb) : c.Runs P.dm k' where
  current := hcurrent ▸ h.current
  buffer := htcbs ▸ h.buffer
  vspace := hslots ▸ h.vspace
  page := hslots ▸ h.page
  root := hslots ▸ h.root
  type := hslots ▸ h.type
  ptr := hslots ▸ h.ptr
  frame := h.frame

theorem Mapper.Runs.thisBuffer (h : c.Runs P.dm k) : thisBuffer k = .ok c.buffer := by
  simp [Tern.thisBuffer, h.current, h.buffer]

/-- An answer without words. -/
theorem answer_nil (k : Kernel) {r : Reply} (h : r.mrs = []) : answer k r = .ok (r.tag, k) := by
  rw [answer, h]
  rfl

variable (fuel) in
/-- The thread calls a map method. -/
theorem Mapper.Runs.invoke (h : c.Runs P.dm k) {m : Method} (args : Args Word m.parameters) {r : Reply}
    (hlookup : lookupCapSlot k.slots (cspaceRootOf c.thread) table 64#64 = .ok (.ok slot))
    (htype : (k.slots slot).cap.type = m.signature.type) (hvspace : ∀ x ∈ args.handles, x = c.vspace)
    (hhandler : m.handler P fuel (k.afterStub c.buffer (m.stub args)) slot
      (args.map fun _ => c.vspaceSlot) = .ok (r, k')) :
    Pci.invoke P fuel k table m args = (answer k' r >>= fun x => pure (x.1.label, x.2)) := by
  refine invoke_of_handler P fuel args h.current h.buffer hlookup htype (fun x hx => ?_) hhandler
  rw [hvspace x hx]
  exact h.vspace

variable (fuel) in
/-- With a table missing, the thread learns its level. -/
theorem Mapper.Runs.pageMap_missing (h : c.Runs P.dm k) (htree : PageTree P.dm k.memory c.root 256)
    (hlimit : (index addr 39).toNat < 256)
    (hpath : descend (tableAt P.dm k.memory c.root 256) c.root (level.above addr) = some t)
    (hnone : tableAt P.dm k.memory c.root 256 t (level.entry addr) = none) :
    ∃ k₁, Pci.invoke P fuel k c.page .pageMap (c.vspace, addr, 0x7#64, ()) =
        .ok (errorLabel .failedLookup, k₁) ∧ getMr k₁ 0 = .ok level.number ∧
      c.Runs P.dm k₁ ∧ k₁.memory = k.memory := by
  let called := k.afterStub c.buffer (Method.pageMap.stub (c.vspace, addr, 0x7#64, ()))
  have hcalled : c.Runs P.dm called := h.congr rfl rfl rfl
  have hmethod : pageMap P.dm called c.pageSlot c.vspaceSlot addr 0x7#64 =
      (tableMissing level.number, called) :=
    Tern.pageMap_missing htree h.root hlimit hpath hnone
  have hinvoke := h.invoke fuel (m := .pageMap) (c.vspace, addr, 0x7#64, ()) h.page h.type
    (fun x hx => List.mem_singleton.mp hx) (congrArg Except.ok hmethod)
  have hafter : c.Runs P.dm (called.setBufferWord c.buffer 0 level.number) :=
    hcalled.congr rfl rfl rfl
  refine ⟨called.setBufferWord c.buffer 0 level.number, ?_, ?_, hafter, rfl⟩
  · rw [hinvoke]
    simp [answer, tableMissing, Reply.failedLookup, setMrs, setMr, hcalled.thisBuffer, bind, Except.bind,
      pure, Except.pure]
    rfl
  · rw [getMr, hafter.thisBuffer]
    show Except.ok ((called.setBufferWord c.buffer 0 level.number).buffers c.buffer 0) = _
    simp [Kernel.setBufferWord]

variable (fuel) in
/-- With the tables there, the thread maps the page, unless one is mapped. -/
theorem Mapper.Runs.pageMap_there (h : c.Runs P.dm k) (htree : PageTree P.dm k.memory c.root 256)
    {pt : Word} (hpt : descend (tableAt P.dm k.memory c.root 256) c.root (path addr) = some pt) :
    ∃ err k₁, Pci.invoke P fuel k c.page .pageMap (c.vspace, addr, 0x7#64, ()) = .ok (err, k₁) ∧
      (present k.memory (entryAt pt (index addr 12)) = true ∧ err = errorLabel .deleteFirst ∧
          k₁.memory = k.memory ∨
        present k.memory (entryAt pt (index addr 12)) = false ∧ err = errorLabel .noError ∧
          k₁.memory = pageWritten P.dm k c.pageSlot 0x7#64 (entryAt pt (index addr 12))) := by
  let called := k.afterStub c.buffer (Method.pageMap.stub (c.vspace, addr, 0x7#64, ()))
  have hmethod : pageMap P.dm called c.pageSlot c.vspaceSlot addr 0x7#64 = _ :=
    Tern.pageMap_there htree h.root hpt
  cases hpresent : present k.memory (entryAt pt (index addr 12)) with
  | true =>
    have hpresent' : present called.memory (entryAt pt (index addr 12)) = true := hpresent
    rw [hpresent', if_pos rfl] at hmethod
    have hinvoke := h.invoke fuel (m := .pageMap) (c.vspace, addr, 0x7#64, ()) h.page h.type
      (fun x hx => List.mem_singleton.mp hx) (congrArg Except.ok hmethod)
    rw [answer_nil called rfl] at hinvoke
    exact ⟨_, called, hinvoke, .inl ⟨rfl, rfl, rfl⟩⟩
  | false =>
    have hpresent' : present called.memory (entryAt pt (index addr 12)) = false := hpresent
    rw [hpresent', if_neg Bool.false_ne_true] at hmethod
    have hinvoke := h.invoke fuel (m := .pageMap) (c.vspace, addr, 0x7#64, ()) h.page h.type
      (fun x hx => List.mem_singleton.mp hx) (congrArg Except.ok hmethod)
    rw [answer_nil _ rfl] at hinvoke
    exact ⟨_, _, hinvoke, .inr ⟨rfl, rfl, rfl⟩⟩

variable (fuel) in
/-- The thread maps a fresh table where one of its level is missing. -/
theorem Mapper.Gets.map_level (hgets : c.Gets P.dm k₁ level.type table k₂ slot u)
    (htree : PageTree P.dm k₁.memory c.root 256) (hfirst : index addr 39 = 0#64)
    (hpath : descend (tableAt P.dm k₁.memory c.root 256) c.root (level.above addr) = some t)
    (hnone : tableAt P.dm k₁.memory c.root 256 t (level.entry addr) = none) :
    ∃ k₃, level.map P fuel k₂ table c.vspace addr 0x7#64 = .ok (errorLabel .noError, k₃) ∧
      c.Runs P.dm k₃ ∧
      Grows P.dm k₁.memory k₃.memory c.root 256 (level.above addr) (level.entry addr) u := by
  have hruns := hgets.runs
  have hgrows (s : Stub) : ∃ after, level.handler P.dm (k₂.afterStub c.buffer s) slot c.vspaceSlot addr =
      (.ok, { k₂.afterStub c.buffer s with memory := after }) ∧
        Grows P.dm k₁.memory after c.root 256 (level.above addr) (level.entry addr) u :=
    TableLevel.handler_grows htree hgets.fresh hgets.memory hruns.root hgets.frame hgets.ptr hfirst
      hpath hnone
  cases level with
  | pdpt =>
    obtain ⟨after, hhandler, hafter⟩ := hgrows (Method.pdptMap.stub (c.vspace, addr, 0x7#64, ()))
    have hinvoke := hruns.invoke fuel (m := .pdptMap) (c.vspace, addr, 0x7#64, ()) hgets.lookup
      hgets.type (fun x hx => List.mem_singleton.mp hx) (congrArg Except.ok hhandler)
    rw [answer_nil _ rfl] at hinvoke
    exact ⟨_, hinvoke, hruns.congr rfl rfl rfl, hafter⟩
  | pd =>
    obtain ⟨after, hhandler, hafter⟩ := hgrows (Method.pdMap.stub (c.vspace, addr, 0x7#64, ()))
    have hinvoke := hruns.invoke fuel (m := .pdMap) (c.vspace, addr, 0x7#64, ()) hgets.lookup
      hgets.type (fun x hx => List.mem_singleton.mp hx) (congrArg Except.ok hhandler)
    rw [answer_nil _ rfl] at hinvoke
    exact ⟨_, hinvoke, hruns.congr rfl rfl rfl, hafter⟩
  | pt =>
    obtain ⟨after, hhandler, hafter⟩ := hgrows (Method.ptMap.stub (c.vspace, addr, 0x7#64, ()))
    have hinvoke := hruns.invoke fuel (m := .ptMap) (c.vspace, addr, 0x7#64, ()) hgets.lookup
      hgets.type (fun x hx => List.mem_singleton.mp hx) (congrArg Except.ok hhandler)
    rw [answer_nil _ rfl] at hinvoke
    exact ⟨_, hinvoke, hruns.congr rfl rfl rfl, hafter⟩

/-! ## The run -/

/-- The number of missing tables is that of the loop's rounds before the last. -/
def tablesToMap (dm : DirectMap) (memory : Word → Word) (root addr : Word) : Nat :=
  missing (userTable dm memory root) root (path addr)

/-- How a run of the loop ends: the page is mapped to the frame where none was, or the
mapping that was there is refused to be replaced. -/
structure MapsOrRefuses (c : Mapper) (dm : DirectMap) (memory memory' : Word → Word) (addr : Word)
    (err : BitVec 50) : Prop where
  absent : translation dm memory c.root 256 addr = none → err = errorLabel .noError ∧
    translation dm memory' c.root 256 addr = some (dm.physicalOf c.frame ||| (addr &&& 0xFFF#64))
  mapped : ∀ x, translation dm memory c.root 256 addr = some x → err = errorLabel .deleteFirst ∧
    translation dm memory' c.root 256 addr = some x

/-- The entry of the page leads to the frame. -/
theorem Mapper.Runs.page_entry (h : c.Runs P.dm k) :
    pteAddr (pageEntry P.dm k c.pageSlot 0x7#64) = P.dm.physicalOf c.frame := by
  have hframe : IsFrame P.dm (capPtr (k.slots c.pageSlot).cap) := h.ptr ▸ h.frame
  rw [pageEntry, pteAddr_entry hframe.frameOf, frameOf, h.ptr]
  simp [pteAddr]

/-- The last round. -/
theorem mapsOrRefuses_of_there (h : c.Runs P.dm k) (htree : PageTree P.dm k.memory c.root 256)
    {pt : Word} (hpt : descend (tableAt P.dm k.memory c.root 256) c.root (path addr) = some pt)
    {err : BitVec 50}
    (hcases : present k.memory (entryAt pt (index addr 12)) = true ∧ err = errorLabel .deleteFirst ∧
        k₁.memory = k.memory ∨
      present k.memory (entryAt pt (index addr 12)) = false ∧ err = errorLabel .noError ∧
        k₁.memory = pageWritten P.dm k c.pageSlot 0x7#64 (entryAt pt (index addr 12))) :
    MapsOrRefuses c P.dm k.memory k₁.memory addr err ∧ PageTree P.dm k₁.memory c.root 256 ∧
      err ≠ errorLabel .failedLookup := by
  have hleaf : translation P.dm k.memory c.root 256 addr =
      pageLeaf k.memory (entryAt pt (index addr 12)) addr := by
    rw [translation, hpt, Option.bind_some]
  rcases hcases with ⟨hpresent, rfl, hmemory⟩ | ⟨habsent, rfl, hmemory⟩
  · rw [pageLeaf, if_pos hpresent] at hleaf
    refine ⟨⟨fun hnone => ?_, fun x hx => ⟨rfl, hmemory ▸ hx⟩⟩, hmemory ▸ htree, by decide⟩
    rw [hleaf] at hnone
    cases hnone
  · rw [pageLeaf, habsent, if_neg Bool.false_ne_true] at hleaf
    have hthere : pageEntry P.dm k c.pageSlot 0x7#64 &&& ptePresent ≠ 0#64 := present_entry _ _
    refine ⟨⟨fun _ => ⟨rfl, ?_⟩, fun x hx => ?_⟩, hmemory ▸ htree.write hpt _, by decide⟩
    · rw [hmemory, pageWritten, htree.write_translation hpt, if_pos rfl, if_neg hthere, h.page_entry]
    · rw [hleaf] at hx
      cases hx

theorem tablesToMap_of_there {memory : Word → Word} {root pt : Word} {dm : DirectMap}
    (hpt : descend (userTable dm memory root) root (path addr) = some pt) :
    tablesToMap dm memory root addr = 0 := by
  have h : missing (userTable dm memory root) root (path addr ++ []) = _ := missing_append hpt
  rwa [List.append_nil] at h

theorem tablesToMap_of_above {memory : Word → Word} {root : Word} {dm : DirectMap}
    (hpath : descend (userTable dm memory root) root (level.above addr) = some t)
    (hnone : userTable dm memory root t (level.entry addr) = none) :
    tablesToMap dm memory root addr = (level.below addr).length + 1 := by
  rw [tablesToMap, level.path_eq, missing_append hpath, missing, hnone]

/-- A table less is missing after it was mapped. -/
theorem tablesToMap_of_grows {memory memory' : Word → Word} {root : Word} {dm : DirectMap}
    (h : Grows dm memory memory' root 256 (level.above addr) (level.entry addr) u) :
    tablesToMap dm memory' root addr = (level.below addr).length := by
  have hpath : path addr = (level.above addr ++ [level.entry addr]) ++ level.below addr := by
    rw [level.path_eq, List.append_assoc]
    rfl
  rw [tablesToMap, hpath]
  exact (missing_append h.path).trans (missing_of_leaf h.leaf)

theorem TableLevel.ofNumber?_number (level : TableLevel) : ofNumber? level.number = some level := by
  cases level <;> rfl

variable {allocate : Kernel → CapType → Result (Word × Kernel)} {rounds : Nat} {err : BitVec 50}
  {tables : List Word}

/-- The round in which the loop returns. -/
theorem mapPage_returns (hinvoke : Pci.invoke P fuel k c.page .pageMap (c.vspace, addr, 0x7#64, ()) =
      .ok (err, k₁)) (herr : err ≠ errorLabel .failedLookup) :
    mapPage P fuel allocate c.vspace c.page addr (rounds + 1) k = .ok (err, [], k₁) := by
  rw [mapPage, hinvoke]
  simp only [bind, Except.bind, if_pos herr]
  rfl

/-- A round in which the loop maps a table. -/
theorem mapPage_continues {k₃ : Kernel}
    (hinvoke : Pci.invoke P fuel k c.page .pageMap (c.vspace, addr, 0x7#64, ()) =
      .ok (errorLabel .failedLookup, k₁)) (hmr : getMr k₁ 0 = .ok level.number)
    (halloc : allocate k₁ level.type = .ok (table, k₂))
    (hmap : level.map P fuel k₂ table c.vspace addr 0x7#64 = .ok (errorLabel .noError, k₃))
    (hrest : mapPage P fuel allocate c.vspace c.page addr rounds k₃ = .ok (err, tables, k')) :
    mapPage P fuel allocate c.vspace c.page addr (rounds + 1) k = .ok (err, table :: tables, k') := by
  rw [mapPage, hinvoke]
  simp only [bind, Except.bind, hmr, level.ofNumber?_number, halloc, hmap, hrest]
  rfl

/-- Each round but the last maps a missing table. -/
theorem mapPage_spec {n : Nat} (hfirst : index addr 39 = 0#64)
    (hn : tablesToMap P.dm k.memory c.root addr = n)
    (hrounds : n < rounds) (h : c.Runs P.dm k) (htree : PageTree P.dm k.memory c.root 256)
    (hallocates : c.Allocates P fuel allocate addr n k) :
    ∃ err tables k', mapPage P fuel allocate c.vspace c.page addr rounds k = .ok (err, tables, k') ∧
      tables.length = n ∧ PageTree P.dm k'.memory c.root 256 ∧
      MapsOrRefuses c P.dm k.memory k'.memory addr err := by
  have hlimit : (index addr 39).toNat < 256 := by
    rw [hfirst]
    decide
  induction n generalizing k rounds with
  | zero =>
    obtain ⟨rounds, rfl⟩ : ∃ r, rounds = r + 1 := ⟨rounds - 1, by omega⟩
    rcases exists_table_or_level P.dm k.memory c.root 256 addr with ⟨pt, hpt⟩ | ⟨level, t, hpath, hnone⟩
    · obtain ⟨err, k₁, hinvoke, hcases⟩ := h.pageMap_there fuel htree hpt
      obtain ⟨hmaps, htree', herr⟩ := mapsOrRefuses_of_there h htree hpt hcases
      exact ⟨err, [], k₁, mapPage_returns hinvoke herr, rfl, htree', hmaps⟩
    · rw [tablesToMap_of_above hpath hnone] at hn
      cases hn
  | succ n ih =>
    obtain ⟨rounds, rfl⟩ : ∃ r, rounds = r + 1 := ⟨rounds - 1, by omega⟩
    rcases exists_table_or_level P.dm k.memory c.root 256 addr with ⟨pt, hpt⟩ | ⟨level, t, hpath, hnone⟩
    · rw [tablesToMap_of_there hpt] at hn
      cases hn
    · obtain ⟨k₁, hinvoke, hmr, h₁, hmemory⟩ := h.pageMap_missing fuel htree hlimit hpath hnone
      obtain ⟨table, k₂, slot, u, halloc, hgets, hrest⟩ := hallocates k₁ level hinvoke hmr
      rw [← hmemory] at htree hpath hnone
      obtain ⟨k₃, hmap, h₃, hgrows⟩ := hgets.map_level fuel htree hfirst hpath hnone
      rw [hmemory] at hpath hnone hgrows
      have hn₃ : tablesToMap P.dm k₃.memory c.root addr = n := by
        rw [tablesToMap_of_above hpath hnone] at hn
        rw [tablesToMap_of_grows hgrows]
        exact Nat.succ.inj hn
      obtain ⟨err, tables, k', hrun, hlen, htree', hmaps⟩ :=
        ih hn₃ (show n < rounds by omega) h₃ hgrows.tree (hrest _ _ hmap)
      refine ⟨err, table :: tables, k', mapPage_continues hinvoke hmr halloc hmap hrun,
        congrArg Nat.succ hlen, htree', fun hnone => ?_, fun x hx => ?_⟩
      · exact hmaps.absent ((hgrows.translation addr).trans hnone)
      · exact hmaps.mapped x ((hgrows.translation addr).trans hx)

/-- In the first slot of a PML4, if each `allocate` yields a fresh table, four rounds of the
loop are enough, in which at most three tables are mapped and no assertion fails; and
either no page was mapped at the address and the frame is now, or the mapping that was
there stays. -/
theorem map_page_converges (haddr : addr.toNat < 2 ^ 39) (hrounds : 4 ≤ rounds) (h : c.Runs P.dm k)
    (htree : PageTree P.dm k.memory c.root 256)
    (hallocates : c.Allocates P fuel allocate addr (tablesToMap P.dm k.memory c.root addr) k) :
    ∃ err tables k', mapPage P fuel allocate c.vspace c.page addr rounds k = .ok (err, tables, k') ∧
      tables.length ≤ 3 ∧
      (translate P.dm k.memory c.root addr = none → err = errorLabel .noError ∧
        translate P.dm k'.memory c.root addr =
          some (P.dm.physicalOf c.frame ||| (addr &&& 0xFFF#64))) ∧
      ∀ x, translate P.dm k.memory c.root addr = some x → err = errorLabel .deleteFirst ∧
        translate P.dm k'.memory c.root addr = some x := by
  have hfirst : index addr 39 = 0#64 := by
    have hshift : addr >>> 39 = 0#64 := by
      apply BitVec.eq_of_toNat_eq
      rw [BitVec.toNat_ushiftRight, Nat.shiftRight_eq_div_pow, Nat.div_eq_of_lt haddr]
      rfl
    rw [index, hshift]
    rfl
  have hlimit : (index addr 39).toNat < 256 := by
    rw [hfirst]
    decide
  have hle : tablesToMap P.dm k.memory c.root addr ≤ 3 := missing_le c.root (path addr)
  obtain ⟨err, tables, k', hrun, hlen, htree', hmaps⟩ :=
    mapPage_spec hfirst rfl (Nat.lt_of_le_of_lt hle hrounds) h htree hallocates
  refine ⟨err, tables, k', hrun, hlen.trans_le hle, ?_⟩
  rw [htree.translate_eq hlimit, htree'.translate_eq hlimit]
  exact ⟨hmaps.absent, hmaps.mapped⟩

end

/-! ## Three tables for one page -/

/-- The boot thread with a vspace in slot 1 and a page in slot 5. -/
def exampleMapper : Mapper where
  thread := initTcb
  buffer := initTcb + 0x1000#64
  vspace := 1#64
  page := 5#64
  vspaceSlot := initSlot 1
  pageSlot := initSlot 5
  root := exampleFrame 0
  frame := exampleFrame 4

def mapPageKernel : Kernel :=
  exampleKernel [] [(1, Cap.withPtr { type := .x86Pml4 } (exampleFrame 0)),
    (5, Cap.withPtr { type := .x86Page } (exampleFrame 4))]

/-- The slots and frames between. -/
def TableLevel.exampleSlot : TableLevel → Nat
  | pdpt => 2 | pd => 3 | pt => 4

def TableLevel.exampleTable (level : TableLevel) : Word := exampleFrame (level.exampleSlot - 1)

/-- Retypes the frame of the level. -/
def exampleAllocate (k : Kernel) (type : CapType) : Result (Word × Kernel) :=
  match [TableLevel.pdpt, .pd, .pt].find? fun level => level.type == type with
  | none => .error .panic
  | some level => .ok (BitVec.ofNat 64 level.exampleSlot, { k with
      slots := k.slots.setCap (initSlot level.exampleSlot) (Cap.withPtr { type } level.exampleTable)
      memory := zeroPage k.memory level.exampleTable })

theorem exampleMapper_runs : exampleMapper.Runs lowMap mapPageKernel where
  current := rfl
  buffer := rfl
  vspace := by decide +kernel
  page := by decide +kernel
  root := by decide +kernel
  type := by decide +kernel
  ptr := by decide +kernel
  frame := ⟨0x14000#64, by decide, by decide, by decide⟩

theorem lookupCapSlot_setCap {s : Slots} {root a : Word} (x : Cap) (hne : root ≠ a) (index depth : Word) :
    lookupCapSlot (s.setCap a x) root index depth = lookupCapSlot s root index depth := by
  simp only [lookupCapSlot, lookupCapSlotRaw, Slots.setCap, Function.update_of_ne hne]

theorem TableLevel.exampleTable_frame (level : TableLevel) : IsFrame lowMap level.exampleTable := by
  cases level with
  | pdpt => exact ⟨0x11000#64, by decide, by decide, by decide⟩
  | pd => exact ⟨0x12000#64, by decide, by decide, by decide⟩
  | pt => exact ⟨0x13000#64, by decide, by decide, by decide⟩

/-- The new capability is in a slot of its own. -/
theorem exampleMapper_retyped {k : Kernel} (h : exampleMapper.Runs lowMap k) (level : TableLevel) :
    ∃ k₂, exampleAllocate k level.type = .ok (BitVec.ofNat 64 level.exampleSlot, k₂) ∧
      (¬ Reaches (userTable lowMap k.memory exampleMapper.root) exampleMapper.root 3 level.exampleTable →
        exampleMapper.Gets lowMap k level.type (BitVec.ofNat 64 level.exampleSlot) k₂
          (initSlot level.exampleSlot) level.exampleTable) := by
  have hslots : cspaceRootOf initTcb ≠ initSlot level.exampleSlot ∧
      initSlot 1 ≠ initSlot level.exampleSlot ∧ initSlot 5 ≠ initSlot level.exampleSlot ∧
      BitVec.ofNat 64 level.exampleSlot < 5#64 ∧
      slotAt initCnode (BitVec.ofNat 64 level.exampleSlot) = initSlot level.exampleSlot := by
    cases level <;> decide
  obtain ⟨hroot, hvspace, hpage, hlt, hslot⟩ := hslots
  have hfind : [TableLevel.pdpt, .pd, .pt].find? (fun l => l.type == level.type) = some level := by
    cases level <;> rfl
  refine ⟨_, by rw [exampleAllocate, hfind], fun hfresh => ?_⟩
  obtain ⟨-, htype, hsize, hbase⟩ := lookupCapSlotRaw_eq_ok.mp (lookupCapSlot_eq_ok.mp h.page)
  have hcnode : capPtr (k.slots (cspaceRootOf initTcb)).cap = initCnode := by
    have he : slotAt initCnode 5#64 = slotAt (capPtr (k.slots (cspaceRootOf initTcb)).cap) 5#64 := hbase
    rw [slotAt, slotAt] at he
    exact (add_right_cancel he).symm
  have hkept : ∀ a, a ≠ initSlot level.exampleSlot → ∀ x, (k.slots.setCap (initSlot level.exampleSlot) x) a =
      k.slots a := fun a ha x => Function.update_of_ne ha _ _
  constructor
  case runs =>
    constructor
    · exact h.current
    · exact h.buffer
    · exact (lookupCapSlot_setCap _ hroot _ _).trans h.vspace
    · exact (lookupCapSlot_setCap _ hroot _ _).trans h.page
    · show capPtr ((k.slots.setCap _ _) (initSlot 1)).cap = _
      rw [hkept _ hvspace]
      exact h.root
    · show ((k.slots.setCap _ _) (initSlot 5)).cap.type = _
      rw [hkept _ hpage]
      exact h.type
    · show capPtr ((k.slots.setCap _ _) (initSlot 5)).cap = _
      rw [hkept _ hpage]
      exact h.ptr
    · exact h.frame
  case lookup =>
    refine (lookupCapSlot_setCap _ hroot _ _).trans (lookupCapSlot_eq_ok.mpr
      (lookupCapSlotRaw_eq_ok.mpr ⟨rfl, htype, BitVec.lt_trans hlt hsize, ?_⟩))
    exact hslot.symm.trans (congrArg (slotAt · _) hcnode.symm)
  case type => simp [Slots.setCap]; rfl
  case ptr =>
    have hsafe : isSafeCapPtr level.exampleTable = true := by cases level <;> decide
    simp only [Slots.setCap, Function.update_self]
    exact capPtr_withPtr _ _ hsafe
  case frame => exact level.exampleTable_frame
  case fresh => exact hfresh
  case memory => rfl

theorem TableLevel.number_inj {l l' : TableLevel} (h : l.number = l'.number) : l = l' := by
  have h' := congrArg ofNumber? h
  rw [ofNumber?_number, ofNumber?_number] at h'
  exact Option.some.inj h'

/-- As long as the frames of the missing levels are not used as tables, they can be had. -/
theorem exampleMapper_allocates {k : Kernel} {addr : Word} {n : Nat} (hfirst : index addr 39 = 0#64)
    (hn : tablesToMap lowMap k.memory exampleMapper.root addr = n)
    (h : exampleMapper.Runs lowMap k) (htree : PageTree lowMap k.memory exampleMapper.root 256)
    (hfresh : ∀ level : TableLevel, (level.below addr).length < n →
      ¬ Reaches (userTable lowMap k.memory exampleMapper.root) exampleMapper.root 3 level.exampleTable) :
    exampleMapper.Allocates examplePlatform 0 exampleAllocate addr n k := by
  induction n generalizing k with
  | zero => trivial
  | succ n ih =>
    have hlimit : (index addr 39).toNat < 256 := by
      rw [hfirst]
      decide
    rcases exists_table_or_level lowMap k.memory exampleMapper.root 256 addr with
      ⟨pt, hpt⟩ | ⟨level, t, hpath, hnone⟩
    · rw [tablesToMap_of_there hpt] at hn
      cases hn
    have hbelow : (level.below addr).length = n := by
      rw [tablesToMap_of_above hpath hnone] at hn
      exact Nat.succ.inj hn
    intro k₁ level' hinvoke hmr
    obtain ⟨k₁', hinvoke', hmr', h₁, hmemory⟩ :=
      Mapper.Runs.pageMap_missing (P := examplePlatform) 0 h htree hlimit hpath hnone
    obtain rfl : k₁ = k₁' := by
      rw [hinvoke] at hinvoke'
      exact (Prod.mk.inj (Except.ok.inj hinvoke')).2
    obtain rfl : level' = level := by
      rw [hmr] at hmr'
      exact TableLevel.number_inj (Except.ok.inj hmr')
    rw [← hmemory] at htree hpath hnone hfresh
    obtain ⟨k₂, halloc, hgets⟩ := exampleMapper_retyped h₁ level'
    have hgets := hgets (hfresh level' (by omega))
    refine ⟨_, k₂, _, _, halloc, hgets, fun err k₃ hmap => ?_⟩
    obtain ⟨k₃', hmap', h₃, hgrows⟩ :=
      Mapper.Gets.map_level (P := examplePlatform) 0 hgets htree hfirst hpath hnone
    obtain rfl : k₃ = k₃' := by
      rw [hmap] at hmap'
      exact (Prod.mk.inj (Except.ok.inj hmap')).2
    refine ih ((tablesToMap_of_grows hgrows).trans hbelow) h₃ hgrows.tree fun l hl hreaches => ?_
    rcases hgrows.reaches _ hreaches with he | hold
    · have hne : ∀ l l' : TableLevel, l.exampleTable = l'.exampleTable → l = l' := by
        intro l l'
        cases l <;> cases l' <;> decide
      rw [hne l level' he, hbelow] at hl
      exact lt_irrefl n hl
    · exact hfresh l (by omega) hold

/-- The page is the first thing that is mapped. -/
theorem map_page_converges_first :
    ∃ err tables k', mapPage examplePlatform 0 exampleAllocate exampleMapper.vspace exampleMapper.page
        0x400000#64 4 mapPageKernel = .ok (err, tables, k') ∧
      err = errorLabel .noError ∧
      translate lowMap k'.memory exampleMapper.root 0x400000#64 = some 0x14000#64 := by
  have habsent : ∀ entry, present mapPageKernel.memory entry = false := fun entry => by
    simp [present, mapPageKernel, exampleKernel, Kernel.blank]
  have hroot : IsFrame lowMap exampleMapper.root := ⟨0x10000#64, by decide, by decide, by decide⟩
  have htree : PageTree lowMap mapPageKernel.memory exampleMapper.root 256 := .of_absent habsent hroot
  have hallocates := exampleMapper_allocates (by decide : index 0x400000#64 39 = 0#64) rfl
    exampleMapper_runs htree fun level _ hreaches => by
      have he := reaches_of_absent habsent hreaches
      revert he
      cases level <;> decide
  obtain ⟨err, tables, k', hrun, -, hmapped, -⟩ := map_page_converges (P := examplePlatform)
    (show (0x400000#64).toNat < 2 ^ 39 by decide) (le_refl 4) exampleMapper_runs htree hallocates
  have hnone : translate lowMap mapPageKernel.memory exampleMapper.root 0x400000#64 = none := by
    rw [translate, if_neg]
    simp [habsent]
  obtain ⟨herr, htranslate⟩ := hmapped hnone
  refine ⟨err, tables, k', hrun, herr, htranslate.trans ?_⟩
  decide

end Tern
