import Tern.Ipc

/-! Page tables, I/O ports and interrupts: the methods on their capabilities,
and what the kernel does when an interrupt arrives. -/

namespace Tern

open Cdt

/-! ## Page tables -/

def ptePresent : Word := 1#64
def pteWrite : Word := 2#64
def pteUser : Word := 4#64

/-- `PTE_ADDR (pte)`. -/
def pteAddr (pte : Word) : Word := pte &&& 0x000FFFFFFFFFF000#64

section

variable (dm : DirectMap) (memory : Word → Word)

/-- The entry of the table that `pte` points to which the 9 bits of `addr` from
`shift` on select. -/
def entryIn (pte addr : Word) (shift : Nat) : Word :=
  dm.directMapOf (pteAddr pte) + 8#64 * ((addr >>> shift) &&& 0x1FF#64)

def getPml4e (root addr : Word) : Word := entryIn dm root addr 39
def getPdpte (root addr : Word) : Word := entryIn dm (memory (getPml4e dm root addr)) addr 30
def getPde (root addr : Word) : Word := entryIn dm (memory (getPdpte dm memory root addr)) addr 21
def getPte (root addr : Word) : Word := entryIn dm (memory (getPde dm memory root addr)) addr 12

def present (entry : Word) : Bool := memory entry &&& ptePresent != 0#64

/-- `resolve_vm_mapping`: the physical address, or 0. -/
def resolveVmMapping (root virt : Word) : Word :=
  let pml4e := getPml4e dm root virt
  if !present memory pml4e then 0#64
  else
    let pdpe := entryIn dm (memory pml4e) virt 30
    if !present memory pdpe then 0#64
    else
      let pde := entryIn dm (memory pdpe) virt 21
      if !present memory pde then 0#64
      else
        let pte := entryIn dm (memory pde) virt 12
        if !present memory pte then 0#64 else pteAddr (memory pte) ||| (virt &&& 0xFFF#64)

end

/-- `~MASK (n)`, applied. -/
def maskLow (vaddr : Word) (n : Nat) : Word := (vaddr >>> n) <<< n

def alreadyMapped : Reply := .deleteFirst
def tableMissing (level : Word) : Reply := .failedLookup level

/-- What the map methods have in common: the entries above must be present, a
missing one is reported with its level; the entry itself must not be. -/
def mapEntry (k : Kernel) (above : List (Word × Word)) (entry value : Word) : Reply × Kernel :=
  match above.find? fun e => !present k.memory e.1 with
  | some e => (tableMissing e.2, k)
  | none =>
    if present k.memory entry then (alreadyMapped, k)
    else (.ok, { k with memory := Function.update k.memory entry value })

/-- Everything `mapEntry` can do. -/
theorem mapEntry_cases {k k' : Kernel} {above : List (Word × Word)} {entry value : Word} {r : Reply}
    (h : mapEntry k above entry value = (r, k')) :
    k' = k ∨ (r.isOk = true ∧ (∀ e ∈ above, present k.memory e.1 = true) ∧
      present k.memory entry = false ∧
      k' = { k with memory := Function.update k.memory entry value }) := by
  unfold mapEntry at h
  split at h
  · cases h
    exact .inl rfl
  · rename_i hnone
    split at h <;> cases h
    · exact .inl rfl
    · rename_i habsent
      refine .inr ⟨rfl, fun e he => ?_, by simpa using habsent, rfl⟩
      simpa using List.find?_eq_none.mp hnone e he

theorem mapEntry_slots {k : Kernel} {above : List (Word × Word)} {entry value : Word} :
    (mapEntry k above entry value).2.slots = k.slots := by
  unfold mapEntry
  split
  · rfl
  · split <;> rfl

/-- The loop of `x86_64_pdpt_map`: entries 256 to 511, counted from `pml4e` on,
become those of the current root. -/
def copyKernelHalf (memory : Word → Word) (pml4e current : Word) : Word → Word :=
  (List.range 256).foldl (fun memory i =>
    let offset := 8#64 * BitVec.ofNat 64 (256 + i)
    Function.update memory (pml4e + offset) (memory (current + offset))) memory

section

variable (dm : DirectMap) (k : Kernel) (cte vspace vaddr attr : Word)

/-- `x86_64_pdpt_map`. -/
def pdptMap : Reply × Kernel :=
  let root := capPtr (k.slots vspace).cap
  let pdpt := dm.physicalOf (capPtr (k.slots cte).cap)
  let pml4e := getPml4e dm root (maskLow vaddr 39)
  let k := { k with memory := copyKernelHalf k.memory pml4e (getPml4e dm k.vmRoot 0#64) }
  mapEntry k [] pml4e (pdpt ||| ptePresent ||| pteWrite ||| pteUser)

/-- `x86_64_pd_map`. -/
def pdMap : Reply × Kernel :=
  let vaddr := maskLow vaddr 30
  let root := capPtr (k.slots vspace).cap
  let pd := dm.physicalOf (capPtr (k.slots cte).cap)
  mapEntry k [(getPml4e dm root vaddr, 3#64)] (getPdpte dm k.memory root vaddr)
    (pd ||| ptePresent ||| pteWrite ||| pteUser)

/-- `x86_64_pt_map`. -/
def ptMap : Reply × Kernel :=
  let vaddr := maskLow vaddr 21
  let root := capPtr (k.slots vspace).cap
  let pt := dm.physicalOf (capPtr (k.slots cte).cap)
  mapEntry k [(getPml4e dm root vaddr, 3#64), (getPdpte dm k.memory root vaddr, 2#64)]
    (getPde dm k.memory root vaddr) (pt ||| ptePresent ||| pteWrite ||| pteUser)

/-- `x86_64_page_map`. -/
def pageMap : Reply × Kernel :=
  let root := capPtr (k.slots vspace).cap
  let page := dm.physicalOf (capPtr (k.slots cte).cap)
  mapEntry k [(getPml4e dm root vaddr, 3#64), (getPdpte dm k.memory root vaddr, 2#64),
      (getPde dm k.memory root vaddr, 1#64)]
    (getPte dm k.memory root vaddr) (page ||| ptePresent ||| pteUser ||| attr)

/-- `x86_64_huge_page_map`. -/
def hugePageMap : Reply × Kernel :=
  let root := capPtr (k.slots vspace).cap
  let page := dm.physicalOf (capPtr (k.slots cte).cap)
  mapEntry k [(getPml4e dm root vaddr, 3#64), (getPdpte dm k.memory root vaddr, 2#64)]
    (getPde dm k.memory root vaddr) (page ||| ptePresent ||| pteUser ||| attr)

end

/-! ## The copy of the kernel half -/

section

variable {α : Type} [DecidableEq α] {β : Type} {dst src : Nat → α}

/-- Copy the words from `src i` to `dst i`, for each `i` in turn. -/
def copyWords (dst src : Nat → α) (l : List Nat) (m : α → β) : α → β :=
  l.foldl (fun m i => Function.update m (dst i) (m (src i))) m

theorem copyWords_cons (i : Nat) (l : List Nat) (m : α → β) :
    copyWords dst src (i :: l) m = copyWords dst src l (Function.update m (dst i) (m (src i))) := rfl

theorem copyWords_of_ne {l : List Nat} {a : α} (ha : ∀ i ∈ l, dst i ≠ a) (m : α → β) :
    copyWords dst src l m a = m a := by
  induction l generalizing m with
  | nil => rfl
  | cons i l ih =>
    have hi : a ≠ dst i := (ha i List.mem_cons_self).symm
    have hrest := ih (fun j hj => ha j (List.mem_cons_of_mem i hj))
      (Function.update m (dst i) (m (src i)))
    exact hrest.trans (Function.update_of_ne hi _ _)

/-- Copying to different places changes nothing exactly if every word is already
where it is copied to. -/
theorem copyWords_eq_self_iff {l : List Nat} (hl : l.Pairwise fun i j => dst i ≠ dst j)
    (m : α → β) : copyWords dst src l m = m ↔ ∀ i ∈ l, m (dst i) = m (src i) := by
  induction l generalizing m with
  | nil => simp [copyWords]
  | cons i l ih =>
    obtain ⟨hi, hl⟩ := List.pairwise_cons.mp hl
    have hstep : copyWords dst src (i :: l) m = _ := copyWords_cons i l m
    have hid : m (dst i) = m (src i) → Function.update m (dst i) (m (src i)) = m := by
      intro h
      rw [← h, Function.update_eq_self]
    constructor
    · intro h
      have hfirst : m (dst i) = m (src i) := by
        have hkept : copyWords dst src l (Function.update m (dst i) (m (src i))) (dst i) = _ :=
          copyWords_of_ne (fun j hj => (hi j hj).symm) _
        rw [← hstep, h, Function.update_self] at hkept
        exact hkept
      rw [hstep, hid hfirst] at h
      intro j hj
      rcases List.mem_cons.mp hj with rfl | hj
      · exact hfirst
      · exact (ih hl m).mp h j hj
    · intro h
      rw [hstep, hid (h i List.mem_cons_self)]
      exact (ih hl m).mpr fun j hj => h j (List.mem_cons_of_mem i hj)

end

/-- The offset of entry `256 + i` of a table. -/
def kernelEntry (i : Nat) : Word := 8#64 * BitVec.ofNat 64 (256 + i)

theorem kernelEntry_inj {i j : Nat} (hi : i < 256) (hj : j < 256)
    (h : kernelEntry i = kernelEntry j) : i = j := by
  have hnat := congrArg BitVec.toNat h
  simp only [kernelEntry, BitVec.toNat_mul, BitVec.toNat_ofNat] at hnat
  omega

theorem copyKernelHalf_eq (memory : Word → Word) (pml4e current : Word) :
    copyKernelHalf memory pml4e current =
      copyWords (pml4e + kernelEntry ·) (current + kernelEntry ·) (List.range 256) memory := rfl

theorem copyKernelHalf_eq_self_iff (memory : Word → Word) (pml4e current : Word) :
    copyKernelHalf memory pml4e current = memory ↔
      ∀ i < 256, memory (pml4e + kernelEntry i) = memory (current + kernelEntry i) := by
  have hdistinct : (List.range 256).Pairwise fun i j => pml4e + kernelEntry i ≠ pml4e + kernelEntry j := by
    refine List.Pairwise.imp_of_mem (R := (· < ·)) ?_ List.pairwise_lt_range
    intro i j hi hj hlt heq
    have := kernelEntry_inj (List.mem_range.mp hi) (List.mem_range.mp hj) (add_left_cancel heq)
    omega
  rw [copyKernelHalf_eq, copyWords_eq_self_iff hdistinct]
  simp only [List.mem_range]

/-- The rest of the kernel half is there already once its first entry is copied. -/
theorem copyKernelHalf_of_rest {memory memory' : Word → Word} {pml4e current : Word}
    (hfirst : memory' = Function.update memory (pml4e + kernelEntry 0) (memory (current + kernelEntry 0)))
    (hrest : ∀ i < 256, memory' (pml4e + kernelEntry i) = memory' (current + kernelEntry i)) :
    copyKernelHalf memory pml4e current = memory' := by
  have hsplit : ∀ m, copyKernelHalf m pml4e current =
      copyWords (pml4e + kernelEntry ·) (current + kernelEntry ·) ((List.range 255).map Nat.succ)
        (Function.update m (pml4e + kernelEntry 0) (m (current + kernelEntry 0))) := by
    intro m
    rw [copyKernelHalf_eq, List.range_succ_eq_map, copyWords_cons]
  have hself : Function.update memory' (pml4e + kernelEntry 0) (memory' (current + kernelEntry 0)) =
      memory' := by
    rw [← hrest 0 (by decide), Function.update_eq_self]
  calc copyKernelHalf memory pml4e current = copyKernelHalf memory' pml4e current := by
        rw [hsplit memory, hsplit memory', hself, hfirst]
    _ = memory' := (copyKernelHalf_eq_self_iff _ _ _).mpr hrest

/-- The copied entries lie behind the first one, so they are other entries. -/
theorem copyKernelHalf_self (memory : Word → Word) (pml4e current : Word) :
    copyKernelHalf memory pml4e current pml4e = memory pml4e := by
  rw [copyKernelHalf_eq]
  refine copyWords_of_ne (fun i hi => ?_) memory
  have hi := List.mem_range.mp hi
  intro e
  have hzero : kernelEntry i = 0#64 := by simpa using congrArg (fun w => w - pml4e) e
  have hnat := congrArg BitVec.toNat hzero
  simp only [kernelEntry, BitVec.toNat_mul, BitVec.toNat_ofNat] at hnat
  omega

/-! ## I/O ports -/

/-- `cap_x86_64_io_port_first_port`. -/
def firstPort (c : Cap) : BitVec 16 := c.ptr.setWidth 16

/-- `cap_x86_64_io_port_last_port`. -/
def lastPort (c : Cap) : BitVec 16 := c.badge.setWidth 16

/-- `x86_64_io_port_range_check`: the reply that reports the error, if any. -/
def ioPortRangeCheck (c : Cap) (port size : Word) : Option Reply :=
  let first := (firstPort c).setWidth 64
  let last := (lastPort c).setWidth 64
  if port < first ∨ last + 1#64 < port + size then some (.rangeError first last) else none

/-- The `width` low bytes of a value. -/
def lowBytes (v : BitVec 32) (width : Nat) : BitVec 32 := v &&& BitVec.ofNat 32 (2 ^ (8 * width) - 1)

/-- `x86_64_io_port_in8`, `in16` and `in32`; each checks the range for size 1. -/
def ioPortIn (P : Platform) (width : Nat) (k : Kernel) (slot port : Word) : Reply × Kernel :=
  match ioPortRangeCheck (k.slots slot).cap port 1#64 with
  | some e => (e, k)
  | none =>
    let port : BitVec 16 := port.setWidth 16
    let value := lowBytes (P.portValue k.portAccesses port) width
    let accesses := ⟨port, width, none⟩ :: k.portAccesses
    (.okWith [value.setWidth 64], { k with portAccesses := accesses })

/-- `x86_64_io_port_out8`, `out16` and `out32`. -/
def ioPortOut (width : Nat) (k : Kernel) (slot port value : Word) : Reply × Kernel :=
  match ioPortRangeCheck (k.slots slot).cap port 1#64 with
  | some e => (e, k)
  | none =>
    let written := lowBytes (value.setWidth 32) width
    let accesses := ⟨port.setWidth 16, width, some written⟩ :: k.portAccesses
    (.ok, { k with portAccesses := accesses })

/-- `x86_64_io_port_control_issue`. -/
def ioPortControlIssue (s : Slots) (firstPort lastPort : BitVec 16) (root index : Word)
    (depth : BitVec 8) : Result (Reply × Slots) :=
  withSlot s root index depth fun dest =>
    return (.ok, s.setCap dest (newX86IoPortCap firstPort lastPort))

/-! ## Interrupts -/

/-- `&irq_handlers[irq]`. -/
def irqHandlerAt (P : Platform) (irq : Word) : Word := P.irqHandlers + 24#64 * irq

def setIrqHandler (k : Kernel) (data : Word) (d : IrqHandlerData) : Kernel :=
  { k with irqHandlers := Function.update k.irqHandlers data d }

def maskIrq (k : Kernel) (irq : BitVec 32) : Kernel :=
  { k with irqMasked := Function.update k.irqMasked irq true }

def unmaskIrq (k : Kernel) (irq : BitVec 32) : Kernel :=
  { k with irqMasked := Function.update k.irqMasked irq false }

def irqControlGet (P : Platform) (k : Kernel) (irq root index : Word) (depth : BitVec 8) :
    Result (Reply × Kernel) := do
  match ← lookupCapSlot k.slots root index (depth.setWidth 64) with
  | .error e => return (e, k)
  | .ok result =>
    if (k.slots result).cap.type ≠ .null then return (.deleteFirst, k)
    if 16#64 ≤ irq then return (.invalidArgument 0#64, k)
    if bit irq &&& k.irqHandlersIssued ≠ 0#64 then return (.invalidArgument 0#64, k)
    let data := irqHandlerAt P irq
    let c ← capSetPtr (newIrqHandlerCap irq) data
    let k := { k with
      irqHandlersIssued := k.irqHandlersIssued ||| bit irq
      slots := k.slots.setCap result c }
    return (.ok, setIrqHandler k data { k.irqHandlers data with irq := irq.setWidth 32 })

/-- A line is handed out once, or nothing happens. -/
theorem irqControlGet_cases {P : Platform} {k k' : Kernel} {irq root index : Word}
    {depth : BitVec 8} {r : Reply} (h : irqControlGet P k irq root index depth = .ok (r, k')) :
    (r.isOk = false ∧ k' = k) ∨
      ∃ dest, lookupCapSlot k.slots root index (depth.setWidth 64) = .ok (.ok dest) ∧
        (k.slots dest).cap.type = .null ∧ irq < 16#64 ∧ isSafeCapPtr (irqHandlerAt P irq) = true ∧
        r = .ok ∧ k' = setIrqHandler { k with
          irqHandlersIssued := k.irqHandlersIssued ||| bit irq
          slots := k.slots.setCap dest ((newIrqHandlerCap irq).withPtr (irqHandlerAt P irq)) }
          (irqHandlerAt P irq)
          { k.irqHandlers (irqHandlerAt P irq) with irq := irq.setWidth 32 } := by
  simp only [irqControlGet, bind_eq_ok] at h
  obtain ⟨x, hfound, h⟩ := h
  cases x with
  | error e =>
    have he := lookupCapSlot_error hfound
    cases h
    exact .inl ⟨he, rfl⟩
  | ok dest =>
    dsimp only at h
    split at h
    · cases h
      exact .inl ⟨rfl, rfl⟩
    rename_i hnull
    split at h
    · cases h
      exact .inl ⟨rfl, rfl⟩
    rename_i hline
    split at h
    · cases h
      exact .inl ⟨rfl, rfl⟩
    simp only [bind_eq_ok, capSetPtr_eq_ok, pure_eq_ok, Prod.mk.injEq] at h
    obtain ⟨c, ⟨hsafe, rfl⟩, rfl, rfl⟩ := h
    exact .inr ⟨dest, hfound, not_not.mp hnull, BitVec.not_le.mp hline, hsafe, rfl, rfl⟩

def irqHandlerClear (k : Kernel) (obj : Word) : Reply × Kernel :=
  let data := capPtr (k.slots obj).cap
  (.ok, setIrqHandler k data { k.irqHandlers data with n := none })

def irqHandlerAck (k : Kernel) (obj : Word) : Reply × Kernel :=
  let data := capPtr (k.slots obj).cap
  let k := unmaskIrq k (k.irqHandlers data).irq
  (.ok, setIrqHandler k data { k.irqHandlers data with inService := false })

def irqHandlerSetNotification (k : Kernel) (obj notification : Word) : Reply × Kernel :=
  let data := capPtr (k.slots obj).cap
  let n := pointer (capPtr (k.slots notification).cap)
  let badge := (k.slots notification).cap.badge
  let k := setIrqHandler k data { k.irqHandlers data with n, badge }
  (.ok, unmaskIrq k (k.irqHandlers data).irq)

def handleIrq (P : Platform) (k : Kernel) (irq : Word) : Result Kernel :=
  let handler := irqHandlerAt P irq
  let data := k.irqHandlers handler
  match data.n with
  | none => .ok k
  | some n =>
    if data.inService then .ok k
    else
      let k := maskIrq k data.irq
      notificationSignal (setIrqHandler k handler { data with inService := true }) n data.badge

end Tern
