import Tern.CNode

/-! Untyped memory: object sizes, the creation of objects and
`untyped_retype`. Physical memory lies below `2 ^ bits` and is mapped from
`offset` on; the boot loader reports the offset, and `direct_map_of` relies on
its low bits being zero. -/

namespace Tern

open Cdt

/-- The boot loader's direct map. The end of the address space, where the
kernel image lies, is not part of it. -/
structure DirectMap where
  offset : Word
  bits : Nat
  offset_ne : offset ≠ 0#64
  aligned : 2 ^ bits ∣ offset.toNat
  below : offset.toNat + 2 ^ bits < 2 ^ 64

def DirectMap.directMapOf (dm : DirectMap) (addr : Word) : Word := addr ||| dm.offset

def DirectMap.physicalOf (dm : DirectMap) (addr : Word) : Word := addr - dm.directMapOf 0#64

/-- A direct map of 2^40 bytes at the start of the upper half. -/
def lowMap : DirectMap where
  offset := 0xFFFF800000000000#64
  bits := 40
  offset_ne := by decide
  aligned := ⟨0xFFFF80, by decide⟩
  below := by decide

/-- `object_size`; the types it does not list fail its assertion. -/
def objectSize (type : CapType) (sizeBits : Word) : Result Word :=
  match type with
  | .null => .ok 0#64
  | .tcb => .ok (bit 9#64)
  | .cnode => .ok (bit (sizeBits + 5#64))
  | .endpoint => .ok (bit 4#64)
  | .notification => .ok (bit 5#64)
  | .untyped => .ok (bit sizeBits)
  | .x86Pml4 | .x86Page | .x86Pdpt | .x86Pd | .x86Pt => .ok (bit 12#64)
  | .x86HugePage => .ok (bit 21#64)
  | .reply | .x86IoPort | .x86IoPortControl | .irqControl | .irqHandler => .error .panic

/-- The type argument of `untyped_retype`: a number without enumerator fails the
assertion of `object_size`. -/
def retypeType (type : Word) : Result CapType :=
  match CapType.ofWord? type with
  | some type => .ok type
  | none => .error .panic

/-- The address lies in the `size` bytes from `ptr` on. -/
def inMemory (ptr size a : Word) : Bool := decide (a - ptr < size)

/-- `memset (ptr, 0, size)` on the slots in that memory. A slot's first half is
its capability and its second half its links. -/
def clearMemory (s : Slots) (ptr size : Word) : Slots := fun a =>
  { cap := if inMemory ptr size a then {} else (s a).cap
    next := if inMemory ptr size (a + 16#64) then none else (s a).next
    prev := if inMemory ptr size (a + 16#64) then none else (s a).prev }

/-- The fields `create_objects` sets in a destination capability. -/
def Cap.retyped (c : Cap) (type : CapType) (sizeBits : Word) : Cap :=
  { c with
    type, sizeBits := sizeBits.setWidth 6, badge := 0#64, isOriginal := true,
    rights := capRightsAll.setWidth 5 }

section

variable (dm : DirectMap) (untyped : Word) (type : CapType) (sizeBits objSize destSlot0 : Word)
  (usableMemory : Word)

/-- One round of the loop of `create_objects`. -/
def createObject (destSlot objPaddr : Word) (s : Slots) : Result Slots := do
  let objPtr := dm.directMapOf objPaddr
  let s := clearMemory s objPtr objSize
  let c ← capSetPtr ((s destSlot).cap.retyped type sizeBits) objPtr
  return insertCteAfter (s.setCap destSlot c) destSlot untyped

def objPaddr (i : Nat) : Word := usableMemory + BitVec.ofNat 64 i * objSize

def destSlot (i : Nat) : Word := slotAt destSlot0 (BitVec.ofNat 64 i)

/-- `create_objects`, its first rounds. -/
def createObjects : Nat → Slots → Result Slots
  | 0, s => .ok s
  | i + 1, s => do
    let s ← createObjects i s
    createObject dm untyped type sizeBits objSize (destSlot destSlot0 i)
      (objPaddr objSize usableMemory i) s

end

def untypedRetype (dm : DirectMap) (s : Slots) (slot type sizeBits root nodeIndex : Word)
    (nodeDepth : BitVec 8) (nodeOffset numObjects : Word) : Result (Reply × Slots) := do
  let untyped := (s slot).cap
  let untypedSize := bit (untyped.sizeBits.setWidth 64)
  let type ← retypeType type
  let objSize ← objectSize type sizeBits
  let totalSize := objSize * numObjects
  let untypedOffset := alignUp untyped.badge objSize
  let availableMemory := untypedSize - untypedOffset
  if availableMemory < totalSize then
    return (.notEnoughMemory availableMemory, s)
  withSlot s root nodeIndex nodeDepth fun destCnode => do
    assert ((s destCnode).cap.type == .cnode)
    if capSize (s destCnode).cap < nodeOffset + numObjects then
      return (.rangeError 0#64 (capSize (s destCnode).cap), s)
    let destSlot0 ← cteFor s destCnode nodeOffset (nodeDepth.setWidth 64)
    assert (destSlot0 != 0#64)
    let usableMemory := capPtr untyped + untypedOffset
    let s ← createObjects dm slot type sizeBits objSize destSlot0 usableMemory numObjects.toNat s
    return (.ok, s.setCap slot { (s slot).cap with badge := untypedOffset + totalSize })

/-! ## What a retype does -/

/-- The first destination slot of a retype that finds its CNode. -/
def retypeDest (s : Slots) (root nodeIndex nodeOffset : Word) : Word :=
  slotAt (capPtr (s (slotAt (capPtr (s root).cap) nodeIndex)).cap) nodeOffset

/-- A retype that goes through, without the lookups: it has objects of size
`objSize` made in slots from `dest` on, from offset `alignUp badge objSize` of
the untyped memory on, and then moves the watermark behind them. -/
structure RetypesTo (dm : DirectMap) (s : Slots) (slot : Word) (type : CapType)
    (sizeBits objSize dest numObjects : Word) (t : Slots) : Prop where
  size : objectSize type sizeBits = .ok objSize
  room : ¬ bit ((s slot).cap.sizeBits.setWidth 64) - alignUp (s slot).cap.badge objSize
    < objSize * numObjects
  created : ∃ u, createObjects dm slot type sizeBits objSize dest
      (capPtr (s slot).cap + alignUp (s slot).cap.badge objSize) numObjects.toNat s = .ok u ∧
    t = u.setCap slot { (u slot).cap with
      badge := alignUp (s slot).cap.badge objSize + objSize * numObjects }

/-- The checks of `untyped_retype` pass, with this type, object size and
destination CNode. -/
structure RetypeAccepted (s : Slots) (slot typeArg sizeBits root nodeIndex : Word)
    (nodeDepth : BitVec 8) (nodeOffset numObjects : Word) (type : CapType)
    (objSize cnode : Word) : Prop where
  type_eq : CapType.ofWord? typeArg = some type
  size : objectSize type sizeBits = .ok objSize
  room : ¬ bit ((s slot).cap.sizeBits.setWidth 64) - alignUp (s slot).cap.badge objSize
    < objSize * numObjects
  found : lookupCapSlot s root nodeIndex (nodeDepth.setWidth 64) = .ok (.ok cnode)
  slots : ¬ capSize (s cnode).cap < nodeOffset + numObjects

theorem RetypeAccepted.unique {s : Slots} {slot typeArg sizeBits root nodeIndex : Word}
    {nodeDepth : BitVec 8} {nodeOffset numObjects : Word} {type type' : CapType}
    {objSize cnode objSize' cnode' : Word}
    (h : RetypeAccepted s slot typeArg sizeBits root nodeIndex nodeDepth nodeOffset numObjects
      type objSize cnode)
    (h' : RetypeAccepted s slot typeArg sizeBits root nodeIndex nodeDepth nodeOffset numObjects
      type' objSize' cnode') : type' = type ∧ objSize' = objSize ∧ cnode' = cnode := by
  cases h.type_eq.symm.trans h'.type_eq
  cases h.size.symm.trans h'.size
  cases h.found.symm.trans h'.found
  exact ⟨rfl, rfl, rfl⟩

/-- A retype is refused by one of its checks and changes nothing, or accepted
and carried out. -/
theorem untypedRetype_accepted {dm : DirectMap} {s t : Slots}
    {slot typeArg sizeBits root nodeIndex nodeOffset numObjects : Word} {nodeDepth : BitVec 8}
    {r : Reply}
    (h : untypedRetype dm s slot typeArg sizeBits root nodeIndex nodeDepth nodeOffset numObjects =
      .ok (r, t)) :
    (r.isOk = false ∧ t = s ∧ ∀ type objSize cnode, ¬ RetypeAccepted s slot typeArg sizeBits root
      nodeIndex nodeDepth nodeOffset numObjects type objSize cnode) ∨
    ∃ type objSize cnode, r = .ok ∧ RetypeAccepted s slot typeArg sizeBits root nodeIndex nodeDepth
      nodeOffset numObjects type objSize cnode ∧ RetypesTo dm s slot type sizeBits objSize
        (slotAt (capPtr (s cnode).cap) nodeOffset) numObjects t := by
  simp only [untypedRetype, bind_eq_ok] at h
  obtain ⟨type, htype, objSize, hsize, h⟩ := h
  have htype' : CapType.ofWord? typeArg = some type := by
    unfold retypeType at htype
    split at htype
    · cases htype; assumption
    · cases htype
  -- the arguments determine the type and the size of the objects
  have hagree : ∀ type' objSize' cnode', RetypeAccepted s slot typeArg sizeBits root nodeIndex
      nodeDepth nodeOffset numObjects type' objSize' cnode' → objSize' = objSize := by
    intro type' objSize' cnode' ha
    cases htype'.symm.trans ha.type_eq
    cases hsize.symm.trans ha.size
    rfl
  split at h
  · rename_i hroom
    cases h
    refine .inl ⟨rfl, rfl, fun type' objSize' cnode' ha => ?_⟩
    obtain rfl := hagree _ _ _ ha
    exact ha.room hroom
  · rename_i hroom
    rcases withSlot_cases h with ⟨rfl, he⟩ | ⟨cnode, hcnode, h⟩
    · refine .inl ⟨lookupCapSlot_error he, rfl, fun type' objSize' cnode' ha => ?_⟩
      cases he.symm.trans ha.found
    · simp only [bind_eq_ok] at h
      obtain ⟨-, -, h⟩ := h
      split at h
      · rename_i hslots
        cases h
        refine .inl ⟨rfl, rfl, fun type' objSize' cnode' ha => ?_⟩
        cases hcnode.symm.trans ha.found
        exact ha.slots hslots
      · rename_i hslots
        simp only [bind_eq_ok, pure_eq_ok, Prod.mk.injEq] at h
        obtain ⟨dest, hdest, -, -, u, hu, rfl, rfl⟩ := h
        obtain ⟨-, rfl⟩ := cteFor_eq_ok hdest
        exact .inr ⟨type, objSize, cnode, rfl, ⟨htype', hsize, hroom, hcnode, hslots⟩,
          ⟨hsize, hroom, u, hu, rfl⟩⟩

/-- Everything `untyped_retype` can do when it returns. -/
theorem untypedRetype_cases {dm : DirectMap} {s t : Slots}
    {slot typeArg sizeBits root nodeIndex nodeOffset numObjects : Word} {nodeDepth : BitVec 8}
    {r : Reply}
    (h : untypedRetype dm s slot typeArg sizeBits root nodeIndex nodeDepth nodeOffset numObjects =
      .ok (r, t)) :
    (r.isOk = false ∧ t = s) ∨
    ∃ type objSize, r = .ok ∧ CapType.ofWord? typeArg = some type ∧
      RetypesTo dm s slot type sizeBits objSize (retypeDest s root nodeIndex nodeOffset)
        numObjects t := by
  rcases untypedRetype_accepted h with ⟨he, hsame, -⟩ | ⟨type, objSize, cnode, rfl, ha, hto⟩
  · exact .inl ⟨he, hsame⟩
  · obtain ⟨-, -, -, rfl⟩ := lookupCapSlotRaw_eq_ok.mp (lookupCapSlot_eq_ok.mp ha.found)
    exact .inr ⟨type, objSize, rfl, ha.type_eq, hto⟩

end Tern
