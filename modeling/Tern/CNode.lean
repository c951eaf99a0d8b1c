import Tern.Cdt

/-! Slot lookup in CNodes and the CNode methods, and the three copies that
`tcb_configure` makes into the slots of a TCB. A handler answers with a reply
and the new slots; `Halt` stands for a failed assertion. -/

namespace Tern

open Cdt

/-- `sizeof (struct cte)`. -/
def cteSize : Word := 32#64

def slotAt (cnode index : Word) : Word := cnode + cteSize * index

/-- The root CNode in the kernel image. -/
def initCnode : Word := 0xFFFFFFFF80100000#64

/-- Slot `i` of the root CNode. -/
def initSlot (i : Nat) : Word := slotAt initCnode (BitVec.ofNat 64 i)

/-- `lookup_cap_slot_raw`: the slot, or the error code. -/
def lookupCapSlotRaw (s : Slots) (cspaceRoot index depth : Word) :
    Result (Except ErrorCode Word) := do
  assert (depth == 64#64)
  if (s cspaceRoot).cap.type ≠ .cnode then
    return .error .invalidRoot
  let cte := capPtr (s cspaceRoot).cap
  let length := capSize (s cspaceRoot).cap
  if length ≤ index then
    return .error .rangeError
  return .ok (slotAt cte index)

/-- `lookup_cap_slot`: the slot, or the reply that reports the error. -/
def lookupCapSlot (s : Slots) (cspaceRoot index depth : Word) : Result (Except Reply Word) := do
  match ← lookupCapSlotRaw s cspaceRoot index depth with
  | .ok slot => return .ok slot
  | .error .invalidRoot => return .error .invalidRoot
  | .error _ => return .error (.rangeError 0#64 (capSize (s cspaceRoot).cap))

def cteFor (s : Slots) (rootCnode index depth : Word) : Result Word := do
  assert (depth == 64#64)
  let cte := capPtr (s rootCnode).cap
  assert (decide (index < capSize (s rootCnode).cap))
  return slotAt cte index

/-- Continue with the looked up slot, or answer with the lookup's error: `TRY`. -/
def withSlot (s : Slots) (root index : Word) (depth : BitVec 8)
    (f : Word → Result (Reply × Slots)) : Result (Reply × Slots) := do
  match ← lookupCapSlot s root index (depth.setWidth 64) with
  | .error e => return (e, s)
  | .ok slot => f slot

/-- The result of a recursion on fuel. -/
def finished {α : Type} : Option α → Result α
  | some a => .ok a
  | none => .error .outOfFuel

def cnodeCopy (s : Slots) (obj dstOffset : Word) (dstDepth : BitVec 8) (root srcOffset : Word)
    (srcDepth : BitVec 8) (rights : Word) : Result (Reply × Slots) :=
  withSlot s obj dstOffset dstDepth fun dst =>
    withSlot s root srcOffset srcDepth fun src =>
      return copyCap s dst src rights

def cnodeMint (s : Slots) (obj dstOffset : Word) (dstDepth : BitVec 8) (root srcOffset : Word)
    (srcDepth : BitVec 8) (rights badge : Word) : Result (Reply × Slots) :=
  withSlot s obj dstOffset dstDepth fun dst =>
    withSlot s root srcOffset srcDepth fun src =>
      return mintCap s dst src badge rights

def cnodeDelete (fuel : Nat) (s : Slots) (obj offset : Word) (depth : BitVec 8) :
    Result (Reply × Slots) :=
  withSlot s obj offset depth fun cte => do
    let s ← finished (deleteCap fuel s cte)
    return (.ok, s)

def cnodeRevoke (fuel : Nat) (s : Slots) (obj offset : Word) (depth : BitVec 8) :
    Result (Reply × Slots) :=
  withSlot s obj offset depth fun cte => do
    let s ← finished (revokeCap fuel s cte)
    return (.ok, s)

/-! ## The slots of a TCB -/

/-- Addresses of the slots inside a `struct tcb` that `tcb_configure` fills. -/
def cspaceRootOf (tcb : Word) : Word := tcb + 80#64
def vspaceRootOf (tcb : Word) : Word := tcb + 112#64
def ipcBufferFrameOf (tcb : Word) : Word := tcb + 144#64

/-- The copies of `tcb_configure`, whose answers it ignores. -/
def configureSlots (s : Slots) (slot cspaceRoot vspaceRoot bufferFrame : Word) : Slots :=
  let tcb := capPtr (s slot).cap
  let s := (copyCap s (cspaceRootOf tcb) cspaceRoot capRightsAll).2
  let s := (copyCap s (vspaceRootOf tcb) vspaceRoot capRightsAll).2
  (copyCap s (ipcBufferFrameOf tcb) bufferFrame capRightsAll).2

/-! ## What the lookups return -/

theorem lookupCapSlotRaw_eq_ok {s : Slots} {root index depth slot : Word} :
    lookupCapSlotRaw s root index depth = .ok (.ok slot) ↔
      depth = 64#64 ∧ (s root).cap.type = .cnode ∧ index < capSize (s root).cap ∧
        slot = slotAt (capPtr (s root).cap) index := by
  unfold lookupCapSlotRaw
  by_cases hd : depth = 64#64
  · by_cases ht : (s root).cap.type = .cnode
    · by_cases hi : index < capSize (s root).cap
      · have hle : ¬ capSize (s root).cap ≤ index := BitVec.not_le.mpr hi
        simp [hd, ht, hi, hle, assert, bind, Except.bind, pure, Except.pure, eq_comm]
      · have hle : capSize (s root).cap ≤ index := BitVec.not_lt.mp hi
        simp [hd, ht, hi, hle, assert, bind, Except.bind, pure, Except.pure]
    · simp [hd, ht, assert, bind, Except.bind, pure, Except.pure]
  · simp [hd, assert, bind, Except.bind]

theorem lookupCapSlot_eq_ok {s : Slots} {root index depth slot : Word} :
    lookupCapSlot s root index depth = .ok (.ok slot) ↔
      lookupCapSlotRaw s root index depth = .ok (.ok slot) := by
  unfold lookupCapSlot
  rcases lookupCapSlotRaw s root index depth with h | r
  · simp [bind, Except.bind]
  · rcases r with e | a
    · cases e <;> simp [bind, Except.bind, pure, Except.pure]
    · simp [bind, Except.bind, pure, Except.pure]

theorem lookupCapSlot_error {s : Slots} {root index depth : Word} {r : Reply}
    (h : lookupCapSlot s root index depth = .ok (.error r)) : r.isOk = false := by
  simp only [lookupCapSlot, bind_eq_ok] at h
  obtain ⟨x, -, h⟩ := h
  rcases x with e | slot
  · cases e <;> cases h <;> rfl
  · cases h

theorem cteFor_eq_ok {s : Slots} {root index depth slot : Word}
    (h : cteFor s root index depth = .ok slot) :
    index < capSize (s root).cap ∧ slot = slotAt (capPtr (s root).cap) index := by
  simp only [cteFor, bind_eq_ok, assert_eq_ok, pure_eq_ok, decide_eq_true_eq] at h
  obtain ⟨-, -, -, hi, rfl⟩ := h
  exact ⟨hi, rfl⟩

theorem withSlot_of_lookup {s : Slots} {root index slot : Word} {depth : BitVec 8}
    {f : Word → Result (Reply × Slots)}
    (h : lookupCapSlot s root index (depth.setWidth 64) = .ok (.ok slot)) :
    withSlot s root index depth f = f slot := by
  simp [withSlot, h, bind, Except.bind]

/-- A handler that starts with a lookup either answers the lookup's error and
changes nothing, or goes on with the slot found. -/
theorem withSlot_cases {s t : Slots} {root index : Word} {depth : BitVec 8}
    {f : Word → Result (Reply × Slots)} {r : Reply}
    (h : withSlot s root index depth f = .ok (r, t)) :
    (t = s ∧ lookupCapSlot s root index (depth.setWidth 64) = .ok (.error r)) ∨
    ∃ slot, lookupCapSlot s root index (depth.setWidth 64) = .ok (.ok slot) ∧
      f slot = .ok (r, t) := by
  simp only [withSlot, bind_eq_ok] at h
  obtain ⟨x, hx, hf⟩ := h
  cases x with
  | error e =>
    simp only [pure_eq_ok, Prod.mk.injEq] at hf
    obtain ⟨rfl, rfl⟩ := hf
    exact .inl ⟨rfl, hx⟩
  | ok slot => exact .inr ⟨slot, hx, hf⟩

end Tern
