import Tern.Devices

/-! The method dispatcher: which type of capability a method is invoked on, how
many message registers and capabilities it takes, and the checks made before
its handler runs. -/

namespace Tern

open Cdt

/-- `enum method_id`, without the invalid one. -/
inductive Method
  | cnodeCopy | cnodeDelete | cnodeMint | cnodeRevoke | cnodeDebugPrint | cnodeDebugGet
  | tcbConfigure | tcbReadRegisters | tcbResume | tcbBindNotification | tcbSetTlsBase
  | tcbSuspend | tcbWriteRegisters | tcbSetDebug | tcbSetName
  | untypedRetype
  | ioPortIn8 | ioPortIn16 | ioPortIn32 | ioPortOut8 | ioPortOut16 | ioPortOut32
  | ioPortControlIssue
  | pdptMap | pdMap | ptMap | pageMap | hugePageMap
  | irqControlGet | irqHandlerAck | irqHandlerClear | irqHandlerSetNotification
  deriving DecidableEq, Repr

/-- The method of a label, which counts from 1. -/
def Method.ofLabel? (label : BitVec 50) : Option Method :=
  [none, some .cnodeCopy, some .cnodeDelete, some .cnodeMint, some .cnodeRevoke,
    some .cnodeDebugPrint, some .cnodeDebugGet, some .tcbConfigure, some .tcbReadRegisters,
    some .tcbResume, some .tcbBindNotification, some .tcbSetTlsBase, some .tcbSuspend,
    some .tcbWriteRegisters, some .tcbSetDebug, some .tcbSetName, some .untypedRetype,
    some .ioPortIn8, some .ioPortIn16, some .ioPortIn32, some .ioPortOut8,
    some .ioPortOut16, some .ioPortOut32, some .ioPortControlIssue, some .pdptMap, some .pdMap,
    some .ptMap, some .pageMap, some .hugePageMap, some .irqControlGet, some .irqHandlerAck,
    some .irqHandlerClear, some .irqHandlerSetNotification][label.toNat]?.getD none

/-- What a method is invoked on, how many message registers it reads and how
many capabilities it takes. -/
structure Signature where
  type : CapType
  params : Nat
  caps : Nat
  deriving DecidableEq, Repr

def Method.signature : Method → Signature
  | .cnodeCopy => ⟨.cnode, 5, 1⟩
  | .cnodeDelete => ⟨.cnode, 2, 0⟩
  | .cnodeMint => ⟨.cnode, 6, 1⟩
  | .cnodeRevoke => ⟨.cnode, 2, 0⟩
  | .cnodeDebugPrint => ⟨.cnode, 0, 0⟩
  | .cnodeDebugGet => ⟨.cnode, 2, 0⟩
  | .tcbConfigure => ⟨.tcb, 2, 3⟩
  | .tcbReadRegisters => ⟨.tcb, 4, 0⟩
  | .tcbResume => ⟨.tcb, 0, 0⟩
  | .tcbBindNotification => ⟨.tcb, 0, 1⟩
  | .tcbSetTlsBase => ⟨.tcb, 1, 0⟩
  | .tcbSuspend => ⟨.tcb, 0, 0⟩
  | .tcbWriteRegisters => ⟨.tcb, 4, 0⟩
  | .tcbSetDebug => ⟨.tcb, 1, 0⟩
  | .tcbSetName => ⟨.tcb, 2, 0⟩
  | .untypedRetype => ⟨.untyped, 6, 1⟩
  | .ioPortIn8 | .ioPortIn16 | .ioPortIn32 => ⟨.x86IoPort, 1, 0⟩
  | .ioPortOut8 | .ioPortOut16 | .ioPortOut32 => ⟨.x86IoPort, 2, 0⟩
  | .ioPortControlIssue => ⟨.x86IoPortControl, 4, 1⟩
  | .pdptMap => ⟨.x86Pdpt, 2, 1⟩
  | .pdMap => ⟨.x86Pd, 2, 1⟩
  | .ptMap => ⟨.x86Pt, 2, 1⟩
  | .pageMap => ⟨.x86Page, 2, 1⟩
  | .hugePageMap => ⟨.x86HugePage, 2, 1⟩
  | .irqControlGet => ⟨.irqControl, 3, 1⟩
  | .irqHandlerAck => ⟨.irqHandler, 0, 0⟩
  | .irqHandlerClear => ⟨.irqHandler, 0, 0⟩
  | .irqHandlerSetNotification => ⟨.irqHandler, 0, 1⟩

/-! ## Handlers on the whole state -/

/-- The enumerator's value. -/
def CapType.toNat : CapType → Nat
  | .null => 0 | .endpoint => 1 | .reply => 2 | .notification => 3 | .cnode => 4 | .tcb => 5
  | .untyped => 6 | .x86IoPort => 7 | .x86IoPortControl => 8 | .x86Pml4 => 9 | .x86Pdpt => 10
  | .x86Pd => 11 | .x86Pt => 12 | .x86Page => 13 | .x86HugePage => 14 | .irqControl => 15
  | .irqHandler => 16

/-- `cap.words[0]`. -/
def Cap.word0 (c : Cap) : Word :=
  (BitVec.ofNat 5 c.type.toNat ++ c.rights ++ c.sizeBits ++ c.ptr ++ c.reserved ++
    BitVec.ofBool c.isDevice ++ BitVec.ofBool c.isOriginal : BitVec 64)

def cnodeDebugGet (s : Slots) (obj offset : Word) (depth : BitVec 8) : Result (Reply × Slots) :=
  withSlot s obj offset depth fun cte =>
    return (.okWith [(s cte).cap.word0, (s cte).cap.badge], s)

/-- A handler that works on the slots only. -/
def onSlots (k : Kernel) (x : Result (Reply × Slots)) : Result (Reply × Kernel) := do
  let (r, slots) ← x
  return (r, { k with slots })

/-- One round of the loop of `create_objects`, outside the slots: the memory is
cleared and the object initialised. -/
def initObject (k : Kernel) (type : CapType) (ptr size : Word) : Kernel :=
  let cleared (a : Word) : Bool := inMemory ptr size a
  let node : Node → Bool
    | .runnableTcbs => false
    | .run t | .sendReceive t | .endpoint t | .notification t => cleared t
  let k := { k with
    tcbs := fun t => if cleared t then {} else k.tcbs t
    notifications := fun n => if cleared n then {} else k.notifications n
    buffers := fun b => if cleared b then fun _ => 0#64 else k.buffers b
    memory := fun a => if cleared a then 0#64 else k.memory a
    nodes := k.nodes.relinked
      { next := fun x => if node x then none else k.nodes.next x
        prev := fun x => if node x then none else k.nodes.prev x } }
  match type with
  | .endpoint => initEndpoint k ptr
  | .notification => initNotification k ptr
  | _ => k

def initObjects (dm : DirectMap) (type : CapType) (objSize usableMemory : Word) :
    Nat → Kernel → Kernel
  | 0, k => k
  | i + 1, k =>
    let k := initObjects dm type objSize usableMemory i k
    initObject k type (dm.directMapOf (objPaddr objSize usableMemory i)) objSize

/-- `untyped_retype` on the whole state. -/
def retype (dm : DirectMap) (k : Kernel) (slot type sizeBits root nodeIndex : Word)
    (nodeDepth : BitVec 8) (nodeOffset numObjects : Word) : Result (Reply × Kernel) := do
  let (r, slots) ← untypedRetype dm k.slots slot type sizeBits root nodeIndex nodeDepth
    nodeOffset numObjects
  if !r.isOk then return (r, k)
  let objType ← retypeType type
  let objSize ← objectSize objType sizeBits
  let untyped := (k.slots slot).cap
  let usableMemory := capPtr untyped + alignUp untyped.badge objSize
  let k := initObjects dm objType objSize usableMemory numObjects.toNat k
  return (r, { k with slots })

/-- The handler of a method, with its message registers and capabilities. -/
def invokeMethod (P : Platform) (fuel : Nat) (k : Kernel) (slot : Word) (mr cap : Nat → Word) :
    Method → Result (Reply × Kernel)
  | .cnodeCopy => onSlots k (cnodeCopy k.slots slot (mr 0) ((mr 1).setWidth 8) (cap 0) (mr 2)
      ((mr 3).setWidth 8) (mr 4))
  | .cnodeDelete => onSlots k (cnodeDelete fuel k.slots slot (mr 0) ((mr 1).setWidth 8))
  | .cnodeMint => onSlots k (cnodeMint k.slots slot (mr 0) ((mr 1).setWidth 8) (cap 0) (mr 2)
      ((mr 3).setWidth 8) (mr 4) (mr 5))
  | .cnodeRevoke => onSlots k (cnodeRevoke fuel k.slots slot (mr 0) ((mr 1).setWidth 8))
  | .cnodeDebugPrint => .ok (.ok, k)
  | .cnodeDebugGet => onSlots k (cnodeDebugGet k.slots slot (mr 0) ((mr 1).setWidth 8))
  | .tcbConfigure => .ok (tcbConfigure k slot (cap 0) (cap 1) (cap 2))
  | .tcbReadRegisters => .ok (tcbReadRegisters k slot (mr 3))
  | .tcbResume => tcbResume k slot
  | .tcbBindNotification => .ok (tcbBindNotification k slot (cap 0))
  | .tcbSetTlsBase => .ok (tcbSetTlsBase k slot (mr 0))
  | .tcbSuspend => tcbSuspend k slot
  | .tcbWriteRegisters => .ok (tcbWriteRegisters k slot (mr 3))
  | .tcbSetDebug => .ok (tcbSetDebug k slot (mr 0))
  -- the name is only ever printed; the source copies it with the length that is given,
  -- past the end of the array if that is over 16
  | .tcbSetName => .ok (.ok, k)
  | .untypedRetype => retype P.dm k slot (mr 0) (mr 1) (cap 0) (mr 2) ((mr 3).setWidth 8) (mr 4)
      (mr 5)
  | .ioPortIn8 => .ok (ioPortIn P 1 k slot (mr 0))
  | .ioPortIn16 => .ok (ioPortIn P 2 k slot (mr 0))
  | .ioPortIn32 => .ok (ioPortIn P 4 k slot (mr 0))
  | .ioPortOut8 => .ok (ioPortOut 1 k slot (mr 0) (mr 1))
  | .ioPortOut16 => .ok (ioPortOut 2 k slot (mr 0) (mr 1))
  | .ioPortOut32 => .ok (ioPortOut 4 k slot (mr 0) (mr 1))
  | .ioPortControlIssue => onSlots k (ioPortControlIssue k.slots ((mr 0).setWidth 16)
      ((mr 1).setWidth 16) (cap 0) (mr 2) ((mr 3).setWidth 8))
  | .pdptMap => .ok (pdptMap P.dm k slot (cap 0) (mr 0))
  | .pdMap => .ok (pdMap P.dm k slot (cap 0) (mr 0))
  | .ptMap => .ok (ptMap P.dm k slot (cap 0) (mr 0))
  | .pageMap => .ok (pageMap P.dm k slot (cap 0) (mr 0) (mr 1))
  | .hugePageMap => .ok (hugePageMap P.dm k slot (cap 0) (mr 0) (mr 1))
  | .irqControlGet => irqControlGet P k (mr 0) (cap 0) (mr 1) ((mr 2).setWidth 8)
  | .irqHandlerAck => .ok (irqHandlerAck k slot)
  | .irqHandlerClear => .ok (irqHandlerClear k slot)
  | .irqHandlerSetNotification => .ok (irqHandlerSetNotification k slot (cap 0))

/-! ## The checks -/

/-- `get_mr (0)` to `get_mr (n - 1)`. -/
def getMrs (k : Kernel) (n : Nat) : Result (Nat → Word) := do
  if n = 0 then return fun _ => 0#64
  let p ← thisBuffer k
  return k.buffers p

/-- Look up `get_cap (0)` to `get_cap (n - 1)` in the thread's CSpace. -/
def lookupCaps (k : Kernel) (t : Word) : Nat → Result (Except Reply (Nat → Word))
  | 0 => .ok (.ok fun _ => 0#64)
  | i + 1 => do
    match ← lookupCaps k t i with
    | .error e => return .error e
    | .ok cap =>
      let cptr ← getCap k i
      match ← lookupCapSlot k.slots (cspaceRootOf t) cptr 64#64 with
      | .error e => return .error e
      | .ok slot => return .ok (Function.update cap i slot)

def dispatchMethod (P : Platform) (fuel : Nat) (k : Kernel) (slot : Word) (info : MessageTag) :
    Result (Reply × Kernel) := do
  match Method.ofLabel? info.label with
  | none => return (.illegalOperation, k)
  | some m =>
    let s := m.signature
    let mr ← getMrs k s.params
    if (k.slots slot).cap.type ≠ s.type then return (.illegalOperation, k)
    let length := info.length.toNat
    if length < s.params then
      return (.truncatedMessage (BitVec.ofNat 64 length) (BitVec.ofNat 64 s.params), k)
    let extra := info.extraCaps.toNat
    if extra < s.caps then
      return (.truncatedMessage (BitVec.ofNat 64 extra) (BitVec.ofNat 64 s.caps), k)
    let t ← thisTcb k
    match ← lookupCaps k t s.caps with
    | .error e => return (e, k)
    | .ok cap => invokeMethod P fuel k slot mr cap m

/-! ## What gets past the checks -/

theorem onSlots_eq_ok {k k' : Kernel} {x : Result (Reply × Slots)} {r : Reply} :
    onSlots k x = .ok (r, k') ↔ ∃ slots, x = .ok (r, slots) ∧ k' = { k with slots } := by
  simp only [onSlots, bind_eq_ok, pure_eq_ok, Prod.mk.injEq]
  constructor
  · rintro ⟨⟨r', slots⟩, hx, rfl, rfl⟩
    exact ⟨slots, hx, rfl⟩
  · rintro ⟨slots, hx, rfl⟩
    exact ⟨⟨r, slots⟩, hx, rfl, rfl⟩

/-- The dispatcher's own checks pass, with these message registers and slots. -/
structure Admitted (k : Kernel) (slot : Word) (info : MessageTag) (m : Method)
    (mr cap : Nat → Word) : Prop where
  label : Method.ofLabel? info.label = some m
  registers : getMrs k m.signature.params = .ok mr
  type : (k.slots slot).cap.type = m.signature.type
  length : m.signature.params ≤ info.length.toNat
  extra : m.signature.caps ≤ info.extraCaps.toNat
  caps : ∃ t, k.currentTcb = some t ∧ lookupCaps k t m.signature.caps = .ok (.ok cap)

theorem lookupCaps_error {k : Kernel} {t : Word} {n : Nat} {e : Reply}
    (h : lookupCaps k t n = .ok (.error e)) : e.isOk = false := by
  induction n generalizing e with
  | zero => cases h
  | succ n ih =>
    simp only [lookupCaps, bind_eq_ok] at h
    obtain ⟨x, hx, h⟩ := h
    cases x with
    | error e' =>
      cases h
      exact ih hx
    | ok cap =>
      simp only [bind_eq_ok] at h
      obtain ⟨cptr, -, y, hy, h⟩ := h
      cases y with
      | error e' =>
        cases h
        exact lookupCapSlot_error hy
      | ok slot => cases h

/-- Once its checks pass, the dispatcher is the handler. -/
theorem dispatchMethod_of_admitted {P : Platform} {fuel : Nat} {k : Kernel} {slot : Word}
    {info : MessageTag} {m : Method} {mr cap : Nat → Word} (h : Admitted k slot info m mr cap) :
    dispatchMethod P fuel k slot info = invokeMethod P fuel k slot mr cap m := by
  obtain ⟨t, ht, hcaps⟩ := h.caps
  have hlen := Nat.not_lt.mpr h.length
  have hextra := Nat.not_lt.mpr h.extra
  simp [dispatchMethod, h.label, h.registers, h.type, hlen, hextra, thisTcb, ht, hcaps, deref,
    bind, Except.bind]

/-- The dispatcher answers with an error and changes nothing, or its checks pass
and it is the handler. -/
theorem dispatchMethod_cases {P : Platform} {fuel : Nat} {k k' : Kernel} {slot : Word}
    {info : MessageTag} {r : Reply} (h : dispatchMethod P fuel k slot info = .ok (r, k')) :
    (k' = k ∧ r.isOk = false) ∨ ∃ m mr cap, Admitted k slot info m mr cap ∧
      invokeMethod P fuel k slot mr cap m = .ok (r, k') := by
  unfold dispatchMethod at h
  cases hm : Method.ofLabel? info.label with
  | none =>
    simp only [hm] at h
    cases h
    exact .inl ⟨rfl, rfl⟩
  | some m =>
    simp only [hm, bind_eq_ok] at h
    obtain ⟨mr, hmr, h⟩ := h
    split at h
    · cases h
      exact .inl ⟨rfl, rfl⟩
    rename_i htype
    split at h
    · cases h
      exact .inl ⟨rfl, rfl⟩
    rename_i hlen
    split at h
    · cases h
      exact .inl ⟨rfl, rfl⟩
    rename_i hextra
    simp only [bind_eq_ok] at h
    obtain ⟨t, ht, x, hx, h⟩ := h
    cases x with
    | error e =>
      cases h
      exact .inl ⟨rfl, lookupCaps_error hx⟩
    | ok cap =>
      exact .inr ⟨m, mr, cap, ⟨hm, hmr, not_not.mp htype, Nat.not_lt.mp hlen,
        Nat.not_lt.mp hextra, t, (deref_eq_ok _ _).mp ht, hx⟩, h⟩

end Tern
