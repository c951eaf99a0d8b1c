import Tern.Stubs

/-! The PCI manager, a server between its clients and the configuration space of
PCI. A client without a badge has it issue endpoint capabilities for single
devices: their badge is the address of the device. The server's system calls, its
clients' requests and its replies go through one IPC buffer. -/

namespace Tern.Pci

open Lib

variable {P : Platform} {fuel : Nat} {k k' : Kernel} {p buffer b : Word} {info : MessageTag}

/-! ## Addresses -/

/-- `pci_addr`. -/
def pciAddr (bus device function : BitVec 8) (offset : BitVec 16) : BitVec 32 :=
  0x80000000#32 ||| bus.setWidth 32 <<< 16 ||| device.setWidth 32 <<< 11 |||
    function.setWidth 32 <<< 8 ||| offset.setWidth 32 &&& 0xFC#32

def pciConfigAddress : Word := 0xCF8#64
def pciConfigData : Word := 0xCFC#64

/-! ## System calls -/

/-- `enum pci_manager_caps`. -/
def pciEndpointCap : Word := 0#64
def pciPortCap : Word := 1#64
def pciCnodeCap : Word := 2#64
def pciTmpCap : Word := 3#64

/-- A stub, its system call and the label of the answer. -/
def invoke (P : Platform) (fuel : Nat) (k : Kernel) (obj : Word) (m : Method)
    (args : Args Word m.parameters) : Result (BitVec 50 × Kernel) := do
  let buffer ← thisBuffer k
  let s := m.stub args
  let (tag, k) ← opSyscall P fuel (k.afterStub buffer s) obj s.tag.toWord 2#32
  return (tag.label, k)

/-- A stub whose handler is known. -/
theorem invoke_of_handler (P : Platform) (fuel : Nat) {t obj slot : Word} {slotOf : Word → Word}
    {m : Method} (args : Args Word m.parameters) {r : Reply} (hcurrent : k.currentTcb = some t)
    (hbuffer : (k.tcbs t).ipcBuffer = some buffer)
    (hobj : lookupCapSlot k.slots (cspaceRootOf t) obj 64#64 = .ok (.ok slot))
    (htype : (k.slots slot).cap.type = m.signature.type)
    (hcaps : ∀ c ∈ args.handles,
      lookupCapSlot k.slots (cspaceRootOf t) c 64#64 = .ok (.ok (slotOf c)))
    (hhandler : m.handler P fuel (k.afterStub buffer (m.stub args)) slot (args.map slotOf) =
      .ok (r, k')) :
    invoke P fuel k obj m args = (answer k' r >>= fun x => pure (x.1.label, x.2)) := by
  have hthis : thisBuffer k = .ok buffer := by
    simp [thisBuffer, hcurrent, hbuffer]
  have hcall := stub_call P fuel m args hcurrent hbuffer hobj htype hcaps
  simp only [invoke, hthis, hcall, hhandler, bind, Except.bind]

/-- `set_cap (0, cptr)`. -/
def setCap (k : Kernel) (cptr : Word) : Result Kernel := do
  let buffer ← thisBuffer k
  return k.setBufferWord buffer (capsOrBadges 0) cptr

/-- The suffixes `b`, `w` and `l` of the functions on ports. -/
inductive Width
  | b | w | l
  deriving DecidableEq, Repr

namespace Width

def bytes : Width → Nat
  | .b => 1 | .w => 2 | .l => 4

/-- `uint8_t`, `uint16_t` or `uint32_t` of a word. -/
def cut (width : Width) (v : Word) : Word := (v.setWidth (8 * width.bytes)).setWidth 64

end Width

/-- `x86_64_io_port_out8`, `out16` and `out32` on the manager's ports; the answer is
not looked at. -/
def portOut (P : Platform) (fuel : Nat) (width : Width) (k : Kernel) (port value : Word) :
    Result Kernel := do
  let (_, k) ← match width with
    | .b => invoke P fuel k pciPortCap .ioPortOut8 (port, value, ())
    | .w => invoke P fuel k pciPortCap .ioPortOut16 (port, value, ())
    | .l => invoke P fuel k pciPortCap .ioPortOut32 (port, value, ())
  return k

/-- `x86_64_io_port_in8`, `in16` and `in32`. -/
def portIn (P : Platform) (fuel : Nat) (width : Width) (k : Kernel) (port : Word) :
    Result Kernel := do
  let (_, k) ← match width with
    | .b => invoke P fuel k pciPortCap .ioPortIn8 (port, ())
    | .w => invoke P fuel k pciPortCap .ioPortIn16 (port, ())
    | .l => invoke P fuel k pciPortCap .ioPortIn32 (port, ())
  return k

/-- `pci_read_b`, `pci_read_w` and `pci_read_l`. -/
def pciRead (P : Platform) (fuel : Nat) (width : Width) (k : Kernel) (addr : BitVec 32) :
    Result (Word × Kernel) := do
  let k ← portOut P fuel .l k pciConfigAddress (addr.setWidth 64)
  let k ← portIn P fuel width k pciConfigData
  let value ← getMr k 0
  return (width.cut value, k)

/-- `pci_write_b`, `pci_write_w` and `pci_write_l`. -/
def pciWrite (P : Platform) (fuel : Nat) (width : Width) (k : Kernel) (addr : BitVec 32)
    (value : Word) : Result Kernel := do
  let k ← portOut P fuel .l k pciConfigAddress (addr.setWidth 64)
  portOut P fuel width k pciConfigData (width.cut value)

/-! ## Requests -/

/-- `set_mr (0, x)` and a tag of length 1. -/
def answerWord (k : Kernel) (label : ErrorCode) (x : Word) : Result (MessageTag × Kernel) := do
  let k ← setMr k 0 x
  return (newMessageTag label.toWord 0 0 1, k)

/-- The first `n` quadwords of the configuration space at an address. -/
def readConfigSpace (P : Platform) (fuel : Nat) (addr : BitVec 32) :
    Nat → Kernel → Result (List Word × Kernel)
  | 0, k => .ok ([], k)
  | i + 1, k => do
    let (space, k) ← readConfigSpace P fuel addr i k
    let (low, k) ← pciRead P fuel .l k (addr + BitVec.ofNat 32 (i * 8))
    let (high, k) ← pciRead P fuel .l k (addr + BitVec.ofNat 32 (i * 8) + 4)
    return (space ++ [high <<< 32 ||| low], k)

def handleDeviceInfo (P : Platform) (fuel : Nat) (k : Kernel) (badge : Word) :
    Result (MessageTag × Kernel) := do
  let mr0 ← getMr k 0
  let pciAddress : BitVec 32 := mr0.setWidth 32
  if badge ≠ 0#64 ∧ badge ≠ pciAddress.setWidth 64 then
    return (newMessageTag ErrorCode.illegalOperation.toWord 0 0 0, k)
  let (space, k) ← readConfigSpace P fuel pciAddress 8 k
  let k ← setMrs k 0 space
  return (newMessageTag ErrorCode.noError.toWord 0 0 8, k)

def handleIssue (P : Platform) (fuel : Nat) (k : Kernel) (info : MessageTag) (badge : Word) :
    Result (MessageTag × Kernel) := do
  if badge ≠ 0#64 then
    return (newMessageTag ErrorCode.illegalOperation.toWord 0 0 0, k)
  if info.length.toNat < 1 then answerWord k .truncatedMessage 1#64
  else
    let (_, k) ← invoke P fuel k pciCnodeCap .cnodeDelete (pciTmpCap, 64#8, ())
    let mr1 ← getMr k 1
    let (_, k) ← invoke P fuel k pciCnodeCap .cnodeMint
      (pciTmpCap, 64#8, pciCnodeCap, pciEndpointCap, 64#8, capRightsAll, mr1, ())
    let k ← setCap k pciTmpCap
    return (newMessageTag ErrorCode.noError.toWord 0 1 0, k)

/-- The width that message register 1 or 2 asks for. -/
def widthOf? (w : Word) : Option Width :=
  if w = 1#64 then some .b else if w = 2#64 then some .w else if w = 4#64 then some .l else none

def handleRead (P : Platform) (fuel : Nat) (k : Kernel) (info : MessageTag) (badge : Word) :
    Result (MessageTag × Kernel) := do
  if info.length.toNat < 2 then answerWord k .truncatedMessage 2#64
  else
    let mr1 ← getMr k 1
    match widthOf? mr1 with
    | some width =>
      let mr0 ← getMr k 0
      let (value, k) ← pciRead P fuel width k ((badge ||| mr0 &&& 0xFF#64).setWidth 32)
      answerWord k .noError value
    | none => answerWord k .invalidArgument 1#64

def handleWrite (P : Platform) (fuel : Nat) (k : Kernel) (info : MessageTag) (badge : Word) :
    Result (MessageTag × Kernel) := do
  if info.length.toNat < 3 then answerWord k .truncatedMessage 3#64
  else
    let mr2 ← getMr k 2
    match widthOf? mr2 with
    | some width =>
      let mr0 ← getMr k 0
      let mr1 ← getMr k 1
      let k ← pciWrite P fuel width k ((badge ||| mr0 &&& 0xFF#64).setWidth 32) mr1
      return (newMessageTag ErrorCode.noError.toWord 0 0 0, k)
    | none => answerWord k .invalidArgument 1#64

/-- The requests for one device, of `enum pci_manager_message`. -/
inductive DeviceRequest
  | read | write | deviceInfo
  deriving DecidableEq, Repr

def handleRequest (P : Platform) (fuel : Nat) (k : Kernel) (info : MessageTag) (badge : Word) :
    DeviceRequest → Result (MessageTag × Kernel)
  | .read => handleRead P fuel k info badge
  | .write => handleWrite P fuel k info badge
  | .deviceInfo => handleDeviceInfo P fuel k badge

/-! ## The manager's own capabilities -/

/-- Slot `cptr` of the manager's CNode. -/
def pciSlot (s : Slots) (p cptr : Word) : Word := slotAt (capPtr (s (cspaceRootOf p)).cap) cptr

/-- The manager's CNode as its parent set it up: it holds the endpoint, a copy and
without a badge, the ports of PCI, the CNode itself, and in the last slot nothing or
the capability issued last. -/
structure OwnCaps (s : Slots) (p : Word) : Prop where
  root : (s (cspaceRootOf p)).cap.type = .cnode
  size : pciTmpCap < capSize (s (cspaceRootOf p)).cap
  apart : cspaceRootOf p ≠ pciSlot s p pciTmpCap
  endpoint : (s (pciSlot s p pciEndpointCap)).cap.type = .endpoint
  unbadged : (s (pciSlot s p pciEndpointCap)).cap.badge = 0#64
  copy : (s (pciSlot s p pciEndpointCap)).cap.isOriginal = false
  port : (s (pciSlot s p pciPortCap)).cap.type = .x86IoPort
  firstPort : firstPort (s (pciSlot s p pciPortCap)).cap ≤ 0xCF8#16
  lastPort : 0xCFC#16 ≤ lastPort (s (pciSlot s p pciPortCap)).cap
  cnode : (s (pciSlot s p pciCnodeCap)).cap.type = .cnode
  cnodePtr : capPtr (s (pciSlot s p pciCnodeCap)).cap = capPtr (s (cspaceRootOf p)).cap
  cnodeSize : capSize (s (pciSlot s p pciCnodeCap)).cap = capSize (s (cspaceRootOf p)).cap
  tmp : (s (pciSlot s p pciTmpCap)).cap.isOriginal = false

/-- The manager runs. -/
structure Manager (k : Kernel) (p buffer : Word) : Prop extends OwnCaps k.slots p where
  current : k.currentTcb = some p
  buffer : (k.tcbs p).ipcBuffer = some buffer

theorem slotAt_inj {cnode i j : Word} (hi : i ≤ 3#64) (hj : j ≤ 3#64)
    (h : slotAt cnode i = slotAt cnode j) : i = j := by
  have hmul : cteSize * i = cteSize * j := add_left_cancel h
  have hnat := congrArg BitVec.toNat hmul
  rw [BitVec.le_def] at hi hj
  simp only [cteSize, BitVec.toNat_mul, BitVec.toNat_ofNat] at hnat hi hj
  apply BitVec.eq_of_toNat_eq
  omega

namespace Manager

/-- Buffers and devices may change. -/
theorem congr (h : Manager k p buffer) (hslots : k'.slots = k.slots) (htcbs : k'.tcbs = k.tcbs)
    (hcurrent : k'.currentTcb = k.currentTcb) : Manager k' p buffer where
  toOwnCaps := hslots ▸ h.toOwnCaps
  current := hcurrent ▸ h.current
  buffer := htcbs ▸ h.buffer

theorem thisBuffer (h : Manager k p buffer) : thisBuffer k = .ok buffer := by
  simp [Tern.thisBuffer, h.current, h.buffer]

theorem lookup (h : Manager k p buffer) {cptr : Word} (hle : cptr ≤ pciTmpCap) :
    lookupCapSlot k.slots (cspaceRootOf p) cptr 64#64 = .ok (.ok (pciSlot k.slots p cptr)) := by
  apply lookupCapSlot_eq_ok.mpr
  have hsize := h.size
  exact lookupCapSlotRaw_eq_ok.mpr ⟨rfl, h.root, by bv_omega, rfl⟩

/-- The CNode's capability in its own slot finds the same slots. -/
theorem lookup_cnode (h : Manager k p buffer) {cptr : Word} (hle : cptr ≤ pciTmpCap) :
    lookupCapSlot k.slots (pciSlot k.slots p pciCnodeCap) cptr 64#64 =
      .ok (.ok (pciSlot k.slots p cptr)) := by
  apply lookupCapSlot_eq_ok.mpr
  refine lookupCapSlotRaw_eq_ok.mpr ⟨rfl, h.cnode, ?_, ?_⟩
  · rw [h.cnodeSize]
    have hsize := h.size
    bv_omega
  · rw [h.cnodePtr]
    rfl

/-- A stub whose handler is known. -/
theorem invoke (h : Manager k p buffer) (P : Platform) (fuel : Nat) {obj : Word} {m : Method}
    (args : Args Word m.parameters) {r : Reply} (hobj : obj ≤ pciTmpCap)
    (htype : (k.slots (pciSlot k.slots p obj)).cap.type = m.signature.type)
    (hcaps : ∀ c ∈ args.handles, c ≤ pciTmpCap)
    (hhandler : m.handler P fuel (k.afterStub buffer (m.stub args)) (pciSlot k.slots p obj)
      (args.map (pciSlot k.slots p)) = .ok (r, k')) :
    invoke P fuel k obj m args = (answer k' r >>= fun x => pure (x.1.label, x.2)) :=
  invoke_of_handler P fuel args h.current h.buffer (h.lookup hobj) htype
    (fun c hc => h.lookup (hcaps c hc)) hhandler

theorem inRange (h : Manager k p buffer) {port : Word} (hfirst : 0xCF8#64 ≤ port)
    (hlast : port ≤ 0xCFC#64) :
    ioPortRangeCheck (k.slots (pciSlot k.slots p pciPortCap)).cap port 1#64 = none := by
  have hlo := h.firstPort
  have hhi := h.lastPort
  simp only [ioPortRangeCheck, ite_eq_right_iff, reduceCtorEq, imp_false]
  generalize Tern.firstPort (k.slots (pciSlot k.slots p pciPortCap)).cap = first at *
  generalize Tern.lastPort (k.slots (pciSlot k.slots p pciPortCap)).cap = last at *
  bv_omega

theorem portOut (h : Manager k p buffer) (P : Platform) (fuel : Nat) (width : Width) {port : Word}
    (value : Word) (hfirst : 0xCF8#64 ≤ port) (hlast : port ≤ 0xCFC#64) :
    ∃ k', portOut P fuel width k port value = .ok k' ∧ Manager k' p buffer ∧
      k'.portAccesses = ⟨port.setWidth 16, width.bytes,
        some (lowBytes (value.setWidth 32) width.bytes)⟩ :: k.portAccesses := by
  have hrange := h.inRange hfirst hlast
  let after (s : Stub) : Kernel := { k.afterStub buffer s with
    portAccesses := ⟨port.setWidth 16, width.bytes,
      some (lowBytes (value.setWidth 32) width.bytes)⟩ :: k.portAccesses }
  have hout (s : Stub) : ioPortOut width.bytes (k.afterStub buffer s)
      (pciSlot k.slots p pciPortCap) port value = (.ok, after s) := by
    simp [ioPortOut, Kernel.afterStub, hrange, after]
  cases width with
  | b =>
    have hcall := h.invoke P fuel (m := .ioPortOut8) (port, value, ())
      (by decide) h.port (fun _ => (absurd · List.not_mem_nil)) (congrArg Except.ok (hout _))
    refine ⟨after (Method.ioPortOut8.stub (port, value, ())), ?_,
      h.congr rfl rfl rfl, rfl⟩
    rw [Pci.portOut, hcall]
    rfl
  | w =>
    have hcall := h.invoke P fuel (m := .ioPortOut16) (port, value, ())
      (by decide) h.port (fun _ => (absurd · List.not_mem_nil)) (congrArg Except.ok (hout _))
    refine ⟨after (Method.ioPortOut16.stub (port, value, ())), ?_,
      h.congr rfl rfl rfl, rfl⟩
    rw [Pci.portOut, hcall]
    rfl
  | l =>
    have hcall := h.invoke P fuel (m := .ioPortOut32) (port, value, ())
      (by decide) h.port (fun _ => (absurd · List.not_mem_nil)) (congrArg Except.ok (hout _))
    refine ⟨after (Method.ioPortOut32.stub (port, value, ())), ?_,
      h.congr rfl rfl rfl, rfl⟩
    rw [Pci.portOut, hcall]
    rfl

/-- One answer in message register 0. -/
theorem answer_word (h : Manager k p buffer) (x : Word) :
    answer k (.okWith [x]) = .ok ((Reply.okWith [x]).tag, k.setBufferWord buffer 0 x) := by
  simp [answer, Reply.okWith, setMrs, setMr, h.thisBuffer, bind, Except.bind, pure, Except.pure]

theorem portIn (h : Manager k p buffer) (P : Platform) (fuel : Nat) (width : Width) {port : Word}
    (hfirst : 0xCF8#64 ≤ port) (hlast : port ≤ 0xCFC#64) :
    ∃ k', portIn P fuel width k port = .ok k' ∧ Manager k' p buffer ∧
      k'.portAccesses = ⟨port.setWidth 16, width.bytes, none⟩ :: k.portAccesses ∧
      k'.buffers buffer 0 =
        (lowBytes (P.portValue k.portAccesses (port.setWidth 16)) width.bytes).setWidth 64 := by
  have hrange := h.inRange hfirst hlast
  let value := lowBytes (P.portValue k.portAccesses (port.setWidth 16)) width.bytes
  let after (s : Stub) : Kernel := { k.afterStub buffer s with
    portAccesses := ⟨port.setWidth 16, width.bytes, none⟩ :: k.portAccesses }
  have hin (s : Stub) : ioPortIn P width.bytes (k.afterStub buffer s)
      (pciSlot k.slots p pciPortCap) port = (.okWith [value.setWidth 64], after s) := by
    simp [ioPortIn, Kernel.afterStub, hrange, value, after]
  have hafter (s : Stub) : Manager (after s) p buffer := h.congr rfl rfl rfl
  have hword (s : Stub) (x : Word) : ((after s).setBufferWord buffer 0 x).buffers buffer 0 = x := by
    simp [Kernel.setBufferWord]
  cases width with
  | b =>
    have hcall := h.invoke P fuel (m := .ioPortIn8) (port, ())
      (by decide) h.port (fun _ => (absurd · List.not_mem_nil)) (congrArg Except.ok (hin _))
    rw [(hafter _).answer_word] at hcall
    refine ⟨(after (Method.ioPortIn8.stub (port, ()))).setBufferWord buffer 0 (value.setWidth 64), ?_,
      h.congr rfl rfl rfl, rfl, hword _ _⟩
    rw [Pci.portIn, hcall]
    rfl
  | w =>
    have hcall := h.invoke P fuel (m := .ioPortIn16) (port, ())
      (by decide) h.port (fun _ => (absurd · List.not_mem_nil)) (congrArg Except.ok (hin _))
    rw [(hafter _).answer_word] at hcall
    refine ⟨(after (Method.ioPortIn16.stub (port, ()))).setBufferWord buffer 0 (value.setWidth 64), ?_,
      h.congr rfl rfl rfl, rfl, hword _ _⟩
    rw [Pci.portIn, hcall]
    rfl
  | l =>
    have hcall := h.invoke P fuel (m := .ioPortIn32) (port, ())
      (by decide) h.port (fun _ => (absurd · List.not_mem_nil)) (congrArg Except.ok (hin _))
    rw [(hafter _).answer_word] at hcall
    refine ⟨(after (Method.ioPortIn32.stub (port, ()))).setBufferWord buffer 0 (value.setWidth 64), ?_,
      h.congr rfl rfl rfl, rfl, hword _ _⟩
    rw [Pci.portIn, hcall]
    rfl

end Manager

/-! ## Confinement -/

/-- The configuration space of one device is 256 bytes. -/
def SameDevice (addr : BitVec 32) (badge : Word) : Prop := addr >>> 8 = badge.setWidth 32 >>> 8

/-- The accesses, last one first, are each the write of an address of the device and
then one access of the data port. -/
inductive ConfigOnly (badge : Word) : List PortAccess → Prop
  | nil : ConfigOnly badge []
  | access {l : List PortAccess} {a : PortAccess} {addr : BitVec 32} : SameDevice addr badge →
      a.port = 0xCFC#16 → ConfigOnly badge l → ConfigOnly badge (a :: ⟨0xCF8#16, 4, some addr⟩ :: l)

theorem ConfigOnly.append {l l' : List PortAccess} (h : ConfigOnly b l) (h' : ConfigOnly b l') :
    ConfigOnly b (l ++ l') := by
  induction h with
  | nil => exact h'
  | access haddr hport _ ih => exact .access haddr hport ih

/-- From one state to the other the manager runs on, and accesses nothing but the
configuration space of the device. -/
def Confined (p buffer badge : Word) (k k' : Kernel) : Prop :=
  Manager k' p buffer ∧ ∃ l, ConfigOnly badge l ∧ k'.portAccesses = l ++ k.portAccesses

namespace Confined

variable {k₁ k₂ : Kernel}

theorem refl (h : Manager k p buffer) : Confined p buffer b k k := ⟨h, [], .nil, rfl⟩

theorem trans (h : Confined p buffer b k k₁) (h' : Confined p buffer b k₁ k₂) :
    Confined p buffer b k k₂ := by
  obtain ⟨-, l, hl, heq⟩ := h
  obtain ⟨hm, l', hl', heq'⟩ := h'
  exact ⟨hm, l' ++ l, hl'.append hl, by rw [heq', heq, List.append_assoc]⟩

theorem setMr (h : Confined p buffer b k k₁) (i : Nat) (x : Word) :
    ∃ k₂, setMr k₁ i x = .ok k₂ ∧ Confined p buffer b k k₂ := by
  refine ⟨k₁.setBufferWord buffer i x, ?_, h.1.congr rfl rfl rfl, h.2⟩
  simp [Tern.setMr, h.1.thisBuffer, bind, Except.bind, pure, Except.pure]

theorem setMrs (h : Confined p buffer b k k₁) (i : Nat) (xs : List Word) :
    ∃ k₂, setMrs k₁ i xs = .ok k₂ ∧ Confined p buffer b k k₂ := by
  induction xs generalizing k₁ i with
  | nil => exact ⟨k₁, rfl, h⟩
  | cons x xs ih =>
    obtain ⟨k₂, hk₂, h₂⟩ := h.setMr i x
    obtain ⟨k₃, hk₃, h₃⟩ := ih h₂ (i + 1)
    exact ⟨k₃, by simp [Tern.setMrs, hk₂, hk₃, bind, Except.bind], h₃⟩

theorem answerWord (h : Confined p buffer b k k₁) (label : ErrorCode) (x : Word) :
    ∃ tag k₂, answerWord k₁ label x = .ok (tag, k₂) ∧ Confined p buffer b k k₂ := by
  obtain ⟨k₂, hk₂, h₂⟩ := h.setMr 0 x
  exact ⟨_, k₂, by rw [Pci.answerWord, hk₂]; rfl, h₂⟩

end Confined

theorem Manager.getMr (h : Manager k p buffer) (i : Nat) : getMr k i = .ok (k.buffers buffer i) := by
  simp [Tern.getMr, h.thisBuffer, bind, Except.bind, pure, Except.pure]

/-- An address survives the passage through a register and a 32-bit port. -/
theorem lowBytes_addr (addr : BitVec 32) :
    lowBytes ((addr.setWidth 64).setWidth 32) Width.l.bytes = addr := by
  have hones : BitVec.ofNat 32 (2 ^ (8 * Width.l.bytes) - 1) = BitVec.allOnes 32 := by decide
  rw [lowBytes, hones, BitVec.and_allOnes]
  simp

theorem pciRead_confined (h : Manager k p buffer) (P : Platform) (fuel : Nat) (width : Width)
    {addr : BitVec 32} (haddr : SameDevice addr b) :
    ∃ value k', pciRead P fuel width k addr = .ok (value, k') ∧ Confined p buffer b k k' := by
  have hfirst : 0xCF8#64 ≤ pciConfigAddress := by decide
  have hlast : 0xCF8#64 ≤ pciConfigData := by decide
  obtain ⟨k₁, hk₁, h₁, hout⟩ := h.portOut P fuel .l (addr.setWidth 64) hfirst (by decide)
  obtain ⟨k₂, hk₂, h₂, hin, -⟩ := h₁.portIn P fuel width hlast (by decide)
  rw [hout, lowBytes_addr] at hin
  refine ⟨width.cut (k₂.buffers buffer 0), k₂, ?_, h₂, _, .access haddr ?_ .nil, hin⟩
  · simp [pciRead, hk₁, hk₂, h₂.getMr, bind, Except.bind, pure, Except.pure]
  · show pciConfigData.setWidth 16 = 0xCFC#16
    decide

theorem pciWrite_confined (h : Manager k p buffer) (P : Platform) (fuel : Nat) (width : Width)
    {addr : BitVec 32} (value : Word) (haddr : SameDevice addr b) :
    ∃ k', pciWrite P fuel width k addr value = .ok k' ∧ Confined p buffer b k k' := by
  have hfirst : 0xCF8#64 ≤ pciConfigAddress := by decide
  have hlast : 0xCF8#64 ≤ pciConfigData := by decide
  obtain ⟨k₁, hk₁, h₁, hout⟩ := h.portOut P fuel .l (addr.setWidth 64) hfirst (by decide)
  obtain ⟨k₂, hk₂, h₂, hdata⟩ := h₁.portOut P fuel width (width.cut value) hlast (by decide)
  rw [hout, lowBytes_addr] at hdata
  refine ⟨k₂, ?_, h₂, _, .access haddr ?_ .nil, hdata⟩
  · simp [pciWrite, hk₁, hk₂, bind, Except.bind]
  · show pciConfigData.setWidth 16 = 0xCFC#16
    decide

/-- The offset that a request gives stays inside the device. -/
theorem sameDevice_offset (badge offset : Word) :
    SameDevice ((badge ||| offset &&& 0xFF#64).setWidth 32) badge := by
  apply BitVec.eq_of_getLsbD_eq
  intro i hi
  have hmask : (0xFF#64).getLsbD (8 + i) = false := by
    have hlt : 255 < 2 ^ (8 + i) := by
      rw [Nat.pow_add]
      have hpos := Nat.two_pow_pos i
      omega
    rw [BitVec.getLsbD_ofNat, Nat.testBit_lt_two_pow hlt, Bool.and_false]
  simp only [BitVec.getLsbD_ushiftRight, BitVec.getLsbD_setWidth, BitVec.getLsbD_or,
    BitVec.getLsbD_and, hmask, Bool.and_false, Bool.or_false]

theorem handleRead_confined (h : Manager k p buffer) (info : MessageTag) (badge : Word) :
    ∃ tag k', handleRead P fuel k info badge = .ok (tag, k') ∧ Confined p buffer badge k k' := by
  unfold handleRead
  split
  · exact (Confined.refl h).answerWord _ _
  · simp only [h.getMr, bind, Except.bind]
    split
    · next width _ =>
      obtain ⟨value, k₁, hk₁, h₁⟩ := pciRead_confined h P fuel width
        (sameDevice_offset badge (k.buffers buffer 0))
      simp only [hk₁]
      exact h₁.answerWord _ _
    · exact (Confined.refl h).answerWord _ _

theorem handleWrite_confined (h : Manager k p buffer) (info : MessageTag) (badge : Word) :
    ∃ tag k', handleWrite P fuel k info badge = .ok (tag, k') ∧ Confined p buffer badge k k' := by
  unfold handleWrite
  split
  · exact (Confined.refl h).answerWord _ _
  · simp only [h.getMr, bind, Except.bind]
    split
    · next width _ =>
      obtain ⟨k₁, hk₁, h₁⟩ := pciWrite_confined h P fuel width
        (k.buffers buffer 1) (sameDevice_offset badge (k.buffers buffer 0))
      simp only [hk₁]
      exact ⟨_, k₁, rfl, h₁⟩
    · exact (Confined.refl h).answerWord _ _

theorem readConfigSpace_confined (h : Manager k p buffer) (P : Platform) (fuel : Nat)
    {addr : BitVec 32} (haddr : ∀ i < 64, SameDevice (addr + BitVec.ofNat 32 i) b) (n : Nat) (hn : n ≤ 8) :
    ∃ space k', readConfigSpace P fuel addr n k = .ok (space, k') ∧ Confined p buffer b k k' := by
  induction n with
  | zero => exact ⟨[], k, rfl, .refl h⟩
  | succ n ih =>
    obtain ⟨space, k₁, hk₁, h₁⟩ := ih (by omega)
    obtain ⟨low, k₂, hk₂, h₂⟩ := pciRead_confined h₁.1 P fuel .l
      (haddr (n * 8) (by omega))
    have hhigh : addr + BitVec.ofNat 32 (n * 8) + 4 = addr + BitVec.ofNat 32 (n * 8 + 4) := by
      rw [BitVec.ofNat_add, BitVec.add_assoc]
      rfl
    obtain ⟨high, k₃, hk₃, h₃⟩ := pciRead_confined h₂.1 P fuel .l
      (hhigh ▸ haddr (n * 8 + 4) (by omega))
    refine ⟨space ++ [high <<< 32 ||| low], k₃, ?_, (h₁.trans h₂).trans h₃⟩
    simp only [readConfigSpace, hk₁, hk₂, hk₃, bind, Except.bind]
    rfl

/-- The 64 bytes from a badge on are in one configuration space, if its low byte leaves
room for them. -/
theorem sameDevice_near {badge : Word} (hroom : badge.toNat % 256 + 64 ≤ 256) {i : Nat}
    (hi : i < 64) : SameDevice (badge.setWidth 32 + BitVec.ofNat 32 i) badge := by
  apply BitVec.eq_of_toNat_eq
  simp only [BitVec.toNat_ushiftRight, BitVec.toNat_add, BitVec.toNat_setWidth, BitVec.toNat_ofNat,
    Nat.shiftRight_eq_div_pow]
  omega

theorem handleDeviceInfo_confined (h : Manager k p buffer) {badge : Word} (hbadge : badge ≠ 0#64)
    (hroom : badge.toNat % 256 + 64 ≤ 256) :
    ∃ tag k', handleDeviceInfo P fuel k badge = .ok (tag, k') ∧ Confined p buffer badge k k' := by
  unfold handleDeviceInfo
  simp only [h.getMr, bind, Except.bind]
  split
  · exact ⟨_, k, rfl, .refl h⟩
  · next hsame =>
    have heq : badge = ((k.buffers buffer 0).setWidth 32).setWidth 64 := by
      by_contra hne
      exact hsame ⟨hbadge, hne⟩
    have htrunc : (k.buffers buffer 0).setWidth 32 = badge.setWidth 32 := by
      rw [heq]
      simp
    have haddr : ∀ i < 64, SameDevice ((k.buffers buffer 0).setWidth 32 + BitVec.ofNat 32 i) badge := by
      intro i hi
      rw [htrunc]
      exact sameDevice_near hroom hi
    obtain ⟨space, k₁, hk₁, h₁⟩ := readConfigSpace_confined h P fuel haddr 8 le_rfl
    obtain ⟨k₂, hk₂, h₂⟩ := h₁.setMrs 0 space
    simp only [hk₁, hk₂]
    exact ⟨_, k₂, rfl, h₂⟩

/-- A request through a badged capability stays in the device of the badge. -/
theorem handleRequest_confined (h : Manager k p buffer) (info : MessageTag) {badge : Word}
    (hbadge : badge ≠ 0#64) (hroom : badge.toNat % 256 + 64 ≤ 256) (r : DeviceRequest) :
    ∃ tag k', handleRequest P fuel k info badge r = .ok (tag, k') ∧
      Confined p buffer badge k k' := by
  cases r with
  | read => exact handleRead_confined h info badge
  | write => exact handleWrite_confined h info badge
  | deviceInfo => exact handleDeviceInfo_confined h hbadge hroom

/-! ## Issuing -/

open Cdt in
/-- A capability that is no original has no children. -/
theorem deleteCap_copy {s : Slots} {c : Word} (fuel : Nat) (h : (s c).cap.isOriginal = false) :
    deleteCap (fuel + 2) s c = some (remove s c) := by
  have hrevoke : revokeCap (fuel + 1) s c = some s := by
    rw [revokeCap]
    cases (s c).next with
    | none => rfl
    | some n => simp [isChildCap, isChildOf, h]
  rw [deleteCap, hrevoke]
  rfl

open Cdt in
theorem mintCap_endpoint {s : Slots} {dest src badge mask : Word}
    (hdest : (s dest).cap.type = .null) (hsrc : (s src).cap.type = .endpoint)
    (hbadge : (s src).cap.badge = 0#64) : mintCap s dest src badge mask =
      (.ok, insertCteAfter (s.setCap dest (minted (s src).cap badge mask)) dest src) := by
  rcases mintCap_cases s dest src badge mask with ⟨r, heq, hlabel⟩ | ⟨-, -, -, heq⟩
  · rw [mintCap, if_neg (by simp [hdest]), if_neg (by simp [hsrc]), if_neg (by simp [hbadge])] at heq
    exact absurd (congrArg (fun x => x.1.label) heq).symm hlabel
  · exact heq

namespace OwnCaps

variable {s t : Slots}

theorem slot_ne (s : Slots) (p cptr : Word) (h : cptr < pciTmpCap) :
    pciSlot s p cptr ≠ pciSlot s p pciTmpCap := by
  intro heq
  have htmp : pciTmpCap = 3#64 := rfl
  rw [htmp] at h heq
  have hsame := slotAt_inj (by bv_omega) (by bv_omega) heq
  bv_omega

/-- The last slot may get another capability, as long as it is no original. -/
theorem congr (h : OwnCaps s p)
    (hcap : ∀ x, x ≠ pciSlot s p pciTmpCap → (t x).cap = (s x).cap)
    (htmp : (t (pciSlot s p pciTmpCap)).cap.isOriginal = false) :
    (∀ cptr, pciSlot t p cptr = pciSlot s p cptr) ∧ OwnCaps t p := by
  have hroot : (t (cspaceRootOf p)).cap = (s (cspaceRootOf p)).cap := hcap _ h.apart
  have hslot : ∀ cptr, pciSlot t p cptr = pciSlot s p cptr := by
    intro cptr
    rw [pciSlot, hroot]
    rfl
  have hendpoint := hcap _ (slot_ne s p pciEndpointCap (by decide))
  have hport := hcap _ (slot_ne s p pciPortCap (by decide))
  have hcnode := hcap _ (slot_ne s p pciCnodeCap (by decide))
  refine ⟨hslot, ?_⟩
  constructor <;> simp only [hslot, hroot, hendpoint, hport, hcnode, htmp]
  exacts [h.root, h.size, h.apart, h.endpoint, h.unbadged, h.copy, h.port, h.firstPort, h.lastPort,
    h.cnode, h.cnodePtr, h.cnodeSize]

end OwnCaps

/-- `cnode_delete` empties the last slot; its arguments stay in the registers. -/
theorem Manager.delete (h : Manager k p buffer) (fuel : Nat) : ∃ label k',
    Pci.invoke P (fuel + 2) k pciCnodeCap .cnodeDelete (pciTmpCap, 64#8, ()) = .ok (label, k') ∧
    Manager k' p buffer ∧ (k'.slots (pciSlot k'.slots p pciTmpCap)).cap = newNullCap ∧
    k'.buffers buffer 1 = 64#64 := by
  let s := Method.cnodeDelete.stub (pciTmpCap, 64#8, ())
  have hdelete : cnodeDelete (fuel + 2) k.slots (pciSlot k.slots p pciCnodeCap) pciTmpCap 64#8 =
      .ok (.ok, Cdt.remove k.slots (pciSlot k.slots p pciTmpCap)) := by
    rw [cnodeDelete, withSlot_of_lookup (h.lookup_cnode (by decide)), deleteCap_copy fuel h.tmp]
    rfl
  let after : Kernel :=
    { k.afterStub buffer s with slots := Cdt.remove k.slots (pciSlot k.slots p pciTmpCap) }
  have hhandler : Method.cnodeDelete.handler P (fuel + 2) (k.afterStub buffer s)
      (pciSlot k.slots p pciCnodeCap) (pciTmpCap, 64#8, ()) = .ok (.ok, after) := by
    show onSlots _ (cnodeDelete (fuel + 2) k.slots _ _ _) = _
    rw [hdelete]
    rfl
  have hcall := h.invoke P (fuel + 2) (m := .cnodeDelete) (pciTmpCap, 64#8, ()) (by decide) h.cnode
    nofun hhandler
  obtain ⟨hslot, hown⟩ := h.toOwnCaps.congr (t := after.slots)
    (fun x hx => by simp [after, hx]) (by simp [after]; rfl)
  refine ⟨_, after, by rw [hcall]; rfl, ⟨hown, h.current, h.buffer⟩, ?_, ?_⟩
  · rw [hslot]
    simp [after]
  · have hfile : after.buffers buffer = s.write (k.buffers buffer) := by
      simp [after, Kernel.afterStub]
    rw [hfile, Stub.write_mr (i := 1) (by decide) (by decide)]
    rfl

/-- `cnode_mint` fills it with a badged copy of the endpoint. -/
theorem Manager.mint (h : Manager k p buffer) (fuel : Nat) (badge : Word)
    (hempty : (k.slots (pciSlot k.slots p pciTmpCap)).cap.type = .null) : ∃ label k',
    Pci.invoke P fuel k pciCnodeCap .cnodeMint
      (pciTmpCap, 64#8, pciCnodeCap, pciEndpointCap, 64#8, capRightsAll, badge, ()) =
        .ok (label, k') ∧
    Manager k' p buffer ∧ (k'.slots (pciSlot k'.slots p pciTmpCap)).cap =
      Cdt.minted (k.slots (pciSlot k.slots p pciEndpointCap)).cap badge capRightsAll := by
  let args : Args Word Method.cnodeMint.parameters :=
    (pciTmpCap, 64#8, pciCnodeCap, pciEndpointCap, 64#8, capRightsAll, badge, ())
  let tmp := pciSlot k.slots p pciTmpCap
  let slots := Cdt.insertCteAfter (k.slots.setCap tmp
    (Cdt.minted (k.slots (pciSlot k.slots p pciEndpointCap)).cap badge capRightsAll)) tmp
    (pciSlot k.slots p pciEndpointCap)
  have hmint : cnodeMint k.slots (pciSlot k.slots p pciCnodeCap) pciTmpCap 64#8
      (pciSlot k.slots p pciCnodeCap) pciEndpointCap 64#8 capRightsAll badge = .ok (.ok, slots) := by
    rw [cnodeMint, withSlot_of_lookup (h.lookup_cnode (by decide)),
      withSlot_of_lookup (h.lookup_cnode (by decide)),
      mintCap_endpoint hempty h.endpoint h.unbadged]
    rfl
  let after : Kernel := { k.afterStub buffer (Method.cnodeMint.stub args) with slots }
  have hhandler : Method.cnodeMint.handler P fuel
      (k.afterStub buffer (Method.cnodeMint.stub args)) (pciSlot k.slots p pciCnodeCap)
      (args.map (pciSlot k.slots p)) = .ok (.ok, after) := by
    show onSlots _ (cnodeMint k.slots _ _ _ _ _ _ _ _) = _
    rw [hmint]
    rfl
  have hcall := h.invoke P fuel (m := .cnodeMint) args (by decide) h.cnode
    (fun c hc => by cases List.mem_singleton.mp hc; decide) hhandler
  have htmp : (slots tmp).cap =
      Cdt.minted (k.slots (pciSlot k.slots p pciEndpointCap)).cap badge capRightsAll := by
    simp [slots]
  obtain ⟨hslot, hown⟩ := h.toOwnCaps.congr (t := slots) (fun x hx => by simp [slots, tmp, hx]) (by
    rw [htmp]
    simp [Cdt.minted, h.endpoint, h.copy])
  refine ⟨_, after, by rw [hcall]; rfl, ⟨hown, h.current, h.buffer⟩, ?_⟩
  rw [hslot]
  exact htmp

/-- The capability that the manager sends along: the one its register 0 names. -/
def sentCap (k : Kernel) (p buffer : Word) : Option Cap :=
  match lookupCapSlot k.slots (cspaceRootOf p) (k.buffers buffer (capsOrBadges 0)) 64#64 with
  | .ok (.ok slot) => some (k.slots slot).cap
  | _ => none

/-- The capability sent is one for the device `a`: it has `a` as its badge, and no
request through it leaves the configuration space of `a`. -/
structure IssuedFor (P : Platform) (k : Kernel) (p buffer a : Word) : Prop where
  badge : ∃ c, sentCap k p buffer = some c ∧ c.type = .endpoint ∧ c.badge = a
  confined : ∀ c, sentCap k p buffer = some c → ∀ fuel l info r, Manager l p buffer →
    ∃ tag l', handleRequest P fuel l info c.badge r = .ok (tag, l') ∧ Confined p buffer a l l'

/-- The badge minted is the depth that `cnode_delete` left in message register 1. -/
theorem handleIssue_spec (h : Manager k p buffer) (hlength : 1 ≤ info.length.toNat) (fuel : Nat) :
    ∃ k' c, handleIssue P (fuel + 2) k info 0#64 =
        .ok (newMessageTag ErrorCode.noError.toWord 0 1 0, k') ∧
      Manager k' p buffer ∧ sentCap k' p buffer = some c ∧ c.type = .endpoint ∧
      c.badge = 64#64 := by
  obtain ⟨label₁, k₁, hk₁, h₁, hempty, hdepth⟩ := h.delete (P := P) fuel
  obtain ⟨label₂, k₂, hk₂, h₂, hminted⟩ :=
    h₁.mint (P := P) (fuel + 2) 64#64 (by rw [hempty]; rfl)
  let k₃ := k₂.setBufferWord buffer (capsOrBadges 0) pciTmpCap
  have h₃ : Manager k₃ p buffer := h₂.congr rfl rfl rfl
  have hset : setCap k₂ pciTmpCap = .ok k₃ := by
    simp [setCap, h₂.thisBuffer, bind, Except.bind, pure, Except.pure, k₃]
  have hsent : sentCap k₃ p buffer = some (k₂.slots (pciSlot k₂.slots p pciTmpCap)).cap := by
    have hregister : k₃.buffers buffer (capsOrBadges 0) = pciTmpCap := by
      simp [k₃, Kernel.setBufferWord]
    rw [sentCap, hregister, h₃.lookup (by decide)]
    rfl
  refine ⟨k₃, _, ?_, h₃, hsent, ?_, ?_⟩
  · have hlen : ¬ info.length.toNat < 1 := by omega
    simp [handleIssue, hlen, hk₁, h₁.getMr, hdepth, hk₂, hset, bind, Except.bind, pure, Except.pure]
  · rw [hminted]
    exact h₁.endpoint
  · rw [hminted]
    rfl

/-- `pci_addr` sets bit 31. -/
theorem pciAddr_ne (bus device function : BitVec 8) :
    (pciAddr bus device function 0).setWidth 64 ≠ 64#64 := by
  intro heq
  have hbit := congrArg (fun w => w.getLsbD 31) heq
  simp [pciAddr] at hbit

/-- The manager issues a capability for the device asked for exactly if the word that
asks is 64, which is the address of no device. -/
theorem issued_for_device_iff (h : Manager k p buffer) (hlength : 1 ≤ info.length.toNat)
    (fuel : Nat) :
    (∃ k', handleIssue P (fuel + 2) k info 0#64 =
        .ok (newMessageTag ErrorCode.noError.toWord 0 1 0, k') ∧ Manager k' p buffer ∧
      (IssuedFor P k' p buffer (k.buffers buffer 0) ↔ k.buffers buffer 0 = 64#64)) ∧
    ∀ bus device function, (pciAddr bus device function 0).setWidth 64 ≠ 64#64 := by
  obtain ⟨k', c, hissue, h', hsent, htype, hbadge⟩ := handleIssue_spec (P := P) h hlength fuel
  refine ⟨⟨k', hissue, h', ?_, ?_⟩, pciAddr_ne⟩
  · rintro ⟨⟨c', hsent', -, hbadge'⟩, -⟩
    cases hsent.symm.trans hsent'
    exact hbadge'.symm.trans hbadge
  · intro ha
    rw [ha]
    refine ⟨⟨c, hsent, htype, hbadge⟩, ?_⟩
    intro c' hsent' fuel l info r hl
    cases hsent.symm.trans hsent'
    rw [hbadge]
    exact handleRequest_confined hl info (by decide) (by decide) r

/-- A manager whose client asks for the device at `a`. -/
def managerKernel (a : Word) : Kernel :=
  (exampleKernel [] [(0, endpointCap exampleEndpoint), (1, newX86IoPortCap 0xCF8 0xCFF),
    (2, ({ type := .cnode, sizeBits := 12 } : Cap).withPtr initCnode)]).setBufferWord
      (initTcb + 0x1000#64) 0 a

theorem managerKernel_manager (a : Word) :
    Manager (managerKernel a) initTcb (initTcb + 0x1000#64) := by
  have hown : OwnCaps (managerKernel 0#64).slots initTcb := by
    constructor <;> decide +kernel
  exact ⟨hown, rfl, rfl⟩

def issueTag : MessageTag := newMessageTag 0 0 0 1

theorem issueTag_length : 1 ≤ issueTag.length.toNat := by decide

/-- The one word that is answered with a capability for it. -/
theorem issued_for_sixty_four : ∃ k', handleIssue examplePlatform 2 (managerKernel 64#64) issueTag 0#64 =
      .ok (newMessageTag ErrorCode.noError.toWord 0 1 0, k') ∧
    IssuedFor examplePlatform k' initTcb (initTcb + 0x1000#64) 64#64 := by
  obtain ⟨⟨k', hissue, -, hiff⟩, -⟩ := issued_for_device_iff (P := examplePlatform)
    (managerKernel_manager 64#64) issueTag_length 0
  have hword : (managerKernel 64#64).buffers (initTcb + 0x1000#64) 0 = 64#64 := by decide +kernel
  rw [hword] at hiff
  exact ⟨k', hissue, hiff.mpr rfl⟩

/-- Device 3 on bus 0 is asked for. -/
theorem issued_badge_is_not_address : ¬ ∀ k info fuel k' tag c,
    Manager k initTcb (initTcb + 0x1000#64) → 1 ≤ info.length.toNat →
    handleIssue examplePlatform fuel k info 0#64 = .ok (tag, k') →
    tag.label = ErrorCode.noError.toWord.setWidth 50 →
    sentCap k' initTcb (initTcb + 0x1000#64) = some c →
    c.badge = k.buffers (initTcb + 0x1000#64) 0 := by
  intro h
  let k := managerKernel ((pciAddr 0 3 0 0).setWidth 64)
  have hk : Manager k initTcb (initTcb + 0x1000#64) := managerKernel_manager _
  obtain ⟨k', c, hissue, -, hsent, -, hbadge⟩ :=
    handleIssue_spec (P := examplePlatform) hk issueTag_length 0
  have haddress := h k issueTag 2 k' _ c hk (by decide) hissue rfl hsent
  rw [hbadge] at haddress
  exact absurd haddress (by decide +kernel)

end Tern.Pci
