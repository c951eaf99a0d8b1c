import Tern.Lib.Marshal
import Tern.Syscall

/-! The user stubs and the dispatcher, which one program generates from one
interface. A stub writes the scalars of a call to the message registers and its
capabilities to the capability registers; the dispatcher reads both back. Each
side is embedded as it was generated, and the law between them is proved once,
by induction on the parameter list of the interface. -/

namespace Tern

open Lib

/-! ## The interface -/

def wordScalar : Scalar Word := ⟨Word, id, id, fun _ => rfl⟩

/-- `uint8_t`, widened by the stub and cut again by the dispatcher. -/
def uint8Scalar : Scalar Word where
  Val := BitVec 8
  toWord v := v.setWidth 64
  ofWord w := w.setWidth 8
  ofWord_toWord v := by simp

def wordOfBool (b : Bool) : Word := if b then 1#64 else 0#64

/-- `bool`: any word but 0 is true. -/
def boolScalar : Scalar Word where
  Val := Bool
  toWord := wordOfBool
  ofWord w := w != 0#64
  ofWord_toWord b := by cases b <;> rfl

def wordT : Param Word := .scalar wordScalar
def uint8T : Param Word := .scalar uint8Scalar
def boolT : Param Word := .scalar boolScalar
def cptrT : Param Word := .handle

/-- The parameters of the methods of `interface.yml`. -/
def Method.parameters : Method → List (Param Word)
  | .cnodeCopy => [wordT, uint8T, cptrT, wordT, uint8T, wordT]
  | .cnodeDelete => [wordT, uint8T]
  | .cnodeMint => [wordT, uint8T, cptrT, wordT, uint8T, wordT, wordT]
  | .cnodeRevoke => [wordT, uint8T]
  | .cnodeDebugPrint => []
  | .cnodeDebugGet => [wordT, uint8T]
  | .tcbConfigure => [wordT, cptrT, cptrT, wordT, cptrT]
  | .tcbReadRegisters => [boolT, wordT, wordT, wordT]
  | .tcbResume => []
  | .tcbBindNotification => [cptrT]
  | .tcbSetTlsBase => [wordT]
  | .tcbSuspend => []
  | .tcbWriteRegisters => [boolT, wordT, wordT, wordT]
  | .tcbSetDebug => [wordT]
  | .tcbSetName => [wordT, wordT]
  | .untypedRetype => [wordT, wordT, cptrT, wordT, uint8T, wordT, wordT]
  | .ioPortIn8 | .ioPortIn16 | .ioPortIn32 => [wordT]
  | .ioPortOut8 | .ioPortOut16 | .ioPortOut32 => [wordT, wordT]
  | .ioPortControlIssue => [wordT, wordT, cptrT, wordT, uint8T]
  | .pdptMap | .pdMap | .ptMap | .pageMap | .hugePageMap => [cptrT, wordT, wordT]
  | .irqControlGet => [wordT, cptrT, wordT, uint8T]
  | .irqHandlerAck | .irqHandlerClear => []
  | .irqHandlerSetNotification => [cptrT]

/-! ## The stubs -/

/-- `new_message_tag`. -/
def newMessageTag (label capsUnwrapped extraCaps length : Word) : MessageTag where
  length := length.setWidth 9
  capsUnwrapped := capsUnwrapped.setWidth 3
  extraCaps := extraCaps.setWidth 2
  label := label.setWidth 50

/-- The enumerator of a method in `enum method_id`. -/
def Method.id (m : Method) : Word := BitVec.ofNat 64 (m.ctorIdx + 1)

/-- What a stub does before its system call: `set_mr` and `set_cap`, each from
register 0 on, and the tag. -/
structure Stub where
  mrs : List Word
  caps : List Word
  tag : MessageTag

/-- The stub of each method, on the arguments after `obj`. -/
def Method.stub : (m : Method) → Args Word m.parameters → Stub
  | .cnodeCopy, (destIndex, destDepth, srcRoot, srcIndex, srcDepth, rights, _) =>
    ⟨[destIndex, destDepth.setWidth 64, srcIndex, srcDepth.setWidth 64, rights], [srcRoot],
      newMessageTag (id .cnodeCopy) 0 1 5⟩
  | .cnodeDelete, (index, depth, _) =>
    ⟨[index, depth.setWidth 64], [], newMessageTag (id .cnodeDelete) 0 0 2⟩
  | .cnodeMint, (destIndex, destDepth, srcRoot, srcIndex, srcDepth, rights, badge, _) =>
    ⟨[destIndex, destDepth.setWidth 64, srcIndex, srcDepth.setWidth 64, rights, badge], [srcRoot],
      newMessageTag (id .cnodeMint) 0 1 6⟩
  | .cnodeRevoke, (index, depth, _) =>
    ⟨[index, depth.setWidth 64], [], newMessageTag (id .cnodeRevoke) 0 0 2⟩
  | .cnodeDebugPrint, _ => ⟨[], [], newMessageTag (id .cnodeDebugPrint) 0 0 0⟩
  | .cnodeDebugGet, (index, depth, _) =>
    ⟨[index, depth.setWidth 64], [], newMessageTag (id .cnodeDebugGet) 0 0 2⟩
  | .tcbConfigure, (faultEp, cspaceRoot, vspaceRoot, buffer, bufferFrame, _) =>
    ⟨[faultEp, buffer], [cspaceRoot, vspaceRoot, bufferFrame],
      newMessageTag (id .tcbConfigure) 0 3 2⟩
  | .tcbReadRegisters, (suspendSource, archFlags, count, regs, _) =>
    ⟨[wordOfBool suspendSource, archFlags, count, regs], [],
      newMessageTag (id .tcbReadRegisters) 0 0 4⟩
  | .tcbResume, _ => ⟨[], [], newMessageTag (id .tcbResume) 0 0 0⟩
  | .tcbBindNotification, (notification, _) =>
    ⟨[], [notification], newMessageTag (id .tcbBindNotification) 0 1 0⟩
  | .tcbSetTlsBase, (tlsBase, _) => ⟨[tlsBase], [], newMessageTag (id .tcbSetTlsBase) 0 0 1⟩
  | .tcbSuspend, _ => ⟨[], [], newMessageTag (id .tcbSuspend) 0 0 0⟩
  | .tcbWriteRegisters, (resumeTarget, archFlags, count, regs, _) =>
    ⟨[wordOfBool resumeTarget, archFlags, count, regs], [],
      newMessageTag (id .tcbWriteRegisters) 0 0 4⟩
  | .tcbSetDebug, (flags, _) => ⟨[flags], [], newMessageTag (id .tcbSetDebug) 0 0 1⟩
  | .tcbSetName, (name, len, _) => ⟨[name, len], [], newMessageTag (id .tcbSetName) 0 0 2⟩
  | .untypedRetype, (type, sizeBits, root, nodeIndex, nodeDepth, nodeOffset, numObjects, _) =>
    ⟨[type, sizeBits, nodeIndex, nodeDepth.setWidth 64, nodeOffset, numObjects], [root],
      newMessageTag (id .untypedRetype) 0 1 6⟩
  | .ioPortIn8, (port, _) => ⟨[port], [], newMessageTag (id .ioPortIn8) 0 0 1⟩
  | .ioPortIn16, (port, _) => ⟨[port], [], newMessageTag (id .ioPortIn16) 0 0 1⟩
  | .ioPortIn32, (port, _) => ⟨[port], [], newMessageTag (id .ioPortIn32) 0 0 1⟩
  | .ioPortOut8, (port, value, _) => ⟨[port, value], [], newMessageTag (id .ioPortOut8) 0 0 2⟩
  | .ioPortOut16, (port, value, _) => ⟨[port, value], [], newMessageTag (id .ioPortOut16) 0 0 2⟩
  | .ioPortOut32, (port, value, _) => ⟨[port, value], [], newMessageTag (id .ioPortOut32) 0 0 2⟩
  | .ioPortControlIssue, (firstPort, lastPort, root, index, depth, _) =>
    ⟨[firstPort, lastPort, index, depth.setWidth 64], [root],
      newMessageTag (id .ioPortControlIssue) 0 1 4⟩
  | .pdptMap, (vspace, vaddr, attr, _) =>
    ⟨[vaddr, attr], [vspace], newMessageTag (id .pdptMap) 0 1 2⟩
  | .pdMap, (vspace, vaddr, attr, _) => ⟨[vaddr, attr], [vspace], newMessageTag (id .pdMap) 0 1 2⟩
  | .ptMap, (vspace, vaddr, attr, _) => ⟨[vaddr, attr], [vspace], newMessageTag (id .ptMap) 0 1 2⟩
  | .pageMap, (vspace, vaddr, attr, _) =>
    ⟨[vaddr, attr], [vspace], newMessageTag (id .pageMap) 0 1 2⟩
  | .hugePageMap, (vspace, vaddr, attr, _) =>
    ⟨[vaddr, attr], [vspace], newMessageTag (id .hugePageMap) 0 1 2⟩
  | .irqControlGet, (irq, root, index, depth, _) =>
    ⟨[irq, index, depth.setWidth 64], [root], newMessageTag (id .irqControlGet) 0 1 3⟩
  | .irqHandlerAck, _ => ⟨[], [], newMessageTag (id .irqHandlerAck) 0 0 0⟩
  | .irqHandlerClear, _ => ⟨[], [], newMessageTag (id .irqHandlerClear) 0 0 0⟩
  | .irqHandlerSetNotification, (notification, _) =>
    ⟨[], [notification], newMessageTag (id .irqHandlerSetNotification) 0 1 0⟩

/-- The IPC buffer after the stub. -/
def Stub.write (s : Stub) (buffer : IpcBuffer) : IpcBuffer :=
  store (store buffer 0 s.mrs) (capsOrBadges 0) s.caps

/-- Every stub writes its scalars and its capabilities in the order of the
parameters and announces their numbers. -/
theorem Method.stub_eq (m : Method) (args : Args Word m.parameters) :
    m.stub args = ⟨args.scalars, args.handles, newMessageTag m.id 0
      (BitVec.ofNat 64 args.handles.length) (BitVec.ofNat 64 args.scalars.length)⟩ := by
  cases m <;> rfl

/-! ## The dispatcher -/

/-- The arguments that `dispatch_method` reads for a method, from its message
registers and from the slots its capability registers name. -/
def Method.arguments (mr cap : Nat → Word) : (m : Method) → Args Word m.parameters
  | .cnodeCopy => (mr 0, (mr 1).setWidth 8, cap 0, mr 2, (mr 3).setWidth 8, mr 4, ())
  | .cnodeDelete => (mr 0, (mr 1).setWidth 8, ())
  | .cnodeMint => (mr 0, (mr 1).setWidth 8, cap 0, mr 2, (mr 3).setWidth 8, mr 4, mr 5, ())
  | .cnodeRevoke => (mr 0, (mr 1).setWidth 8, ())
  | .cnodeDebugPrint => ()
  | .cnodeDebugGet => (mr 0, (mr 1).setWidth 8, ())
  | .tcbConfigure => (mr 0, cap 0, cap 1, mr 1, cap 2, ())
  | .tcbReadRegisters => (mr 0 != 0#64, mr 1, mr 2, mr 3, ())
  | .tcbResume => ()
  | .tcbBindNotification => (cap 0, ())
  | .tcbSetTlsBase => (mr 0, ())
  | .tcbSuspend => ()
  | .tcbWriteRegisters => (mr 0 != 0#64, mr 1, mr 2, mr 3, ())
  | .tcbSetDebug => (mr 0, ())
  | .tcbSetName => (mr 0, mr 1, ())
  | .untypedRetype => (mr 0, mr 1, cap 0, mr 2, (mr 3).setWidth 8, mr 4, mr 5, ())
  | .ioPortIn8 | .ioPortIn16 | .ioPortIn32 => (mr 0, ())
  | .ioPortOut8 | .ioPortOut16 | .ioPortOut32 => (mr 0, mr 1, ())
  | .ioPortControlIssue => (mr 0, mr 1, cap 0, mr 2, (mr 3).setWidth 8, ())
  | .pdptMap | .pdMap | .ptMap | .pageMap | .hugePageMap => (cap 0, mr 0, mr 1, ())
  | .irqControlGet => (mr 0, cap 0, mr 1, (mr 2).setWidth 8, ())
  | .irqHandlerAck | .irqHandlerClear => ()
  | .irqHandlerSetNotification => (cap 0, ())

/-- The handler of each method, called with its arguments. -/
def Method.handler (P : Platform) (fuel : Nat) (k : Kernel) (slot : Word) :
    (m : Method) → Args Word m.parameters → Result (Reply × Kernel)
  | .cnodeCopy, (destIndex, destDepth, srcRoot, srcIndex, srcDepth, rights, _) =>
    onSlots k (Tern.cnodeCopy k.slots slot destIndex destDepth srcRoot srcIndex srcDepth rights)
  | .cnodeDelete, (index, depth, _) => onSlots k (Tern.cnodeDelete fuel k.slots slot index depth)
  | .cnodeMint, (destIndex, destDepth, srcRoot, srcIndex, srcDepth, rights, badge, _) =>
    onSlots k
      (Tern.cnodeMint k.slots slot destIndex destDepth srcRoot srcIndex srcDepth rights badge)
  | .cnodeRevoke, (index, depth, _) => onSlots k (Tern.cnodeRevoke fuel k.slots slot index depth)
  | .cnodeDebugPrint, _ => .ok (.ok, k)
  | .cnodeDebugGet, (index, depth, _) => onSlots k (Tern.cnodeDebugGet k.slots slot index depth)
  -- the handler takes its buffer from the frame and does not know fault endpoints
  | .tcbConfigure, (_, cspaceRoot, vspaceRoot, _, bufferFrame, _) =>
    .ok (Tern.tcbConfigure k slot cspaceRoot vspaceRoot bufferFrame)
  | .tcbReadRegisters, (_, _, _, regs, _) => .ok (Tern.tcbReadRegisters k slot regs)
  | .tcbResume, _ => Tern.tcbResume k slot
  | .tcbBindNotification, (notification, _) => .ok (Tern.tcbBindNotification k slot notification)
  | .tcbSetTlsBase, (tlsBase, _) => .ok (Tern.tcbSetTlsBase k slot tlsBase)
  | .tcbSuspend, _ => Tern.tcbSuspend k slot
  | .tcbWriteRegisters, (_, _, _, regs, _) => .ok (Tern.tcbWriteRegisters k slot regs)
  | .tcbSetDebug, (flags, _) => .ok (Tern.tcbSetDebug k slot flags)
  | .tcbSetName, _ => .ok (.ok, k)
  | .untypedRetype, (type, sizeBits, root, nodeIndex, nodeDepth, nodeOffset, numObjects, _) =>
    retype P.dm k slot type sizeBits root nodeIndex nodeDepth nodeOffset numObjects
  | .ioPortIn8, (port, _) => .ok (ioPortIn P 1 k slot port)
  | .ioPortIn16, (port, _) => .ok (ioPortIn P 2 k slot port)
  | .ioPortIn32, (port, _) => .ok (ioPortIn P 4 k slot port)
  | .ioPortOut8, (port, value, _) => .ok (ioPortOut 1 k slot port value)
  | .ioPortOut16, (port, value, _) => .ok (ioPortOut 2 k slot port value)
  | .ioPortOut32, (port, value, _) => .ok (ioPortOut 4 k slot port value)
  | .ioPortControlIssue, (firstPort, lastPort, root, index, depth, _) =>
    onSlots k (Tern.ioPortControlIssue k.slots (firstPort.setWidth 16) (lastPort.setWidth 16) root
      index depth)
  | .pdptMap, (vspace, vaddr, _, _) => .ok (Tern.pdptMap P.dm k slot vspace vaddr)
  | .pdMap, (vspace, vaddr, _, _) => .ok (Tern.pdMap P.dm k slot vspace vaddr)
  | .ptMap, (vspace, vaddr, _, _) => .ok (Tern.ptMap P.dm k slot vspace vaddr)
  | .pageMap, (vspace, vaddr, attr, _) => .ok (Tern.pageMap P.dm k slot vspace vaddr attr)
  | .hugePageMap, (vspace, vaddr, attr, _) => .ok (Tern.hugePageMap P.dm k slot vspace vaddr attr)
  | .irqControlGet, (irq, root, index, depth, _) => Tern.irqControlGet P k irq root index depth
  | .irqHandlerAck, _ => .ok (Tern.irqHandlerAck k slot)
  | .irqHandlerClear, _ => .ok (Tern.irqHandlerClear k slot)
  | .irqHandlerSetNotification, (notification, _) =>
    .ok (Tern.irqHandlerSetNotification k slot notification)

/-- The dispatcher numbers its registers as the interface does. -/
theorem Method.arguments_eq (mr cap : Nat → Word) (m : Method) :
    m.arguments mr cap = Args.read mr cap m.parameters := by
  cases m <;> rfl

theorem invokeMethod_eq_handler (P : Platform) (fuel : Nat) (k : Kernel) (slot : Word)
    (mr cap : Nat → Word) (m : Method) :
    invokeMethod P fuel k slot mr cap m = m.handler P fuel k slot (m.arguments mr cap) := by
  cases m <;> rfl

theorem Method.ofLabel?_id (m : Method) : Method.ofLabel? (m.id.setWidth 50) = some m := by
  cases m <;> rfl

/-! ## The round trip -/

/-- The thread's IPC buffer after the stub, with everything else as before. -/
def Kernel.afterStub (k : Kernel) (buffer : Word) (s : Stub) : Kernel :=
  { k with buffers := Function.update k.buffers buffer (s.write (k.buffers buffer)) }

/-- Capability registers that resolve one by one are looked up together. -/
theorem lookupCaps_resolved {k : Kernel} {t buffer : Word} {slotOf : Word → Word} {n : Nat}
    (hthis : thisBuffer k = .ok buffer)
    (h : ∀ i < n, lookupCapSlot k.slots (cspaceRootOf t) (k.buffers buffer (capsOrBadges i)) 64#64 =
      .ok (.ok (slotOf (k.buffers buffer (capsOrBadges i))))) :
    ∃ cap, lookupCaps k t n = .ok (.ok cap) ∧
      ∀ i < n, cap i = slotOf (k.buffers buffer (capsOrBadges i)) := by
  induction n with
  | zero => exact ⟨_, rfl, fun i hi => absurd hi (Nat.not_lt_zero i)⟩
  | succ n ih =>
    obtain ⟨cap, hcap, heq⟩ := ih fun i hi => h i (Nat.lt_succ_of_lt hi)
    refine ⟨Function.update cap n (slotOf (k.buffers buffer (capsOrBadges n))), ?_, ?_⟩
    · simp [lookupCaps, hcap, getCap, hthis, h n (Nat.lt_succ_self n), bind, Except.bind, pure,
        Except.pure]
    · intro i hi
      rcases Nat.lt_succ_iff_lt_or_eq.mp hi with hi | rfl
      · rw [Function.update_of_ne hi.ne, heq i hi]
      · exact Function.update_self ..

/-- Reading the first `n` registers of a buffer reads its words. -/
theorem getMrs_ok {k : Kernel} {buffer : Word} (hthis : thisBuffer k = .ok buffer) (n : Nat) :
    ∃ mr, getMrs k n = .ok mr ∧ ∀ i < n, mr i = k.buffers buffer i := by
  cases n with
  | zero => exact ⟨_, rfl, fun i hi => absurd hi (Nat.not_lt_zero i)⟩
  | succ n => exact ⟨k.buffers buffer, by simp [getMrs, hthis, bind, Except.bind], fun _ _ => rfl⟩

theorem scalars_length (m : Method) (args : Args Word m.parameters) :
    args.scalars.length = m.signature.params := by
  cases m <;> rfl

theorem handles_length (m : Method) (args : Args Word m.parameters) :
    args.handles.length = m.signature.caps := by
  cases m <;> rfl

/-- The scalars and capabilities of every method fit their registers and the
fields of the tag. -/
theorem signature_fits (m : Method) :
    m.signature.params < messageMaxLength ∧ m.signature.caps ≤ 3 := by
  cases m <;> decide

theorem Stub.write_mr {s : Stub} {buffer : IpcBuffer} {i : Nat} (h : i < s.mrs.length)
    (hfits : s.mrs.length < messageMaxLength) : s.write buffer i = s.mrs[i] := by
  have hlt : i < capsOrBadges 0 := by
    simp only [capsOrBadges, messageMaxLength] at *
    omega
  rw [Stub.write, store_of_lt hlt]
  have hstore : store buffer 0 s.mrs (0 + i) = s.mrs[i] := store_add h
  rwa [Nat.zero_add] at hstore

theorem Stub.write_cap {s : Stub} {buffer : IpcBuffer} {i : Nat} (h : i < s.caps.length) :
    s.write buffer (capsOrBadges i) = s.caps[i] := by
  have hi : capsOrBadges i = capsOrBadges 0 + i := by simp [capsOrBadges]
  rw [Stub.write, hi, store_add h]

/-- Stub and dispatcher agree: what the stub of a method leaves in the caller's
buffer and tag passes the checks of the dispatcher, which calls the handler of
that method with the same scalars in the same places and with every capability
argument resolved to the slot it names. -/
theorem stub_dispatch (P : Platform) (fuel : Nat) {k : Kernel} {t buffer slot : Word}
    {slotOf : Word → Word} (m : Method) (args : Args Word m.parameters)
    (hcurrent : k.currentTcb = some t) (hbuffer : (k.tcbs t).ipcBuffer = some buffer)
    (htype : (k.slots slot).cap.type = m.signature.type)
    (hcaps : ∀ c ∈ args.handles,
      lookupCapSlot k.slots (cspaceRootOf t) c 64#64 = .ok (.ok (slotOf c))) :
    (∃ mr cap, Admitted (k.afterStub buffer (m.stub args)) slot (m.stub args).tag m mr cap ∧
      m.arguments mr cap = args.map slotOf) ∧
    dispatchMethod P fuel (k.afterStub buffer (m.stub args)) slot (m.stub args).tag =
      m.handler P fuel (k.afterStub buffer (m.stub args)) slot (args.map slotOf) := by
  set k' := k.afterStub buffer (m.stub args) with hk'
  have hthis : thisBuffer k' = .ok buffer := by
    simp [hk', Kernel.afterStub, thisBuffer, hcurrent, hbuffer]
  have hfile : k'.buffers buffer = (m.stub args).write (k.buffers buffer) := by
    simp [hk', Kernel.afterStub]
  have hmrs : (m.stub args).mrs = args.scalars := by rw [m.stub_eq]
  have hhandles : (m.stub args).caps = args.handles := by rw [m.stub_eq]
  have hfits := signature_fits m
  obtain ⟨mr, hread, hmr⟩ := getMrs_ok hthis m.signature.params
  have hscalar : ∀ i (h : i < args.scalars.length), mr i = args.scalars[i] := by
    intro i h
    have hlen : (m.stub args).mrs.length < messageMaxLength := by
      rw [hmrs, scalars_length]
      exact hfits.1
    rw [hmr i (scalars_length m args ▸ h), hfile, Stub.write_mr (hmrs ▸ h) hlen]
    simp only [hmrs]
  have hreg : ∀ i (h : i < args.handles.length),
      k'.buffers buffer (capsOrBadges i) = args.handles[i] := by
    intro i h
    rw [hfile, Stub.write_cap (hhandles ▸ h)]
    simp only [hhandles]
  obtain ⟨cap, hlookup, hcap⟩ : ∃ cap, lookupCaps k' t m.signature.caps = .ok (.ok cap) ∧
      ∀ i < m.signature.caps, cap i = slotOf (k'.buffers buffer (capsOrBadges i)) := by
    refine lookupCaps_resolved hthis fun i hi => ?_
    rw [← handles_length m args] at hi
    rw [hreg i hi]
    exact hcaps _ (List.getElem_mem hi)
  have hadmitted : Admitted k' slot (m.stub args).tag m mr cap := by
    rw [m.stub_eq, scalars_length, handles_length]
    refine ⟨m.ofLabel?_id, hread, htype, ?_, ?_, t, hcurrent, hlookup⟩
    · simp only [newMessageTag, BitVec.toNat_setWidth, BitVec.toNat_ofNat]
      simp only [messageMaxLength] at hfits
      omega
    · simp only [newMessageTag, BitVec.toNat_setWidth, BitVec.toNat_ofNat]
      omega
  have hargs : m.arguments mr cap = args.map slotOf := by
    rw [m.arguments_eq]
    refine Args.read_eq_map hscalar fun i h => ?_
    rw [hcap i (handles_length m args ▸ h), hreg i h]
  refine ⟨⟨mr, cap, hadmitted, hargs⟩, ?_⟩
  rw [dispatchMethod_of_admitted hadmitted, invokeMethod_eq_handler, hargs]

/-- The example of the round trip: `tcb_configure` takes two words and three
capabilities, in the order word, capability, capability, word, capability. -/
def configureKernel : Kernel :=
  exampleKernel [workerTcb] [(5, tcbCap workerTcb), (6, { type := .cnode, sizeBits := 12 }),
    (7, { type := .x86Pml4 }), (8, { type := .x86Page })]

def configureArgs : Args Word Method.tcbConfigure.parameters :=
  (9#64, 6#64, 7#64, 0x40000#64, 8#64, ())

theorem stub_dispatch_configure :
    let s := Method.tcbConfigure.stub configureArgs
    dispatchMethod examplePlatform 0 (configureKernel.afterStub (initTcb + 0x1000#64) s)
        (initSlot 5) s.tag =
      Method.tcbConfigure.handler examplePlatform 0
        (configureKernel.afterStub (initTcb + 0x1000#64) s) (initSlot 5)
        (9#64, initSlot 6, initSlot 7, 0x40000#64, initSlot 8, ()) := by
  have hfound : ∀ c ∈ [6#64, 7#64, 8#64],
      lookupCapSlot configureKernel.slots (cspaceRootOf initTcb) c 64#64 =
        .ok (.ok (slotAt initCnode c)) := by
    simp only [List.forall_mem_cons, List.not_mem_nil, false_imp_iff, implies_true, and_true]
    exact ⟨by decide +kernel, by decide +kernel, by decide +kernel⟩
  have htype : (configureKernel.slots (initSlot 5)).cap.type = .tcb := by decide +kernel
  exact (stub_dispatch examplePlatform 0 .tcbConfigure configureArgs rfl rfl htype hfound).2

/-! ## The system call of a stub -/

/-- The bits of a tag, field by field. -/
theorem MessageTag.getLsbD_toWord (tag : MessageTag) (i : Nat) :
    tag.toWord.getLsbD i =
      if i < 9 then tag.length.getLsbD i
      else if i < 12 then tag.capsUnwrapped.getLsbD (i - 9)
      else if i < 14 then tag.extraCaps.getLsbD (i - 12)
      else tag.label.getLsbD (i - 14) := by
  have happend : tag.toWord.getLsbD i = (tag.label ++ tag.extraCaps ++ tag.capsUnwrapped ++
      tag.length : BitVec (50 + 2 + 3 + 9)).getLsbD i := rfl
  rw [happend]
  simp only [BitVec.getLsbD_append]
  grind

/-- A tag survives the passage through a register. -/
theorem MessageTag.ofWord_toWord (tag : MessageTag) : MessageTag.ofWord tag.toWord = tag := by
  obtain ⟨length, capsUnwrapped, extraCaps, label⟩ := tag
  simp only [MessageTag.ofWord, MessageTag.mk.injEq]
  refine ⟨?_, ?_, ?_, ?_⟩
  all_goals
    ext i hi
    simp only [BitVec.getElem_extractLsb', MessageTag.getLsbD_toWord]
    grind

/-- `call (obj, info, nullptr)` with what a stub left behind is the handler with
the resolved arguments, on the object that `obj` names. -/
theorem stub_call (P : Platform) (fuel : Nat) {k : Kernel} {t buffer obj slot : Word}
    {slotOf : Word → Word} (m : Method) (args : Args Word m.parameters)
    (hcurrent : k.currentTcb = some t) (hbuffer : (k.tcbs t).ipcBuffer = some buffer)
    (hobj : lookupCapSlot k.slots (cspaceRootOf t) obj 64#64 = .ok (.ok slot))
    (htype : (k.slots slot).cap.type = m.signature.type)
    (hcaps : ∀ c ∈ args.handles,
      lookupCapSlot k.slots (cspaceRootOf t) c 64#64 = .ok (.ok (slotOf c))) :
    opSyscall P fuel (k.afterStub buffer (m.stub args)) obj (m.stub args).tag.toWord 2#32 =
      (m.handler P fuel (k.afterStub buffer (m.stub args)) slot (args.map slotOf) >>=
        fun x => answer x.2 x.1) := by
  have hdispatch := (stub_dispatch P fuel m args hcurrent hbuffer htype hcaps).2
  have hcall : SyscallNumber.ofInt? 2#32 = some .call := rfl
  have htcb : thisTcb (k.afterStub buffer (m.stub args)) = .ok t := by
    simp [thisTcb, Kernel.afterStub, hcurrent]
  have hnot : ((k.afterStub buffer (m.stub args)).slots slot).cap.type ≠ .endpoint := by
    intro he
    have hm := htype.symm.trans he
    revert hm
    cases m <;> decide
  have hfound : lookupCapSlot (k.afterStub buffer (m.stub args)).slots (cspaceRootOf t) obj 64#64 =
      .ok (.ok slot) := hobj
  rw [← hdispatch]
  simp only [opSyscall, hcall, MessageTag.ofWord_toWord, Option.bind, opSyscallPlain, htcb, hfound,
    opSyscallOn, if_pos hnot, bind, Except.bind]

end Tern
