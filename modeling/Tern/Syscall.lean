import Tern.Dispatch
import Tern.Lib.Transition

/-! Kernel entries: system calls, interrupts, and the runs of the machine, in
which user code runs between the entries. -/

namespace Tern

open Lib

/-- `enum syscall_number`. -/
inductive SyscallNumber
  | exit | debugWrite | call | yield | send | nbsend | recv | nbrecv | reply | replyrecv
  deriving DecidableEq, Repr

def SyscallNumber.ofInt? (n : BitVec 32) : Option SyscallNumber :=
  [.exit, .debugWrite, .call, .yield, .send, .nbsend, .recv, .nbrecv, .reply,
    .replyrecv][n.toNat]?

/-- The system calls without a capability in `a0`. -/
def opSyscallPlain (k : Kernel) (info : MessageTag) :
    SyscallNumber → Option (Result (MessageTag × Kernel))
  | .exit => some do
    let this ← thisTcb k
    let k ← killTcb k this
    let k ← schedule k
    return (.noreturn, k)
  | .debugWrite => some (.ok (msgOk, k))
  | .yield => some do
    let k ← schedule k
    return (.noreturn, k)
  | .reply => some do
    let k ← invokeReply k info
    return (info, k)
  | _ => none

/-- The system calls on the capability in `slot`. -/
def opSyscallOn (P : Platform) (fuel : Nat) (k : Kernel) (slot : Word) (info : MessageTag) :
    Option SyscallNumber → Result (MessageTag × Kernel)
  | some .call =>
    if (k.slots slot).cap.type ≠ .endpoint then do
      let (r, k) ← dispatchMethod P fuel k slot info
      answer k r
    else do
      let k ← invokeEndpointCall k slot info
      return (.noreturn, k)
  | some .send =>
    if (k.slots slot).cap.type = .notification then do
      let k ← invokeNotificationSend k slot
      return (.noreturn, k)
    else if (k.slots slot).cap.type = .endpoint then do
      let k ← invokeEndpointSend k slot info
      return (.noreturn, k)
    else return (msgErr .invalidCapability, k)
  | some .nbsend =>
    if (k.slots slot).cap.type ≠ .endpoint then return (msgErr .invalidCapability, k)
    else do
      let k ← invokeEndpointNbsend k slot info
      return (.noreturn, k)
  | some .recv =>
    if (k.slots slot).cap.type = .notification then invokeNotificationRecv k slot
    else if (k.slots slot).cap.type = .endpoint then invokeEndpointRecv k slot
    else return (msgErr .invalidCapability, k)
  | some .nbrecv =>
    if (k.slots slot).cap.type ≠ .endpoint then return (msgErr .invalidCapability, k)
    else invokeEndpointNbrecv k slot
  | some .replyrecv =>
    if (k.slots slot).cap.type ≠ .endpoint then return (msgErr .invalidCapability, k)
    else invokeReplyRecv k slot info
  | _ => return (msgErr .invalidSyscall, k)

def opSyscall (P : Platform) (fuel : Nat) (k : Kernel) (a0 a1 : Word) (number : BitVec 32) :
    Result (MessageTag × Kernel) :=
  let info := MessageTag.ofWord a1
  let number := SyscallNumber.ofInt? number
  match number.bind (opSyscallPlain k info) with
  | some x => x
  | none => do
    let this ← thisTcb k
    match ← lookupCapSlot k.slots (cspaceRootOf this) a0 64#64 with
    | .error e => answer k e
    | .ok slot => opSyscallOn P fuel k slot info number

def doSyscall (P : Platform) (fuel : Nat) (k : Kernel) (a0 a1 : Word) (number : BitVec 32) :
    Result Kernel := do
  let (tag, k) ← opSyscall P fuel k a0 a1 number
  if tag.isNoreturn then return k
  let this ← thisTcb k
  setIpcResult k this tag

/-- `syscall_entry` and `c_syscall_entry`: the arguments are in RDI, RSI and RAX
of the thread's frame. -/
def syscallEntry (P : Platform) (fuel : Nat) (k : Kernel) (f : Frame) : Result Kernel := do
  let k := saveFrameOnTcb k f
  let k ← doSyscall P fuel k f.rdi f.rsi (f.rax.setWidth 32)
  returnFromKernelCode P.dm k

/-- `print_interrupt_info`, which also handles the interrupt. All exceptions
end in `halt_forever`. -/
def handleInterrupt (P : Platform) (k : Kernel) (f : Frame) : Result Kernel :=
  if 32#64 ≤ f.intNo ∧ f.intNo ≤ 48#64 then handleIrq P k (f.intNo - 32#64)
  else if f.intNo = 255#64 then .ok k
  else .error .halted

/-- `interrupt_entry` and `c_interrupt_entry`. -/
def interruptEntry (P : Platform) (k : Kernel) (f : Frame) : Result Kernel := do
  let k := saveFrameOnTcb k f
  let k ← handleInterrupt P k f
  returnFromKernelCode P.dm k

/-! ## What an entry asks for -/

/-- A way into the kernel, with the frame of the interrupted code. -/
inductive Entry
  | syscall (f : Frame)
  | interrupt (f : Frame)

def Frame.number (f : Frame) : Option SyscallNumber := SyscallNumber.ofInt? (f.rax.setWidth 32)

def Frame.tag (f : Frame) : MessageTag := MessageTag.ofWord f.rsi

/-- The running thread makes this system call, on the capability in `slot`. -/
def Asks (k : Kernel) (f : Frame) (number : SyscallNumber) (slot : Word) : Prop :=
  f.number = some number ∧ ∃ t, k.currentTcb = some t ∧
    lookupCapSlot k.slots (cspaceRootOf t) f.rdi 64#64 = .ok (.ok slot)

/-- It invokes the method `m` on the object at `obj`. -/
def Invokes (k : Kernel) (f : Frame) (m : Method) (obj : Word) : Prop :=
  ∃ slot, Asks k f .call slot ∧ (k.slots slot).cap.type = m.signature.type ∧
    Method.ofLabel? f.tag.label = some m ∧ obj = capPtr (k.slots slot).cap

/-- It waits on the notification `n`. -/
def WaitsOn (k : Kernel) (f : Frame) (n : Word) : Prop :=
  ∃ slot, Asks k f .recv slot ∧ (k.slots slot).cap.type = .notification ∧
    n = capPtr (k.slots slot).cap

/-- It replies, as `reply` or as the first half of `reply_recv`. -/
def Replies (k : Kernel) (f : Frame) : Prop :=
  f.number = some .reply ∨
    ∃ slot, Asks k f .replyrecv slot ∧ (k.slots slot).cap.type = .endpoint

/-! ## Runs -/

/-- One kernel entry, after user code has written what it likes to the IPC
buffers. -/
inductive KernelStep (P : Platform) (k : Kernel) : Entry → Kernel → Prop
  | syscall (fuel : Nat) (buffers : Word → IpcBuffer) (f : Frame) (k' : Kernel) :
      syscallEntry P fuel { k with buffers } f = .ok k' → KernelStep P k (.syscall f) k'
  | interrupt (buffers : Word → IpcBuffer) (f : Frame) (k' : Kernel) :
      interruptEntry P { k with buffers } f = .ok k' → KernelStep P k (.interrupt f) k'

/-- The boot thread runs, all other threads are as retyping leaves them, every
list is initialised and empty. Capabilities, address spaces, IPC buffers,
bindings and interrupt handlers are arbitrary. What a thread, a list or a slot is
does not depend on the bytes of another object or of a buffer. -/
structure Booted (k : Kernel) : Prop where
  current : ∃ t, k.currentTcb = some t ∧ k.returnToTcb = some t ∧ (k.tcbs t).state = .running
  others : ∀ t, k.currentTcb ≠ some t → (k.tcbs t).state = .runnable
  fresh : ∀ t, (k.tcbs t).expectsReply = false ∧ (k.tcbs t).replyTo = none
  run : k.nodes.next .runnableTcbs = some .runnableTcbs ∧
    k.nodes.prev .runnableTcbs = some .runnableTcbs
  endpoint : ∀ e, k.nodes.next (.endpoint e) = some (.endpoint e) ∧
    k.nodes.prev (.endpoint e) = some (.endpoint e)
  notification : ∀ n, k.nodes.next (.notification n) = some (.notification n) ∧
    k.nodes.prev (.notification n) = some (.notification n)
  idle : ∀ t, k.nodes.Idle (.run t) ∧ k.nodes.Idle (.sendReceive t)
  history : k.history = []
  signals : k.signals = []
  lists : k.nodes.ops = []

/-- The entry invokes none but these methods. -/
def Entry.InvokesOnly (methods : Method → Prop) (k : Kernel) (e : Entry) : Prop :=
  ∀ f m obj, e = .syscall f → Invokes k f m obj → methods m

/-- The methods whose source writes to memory that no table of `Kernel` says the
method may change: to the objects that untyped memory is made into, to what a
capability of an unchecked type points to, or through a pointer or a length that is
not checked. -/
def Method.writesMemory : Method → Bool
  | .untypedRetype | .tcbConfigure | .tcbReadRegisters | .tcbSetName
  | .irqHandlerSetNotification | .pdptMap | .pdMap | .ptMap | .pageMap | .hugePageMap => true
  | _ => false

/-- The entry invokes no such method. -/
def Entry.Confined (k : Kernel) (e : Entry) : Prop :=
  e.InvokesOnly (·.writesMemory = false) k

/-- The label of the message says which method a call may invoke. -/
theorem invokesOnly_of_label {methods : Method → Prop} {k : Kernel} {f : Frame}
    (h : ∀ m, Method.ofLabel? f.tag.label = some m → methods m) :
    (Entry.syscall f).InvokesOnly methods k := by
  rintro g m obj hg ⟨slot, -, -, hlabel, -⟩
  cases hg
  exact h m hlabel

theorem frame_invokesOnly {methods : Method → Prop} [DecidablePred methods] {k : Kernel}
    {f : Frame} (h : (Method.ofLabel? f.tag.label).all (fun m => methods m) = true) :
    (Entry.syscall f).InvokesOnly methods k := by
  refine invokesOnly_of_label fun m hm => ?_
  rw [hm] at h
  exact of_decide_eq_true h

theorem interrupt_confined (k : Kernel) (f : Frame) : (Entry.interrupt f).Confined k :=
  fun _ _ _ h => nomatch h

/-- The runs in which no memory is retyped: all objects exist from the start, apart
from each other and from the IPC buffers. -/
def kernelSystem (P : Platform) : Transition Kernel Entry where
  start := Booted
  step k e k' := KernelStep P k e k' ∧
    ∀ f obj, e = .syscall f → ¬ Invokes k f .untypedRetype obj

/-! ## Machines for examples -/

/-- The boot thread, in the kernel image. -/
def initTcb : Word := 0xFFFFFFFF80200000#64

def examplePlatform : Platform where
  dm := lowMap
  irqHandlers := 0xFFFFFFFF80300000#64
  portValue := fun _ _ => 0#32

/-- The boot thread runs, the other threads have an IPC buffer and its CSpace,
whose root CNode holds `caps`. -/
def exampleKernel (threads : List Word) (caps : List (Nat × Cap)) : Kernel :=
  { Kernel.blank with
    slots := fun a =>
      if (initTcb :: threads).any fun t => a == cspaceRootOf t then
        { cap := ({ type := .cnode, sizeBits := 12 } : Cap).withPtr initCnode }
      else
        { cap := ((caps.find? fun c => initSlot c.1 == a).map Prod.snd).getD newNullCap }
    tcbs := fun t =>
      if t = initTcb then { state := .running, ipcBuffer := some (t + 0x1000#64) }
      else if threads.contains t then { ipcBuffer := some (t + 0x1000#64) } else {}
    currentTcb := some initTcb
    returnToTcb := some initTcb }

theorem exampleKernel_booted (threads : List Word) (caps : List (Nat × Cap)) :
    Booted (exampleKernel threads caps) where
  current := ⟨initTcb, rfl, rfl, rfl⟩
  others t ht := by
    have hne : t ≠ initTcb := fun e => ht (by rw [e]; rfl)
    simp only [exampleKernel, if_neg hne]
    split <;> rfl
  fresh t := by
    simp only [exampleKernel]
    split
    · exact ⟨rfl, rfl⟩
    · split <;> exact ⟨rfl, rfl⟩
  run := ⟨rfl, rfl⟩
  endpoint _ := ⟨rfl, rfl⟩
  notification _ := ⟨rfl, rfl⟩
  idle _ := ⟨.inl ⟨rfl, rfl⟩, .inl ⟨rfl, rfl⟩⟩
  history := rfl
  signals := rfl
  lists := rfl

/-- The frame of a system call. -/
def callFrame (number cptr : Word) (tag : MessageTag) : Frame :=
  { rax := number, rdi := cptr, rsi := tag.toWord, cs := userCs }

def emptyTag : MessageTag := { length := 0, capsUnwrapped := 0, extraCaps := 0, label := 0 }

def resumeFrame (cptr : Word) : Frame := callFrame 2 cptr { emptyTag with label := 9 }
def yieldFrame : Frame := callFrame 3 0 emptyTag
def sendFrame (cptr : Word) : Frame := callFrame 4 cptr emptyTag
def recvFrame (cptr : Word) : Frame := callFrame 6 cptr emptyTag
def replyFrame : Frame := callFrame 8 0 emptyTag

/-- Two more threads, an endpoint and a notification. -/
def workerTcb : Word := 0xFFFFFFFF80240000#64
def helperTcb : Word := 0xFFFFFFFF80270000#64
def exampleEndpoint : Word := 0xFFFFFFFF80250000#64
def exampleNotification : Word := 0xFFFFFFFF80260000#64

def tcbCap (t : Word) : Cap := ({ type := .tcb } : Cap).withPtr t
def endpointCap (e : Word) : Cap := ({ type := .endpoint } : Cap).withPtr e

/-- System calls one after the other, the buffers left alone in between. -/
def runSyscalls (P : Platform) : List Frame → Kernel → Result Kernel
  | [], k => .ok k
  | f :: fs, k => do
    let k ← syscallEntry P 0 k f
    runSyscalls P fs k

theorem syscallEntry_step {P : Platform} {fuel : Nat} {k k' : Kernel} {f : Frame}
    (hk : syscallEntry P fuel k f = .ok k')
    (hlabel : Method.ofLabel? f.tag.label ≠ some .untypedRetype) :
    (kernelSystem P).step k (.syscall f) k' := by
  refine ⟨.syscall fuel k.buffers f k' hk, ?_⟩
  rintro g obj hg ⟨slot, -, -, hl, -⟩
  cases hg
  exact hlabel hl

theorem runSyscalls_reached {P : Platform} {ok : Kernel → Entry → Prop} {fs : List Frame}
    {k k' : Kernel} (hk : (kernelSystem P).ReachedBy ok k)
    (hok : ∀ f ∈ fs, ∀ k, ok k (.syscall f))
    (hretype : ∀ f ∈ fs, Method.ofLabel? f.tag.label ≠ some .untypedRetype)
    (hrun : runSyscalls P fs k = .ok k') : (kernelSystem P).ReachedBy ok k' := by
  induction fs generalizing k with
  | nil =>
    cases hrun
    exact hk
  | cons f fs ih =>
    simp only [runSyscalls, bind_eq_ok] at hrun
    obtain ⟨k₁, hf, hrun⟩ := hrun
    have hstep := syscallEntry_step hf (hretype f List.mem_cons_self)
    exact ih (.step hk (hok f List.mem_cons_self k) hstep)
      (fun g hg => hok g (List.mem_cons_of_mem f hg))
      (fun g hg => hretype g (List.mem_cons_of_mem f hg)) hrun

/-- What can be read off the final state of a run. -/
theorem runSyscalls_reads {α : Type} {P : Platform} {fs : List Frame} {k : Kernel}
    {read : Kernel → α} {a : α} (h : (runSyscalls P fs k).map read = .ok a) :
    ∃ k', runSyscalls P fs k = .ok k' ∧ read k' = a := by
  cases hrun : runSyscalls P fs k with
  | error e =>
    rw [hrun] at h
    cases h
  | ok k' =>
    rw [hrun] at h
    exact ⟨k', rfl, Except.ok.inj h⟩

end Tern
