import Tern.Kernel

/-! Threads: IPC frames and message registers, the run queue, switching, and
the TCB methods. -/

namespace Tern

open Cdt

/-! ## The current thread's frame and buffer -/

def thisTcb (k : Kernel) : Result Word := deref k.currentTcb

def saveFrameOnTcb (k : Kernel) (f : Frame) : Kernel :=
  match k.currentTcb with
  | some t => if f.cs = userCs then k.modifyTcb t fun c => { c with currentUserFrame := some f } else k
  | none => k

/-- `ipc_frame`: the live frame of the current thread, or the saved one. -/
def ipcFrame (k : Kernel) (t : Word) : Result Frame :=
  if k.currentTcb = some t then
    match (k.tcbs t).currentUserFrame with
    | some f => .ok f
    | none => .error .panic
  else .ok (k.tcbs t).savedState

def getPendingIpcInfo (k : Kernel) (t : Word) : Result MessageTag := do
  let f ← ipcFrame k t
  return MessageTag.ofWord f.rsi

def setIpcResult (k : Kernel) (t : Word) (tag : MessageTag) : Result Kernel := do
  let f ← ipcFrame k t
  let f := { f with rax := tag.toWord }
  return if k.currentTcb = some t
    then k.modifyTcb t fun c => { c with currentUserFrame := some f }
    else k.modifyTcb t fun c => { c with savedState := f }

/-- The buffer that `get_mr`, `get_cap` and `set_mr` use, after their assertion. -/
def thisBuffer (k : Kernel) : Result Word :=
  match k.currentTcb with
  | none => .error .panic
  | some t =>
    match (k.tcbs t).ipcBuffer with
    | none => .error .panic
    | some p => .ok p

def getMr (k : Kernel) (i : Nat) : Result Word := do
  let p ← thisBuffer k
  return k.buffers p i

def getCap (k : Kernel) (i : Nat) : Result Word := do
  let p ← thisBuffer k
  return k.buffers p (capsOrBadges i)

def setMr (k : Kernel) (i : Nat) (v : Word) : Result Kernel := do
  let p ← thisBuffer k
  return k.setBufferWord p i v

/-- Put the words of a reply into the message registers from `i` on. -/
def setMrs (k : Kernel) (i : Nat) : List Word → Result Kernel
  | [] => .ok k
  | v :: vs => do
    let k ← setMr k i v
    setMrs k (i + 1) vs

/-- The tag of a reply, once its words are in the message registers. -/
def answer (k : Kernel) (r : Reply) : Result (MessageTag × Kernel) := do
  let k ← setMrs k 0 r.mrs
  return (r.tag, k)

def msgOk : MessageTag := Reply.ok.tag

def msgErr (label : ErrorCode) : MessageTag := (Reply.mk label []).tag

/-! ## The run queue -/

/-- `CONTAINER_OF (node, struct tcb, runnable_tcbs)`, for the nodes it is meant for. -/
def Node.tcbOfRun : Node → Result Word
  | .run t => .ok t
  | _ => .error .fault

/-- `CONTAINER_OF (node, struct tcb, send_receive_node)`. -/
def Node.tcbOfSendReceive : Node → Result Word
  | .sendReceive t => .ok t
  | _ => .error .fault

def scheduleTcb (k : Kernel) (t : Word) : Result Kernel := do
  assert ((k.tcbs t).state != .dead)
  let k := k.setState t .runnable
  let nodes ← appendToList k.nodes (.run t) .runnableTcbs
  return (k.withNodes nodes).noted (.madeRunnable t)

def suspendTcb (k : Kernel) (t : Word) : Result Kernel := do
  let k := k.setState t .suspended
  let nodes ← removeFromList k.nodes (.run t)
  return k.withNodes nodes

def switchTcb (k : Kernel) (t : Word) : Kernel :=
  ({ k.setState t .runnable with returnToTcb := some t }).noted (.madeRunnable t)

def pickNextTcb (k : Kernel) : Result (Option Word × Kernel) := do
  if isListEmpty k.nodes .runnableTcbs then
    return (none, k)
  let (node, nodes) ← popFromList k.nodes .runnableTcbs
  let t ← node.tcbOfRun
  return (some t, k.withNodes nodes)

/-- `current && current->state == TASK_STATE_RUNNING`. -/
def currentRuns (k : Kernel) : Bool :=
  match k.currentTcb with
  | some t => (k.tcbs t).state == .running
  | none => false

def schedule (k : Kernel) : Result Kernel := do
  let (next, k) ← pickNextTcb k
  match next with
  | none => if currentRuns k then return k else return { k with returnToTcb := none }
  | some t => return switchTcb k t

def destroyTcb (k : Kernel) (t : Word) : Result Unit := do
  assert (isListEmpty k.nodes (.run t))
  assert ((k.tcbs t).state == .dead)

def killTcb (k : Kernel) (t : Word) : Result Kernel := do
  let k := k.setState t .dead
  destroyTcb k t
  return k

/-! ## Switching -/

def saveTcbState (k : Kernel) (t : Word) : Result Kernel :=
  match (k.tcbs t).currentUserFrame with
  | some f => .ok (k.modifyTcb t fun c => { c with savedState := f })
  | none => .error .panic

/-- `if (current && current->state != TASK_STATE_DEAD) save_tcb_state (current)`. -/
def saveCurrent (k : Kernel) : Result Kernel :=
  match k.currentTcb with
  | some t => if (k.tcbs t).state != .dead then saveTcbState k t else .ok k
  | none => .ok k

/-- `if (current && current->state == TASK_STATE_RUNNING) schedule_tcb (current)`. -/
def rescheduleCurrent (k : Kernel) : Result Kernel :=
  match k.currentTcb with
  | some t => if (k.tcbs t).state == .running then scheduleTcb k t else .ok k
  | none => .ok k

def tcbVmRoot (dm : DirectMap) (k : Kernel) (t : Word) : Word :=
  dm.physicalOf (capPtr (k.slots (vspaceRootOf t)).cap)

def ensureFrameValidForUsermode (f : Frame) : Frame :=
  { f with cs := userCs, ss := userSs, rflags := f.rflags ||| flagIf }

/-- `switch_tcb_actual`. The frame it jumps to is the thread's saved one. -/
def switchTcbActual (dm : DirectMap) (k : Kernel) (t : Word) : Result Kernel := do
  assert (k.currentTcb != some t)
  let k ← saveCurrent k
  let k ← rescheduleCurrent k
  assert ((k.tcbs t).state == .runnable)
  let k := { k with
    currentTcb := some t, vmRoot := tcbVmRoot dm k t, tlsBase := (k.tcbs t).tlsBase }
  let k := k.setState t .running
  return k.modifyTcb t fun c =>
    { c with savedState := ensureFrameValidForUsermode c.savedState }

/-- `return_from_kernel_code`; with nothing to return to the processor idles
and `this_tcb` is null. -/
def returnFromKernelCode (dm : DirectMap) (k : Kernel) : Result Kernel :=
  if k.returnToTcb = k.currentTcb then .ok k
  else
    match k.returnToTcb with
    | some t => switchTcbActual dm k t
    | none => do
      let k ← saveCurrent k
      return { k with currentTcb := none }

/-! ## Methods -/

def tcbResume (k : Kernel) (cap : Word) : Result (Reply × Kernel) := do
  let k ← scheduleTcb k (capPtr (k.slots cap).cap)
  return (.ok, k)

def tcbSuspend (k : Kernel) (cap : Word) : Result (Reply × Kernel) := do
  let k ← suspendTcb k (capPtr (k.slots cap).cap)
  return (.ok, k)

/-- The source copies the 176 bytes of the frame to `regs`, whatever lies there; the
frames of user memory are a table of their own here. -/
def tcbReadRegisters (k : Kernel) (cap regs : Word) : Reply × Kernel :=
  let tcb := capPtr (k.slots cap).cap
  (.ok, { k with userFrames := Function.update k.userFrames regs (k.tcbs tcb).savedState })

def tcbWriteRegisters (k : Kernel) (cap regs : Word) : Reply × Kernel :=
  let tcb := capPtr (k.slots cap).cap
  (.ok, k.modifyTcb tcb fun c => { c with savedState := k.userFrames regs })

def tcbConfigure (k : Kernel) (slot cspaceRoot vspaceRoot bufferFrame : Word) : Reply × Kernel :=
  let tcb := capPtr (k.slots slot).cap
  let slots := configureSlots k.slots slot cspaceRoot vspaceRoot bufferFrame
  let buffer := pointer (capPtr (slots bufferFrame).cap)
  (.ok, { k with slots }.modifyTcb tcb fun c => { c with ipcBuffer := buffer })

def tcbBindNotification (k : Kernel) (cap notification : Word) : Reply × Kernel :=
  let tcb := capPtr (k.slots cap).cap
  if (k.slots notification).cap.type ≠ .notification then (.illegalOperation, k)
  else
    let n := capPtr (k.slots notification).cap
    if (k.notifications n).boundTcb.isSome then (.illegalOperation, k)
    else
      let k := k.modifyTcb tcb fun c => { c with boundNotification := pointer n }
      let bound := { k.notifications n with boundTcb := pointer tcb }
      (.ok, { k with notifications := Function.update k.notifications n bound })

def tcbSetTlsBase (k : Kernel) (cap tlsBase : Word) : Reply × Kernel :=
  let tcb := capPtr (k.slots cap).cap
  let k := k.modifyTcb tcb fun c => { c with tlsBase }
  (.ok, if k.currentTcb = some tcb then { k with tlsBase } else k)

def tcbSetDebug (k : Kernel) (cap flags : Word) : Reply × Kernel :=
  (.ok, k.modifyTcb (capPtr (k.slots cap).cap) fun c => { c with debug := flags != 0#64 })

end Tern
