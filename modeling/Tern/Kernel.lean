import Tern.Untyped
import Tern.Lib.Ring

/-! The state of the kernel on one processor: threads, endpoints,
notifications, IPC buffers, interrupt handlers and page tables, each kind of
object a table indexed by address. The list nodes that lie inside TCBs and the
list heads are one link structure; the capability slots are the table of the
CNode modules. The tables stand for a memory in which objects and IPC buffers
lie apart: bytes of one object that are written through a pointer to another
kind of object, or through a pointer that nothing checks, are left out. The
functions at the end are those of `list.h`. -/

namespace Tern

/-- `frame_t`. -/
structure Frame where
  r15 : Word := 0
  r14 : Word := 0
  r13 : Word := 0
  r12 : Word := 0
  r11 : Word := 0
  r10 : Word := 0
  r9 : Word := 0
  r8 : Word := 0
  rdi : Word := 0
  rsi : Word := 0
  rbp : Word := 0
  rbx : Word := 0
  rdx : Word := 0
  rcx : Word := 0
  rax : Word := 0
  intNo : Word := 0
  errCode : Word := 0
  rip : Word := 0
  cs : Word := 0
  rflags : Word := 0
  rsp : Word := 0
  ss : Word := 0
  deriving DecidableEq, Repr

def userCs : Word := 0x23#64
def userSs : Word := 0x1B#64
def flagIf : Word := 0x200#64

/-- `enum tcb_state`. -/
inductive TaskState
  | runnable | running | dead | sending | receiving | calling | suspended
  deriving DecidableEq, Repr

/-- `struct tcb` without its list nodes and slots, which are in the tables of
nodes and slots, and without the name, which is only printed. The user frame is
the value that `current_user_frame` points to. -/
structure Tcb where
  state : TaskState := .runnable
  ipcBuffer : Option Word := none
  endpointBadge : Word := 0
  expectsReply : Bool := false
  replyTo : Option Word := none
  tlsBase : Word := 0
  boundNotification : Option Word := none
  savedState : Frame := {}
  currentUserFrame : Option Frame := none
  debug : Bool := false
  deriving DecidableEq, Repr

/-- A `struct list_head`: the head of the run queue, the two nodes inside a TCB
and the heads inside endpoints and notifications. -/
inductive Node
  | runnableTcbs
  | run (tcb : Word)
  | sendReceive (tcb : Word)
  | endpoint (e : Word)
  | notification (n : Word)
  deriving DecidableEq, Repr

/-- `struct notification` without its list head. -/
structure Notification where
  word : Word := 0
  boundTcb : Option Word := none
  deriving DecidableEq, Repr

/-- `struct ipc_buffer`, word by word: the message registers are words 0 to 503. -/
abbrev IpcBuffer := Nat → Word

def messageMaxLength : Nat := 504
def senderBadge : Nat := 504
def capsOrBadges (i : Nat) : Nat := 505 + i
def receiveCnode : Nat := 508
def receiveIndex : Nat := 509
def receiveDepth : Nat := 510

/-- `struct irq_handler_data`. -/
structure IrqHandlerData where
  irq : BitVec 32 := 0
  inService : Bool := false
  n : Option Word := none
  badge : Word := 0
  deriving DecidableEq, Repr

/-- One access of the processor to its I/O ports; `value` is what was written. -/
structure PortAccess where
  port : BitVec 16
  width : Nat
  value : Option (BitVec 32)
  deriving DecidableEq, Repr

/-- What has happened to threads, for the properties about runs; nothing in the
kernel reads it. `received` and `replied` carry the sender's `expects_reply`. -/
inductive Event
  | called (tcb : Word)
  | received (sender receiver : Word) (expectsReply : Bool)
  | replied (server client : Word) (expectsReply : Bool)
  | madeRunnable (tcb : Word)
  deriving DecidableEq, Repr

/-- What has happened to notifications: a badge was signalled, a word was
delivered to a thread. Nothing in the kernel reads it either. -/
inductive Signal
  | signalled (n badge : Word)
  | delivered (n tcb word : Word)
  deriving DecidableEq, Repr

/-- A call of one of the functions of `list.h`. -/
inductive ListOp (α : Type)
  | append (new head : α)
  | pop (x head : α)
  | remove (entry : α)
  deriving DecidableEq, Repr

/-- The links of all lists, and which calls made them, the last one in front.
Nothing in the kernel reads the calls. -/
structure Lists (α : Type) extends Lib.Links α where
  ops : List (ListOp α)

structure Kernel where
  slots : Slots
  tcbs : Word → Tcb
  nodes : Lists Node
  notifications : Word → Notification
  buffers : Word → IpcBuffer
  currentTcb : Option Word
  returnToTcb : Option Word
  irqHandlers : Word → IrqHandlerData
  irqHandlersIssued : Word
  irqMasked : BitVec 32 → Bool
  memory : Word → Word
  vmRoot : Word
  tlsBase : Word
  userFrames : Word → Frame
  portAccesses : List PortAccess
  history : List Event
  signals : List Signal

/-- What the kernel is given: the direct map, the address of the array
`irq_handlers`, and the devices, which answer a port read by what they have
seen so far. -/
structure Platform where
  dm : DirectMap
  irqHandlers : Word
  portValue : List PortAccess → BitVec 16 → BitVec 32

/-- A read through a pointer that may be null. -/
def deref {α : Type} : Option α → Result α
  | some a => .ok a
  | none => .error .fault

@[simp] theorem deref_eq_ok {α : Type} (p : Option α) (a : α) :
    deref p = .ok a ↔ p = some a := by
  cases p <;> simp [deref]

/-- A stored pointer, null or not. -/
def pointer (p : Word) : Option Word := if p = 0#64 then none else some p

namespace Kernel

def modifyTcb (k : Kernel) (t : Word) (f : Tcb → Tcb) : Kernel :=
  { k with tcbs := Function.update k.tcbs t (f (k.tcbs t)) }

def setState (k : Kernel) (t : Word) (state : TaskState) : Kernel :=
  k.modifyTcb t fun c => { c with state }

def setBufferWord (k : Kernel) (buffer : Word) (i : Nat) (w : Word) : Kernel :=
  { k with buffers := Function.update k.buffers buffer (Function.update (k.buffers buffer) i w) }

def setWord (k : Kernel) (n w : Word) : Kernel :=
  { k with notifications := Function.update k.notifications n { k.notifications n with word := w } }

def noted (k : Kernel) (e : Event) : Kernel := { k with history := e :: k.history }

def logged (k : Kernel) (s : Signal) : Kernel := { k with signals := s :: k.signals }

def withNodes (k : Kernel) (nodes : Lists Node) : Kernel := { k with nodes }

/-- Zeroed memory, with every list initialised and empty. -/
def blank : Kernel where
  slots := fun _ => {}
  tcbs := fun _ => {}
  nodes :=
    { next := fun x => match x with | .run _ | .sendReceive _ => none | h => some h
      prev := fun x => match x with | .run _ | .sendReceive _ => none | h => some h
      ops := [] }
  notifications := fun _ => {}
  buffers := fun _ _ => 0#64
  currentTcb := none
  returnToTcb := none
  irqHandlers := fun _ => {}
  irqHandlersIssued := 0#64
  irqMasked := fun _ => false
  memory := fun _ => 0#64
  vmRoot := 0#64
  tlsBase := 0#64
  userFrames := fun _ => {}
  portAccesses := []
  history := []
  signals := []

end Kernel

/-! ## Lists -/

section

variable {α : Type} [DecidableEq α]

namespace Lists

/-- The same links and calls with other links. -/
def relinked (L : Lists α) (links : Lib.Links α) : Lists α := { L with toLinks := links }

/-- `new` has been spliced in between `prev` and `next`. -/
def appended (L : Lists α) (new prev next : α) : Lists α :=
  { toLinks := L.spliceIn new prev next, ops := .append new prev :: L.ops }

/-- `entry` has been spliced out from between `prev` and `next`. -/
def removed (L : Lists α) (entry prev next : α) : Lists α :=
  { toLinks := L.spliceOut entry prev next, ops := .remove entry :: L.ops }

end Lists

def initList (L : Lists α) (head : α) : Lists α := L.relinked (L.selfLink head)

def insertListInternal (L : Lists α) (new prev next : α) : Lists α :=
  L.relinked (L.spliceIn new prev next)

/-- `append_to_list`: the new node becomes the first one. -/
def appendToList (L : Lists α) (new prev : α) : Result (Lists α) := do
  let next ← deref (L.next prev)
  return { insertListInternal L new prev next with ops := .append new prev :: L.ops }

def removeFromList (L : Lists α) (entry : α) : Result (Lists α) := do
  let prev ← deref (L.prev entry)
  let L := L.relinked (L.setNext prev (L.next entry))
  let next ← deref (L.next entry)
  let L := L.relinked (L.setPrev next (L.prev entry))
  return { initList L entry with ops := .remove entry :: L.ops }

/-- `pop_from_list`: the first node is removed. -/
def popFromList (L : Lists α) (head : α) : Result (α × Lists α) := do
  let next ← deref (L.next head)
  let removed ← removeFromList L next
  return (next, { removed with ops := .pop next head :: L.ops })

def isListEmpty (L : Lists α) (head : α) : Bool := L.next head == some head

theorem appendToList_eq_ok {L L' : Lists α} {new prev : α} :
    appendToList L new prev = .ok L' ↔
      ∃ next, L.next prev = some next ∧ L' = L.appended new prev next := by
  simp only [appendToList, insertListInternal, Lists.relinked, Lists.appended, bind_eq_ok,
    deref_eq_ok, pure_eq_ok, @eq_comm _ L']

theorem removeFromList_eq_ok {L L' : Lists α} {entry : α} :
    removeFromList L entry = .ok L' ↔
      ∃ prev next, L.prev entry = some prev ∧ L.next entry = some next ∧
        L' = L.removed entry prev next := by
  simp only [removeFromList, initList, Lists.relinked, Lists.removed, bind_eq_ok, deref_eq_ok,
    pure_eq_ok]
  constructor
  · rintro ⟨p, hp, n, hn, rfl⟩
    have hkeep : (L.setNext p (L.next entry)).next entry = L.next entry := by
      simp only [Lib.Links.setNext, Function.update_apply]
      split <;> rfl
    rw [hkeep] at hn
    exact ⟨p, n, hp, hn, by simp [Lib.Links.spliceOut, hn, Lib.Links.setNext, hp]⟩
  · rintro ⟨p, n, hp, hn, rfl⟩
    refine ⟨p, hp, n, ?_, ?_⟩
    · simp only [Lib.Links.setNext, Function.update_apply, hn]
      split <;> rfl
    · simp [Lib.Links.spliceOut, hn, Lib.Links.setNext, hp]

theorem popFromList_eq_ok {L L' : Lists α} {head a : α} :
    popFromList L head = .ok (a, L') ↔ L.next head = some a ∧
      ∃ removed, removeFromList L a = .ok removed ∧
        L' = { removed with ops := .pop a head :: L.ops } := by
  simp only [popFromList, bind_eq_ok, deref_eq_ok, pure_eq_ok, Prod.mk.injEq]
  constructor
  · rintro ⟨b, hb, L₁, hL₁, rfl, rfl⟩
    exact ⟨hb, L₁, hL₁, rfl⟩
  · rintro ⟨ha, L₁, hL₁, rfl⟩
    exact ⟨a, ha, L₁, hL₁, rfl, rfl⟩

end

end Tern
