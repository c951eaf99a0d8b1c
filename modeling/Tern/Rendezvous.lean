import Tern.Replies
import Tern.Turns

/-! Rendezvous on an endpoint: a send or call and a receive meet in either
order. Whichever comes second exchanges the message; `exchange` is what it does,
as a function of the capabilities, the IPC buffers and the message alone, and
both orders are shown to come down to it. -/

namespace Tern

open Lib Cdt

variable {k k' : Kernel} {v : View} {s r e : Word}

/-! ## The exchange -/

/-- The capability of a message, from the slots and the buffers. -/
def grantCap (slots : Slots) (buffers : Word → IpcBuffer) (sender receiver senderBuffer buffer : Word)
    (tag : MessageTag) : Result (MessageTag × Slots) :=
  (transferCap { Kernel.blank with slots, buffers } sender receiver senderBuffer buffer tag).map
    fun x => (x.1, x.2.slots)

theorem transferCap_eq (k : Kernel) (sender receiver sb rb : Word) (tag : MessageTag) :
    transferCap k sender receiver sb rb tag =
      (grantCap k.slots k.buffers sender receiver sb rb tag).map
        fun x => (x.1, { k with slots := x.2 }) := by
  unfold grantCap transferCap lookupReceiveSlot
  split
  · rfl
  · simp only [bind, Except.bind]
    cases lookupCapSlotRaw k.slots (cspaceRootOf sender) (k.buffers sb (capsOrBadges 0)) 64#64 with
    | error => rfl
    | ok x =>
      cases x with
      | error => rfl
      | ok cap =>
        cases lookupCapSlotRaw k.slots (cspaceRootOf receiver) (k.buffers rb receiveCnode) 64#64 with
        | error => rfl
        | ok y =>
          cases y with
          | error => rfl
          | ok root =>
            simp only
            cases lookupCapSlotRaw k.slots root (k.buffers rb receiveIndex)
                (k.buffers rb receiveDepth) with
            | error => rfl
            | ok z => cases z <;> rfl

/-- The buffers once the message and the badge are copied. -/
def messageBuffers (buffers : Word → IpcBuffer) (sb rb badge : Word) (length : Nat) :
    Word → IpcBuffer :=
  Function.update buffers rb
    (Function.update (copyMessage (buffers sb) (buffers rb) length) senderBadge badge)

/-- What a message transfer does to capabilities and buffers, and the tag that
the receiver gets. -/
def exchange (k : Kernel) (sender receiver badge : Word) (tag : MessageTag) :
    Result (MessageTag × Slots × (Word → IpcBuffer)) := do
  let rb ← deref (k.tcbs receiver).ipcBuffer
  let sb ← senderBuffer k sender tag
  let buffers := messageBuffers k.buffers sb rb badge tag.length.toNat
  let (tag, slots) ← grantCap k.slots buffers sender receiver sb rb tag
  return (tag, slots, buffers)

/-- The exchange depends on capabilities and buffers only. -/
theorem exchange_congr {sender receiver badge : Word} {tag : MessageTag}
    (hslots : k'.slots = k.slots) (hbuffers : k'.buffers = k.buffers)
    (hs : (k'.tcbs sender).ipcBuffer = (k.tcbs sender).ipcBuffer)
    (hr : (k'.tcbs receiver).ipcBuffer = (k.tcbs receiver).ipcBuffer) :
    exchange k' sender receiver badge tag = exchange k sender receiver badge tag := by
  simp only [exchange, senderBuffer, hslots, hbuffers, hs, hr]

/-- The state after the exchange, before the receiver is told. -/
def Kernel.exchanged (k : Kernel) (x : MessageTag × Slots × (Word → IpcBuffer)) : Kernel :=
  { k with slots := x.2.1, buffers := x.2.2 }

theorem transferMessage_eq (k : Kernel) (sender receiver badge : Word) (tag : MessageTag) :
    transferMessage k sender receiver badge tag =
      (exchange k sender receiver badge tag >>= fun x =>
        setIpcResult (setReplyTo (k.exchanged x) sender receiver) receiver x.1 >>= fun k =>
          .ok (x.1, k)) := by
  unfold transferMessage exchange
  cases (k.tcbs receiver).ipcBuffer with
  | none => rfl
  | some rb =>
    simp only [deref, bind, Except.bind]
    cases senderBuffer k sender tag with
    | error => rfl
    | ok sb =>
      simp only [transferCap_eq, Kernel.setBufferWord, Function.update_self, Function.update_idem]
      rw [← messageBuffers]
      cases grantCap k.slots (messageBuffers k.buffers sb rb badge tag.length.toNat) sender receiver
          sb rb tag with
      | error => rfl
      | ok x => rfl

/-! ## Two calls, one after the other -/

/-- What a rendezvous leaves: the receiver's IPC buffer, with the message and
`sender_badge`, the tag in RAX of the frame that it goes on with, its `reply_to`,
all capabilities, and the sender's state. -/
structure Outcome where
  message : Option IpcBuffer
  tag : Option Word
  replyTo : Option Word
  slots : Slots
  senderState : TaskState

/-- The frame that the receiver goes on with after an entry from `k`: its own if
it made the entry, the saved one if `switch_tcb_actual` has switched to it. -/
def goesOnWith (k k' : Kernel) (r : Word) : Option Frame :=
  if k.currentTcb = some r then (k'.tcbs r).currentUserFrame else some (k'.tcbs r).savedState

def outcome (k k' : Kernel) (s r : Word) : Outcome where
  message := (k'.tcbs r).ipcBuffer.map k'.buffers
  tag := (goesOnWith k k' r).map Frame.rax
  replyTo := (k'.tcbs r).replyTo
  slots := k'.slots
  senderState := (k'.tcbs s).state

/-- The running thread makes its system call, then the next one makes its own. -/
def meet (P : Platform) (fuel : Nat) (s r : Word) (k : Kernel) (first second : Frame) :
    Result Outcome := do
  let k₁ ← syscallEntry P fuel k first
  let k₂ ← syscallEntry P fuel k₁ second
  return outcome k₁ k₂ s r

def NothingPending (k : Kernel) (r : Word) : Prop :=
  ∀ n, (k.tcbs r).boundNotification = some n → (k.notifications n).word = 0#64

/-- A sender and a receiver about to meet on an endpoint without a queue: in `k`
it is the sender's turn, in `k'` the receiver's. -/
structure Meeting (k k' : Kernel) (s r e : Word) (isCall : Bool) (send recv : Frame)
    (slotS slotR : Word) : Prop where
  sender : Turn k s r
  receiver : Turn k' r s
  same : SameMachine k k'
  send : OnObject k.slots .endpoint s send (if isCall then .call else .send) slotS e
  recv : OnObject k.slots .endpoint r recv .recv slotR e
  empty : isListEmpty k.nodes (.endpoint e) = true
  empty' : isListEmpty k'.nodes (.endpoint e) = true
  quiet : NothingPending k r

/-! ## The first call blocks -/

theorem Kernel.prepared_self (k : Kernel) (s : Word) (isCall : Bool) :
    (k.prepared s isCall).tcbs s = { k.tcbs s with
      expectsReply := isCall
      state := if isCall then .calling else (k.tcbs s).state } := by
  cases isCall <;>
    simp [Kernel.prepared, setExpectsReply, Kernel.setState, Kernel.noted, Kernel.modifyTcb]

theorem Kernel.prepared_ne (k : Kernel) {s x : Word} (isCall : Bool) (hx : x ≠ s) :
    (k.prepared s isCall).tcbs x = k.tcbs x := by
  cases isCall <;>
    simp [Kernel.prepared, setExpectsReply, Kernel.setState, Kernel.noted, Kernel.modifyTcb, hx]

theorem Kernel.prepared_base (k : Kernel) (s : Word) (isCall : Bool) :
    SameBase k (k.prepared s isCall) := by
  cases isCall <;> exact ⟨rfl, rfl, rfl, rfl⟩

/-- A send or call is `endpoint_send`, of which nothing is returned. -/
theorem opSyscallOn_send (P : Platform) (fuel : Nat) {slot : Word} {tag : MessageTag}
    {isCall : Bool} (hcurrent : k.currentTcb = some s)
    (htype : (k.slots slot).cap.type = .endpoint) :
    opSyscallOn P fuel k slot tag (some (if isCall then .call else .send)) =
      (endpointSend (k.prepared s isCall) (capPtr (k.slots slot).cap) (k.slots slot).cap.badge tag
        isCall >>= fun k => .ok (.noreturn, k)) := by
  cases isCall with
  | true =>
    simp [opSyscallOn, htype, invokeEndpointCall, thisTcb, hcurrent, deref, assert, Kernel.prepared,
      bind, Except.bind, pure, Except.pure]
  | false =>
    simp [opSyscallOn, htype, invokeEndpointSend, thisTcb, hcurrent, deref, assert, Kernel.prepared,
      bind, Except.bind, pure, Except.pure]

/-- The state in which a sender waits. -/
def waitingState (isCall : Bool) : TaskState := if isCall then .calling else .sending

/-- On an endpoint without a queue the message stays with its sender. -/
theorem endpointSend_queues (h : Represents k v) (hcurrent : k.currentTcb = some s)
    (hlink : v.Unlinked s) (he : v.waiting (.endpoint e) = []) {f : Frame}
    (hframe : (k.tcbs s).currentUserFrame = some f) (badge : Word) (isCall : Bool) :
    ∃ k₁, endpointSend k e badge f.tag isCall = schedule k₁ ∧
      Represents k₁ ((v.enqueue (.endpoint e) s).setState s (waitingState isCall)) ∧
      k₁.currentTcb = some s ∧ SameBase k k₁ ∧
      k₁.tcbs s = { k.tcbs s with state := waitingState isCall, endpointBadge := badge } ∧
      ∀ x, x ≠ s → k₁.tcbs x = k.tcbs x := by
  obtain ⟨nodes, happend, hrep⟩ := h.append_waiting (.endpoint e) hlink
  have hempty : isListEmpty k.nodes (.endpoint e) = true := (h.waiting_empty (.endpoint e)).mpr he
  have hblock : sendWillBlock k e = .ok true := by
    simp [sendWillBlock, hempty, pure, Except.pure]
  have hthis : thisTcb k = .ok s := by simp [thisTcb, hcurrent]
  have hinfo : getPendingIpcInfo k s = .ok f.tag := by
    simp [getPendingIpcInfo, ipcFrame, hcurrent, hframe, bind, Except.bind, pure, Except.pure,
      Frame.tag]
  have hbadge := SameView.modifyTcb ((k.withNodes nodes).setState s (waitingState isCall)) s
    (fun c => { c with endpointBadge := badge }) (fun _ => rfl) (fun _ => rfl) (fun _ => rfl)
  refine ⟨_, ?_, hbadge.represents (hrep.setState s (waitingState isCall)), hcurrent,
    ⟨rfl, rfl, rfl, rfl⟩, ?_, ?_⟩
  · simp only [endpointSend, hblock, queueMessageOnEndpoint, hthis, hinfo, assert, beq_self_eq_true,
      if_true, bind, Except.bind, show appendToList k.nodes (.sendReceive s) (.endpoint e) = .ok nodes
        from happend]
    rfl
  · simp [Kernel.modifyTcb, Kernel.setState, Kernel.withNodes]
  · intro x hx
    simp [Kernel.modifyTcb, Kernel.setState, Kernel.withNodes, hx]

/-- A send or call with nobody waiting blocks. -/
theorem send_waits (P : Platform) (fuel : Nat) {isCall : Bool} {send : Frame} {slot : Word}
    (ht : Turn k s r) (he : isListEmpty k.nodes (.endpoint e) = true)
    (hs : OnObject k.slots .endpoint s send (if isCall then .call else .send) slot e) :
    ∃ k₁, syscallEntry P fuel k send = .ok k₁ ∧ Waits k k₁ s r (.endpoint e) ∧
      k₁.tcbs s = { k.tcbs s with
        state := waitingState isCall
        endpointBadge := (k.slots slot).cap.badge
        expectsReply := isCall
        currentUserFrame := some send
        savedState := send } := by
  obtain ⟨v, l, hrep, hv, hc, hq, hne⟩ := ht.view
  obtain ⟨-, hlink, -⟩ := hv.current_free hc
  have hnil : v.waiting (.endpoint e) = [] := (hrep.waiting_empty (.endpoint e)).mp he
  have hplain : opSyscallPlain (k.withFrame s send) send.tag (if isCall then .call else .send) = none := by
    cases isCall <;> rfl
  rw [syscallEntry_on P fuel hs.user hs.number ht.current hs.found hplain,
    opSyscallOn_send P fuel (k := k.withFrame s send) ht.current hs.type, finish_noreturn]
  obtain ⟨k₀, hk₀⟩ : ∃ k₀, k₀ = (k.withFrame s send).prepared s isCall := ⟨_, rfl⟩
  have hrep₀ : Represents k₀ (v.prepared s isCall) := hk₀ ▸ (hrep.withFrame s send).prepared s isCall
  have hself : k₀.tcbs s = { k.tcbs s with
      expectsReply := isCall
      state := if isCall then .calling else (k.tcbs s).state
      currentUserFrame := some send } := by
    rw [hk₀, Kernel.prepared_self, Kernel.withFrame_self]
  have hother : ∀ x, x ≠ s → k₀.tcbs x = k.tcbs x := by
    intro x hx
    rw [hk₀, Kernel.prepared_ne _ _ hx, Kernel.withFrame_ne _ _ hx]
  have hbase : SameBase k k₀ := by
    have hframe : SameBase k (k.withFrame s send) := ⟨rfl, rfl, rfl, rfl⟩
    exact hk₀ ▸ hframe.trans (Kernel.prepared_base (k.withFrame s send) s isCall)
  have hcurrent₀ : k₀.currentTcb = some s := by
    rw [hk₀]
    cases isCall <;> exact ht.current
  have hprep : (v.prepared s isCall).runQueue = v.runQueue ∧
      (v.prepared s isCall).waiting = v.waiting ∧
      ∀ x, x ≠ s → (v.prepared s isCall).state x = v.state x := by
    cases isCall
    · exact ⟨rfl, rfl, fun _ _ => rfl⟩
    · exact ⟨rfl, rfl, fun x hx => Function.update_of_ne hx _ _⟩
  have hlink₀ : (v.prepared s isCall).Unlinked s := by
    intro q
    rw [hprep.2.1]
    exact hlink q
  have hnil₀ : (v.prepared s isCall).waiting (.endpoint e) = [] := by rw [hprep.2.1, hnil]
  obtain ⟨k₁, hsend, hrep₁, hcurrent₁, hbase₁, hself₁, hother₁⟩ :=
    endpointSend_queues hrep₀ hcurrent₀ hlink₀ hnil₀ (f := send) (by rw [hself])
      (k.slots slot).cap.badge isCall
  have hst : waitingState isCall ≠ .running ∧ waitingState isCall ≠ .dead := by
    cases isCall <;> decide
  obtain ⟨k₂, hk₂, hwaits, hself₂⟩ := block_waits hv hc hq hne hnil hprep.1 hprep.2.1 hprep.2.2
    hrep₁ hcurrent₁ (hbase.trans hbase₁) hst (f := send) (by rw [hself₁, hself])
    (by rw [hother₁ r hne.symm, hother r hne.symm]) P.dm
  have hendpoint : capPtr ((k.withFrame s send).slots slot).cap = e := hs.object
  refine ⟨k₂, ?_, hwaits, ?_⟩
  · rw [hendpoint, ← hk₀]
    rw [show ((k.withFrame s send).slots slot).cap.badge = (k.slots slot).cap.badge from rfl, hsend]
    exact hk₂
  · rw [hself₂, hself₁, hself]

/-- Without a pending notification a receive looks at the endpoint. -/
theorem opSyscallOn_recv (P : Platform) (fuel : Nat) {slot : Word} {tag : MessageTag}
    (hcurrent : k.currentTcb = some r) (htype : (k.slots slot).cap.type = .endpoint)
    (hquiet : NothingPending k r) :
    opSyscallOn P fuel k slot tag (some .recv) = endpointRecv k (capPtr (k.slots slot).cap) := by
  have hnone : handleRecvWithPendingNotification k = .ok none := by
    cases hn : (k.tcbs r).boundNotification with
    | none => simp [handleRecvWithPendingNotification, thisTcb, hcurrent, hn, deref, bind,
        Except.bind, pure, Except.pure]
    | some n => simp [handleRecvWithPendingNotification, thisTcb, hcurrent, hn, hquiet n hn, deref,
        bind, Except.bind, pure, Except.pure]
  simp [opSyscallOn, htype, invokeEndpointRecv, assert, hnone, bind, Except.bind]

/-- A receive with nobody waiting blocks. -/
theorem recv_waits (P : Platform) (fuel : Nat) {recv : Frame} {slot : Word} (ht : Turn k r s)
    (he : isListEmpty k.nodes (.endpoint e) = true)
    (hr : OnObject k.slots .endpoint r recv .recv slot e) (hquiet : NothingPending k r) :
    ∃ k₁, syscallEntry P fuel k recv = .ok k₁ ∧ Waits k k₁ r s (.endpoint e) ∧
      k₁.tcbs r = { k.tcbs r with
        state := .receiving
        currentUserFrame := some recv
        savedState := recv } := by
  have hquiet₀ : NothingPending (k.withFrame r recv) r := by
    intro n hn
    rw [Kernel.withFrame_self] at hn
    exact hquiet n hn
  have hendpoint : capPtr ((k.withFrame r recv).slots slot).cap = e := hr.object
  rw [syscallEntry_on P fuel hr.user hr.number ht.current hr.found rfl,
    opSyscallOn_recv P fuel (k := k.withFrame r recv) ht.current hr.type hquiet₀, hendpoint]
  obtain ⟨nodes, k₁, happend, hk₁, hwaits, hself⟩ :=
    ht.receiver_waits (q := .endpoint e) he recv P.dm
  have happend' : appendToList (k.withFrame r recv).nodes (.sendReceive r) (.endpoint e) =
      .ok nodes := happend
  have hempty : isListEmpty (k.withFrame r recv).nodes (.endpoint e) = true := he
  have hblock : recvWillBlock (k.withFrame r recv) e = .ok true := by
    simp [recvWillBlock, hempty, pure, Except.pure]
  have hthis : thisTcb (k.withFrame r recv) = .ok r := by
    simp [thisTcb, Kernel.withFrame, Kernel.modifyTcb, ht.current]
  have hqueue : endpointRecv (k.withFrame r recv) e =
      (schedule (((k.withFrame r recv).withNodes nodes).setState r .receiving) >>=
        fun k => .ok (.noreturn, k)) := by
    simp only [endpointRecv, hblock, queueReceiverOnEndpoint, hthis, if_true, happend', bind,
      Except.bind]
    rfl
  refine ⟨k₁, ?_, hwaits, hself⟩
  rw [hqueue, finish_noreturn, hk₁]

/-! ## The second call exchanges -/

/-- What the exchange leaves, with the sender in this state. -/
def delivered (k : Kernel) (s r : Word) (isCall : Bool) (st : TaskState)
    (x : MessageTag × Slots × (Word → IpcBuffer)) : Outcome where
  message := (k.tcbs r).ipcBuffer.map x.2.2
  tag := some x.1.toWord
  replyTo := if isCall then some s else (k.tcbs r).replyTo
  slots := x.2.1
  senderState := st

/-- The state of the sender after a rendezvous. -/
def settledState (isCall : Bool) : TaskState := if isCall then .calling else .runnable

theorem setReplyTo_self (k : Kernel) (s r : Word) :
    (setReplyTo k s r).tcbs r = { k.tcbs r with
      replyTo := if (k.tcbs s).expectsReply then some s else (k.tcbs r).replyTo } := by
  unfold setReplyTo
  split <;> simp [Kernel.modifyTcb]

theorem setReplyTo_ne (k : Kernel) {x : Word} (hx : x ≠ r) :
    (setReplyTo k s r).tcbs x = k.tcbs x := by
  unfold setReplyTo
  split <;> simp [Kernel.modifyTcb, hx]

theorem setReplyTo_rest (k : Kernel) (s r : Word) :
    (setReplyTo k s r).currentTcb = k.currentTcb ∧ (setReplyTo k s r).returnToTcb = k.returnToTcb ∧
      (setReplyTo k s r).nodes = k.nodes ∧ (setReplyTo k s r).slots = k.slots ∧
      (setReplyTo k s r).buffers = k.buffers := by
  unfold setReplyTo
  split <;> exact ⟨rfl, rfl, rfl, rfl, rfl⟩

/-- The receiver, running, finishes an exchange with a sender taken off the queue. -/
theorem receive_finishes (dm : DirectMap) (isCall : Bool) {f : Frame} {nodes : Lists Node}
    (hcurrent : k.currentTcb = some r) (hreturn : k.returnToTcb = some r) (hne : s ≠ r)
    (hframe : (k.tcbs r).currentUserFrame = some f)
    (hexpects : (k.tcbs s).expectsReply = isCall) (hstate : (k.tcbs s).state = waitingState isCall)
    (happend : appendToList k.nodes (.run s) .runnableTcbs = .ok nodes)
    (x : MessageTag × Slots × (Word → IpcBuffer)) :
    ∃ k₂, (setIpcResult (setReplyTo (k.exchanged x) s r) r x.1 >>= fun k₁ =>
        settleSender k₁ s r >>= fun k₁ =>
          finishSyscall k₁ x.1 >>= returnFromKernelCode dm) = .ok k₂ ∧
      k₂.slots = x.2.1 ∧ k₂.buffers = x.2.2 ∧
      (k₂.tcbs r).ipcBuffer = (k.tcbs r).ipcBuffer ∧
      (k₂.tcbs r).currentUserFrame = some { f with rax := x.1.toWord } ∧
      (k₂.tcbs r).replyTo = (if isCall then some s else (k.tcbs r).replyTo) ∧
      (k₂.tcbs s).state = settledState isCall := by
  obtain ⟨k₁, hk₁⟩ : ∃ k₁, k₁ = setReplyTo (k.exchanged x) s r := ⟨_, rfl⟩
  obtain ⟨hcurrent₁, hreturn₁, hnodes₁, hslots₁, hbuffers₁⟩ := setReplyTo_rest (k.exchanged x) s r
  have hr₁ := setReplyTo_self (k.exchanged x) s r
  have hs₁ := setReplyTo_ne (s := s) (r := r) (k.exchanged x) hne
  rw [← hk₁] at hcurrent₁ hreturn₁ hnodes₁ hslots₁ hbuffers₁ hr₁ hs₁
  rw [← hk₁, setIpcResult_current (f := f) (hcurrent₁.trans hcurrent)
    (by rw [hr₁]; exact hframe)]
  obtain ⟨k₂, hk₂⟩ : ∃ k₂, k₂ = k₁.modifyTcb r fun c =>
      { c with currentUserFrame := some { f with rax := x.1.toWord } } := ⟨_, rfl⟩
  rw [← hk₂]
  have hr₂ : k₂.tcbs r = { k₁.tcbs r with
      currentUserFrame := some { f with rax := x.1.toWord } } := by
    simp [hk₂, Kernel.modifyTcb]
  have hs₂ : k₂.tcbs s = k.tcbs s := by
    rw [hk₂]
    simp [Kernel.modifyTcb, hne, hs₁, Kernel.exchanged]
  have hsame₂ : k₂.currentTcb = some r ∧ k₂.returnToTcb = some r ∧ k₂.nodes = k.nodes ∧
      k₂.slots = x.2.1 ∧ k₂.buffers = x.2.2 := by
    rw [hk₂]
    exact ⟨hcurrent₁.trans hcurrent, hreturn₁.trans hreturn, hnodes₁, hslots₁, hbuffers₁⟩
  obtain ⟨hcurrent₂, hreturn₂, hnodes₂, hslots₂, hbuffers₂⟩ := hsame₂
  -- what is left of the entry changes neither frames nor links that matter
  have hdone : ∀ k₃, settleSender k₂ s r = .ok k₃ → k₃.currentTcb = some r →
      k₃.returnToTcb = some r →
      (k₃.tcbs r).currentUserFrame = some { f with rax := x.1.toWord } →
      ((Except.ok k₂ : Result Kernel) >>= fun k₁ => settleSender k₁ s r >>= fun k₁ =>
        finishSyscall k₁ x.1 >>= returnFromKernelCode dm) = .ok k₃ := by
    intro k₃ hsettle hc hret hf
    have hfinish : finishSyscall k₃ x.1 = .ok k₃ := finishSyscall_again hc hf rfl
    simp only [bind, Except.bind, hsettle, hfinish, returnFromKernelCode, hret, hc, if_true]
  cases isCall with
  | true =>
    have hsettle : settleSender k₂ s r = .ok (k₂.modifyTcb r fun c => { c with replyTo := some s }) := by
      simp [settleSender, hs₂, hexpects]
    refine ⟨_, hdone _ hsettle hcurrent₂ hreturn₂ ?_, hslots₂, hbuffers₂, ?_, ?_, ?_, ?_⟩
    all_goals simp [Kernel.modifyTcb, hr₂, hr₁, hs₂, hne, Kernel.exchanged, hstate, waitingState,
      settledState]
  | false =>
    have happend₂ : appendToList (k₂.setState s .runnable).nodes (.run s) .runnableTcbs =
        .ok nodes := by
      show appendToList k₂.nodes _ _ = _
      rw [hnodes₂, happend]
    have hsettle : settleSender k₂ s r =
        .ok (((k₂.setState s .runnable).withNodes nodes).noted (.madeRunnable s)) := by
      simp [settleSender, hs₂, hexpects, scheduleTcb, assert, hstate, waitingState, happend₂, bind,
        Except.bind, pure, Except.pure]
    refine ⟨_, hdone _ hsettle hcurrent₂ hreturn₂ ?_, hslots₂, hbuffers₂, ?_, ?_, ?_, ?_⟩
    all_goals simp [Kernel.setState, Kernel.withNodes, Kernel.noted, Kernel.modifyTcb, hr₂, hr₁,
      hne.symm, Kernel.exchanged, hexpects, settledState]

/-- A computation that goes on without failing after an exchange gives what the
exchange gives. -/
theorem exchange_then {α : Type} {x : Result α} {rest : α → Result Kernel} {out : Kernel → Outcome}
    {given : α → Outcome} (h : ∀ a, ∃ k₂, rest a = .ok k₂ ∧ out k₂ = given a) (o : Outcome) :
    (∃ k₂, (x >>= rest) = .ok k₂ ∧ out k₂ = o) ↔ ∃ a, x = .ok a ∧ given a = o := by
  simp only [bind_eq_ok]
  constructor
  · rintro ⟨k₂, ⟨a, ha, hk₂⟩, rfl⟩
    obtain ⟨k₃, hk₃, hgiven⟩ := h a
    cases hk₂.symm.trans hk₃
    exact ⟨a, ha, hgiven.symm⟩
  · rintro ⟨a, ha, rfl⟩
    obtain ⟨k₃, hk₃, hgiven⟩ := h a
    exact ⟨k₃, ⟨a, ha, hk₃⟩, hgiven⟩

/-- A receive takes the message of the sender that waits. -/
theorem endpointRecv_takes (h : Represents k v) (hcurrent : k.currentTcb = some r) (hne : s ≠ r)
    {l : List Word} (hwait : v.waiting (.endpoint e) = s :: l)
    (hstate : (k.tcbs s).state ≠ .receiving) :
    ∃ k₁ w, Represents k₁ w ∧ SameBase k k₁ ∧ k₁.tcbs = k.tcbs ∧ k₁.currentTcb = k.currentTcb ∧
      k₁.returnToTcb = k.returnToTcb ∧
      endpointRecv k e =
        (transferMessage k₁ s r (k.tcbs s).endpointBadge (k.tcbs s).savedState.tag >>= fun x =>
          settleSender x.2 s r >>= fun k => .ok (x.1, k)) := by
  obtain ⟨nodes, hpop, hrep⟩ := h.pop_first (q := .endpoint e) hwait
  have hpop' : popFromList k.nodes (.endpoint e) = .ok (.sendReceive s, nodes) := hpop
  have hthis : thisTcb k = .ok r := by simp [thisTcb, hcurrent]
  have hnonempty : ¬ isListEmpty k.nodes (.endpoint e) = true := by
    have hempty := h.waiting_empty (.endpoint e)
    rw [hwait] at hempty
    exact fun he => List.cons_ne_nil s l (hempty.mp he)
  have hfirst : k.nodes.next (.endpoint e) = some (.sendReceive s) :=
    h.next_waiting (q := .endpoint e) hwait
  have hblock : recvWillBlock k e = .ok false := by
    simp [recvWillBlock, hnonempty, firstState, hfirst, Node.tcbOfSendReceive, hstate, deref, bind,
      Except.bind, pure, Except.pure]
  have hother : ¬ some r = some s := fun he => hne (Option.some.inj he).symm
  have hinfo : getPendingIpcInfo
      ((k.withNodes nodes).noted (.received s r (k.tcbs s).expectsReply)) s =
        .ok (k.tcbs s).savedState.tag := by
    simp [getPendingIpcInfo, ipcFrame, Kernel.noted, Kernel.withNodes, hcurrent, hother, Frame.tag,
      bind, Except.bind, pure, Except.pure]
  refine ⟨_, _, hrep.noted (.received s r (k.tcbs s).expectsReply), ⟨rfl, rfl, rfl, rfl⟩, rfl, rfl,
    rfl, ?_⟩
  simp only [endpointRecv, hblock, receiveMessageFromBlockedSender, hthis, hpop',
    Node.tcbOfSendReceive, bind, Except.bind, hinfo]
  rfl

/-- The receive that comes second. -/
theorem recv_exchanges (P : Platform) (fuel : Nat) {k₁ : Kernel} {isCall : Bool}
    {send recv : Frame} {badge slot : Word} (hw : Waits k k₁ s r (.endpoint e)) (hne : s ≠ r)
    (hs : k₁.tcbs s = { k.tcbs s with
        state := waitingState isCall
        endpointBadge := badge
        expectsReply := isCall
        currentUserFrame := some send
        savedState := send })
    (hr : OnObject k.slots .endpoint r recv .recv slot e) (hquiet : NothingPending k r) (o : Outcome) :
    (∃ k₂, syscallEntry P fuel k₁ recv = .ok k₂ ∧ outcome k₁ k₂ s r = o) ↔
      ∃ x, exchange k s r badge send.tag = .ok x ∧
        delivered k s r isCall (settledState isCall) x = o := by
  obtain ⟨v, hrep, hwait, -⟩ := hw.lists
  have hquiet₁ : NothingPending (k₁.withFrame r recv) r := by
    intro n hn
    rw [Kernel.withFrame_self] at hn
    show (k₁.notifications n).word = _
    rw [hw.notifications]
    exact hquiet n (hw.boundNotification ▸ hn)
  have hslots : (k₁.withFrame r recv).slots = k.slots := hw.slots
  have hs₁ : (k₁.withFrame r recv).tcbs s = k₁.tcbs s := Kernel.withFrame_ne _ _ hne
  rw [syscallEntry_on P fuel hr.user hr.number hw.current (by rw [hw.slots]; exact hr.found) rfl,
    opSyscallOn_recv P fuel (k := k₁.withFrame r recv) hw.current (by rw [hslots]; exact hr.type)
      hquiet₁, hslots, hr.object]
  have hstate : ((k₁.withFrame r recv).tcbs s).state ≠ .receiving := by
    rw [hs₁, hs]
    cases isCall <;> nofun
  obtain ⟨k₂, w, hrep₂, hbase₂, htcbs₂, hcurrent₂, hreturn₂, hreceive⟩ :=
    endpointRecv_takes (hrep.withFrame r recv) (k := k₁.withFrame r recv) hw.current hne hwait hstate
  rw [hreceive, hs₁, hs, transferMessage_eq]
  obtain ⟨nodes, happend⟩ := hrep₂.append_run s
  have hexchange : exchange k₂ s r badge send.tag = exchange k s r badge send.tag := by
    refine exchange_congr (hbase₂.slots.trans hslots) (hbase₂.buffers.trans hw.buffers) ?_ ?_
    · rw [htcbs₂, hs₁, hs]
    · rw [htcbs₂, Kernel.withFrame_self]
      exact hw.ipcBuffer
  have hok : ∀ {α β : Type} (a : α) (f : α → Result β), ((Except.ok a : Result α) >>= f) = f a :=
    fun _ _ => rfl
  simp only [bind_assoc, hok, hexchange]
  refine exchange_then (fun x => ?_) o
  obtain ⟨k₃, hk₃, hslots₃, hbuffers₃, hipc₃, hframe₃, hreply₃, hstate₃⟩ :=
    receive_finishes P.dm isCall (hcurrent₂.trans hw.current) (hreturn₂.trans hw.returnTo)
      hne (f := recv) (by rw [htcbs₂, Kernel.withFrame_self]) (by rw [htcbs₂, hs₁, hs])
      (by rw [htcbs₂, hs₁, hs]) happend x
  refine ⟨k₃, hk₃, ?_⟩
  have hr₂ : (k₂.tcbs r).ipcBuffer = (k.tcbs r).ipcBuffer ∧
      (k₂.tcbs r).replyTo = (k.tcbs r).replyTo := by
    rw [htcbs₂, Kernel.withFrame_self]
    exact ⟨hw.ipcBuffer, hw.replyTo⟩
  simp only [outcome, delivered, goesOnWith, hw.current, if_true, hslots₃, hbuffers₃, hipc₃, hframe₃,
    hreply₃, hstate₃, hr₂.1, hr₂.2, Option.map_some]

/-- A send gives its message to the receiver that waits. -/
theorem endpointSend_wakes (h : Represents k v) (hcurrent : k.currentTcb = some s)
    {l : List Word} (hwait : v.waiting (.endpoint e) = r :: l)
    (hstate : (k.tcbs r).state = .receiving) (badge : Word) (tag : MessageTag) (isCall : Bool) :
    ∃ k₁ w, Represents k₁ w ∧ SameBase k k₁ ∧ k₁.tcbs = k.tcbs ∧ k₁.currentTcb = k.currentTcb ∧
      endpointSend k e badge tag isCall = sendMessageDirectly k₁ r badge tag true := by
  obtain ⟨nodes, hpop, hrep⟩ := h.pop_first (q := .endpoint e) hwait
  have hpop' : popFromList k.nodes (.endpoint e) = .ok (.sendReceive r, nodes) := hpop
  have hthis : thisTcb k = .ok s := by simp [thisTcb, hcurrent]
  have hnonempty : ¬ isListEmpty k.nodes (.endpoint e) = true := by
    have hempty := h.waiting_empty (.endpoint e)
    rw [hwait] at hempty
    exact fun he => List.cons_ne_nil r l (hempty.mp he)
  have hfirst : k.nodes.next (.endpoint e) = some (.sendReceive r) :=
    h.next_waiting (q := .endpoint e) hwait
  have hblock : sendWillBlock k e = .ok false := by
    have hsending : ((k.tcbs r).state == .sending) = false := by rw [hstate]; rfl
    have hcalling : ((k.tcbs r).state == .calling) = false := by rw [hstate]; rfl
    simp [sendWillBlock, hnonempty, firstState, hfirst, Node.tcbOfSendReceive, hsending, hcalling,
      deref, bind, Except.bind, pure, Except.pure]
  refine ⟨_, _, hrep.noted (.received s r (k.tcbs s).expectsReply), ⟨rfl, rfl, rfl, rfl⟩, rfl, rfl,
    ?_⟩
  simp only [endpointSend, hblock, sendMessageToBlockedReceiver, hthis, hpop',
    Node.tcbOfSendReceive, bind, Except.bind]
  rfl

/-- The direct delivery insists on two IPC buffers. -/
theorem sendMessageDirectly_eq (hcurrent : k.currentTcb = some s) (badge : Word)
    (tag : MessageTag) (hs : (k.tcbs s).ipcBuffer.isSome) (hr : (k.tcbs r).ipcBuffer.isSome) :
    sendMessageDirectly k r badge tag true =
      (transferMessage k s r badge tag >>= fun x => .ok (switchTcb x.2 r)) := by
  simp [sendMessageDirectly, assert, thisTcb, hcurrent, hs, hr, deref, bind, Except.bind, pure,
    Except.pure]

theorem sendMessageDirectly_halts (hcurrent : k.currentTcb = some s) (badge : Word)
    (tag : MessageTag) (h : ¬ ((k.tcbs s).ipcBuffer.isSome ∧ (k.tcbs r).ipcBuffer.isSome)) :
    sendMessageDirectly k r badge tag true = .error .panic := by
  cases hr : (k.tcbs r).ipcBuffer.isSome with
  | false => simp [sendMessageDirectly, assert, hr, bind, Except.bind]
  | true =>
    have hs : (k.tcbs s).ipcBuffer.isSome = false := by
      simpa [hr] using h
    simp [sendMessageDirectly, assert, thisTcb, hcurrent, hs, hr, deref, bind, Except.bind]

theorem Represents.exchanged (h : Represents k v) (x : MessageTag × Slots × (Word → IpcBuffer))
    (s r : Word) : Represents (Tern.setReplyTo (k.exchanged x) s r) (v.transfer s r) := by
  have hsame : SameView k (k.exchanged x) := .of_eq rfl rfl rfl rfl rfl
  have hx := hsame.represents h
  unfold Tern.setReplyTo View.transfer
  rw [hx.expectsReply]
  split
  · exact hx.setReplyTo r s
  · exact hx

/-- The sender, running, finishes an exchange with a receiver taken off the queue. -/
theorem send_finishes (h : Represents k v) (dm : DirectMap) (isCall : Bool) {f : Frame}
    (hcurrent : k.currentTcb = some s) (hne : s ≠ r)
    (hframe : (k.tcbs s).currentUserFrame = some f) (hexpects : (k.tcbs s).expectsReply = isCall)
    (hstate : (k.tcbs s).state = if isCall then .calling else .running)
    (x : MessageTag × Slots × (Word → IpcBuffer)) :
    ∃ k₂, (setIpcResult (setReplyTo (k.exchanged x) s r) r x.1 >>= fun k₁ =>
        returnFromKernelCode dm (switchTcb k₁ r)) = .ok k₂ ∧
      k₂.slots = x.2.1 ∧ k₂.buffers = x.2.2 ∧
      (k₂.tcbs r).ipcBuffer = (k.tcbs r).ipcBuffer ∧
      (k₂.tcbs r).savedState.rax = x.1.toWord ∧
      (k₂.tcbs r).replyTo = (if isCall then some s else (k.tcbs r).replyTo) ∧
      (k₂.tcbs s).state = settledState isCall := by
  obtain ⟨k₁, hk₁⟩ : ∃ k₁, k₁ = setReplyTo (k.exchanged x) s r := ⟨_, rfl⟩
  have hrep₁ : Represents k₁ (v.transfer s r) := hk₁ ▸ h.exchanged x s r
  obtain ⟨hcurrent₁, -, -, hslots₁, hbuffers₁⟩ := setReplyTo_rest (k.exchanged x) s r
  have hr₁ := setReplyTo_self (k.exchanged x) s r
  have hs₁ := setReplyTo_ne (s := s) (r := r) (k.exchanged x) hne
  rw [← hk₁] at hcurrent₁ hslots₁ hbuffers₁ hr₁ hs₁
  have hother : k₁.currentTcb ≠ some r := by
    rw [hcurrent₁]
    exact fun he => hne (Option.some.inj (hcurrent.symm.trans he))
  rw [← hk₁, setIpcResult_saved hother]
  obtain ⟨k₂, hk₂⟩ : ∃ k₂, k₂ = switchTcb (k₁.modifyTcb r fun c =>
      { c with savedState := { (k₁.tcbs r).savedState with rax := x.1.toWord } }) r := ⟨_, rfl⟩
  have hview := SameView.modifyTcb k₁ r (fun c =>
      { c with savedState := { (k₁.tcbs r).savedState with rax := x.1.toWord } }) (fun _ => rfl)
    (fun _ => rfl) (fun _ => rfl)
  have hrep₂ : Represents k₂ ((v.transfer s r).switchTo r) :=
    hk₂ ▸ (hview.represents hrep₁).switchTcb r
  have hr₂ : k₂.tcbs r = { k₁.tcbs r with
      state := .runnable
      savedState := { (k₁.tcbs r).savedState with rax := x.1.toWord } } := by
    simp [hk₂, switchTcb, Kernel.noted, Kernel.setState, Kernel.modifyTcb]
  have hs₂ : k₂.tcbs s = k.tcbs s := by
    rw [hk₂]
    simp [switchTcb, Kernel.noted, Kernel.setState, Kernel.modifyTcb, hne, hs₁, Kernel.exchanged]
  have halive : (k₂.tcbs s).state ≠ .dead := by
    rw [hs₂, hstate]
    cases isCall <;> decide
  obtain ⟨k₃, hk₃, hleft, -⟩ := hrep₂.leave dm (f := f)
    (by rw [hk₂]; exact hcurrent₁.trans hcurrent) (by rw [hk₂]; rfl) hne halive
    (by rw [hs₂]; exact hframe) (by rw [hr₂])
  refine ⟨k₃, ?_, ?_, ?_, ?_, ?_, ?_, ?_⟩
  · rw [← hk₃, hk₂]
    rfl
  · rw [hleft.slots, hk₂]
    exact hslots₁
  · rw [hleft.buffers, hk₂]
    exact hbuffers₁
  · rw [hleft.new, hr₂, hr₁]
    rfl
  · rw [hleft.new, hr₂]
    rfl
  · rw [hleft.new, hr₂, hr₁]
    simp only [Kernel.exchanged, hexpects]
  · rw [hleft.old, hs₂, hstate]
    cases isCall <;> rfl

/-- The send or call that comes second. -/
theorem send_exchanges (P : Platform) (fuel : Nat) {k₁ : Kernel} {isCall : Bool}
    {send recv : Frame} {slot : Word} (hw : Waits k k₁ r s (.endpoint e)) (hne : s ≠ r)
    (hr : k₁.tcbs r = { k.tcbs r with
        state := .receiving
        currentUserFrame := some recv
        savedState := recv })
    (hs : OnObject k.slots .endpoint s send (if isCall then .call else .send) slot e) (o : Outcome) :
    (∃ k₂, syscallEntry P fuel k₁ send = .ok k₂ ∧ outcome k₁ k₂ s r = o) ↔
      (k.tcbs s).ipcBuffer.isSome ∧ ∃ x,
        exchange k s r (k.slots slot).cap.badge send.tag = .ok x ∧
          delivered k s r isCall (settledState isCall) x = o := by
  obtain ⟨v, hrep, hwait, -⟩ := hw.lists
  have hplain : opSyscallPlain (k₁.withFrame s send) send.tag (if isCall then .call else .send) =
      none := by
    cases isCall <;> rfl
  have hslots : (k₁.withFrame s send).slots = k.slots := hw.slots
  rw [syscallEntry_on P fuel hs.user hs.number hw.current (by rw [hw.slots]; exact hs.found) hplain,
    opSyscallOn_send P fuel (k := k₁.withFrame s send) hw.current (by rw [hslots]; exact hs.type),
    finish_noreturn, hslots, hs.object]
  obtain ⟨k₂, hk₂⟩ : ∃ k₂, k₂ = (k₁.withFrame s send).prepared s isCall := ⟨_, rfl⟩
  have hrep₂ : Represents k₂ (v.prepared s isCall) :=
    hk₂ ▸ (hrep.withFrame s send).prepared s isCall
  have hwait₂ : (v.prepared s isCall).waiting (.endpoint e) = [r] := by cases isCall <;> exact hwait
  have hcurrent₂ : k₂.currentTcb = some s := by
    rw [hk₂]
    cases isCall <;> exact hw.current
  have hs₂ : k₂.tcbs s = { k₁.tcbs s with
      expectsReply := isCall
      state := if isCall then .calling else .running
      currentUserFrame := some send } := by
    rw [hk₂, Kernel.prepared_self, Kernel.withFrame_self, ← hw.runs]
  have hr₂ : k₂.tcbs r = k₁.tcbs r := by
    rw [hk₂, Kernel.prepared_ne _ _ hne.symm, Kernel.withFrame_ne _ _ hne.symm]
  have hbase₂ : SameBase k k₂ := by
    have hframe : SameBase k₁ (k₁.withFrame s send) := ⟨rfl, rfl, rfl, rfl⟩
    have hprepared := Kernel.prepared_base (k₁.withFrame s send) s isCall
    exact hk₂ ▸ hw.toSameBase.trans (hframe.trans hprepared)
  obtain ⟨k₃, w, hrep₃, hbase₃, htcbs₃, hcurrent₃, hwakes⟩ := endpointSend_wakes hrep₂ hcurrent₂
    hwait₂ (by rw [hr₂, hr]) (k.slots slot).cap.badge send.tag isCall
  have hsbuf : (k₃.tcbs s).ipcBuffer = (k.tcbs s).ipcBuffer := by
    rw [htcbs₃, hs₂]
    exact hw.ipcBuffer
  have hrbuf : (k₃.tcbs r).ipcBuffer = (k.tcbs r).ipcBuffer := by rw [htcbs₃, hr₂, hr]
  have hrreply : (k₃.tcbs r).replyTo = (k.tcbs r).replyTo := by rw [htcbs₃, hr₂, hr]
  have hexchange : exchange k₃ s r (k.slots slot).cap.badge send.tag =
      exchange k s r (k.slots slot).cap.badge send.tag :=
    exchange_congr (hbase₃.slots.trans hbase₂.slots) (hbase₃.buffers.trans hbase₂.buffers) hsbuf hrbuf
  rw [← hk₂, hwakes]
  by_cases hboth : (k.tcbs s).ipcBuffer.isSome ∧ (k.tcbs r).ipcBuffer.isSome
  · have hok : ∀ {α β : Type} (a : α) (f : α → Result β), ((Except.ok a : Result α) >>= f) = f a :=
      fun _ _ => rfl
    rw [sendMessageDirectly_eq (hcurrent₃.trans hcurrent₂) _ _ (hsbuf ▸ hboth.1) (hrbuf ▸ hboth.2),
      transferMessage_eq, hexchange]
    simp only [bind_assoc, hok, hboth.1, true_and]
    refine exchange_then (fun x => ?_) o
    obtain ⟨k₄, hk₄, hslots₄, hbuffers₄, hipc₄, hrax₄, hreply₄, hstate₄⟩ :=
      send_finishes hrep₃ P.dm isCall (hcurrent₃.trans hcurrent₂) hne (f := send)
        (by rw [htcbs₃, hs₂]) (by rw [htcbs₃, hs₂]) (by rw [htcbs₃, hs₂]) x
    refine ⟨k₄, hk₄, ?_⟩
    have hsr : ¬ some s = some r := fun he => hne (Option.some.inj he)
    simp only [outcome, delivered, goesOnWith, hw.current, if_neg hsr, hslots₄, hbuffers₄, hipc₄,
      hreply₄, hstate₄, hrbuf, hrreply, Option.map_some, hrax₄]
  · rw [sendMessageDirectly_halts (hcurrent₃.trans hcurrent₂) _ _ (by rwa [hsbuf, hrbuf])]
    constructor
    · rintro ⟨k₄, hk₄, -⟩
      cases hk₄
    · rintro ⟨hsome, x, hx, -⟩
      refine absurd ⟨hsome, ?_⟩ hboth
      simp only [exchange, bind_eq_ok, deref_eq_ok] at hx
      obtain ⟨rb, hrb, -⟩ := hx
      simp [hrb]

/-- The boot thread may do without an IPC buffer. -/
def senderKernel (buffered : Bool) : Kernel :=
  { replyKernel with
    tcbs := Function.update replyKernel.tcbs initTcb
      { state := .running, ipcBuffer := if buffered then some (initTcb + 0x1000#64) else none } }

theorem senderKernel_tcbs (buffered : Bool) {t : Word} (ht : t ≠ initTcb) :
    (senderKernel buffered).tcbs t = replyKernel.tcbs t :=
  Function.update_of_ne ht ..

theorem senderKernel_booted (buffered : Bool) : Booted (senderKernel buffered) :=
  { replyKernel_booted with
    current := ⟨initTcb, rfl, rfl, rfl⟩
    others := fun t ht => by
      have hne : t ≠ initTcb := fun e => ht (congrArg some e.symm)
      rw [senderKernel_tcbs buffered hne]
      exact replyKernel_booted.others t ht
    fresh := fun t => by
      by_cases he : t = initTcb
      · rw [he]
        exact ⟨rfl, rfl⟩
      · rw [senderKernel_tcbs buffered he]
        exact replyKernel_booted.fresh t }

/-- The worker is resumed; the boot thread calls it, or yields and is received from. -/
theorem meeting_resumed (buffered : Bool) (tag : MessageTag) : ∃ k k',
    Meeting k k' initTcb workerTcb exampleEndpoint true (callFrame 2 6 tag) (recvFrame 6)
      (initSlot 6) (initSlot 6) ∧
    (k.tcbs initTcb).ipcBuffer = (if buffered then some (initTcb + 0x1000#64) else none) ∧
    (k.tcbs workerTcb).ipcBuffer = some (workerTcb + 0x1000#64) := by
  have hrun : ∀ b : Bool,
      (runSyscalls examplePlatform [resumeFrame 5] (senderKernel b)).map (fun k => decide (
      (k.currentTcb = some initTcb ∧ k.nodes.next .runnableTcbs = some (.run workerTcb) ∧
        (k.tcbs initTcb).state = .running ∧
        isListEmpty k.nodes (.endpoint exampleEndpoint) = true) ∧
      ((k.tcbs initTcb).ipcBuffer = (if b then some (initTcb + 0x1000#64) else none) ∧
        (k.tcbs workerTcb).ipcBuffer = some (workerTcb + 0x1000#64) ∧
        (k.tcbs workerTcb).boundNotification = none) ∧
      (k.slots (initSlot 6)).cap.type = .endpoint ∧
      capPtr (k.slots (initSlot 6)).cap = exampleEndpoint ∧
      lookupCapSlot k.slots (cspaceRootOf initTcb) 6 64#64 = .ok (.ok (initSlot 6)) ∧
      lookupCapSlot k.slots (cspaceRootOf workerTcb) 6 64#64 = .ok (.ok (initSlot 6)))) =
      .ok true := by decide +kernel
  obtain ⟨k, hrun, hread⟩ := runSyscalls_reads (hrun buffered)
  simp only [decide_eq_true_eq] at hread
  obtain ⟨⟨hcurrent, hnext, hstate, hempty⟩, ⟨hs, hr, hbound⟩, htype, hptr, hfounds, hfoundr⟩ :=
    hread
  have hbooted := senderKernel_booted buffered
  have hslot : lookupCapSlot replyKernel.slots (cspaceRootOf initTcb) (resumeFrame 5).rdi 64#64 =
      .ok (.ok (initSlot 5)) := by decide +kernel
  have hother : initTcb ≠ capPtr (replyKernel.slots (initSlot 5)).cap := by decide +kernel
  have hsafe : ListSafe (senderKernel buffered) (.syscall (resumeFrame 5)) :=
    hbooted.resume_safe (by decide) rfl hslot hother
  simp only [runSyscalls, bind_eq_ok, Except.ok.injEq, exists_eq_right] at hrun
  have hk : (kernelSystem examplePlatform).ReachedBy ListSafe k :=
    .step (.start hbooted) hsafe (syscallEntry_step hrun (by decide))
  have hlists := lists_in_order hk
  have hturn : Turn k initTcb workerTcb := ⟨hcurrent, hnext, hlists⟩
  obtain ⟨k', -, hsame, hturn', -, hempty'⟩ :=
    hturn.yields examplePlatform 0 (f := yieldFrame) hstate rfl (by decide)
  refine ⟨k, k', ⟨hturn, hturn', hsame, ?_, ?_, hempty, (hempty' (.endpoint _)).trans hempty, ?_⟩, hs, hr⟩
  · exact ⟨rfl, rfl, hfounds, htype, hptr⟩
  · exact ⟨rfl, by decide, hfoundr, htype, hptr⟩
  · intro n hn
    cases hbound.symm.trans hn

theorem meeting_worker : ∃ k k',
    Meeting k k' initTcb workerTcb exampleEndpoint true (callFrame 2 6 { emptyTag with length := 1 })
      (recvFrame 6) (initSlot 6) (initSlot 6) ∧
    (k.tcbs initTcb).ipcBuffer = some (initTcb + 0x1000#64) ∧
    (k.tcbs workerTcb).ipcBuffer = some (workerTcb + 0x1000#64) :=
  meeting_resumed true _

/-! ## Both orders -/

/-- One call after the other, when the first is known to go through. -/
theorem meet_eq_ok {P : Platform} {fuel : Nat} {k₁ : Kernel} {first second : Frame} {o : Outcome}
    (hfirst : syscallEntry P fuel k first = .ok k₁) :
    meet P fuel s r k first second = .ok o ↔
      ∃ k₂, syscallEntry P fuel k₁ second = .ok k₂ ∧ outcome k₁ k₂ s r = o := by
  simp only [meet, hfirst, bind, Except.bind, pure, Except.pure]
  cases syscallEntry P fuel k₁ second <;> simp

theorem lookupCapSlotRaw_64 (slots : Slots) (root index : Word) :
    ∃ x, lookupCapSlotRaw slots root index 64#64 = .ok x := by
  unfold lookupCapSlotRaw
  simp only [assert, beq_self_eq_true, if_true, bind, Except.bind, pure, Except.pure]
  split
  · exact ⟨_, rfl⟩
  · split <;> exact ⟨_, rfl⟩

/-- The lookups of a capability transfer go through, right or wrong, with a
receive path of depth 64. -/
theorem grantCap_ok (slots : Slots) (buffers : Word → IpcBuffer) (s r sb rb : Word)
    (tag : MessageTag) (h : tag.extraCaps = 0 ∨ buffers rb receiveDepth = 64#64) :
    ∃ x, grantCap slots buffers s r sb rb tag = .ok x := by
  unfold grantCap transferCap lookupReceiveSlot
  split
  · exact ⟨_, rfl⟩
  · next hextra =>
    have hdepth := h.resolve_left hextra
    obtain ⟨x, hx⟩ := lookupCapSlotRaw_64 slots (cspaceRootOf s) (buffers sb (capsOrBadges 0))
    simp only [hx, bind, Except.bind]
    cases x with
    | error => exact ⟨_, rfl⟩
    | ok cap =>
      obtain ⟨y, hy⟩ := lookupCapSlotRaw_64 slots (cspaceRootOf r) (buffers rb receiveCnode)
      simp only [hy]
      cases y with
      | error => exact ⟨_, rfl⟩
      | ok root =>
        obtain ⟨z, hz⟩ := lookupCapSlotRaw_64 slots root (buffers rb receiveIndex)
        simp only [hdepth, hz]
        cases z <;> exact ⟨_, rfl⟩

/-- When there is an exchange at all. -/
theorem exchange_ok {badge sb rb : Word} {tag : MessageTag}
    (hs : senderBuffer k s tag = .ok sb) (hr : (k.tcbs r).ipcBuffer = some rb)
    (hdepth : tag.extraCaps = 0 ∨
      copyMessage (k.buffers sb) (k.buffers rb) tag.length.toNat receiveDepth = 64#64) :
    ∃ x, exchange k s r badge tag = .ok x := by
  have hdepth' : tag.extraCaps = 0 ∨
      messageBuffers k.buffers sb rb badge tag.length.toNat rb receiveDepth = 64#64 := by
    refine hdepth.imp_right fun hd => ?_
    rw [messageBuffers, Function.update_self, Function.update_of_ne (by decide)]
    exact hd
  obtain ⟨x, hx⟩ := grantCap_ok k.slots _ s r sb rb tag hdepth'
  refine ⟨(x.1, x.2, messageBuffers k.buffers sb rb badge tag.length.toNat), ?_⟩
  simp only [exchange, hr, hs, deref, hx, bind, Except.bind]
  rfl

section

variable {P : Platform} {fuel : Nat} {isCall : Bool} {send recv : Frame} {slotS slotR : Word}

/-- First the send, then the receive. -/
theorem Meeting.send_first (h : Meeting k k' s r e isCall send recv slotS slotR) (o : Outcome) :
    meet P fuel s r k send recv = .ok o ↔
      ∃ x, exchange k s r (k.slots slotS).cap.badge send.tag = .ok x ∧
        delivered k s r isCall (settledState isCall) x = o := by
  obtain ⟨v, l, -, -, -, -, hne⟩ := h.sender.view
  obtain ⟨k₁, hfirst, hw, hs⟩ := send_waits P fuel h.sender h.empty h.send
  rw [meet_eq_ok hfirst]
  exact recv_exchanges P fuel hw hne hs h.recv h.quiet o

/-- First the receive, then the send. -/
theorem Meeting.recv_first (h : Meeting k k' s r e isCall send recv slotS slotR) (o : Outcome) :
    meet P fuel s r k' recv send = .ok o ↔ (k.tcbs s).ipcBuffer.isSome ∧
      ∃ x, exchange k s r (k.slots slotS).cap.badge send.tag = .ok x ∧
        delivered k s r isCall (settledState isCall) x = o := by
  obtain ⟨v, l, -, -, -, -, hne⟩ := h.sender.view
  have hsame := h.same
  have hrecv : OnObject k'.slots .endpoint r recv .recv slotR e := hsame.slots ▸ h.recv
  have hsend : OnObject k'.slots .endpoint s send (if isCall then .call else .send) slotS e :=
    hsame.slots ▸ h.send
  have hquiet : NothingPending k' r := by
    intro n hn
    rw [hsame.boundNotification] at hn
    rw [hsame.notifications]
    exact h.quiet n hn
  obtain ⟨k₁, hfirst, hw, hr⟩ := recv_waits P fuel h.receiver h.empty' hrecv hquiet
  have hdelivered : ∀ x, delivered k' s r isCall (settledState isCall) x =
      delivered k s r isCall (settledState isCall) x := by
    intro x
    simp only [delivered, hsame.ipcBuffer, hsame.replyTo]
  rw [meet_eq_ok hfirst, send_exchanges P fuel hw hne hr hsend o, hsame.ipcBuffer, hsame.slots,
    exchange_congr hsame.slots hsame.buffers (hsame.ipcBuffer s) (hsame.ipcBuffer r)]
  simp only [hdelivered]

/-- The sender is left runnable after a send, and in CALLING after a call. -/
theorem Meeting.settled (h : Meeting k k' s r e isCall send recv slotS slotR) {o : Outcome}
    (ho : meet P fuel s r k send recv = .ok o ∨ meet P fuel s r k' recv send = .ok o) :
    o.senderState = if isCall then .calling else .runnable := by
  rw [h.send_first, h.recv_first] at ho
  obtain ⟨x, -, rfl⟩ | ⟨-, x, -, rfl⟩ := ho <;> rfl

/-- Both threads have a buffer: the message is delivered, unless the receive path of a
capability transfer has another depth than 64. -/
theorem Meeting.delivers (h : Meeting k k' s r e isCall send recv slotS slotR) {sb rb : Word}
    (hs : (k.tcbs s).ipcBuffer = some sb) (hr : (k.tcbs r).ipcBuffer = some rb)
    (hdepth : send.tag.extraCaps = 0 ∨
      copyMessage (k.buffers sb) (k.buffers rb) send.tag.length.toNat receiveDepth = 64#64) :
    ∃ o, meet P fuel s r k send recv = .ok o := by
  obtain ⟨x, hx⟩ : ∃ x, exchange k s r (k.slots slotS).cap.badge send.tag = .ok x := by
    by_cases hempty : send.tag.length = 0 ∧ send.tag.extraCaps = 0
    · exact exchange_ok (if_pos hempty) hr (.inl hempty.2)
    · have hsb : senderBuffer k s send.tag = .ok sb := by
        rw [senderBuffer, if_neg hempty, hs]
        rfl
      exact exchange_ok hsb hr hdepth
  exact ⟨_, (h.send_first _).mpr ⟨x, hx, rfl⟩⟩

/-- The two orders agree unless the sender has no IPC buffer: an empty message of its
reaches a receiver that comes second, and panics the kernel on one that waits. -/
theorem Meeting.orders_agree_iff (h : Meeting k k' s r e isCall send recv slotS slotR) :
    (∀ o, meet P fuel s r k send recv = .ok o ↔ meet P fuel s r k' recv send = .ok o) ↔
      ((k.tcbs s).ipcBuffer.isSome ∨ (k.tcbs r).ipcBuffer = none ∨
        ¬ (send.tag.length = 0 ∧ send.tag.extraCaps = 0)) := by
  simp only [h.send_first, h.recv_first]
  constructor
  · intro hsame
    by_contra hno
    simp only [not_or, not_not] at hno
    obtain ⟨hs, hr, hlength, hextra⟩ := hno
    obtain ⟨rb, hrb⟩ := Option.ne_none_iff_exists'.mp hr
    have hsb : senderBuffer k s send.tag = .ok 0#64 := if_pos ⟨hlength, hextra⟩
    obtain ⟨x, hx⟩ : ∃ x, exchange k s r (k.slots slotS).cap.badge send.tag = .ok x :=
      exchange_ok hsb hrb (.inl hextra)
    exact hs ((hsame _).mp ⟨x, hx, rfl⟩).1
  · intro hcond o
    refine ⟨fun ⟨x, hx, ho⟩ => ⟨?_, x, hx, ho⟩, And.right⟩
    simp only [exchange, bind_eq_ok, deref_eq_ok] at hx
    obtain ⟨rb, hrb, sb, hsb, -⟩ := hx
    rcases hcond with hs | hr | hwords
    · exact hs
    · cases hr.symm.trans hrb
    · rw [senderBuffer, if_neg hwords, deref_eq_ok] at hsb
      simp [hsb]

/-- A send or call and a receive on an endpoint without a queue give the same result in
both orders, for every message, badge and content of the buffers, and leave the sender
runnable after a send and in CALLING after a call, exactly if the sender has an IPC
buffer or the message is not empty (or the receiver has none either). There is a
result if both have one. -/
theorem rendezvous_order_iff (h : Meeting k k' s r e isCall send recv slotS slotR) :
    (((∀ o, meet P fuel s r k send recv = .ok o ↔ meet P fuel s r k' recv send = .ok o) ∧
      ∀ o, meet P fuel s r k send recv = .ok o ∨ meet P fuel s r k' recv send = .ok o →
        o.senderState = if isCall then .calling else .runnable) ↔
      ((k.tcbs s).ipcBuffer.isSome ∨ (k.tcbs r).ipcBuffer = none ∨
        ¬ (send.tag.length = 0 ∧ send.tag.extraCaps = 0))) ∧
    ∀ sb rb, (k.tcbs s).ipcBuffer = some sb → (k.tcbs r).ipcBuffer = some rb →
      (send.tag.extraCaps = 0 ∨
        copyMessage (k.buffers sb) (k.buffers rb) send.tag.length.toNat receiveDepth = 64#64) →
      ∃ o, meet P fuel s r k send recv = .ok o := by
  refine ⟨⟨fun hboth => h.orders_agree_iff.mp hboth.1, fun hcond => ⟨?_, ?_⟩⟩, ?_⟩
  · exact h.orders_agree_iff.mpr hcond
  · exact fun o ho => h.settled ho
  · exact fun sb rb hs hr hdepth => h.delivers hs hr hdepth

end

/-- The boot thread calls the worker with one message word, or is received from. -/
theorem rendezvous_order_iff_worker : ∃ k k' o,
    Meeting k k' initTcb workerTcb exampleEndpoint true (callFrame 2 6 { emptyTag with length := 1 })
      (recvFrame 6) (initSlot 6) (initSlot 6) ∧
    meet examplePlatform 0 initTcb workerTcb k (callFrame 2 6 { emptyTag with length := 1 })
      (recvFrame 6) = .ok o ∧
    meet examplePlatform 0 initTcb workerTcb k' (recvFrame 6)
      (callFrame 2 6 { emptyTag with length := 1 }) = .ok o ∧ o.senderState = .calling := by
  obtain ⟨k, k', hmeeting, hs, hr⟩ := meeting_worker
  obtain ⟨o, ho⟩ : ∃ o, meet examplePlatform 0 initTcb workerTcb k
      (callFrame 2 6 { emptyTag with length := 1 }) (recvFrame 6) = .ok o :=
    (rendezvous_order_iff hmeeting).2 _ _ hs hr (.inl (by decide))
  have hbuffer : (k.tcbs initTcb).ipcBuffer.isSome := by
    rw [hs]
    rfl
  refine ⟨k, k', o, hmeeting, ho, ?_, ?_⟩
  · exact (((rendezvous_order_iff hmeeting).1.mpr (.inl hbuffer)).1 o).mp ho
  · exact ((rendezvous_order_iff hmeeting).1.mpr (.inl hbuffer)).2 o (.inl ho)

/-- The boot thread has no IPC buffer and calls the worker with an empty message. -/
theorem bufferless_call_depends_on_order :
    ¬ ∀ k k' s r e isCall send recv slotS slotR,
      Meeting k k' s r e isCall send recv slotS slotR →
        ∀ o, meet examplePlatform 0 s r k send recv = .ok o ↔
          meet examplePlatform 0 s r k' recv send = .ok o := by
  intro h
  obtain ⟨k, k', hmeeting, hs, hr⟩ := meeting_resumed false emptyTag
  rcases hmeeting.orders_agree_iff.mp (h _ _ _ _ _ _ _ _ _ _ hmeeting) with hsome | hnone | hwords
  · rw [hs] at hsome
    cases hsome
  · cases hr.symm.trans hnone
  · exact hwords (by decide)

end Tern
