import Tern.Thread

/-! Endpoints and notifications: message transfer, rendezvous, replies,
signals and waits. -/

namespace Tern

open Cdt

/-! ## Message transfer -/

/-- `memcpy` of the first `length` words of one buffer over another. -/
def copyMessage (src dst : IpcBuffer) (length : Nat) : IpcBuffer :=
  fun i => if i < length then src i else dst i

/-- The slot for a received capability, by the receive path in its buffer. -/
def lookupReceiveSlot (k : Kernel) (receiver buffer : Word) :
    Result (Except ErrorCode Word) := do
  match ← lookupCapSlotRaw k.slots (cspaceRootOf receiver) (k.buffers buffer receiveCnode) 64#64 with
  | .error e => return .error e
  | .ok root =>
    lookupCapSlotRaw k.slots root (k.buffers buffer receiveIndex) (k.buffers buffer receiveDepth)

/-- The part of `transfer_message` under `if (transfer_cap)`. A failed lookup
drops the transfer and clears `extra_caps`. -/
def transferCap (k : Kernel) (sender receiver senderBuffer buffer : Word) (tag : MessageTag) :
    Result (MessageTag × Kernel) := do
  if tag.extraCaps = 0 then return (tag, k)
  match ← lookupCapSlotRaw k.slots (cspaceRootOf sender)
      (k.buffers senderBuffer (capsOrBadges 0)) 64#64 with
  | .error _ => return ({ tag with extraCaps := 0 }, k)
  | .ok cap =>
    match ← lookupReceiveSlot k receiver buffer with
    | .error _ => return ({ tag with extraCaps := 0 }, k)
    | .ok recvSlot =>
      return (tag, { k with slots := (copyCap k.slots recvSlot cap capRightsAll).2 })

/-- The sender's buffer. A tag without words and capabilities leaves it unread,
null or not. -/
def senderBuffer (k : Kernel) (sender : Word) (tag : MessageTag) : Result Word :=
  if tag.length = 0 ∧ tag.extraCaps = 0 then .ok 0#64 else deref (k.tcbs sender).ipcBuffer

/-- `if (sender->expects_reply) receiver->reply_to = sender`. -/
def setReplyTo (k : Kernel) (sender receiver : Word) : Kernel :=
  if (k.tcbs sender).expectsReply
    then k.modifyTcb receiver fun c => { c with replyTo := some sender } else k

def transferMessage (k : Kernel) (sender receiver badge : Word) (tag : MessageTag) :
    Result (MessageTag × Kernel) := do
  let buffer ← deref (k.tcbs receiver).ipcBuffer
  let senderBuffer ← senderBuffer k sender tag
  let msg := copyMessage (k.buffers senderBuffer) (k.buffers buffer) tag.length.toNat
  let k := { k with buffers := Function.update k.buffers buffer msg }
  let k := k.setBufferWord buffer senderBadge badge
  let (tag, k) ← transferCap k sender receiver senderBuffer buffer tag
  let k := setReplyTo k sender receiver
  let k ← setIpcResult k receiver tag
  return (tag, k)

/-! ## Endpoints -/

def sendMessageDirectly (k : Kernel) (receiver badge : Word) (tag : MessageTag)
    (resumeNow : Bool) : Result Kernel := do
  assert (k.tcbs receiver).ipcBuffer.isSome
  let this ← thisTcb k
  assert (k.tcbs this).ipcBuffer.isSome
  let (_, k) ← transferMessage k this receiver badge tag
  if resumeNow then return switchTcb k receiver else scheduleTcb k receiver

/-- `first_tcb (e)->state`. -/
def firstState (k : Kernel) (e : Word) : Result TaskState := do
  let first ← deref (k.nodes.next (.endpoint e))
  let t ← first.tcbOfSendReceive
  return (k.tcbs t).state

def recvWillBlock (k : Kernel) (e : Word) : Result Bool := do
  if isListEmpty k.nodes (.endpoint e) then
    return true
  let state ← firstState k e
  return state == .receiving

def sendWillBlock (k : Kernel) (e : Word) : Result Bool := do
  if isListEmpty k.nodes (.endpoint e) then
    return true
  let state ← firstState k e
  return state == .sending || state == .calling

def sendMessageToBlockedReceiver (k : Kernel) (e badge : Word) (tag : MessageTag)
    (resumeNow : Bool) : Result Kernel := do
  let this ← thisTcb k
  let (next, nodes) ← popFromList k.nodes (.endpoint e)
  let receiver ← next.tcbOfSendReceive
  let k := (k.withNodes nodes).noted (.received this receiver (k.tcbs this).expectsReply)
  sendMessageDirectly k receiver badge tag resumeNow

def queueMessageOnEndpoint (k : Kernel) (e badge : Word) (tag : MessageTag) (isCall : Bool) :
    Result Kernel := do
  let this ← thisTcb k
  let info ← getPendingIpcInfo k this
  assert (info.toWord == tag.toWord)
  let nodes ← appendToList k.nodes (.sendReceive this) (.endpoint e)
  let k := k.withNodes nodes
  let k := k.setState this (if isCall then .calling else .sending)
  let k := k.modifyTcb this fun c => { c with endpointBadge := badge }
  schedule k

/-- The end of `receive_message_from_blocked_sender`: a caller stays blocked and
becomes the one to reply to, a mere sender runs on. -/
def settleSender (k : Kernel) (sender this : Word) : Result Kernel :=
  if (k.tcbs sender).expectsReply
    then .ok (k.modifyTcb this fun c => { c with replyTo := some sender })
    else scheduleTcb k sender

def receiveMessageFromBlockedSender (k : Kernel) (e : Word) : Result (MessageTag × Kernel) := do
  let this ← thisTcb k
  let (next, nodes) ← popFromList k.nodes (.endpoint e)
  let sender ← next.tcbOfSendReceive
  let k := (k.withNodes nodes).noted (.received sender this (k.tcbs sender).expectsReply)
  let tag ← getPendingIpcInfo k sender
  let (result, k) ← transferMessage k sender this (k.tcbs sender).endpointBadge tag
  let k ← settleSender k sender this
  return (result, k)

def queueReceiverOnEndpoint (k : Kernel) (e : Word) : Result (MessageTag × Kernel) := do
  let this ← thisTcb k
  let nodes ← appendToList k.nodes (.sendReceive this) (.endpoint e)
  let k := (k.withNodes nodes).setState this .receiving
  let k ← schedule k
  return (.noreturn, k)

def endpointSend (k : Kernel) (e badge : Word) (tag : MessageTag) (isCall : Bool) :
    Result Kernel := do
  if ← sendWillBlock k e then queueMessageOnEndpoint k e badge tag isCall
  else sendMessageToBlockedReceiver k e badge tag true

def endpointRecv (k : Kernel) (e : Word) : Result (MessageTag × Kernel) := do
  if ← recvWillBlock k e then queueReceiverOnEndpoint k e
  else receiveMessageFromBlockedSender k e

def endpointNbrecv (k : Kernel) (e : Word) : Result (MessageTag × Kernel) := do
  if ← recvWillBlock k e then return (msgOk, k)
  receiveMessageFromBlockedSender k e

def initEndpoint (k : Kernel) (e : Word) : Kernel := k.withNodes (initList k.nodes (.endpoint e))

def setExpectsReply (k : Kernel) (t : Word) (expectsReply : Bool) : Kernel :=
  k.modifyTcb t fun c => { c with expectsReply }

def invokeEndpointSend (k : Kernel) (cap : Word) (tag : MessageTag) : Result Kernel := do
  let c := (k.slots cap).cap
  assert (c.type == .endpoint)
  let this ← thisTcb k
  endpointSend (setExpectsReply k this false) (capPtr c) c.badge tag false

/-- `invoke_endpoint_nbsend`: it panics before it does anything. -/
def invokeEndpointNbsend (_k : Kernel) (_cap : Word) (_tag : MessageTag) : Result Kernel :=
  .error .panic

/-- `handle_recv_with_pending_notification`: `none` when nothing is pending. -/
def handleRecvWithPendingNotification (k : Kernel) : Result (Option Kernel) := do
  let this ← thisTcb k
  match (k.tcbs this).boundNotification with
  | none => return none
  | some n =>
    let word := (k.notifications n).word
    if word = 0#64 then return none
    let buffer ← deref (k.tcbs this).ipcBuffer
    let k := (k.setBufferWord buffer senderBadge word).logged (.delivered n this word)
    return some (k.setWord n 0#64)

def invokeEndpointRecv (k : Kernel) (cap : Word) : Result (MessageTag × Kernel) := do
  let c := (k.slots cap).cap
  assert (c.type == .endpoint)
  match ← handleRecvWithPendingNotification k with
  | some k => return (msgOk, k)
  | none => endpointRecv k (capPtr c)

def invokeEndpointNbrecv (k : Kernel) (cap : Word) : Result (MessageTag × Kernel) := do
  let c := (k.slots cap).cap
  assert (c.type == .endpoint)
  match ← handleRecvWithPendingNotification k with
  | some k => return (msgOk, k)
  | none => endpointNbrecv k (capPtr c)

def invokeEndpointCall (k : Kernel) (cap : Word) (tag : MessageTag) : Result Kernel := do
  let c := (k.slots cap).cap
  assert (c.type == .endpoint)
  let this ← thisTcb k
  let k := (setExpectsReply k this true).setState this .calling
  endpointSend (k.noted (.called this)) (capPtr c) c.badge tag true

/-- `invoke_reply`. Without a caller to answer it runs into `debug_trap`, whose
exception handler never returns. -/
def invokeReply (k : Kernel) (tag : MessageTag) : Result Kernel := do
  let this ← thisTcb k
  match (k.tcbs this).replyTo with
  | none => .error .halted
  | some receiver =>
    if (k.tcbs receiver).state ≠ .calling then .error .halted
    else
      let k := k.noted (.replied this receiver (k.tcbs this).expectsReply)
      sendMessageDirectly k receiver 0#64 tag false

def invokeReplyRecv (k : Kernel) (cap : Word) (tag : MessageTag) :
    Result (MessageTag × Kernel) := do
  let k ← invokeReply k tag
  invokeEndpointRecv k cap

/-! ## Notifications -/

/-- `signal_waiting_receiver`. -/
def signalWaitingReceiver (k : Kernel) (n receiver badge : Word) : Result Kernel := do
  let k ← setIpcResult k receiver msgOk
  let buffer ← deref (k.tcbs receiver).ipcBuffer
  let k := (k.setBufferWord buffer senderBadge badge).logged (.delivered n receiver badge)
  return switchTcb k receiver

def signalBoundReceiverWaitingOnSomethingElse (k : Kernel) (n receiver badge : Word) :
    Result Kernel := do
  let nodes ← removeFromList k.nodes (.sendReceive receiver)
  signalWaitingReceiver (k.withNodes nodes) n receiver badge

def queueReceiverOnNotification (k : Kernel) (n : Word) : Result (MessageTag × Kernel) := do
  let this ← thisTcb k
  let nodes ← appendToList k.nodes (.sendReceive this) (.notification n)
  let k := (k.withNodes nodes).setState this .receiving
  let k ← schedule k
  return (.noreturn, k)

def initNotification (k : Kernel) (n : Word) : Kernel :=
  k.withNodes (initList k.nodes (.notification n))

/-- `nfn->bound_tcb && nfn->bound_tcb->state == TASK_STATE_RECEIVING`. -/
def boundReceiver (k : Kernel) (n : Word) : Option Word :=
  (k.notifications n).boundTcb.filter fun t => (k.tcbs t).state == .receiving

def notificationSignal (k : Kernel) (n badge : Word) : Result Kernel := do
  let word := (k.notifications n).word ||| badge
  let k := (k.setWord n word).logged (.signalled n badge)
  if isListEmpty k.nodes (.notification n) then
    match boundReceiver k n with
    | some t => signalBoundReceiverWaitingOnSomethingElse (k.setWord n 0#64) n t word
    | none => return k
  else
    let k := k.setWord n 0#64
    let first ← deref (k.nodes.next (.notification n))
    let t ← first.tcbOfSendReceive
    let nodes ← removeFromList k.nodes first
    signalWaitingReceiver (k.withNodes nodes) n t word

def invokeNotificationSend (k : Kernel) (cap : Word) : Result Kernel := do
  let c := (k.slots cap).cap
  assert (c.type == .notification)
  notificationSignal k (capPtr c) c.badge

/-- The first part of `invoke_notification_recv`: a thread that waits on a
notification bound to another one is killed. -/
def killIfBoundToOther (k : Kernel) (n this : Word) : Result Kernel :=
  let bound := (k.notifications n).boundTcb
  if bound.isSome ∧ bound ≠ some this then do
    let k ← killTcb k this
    schedule k
  else .ok k

def invokeNotificationRecv (k : Kernel) (cap : Word) : Result (MessageTag × Kernel) := do
  let c := (k.slots cap).cap
  assert (c.type == .notification)
  let n := capPtr c
  let this ← thisTcb k
  let k ← killIfBoundToOther k n this
  if (k.notifications n).word = 0#64 then queueReceiverOnNotification k n
  else return (msgOk, k.setWord n 0#64)

end Tern
