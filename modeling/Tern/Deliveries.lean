import Mathlib.Data.Set.Card
import Tern.Transfer
import Tern.Stubs
import Tern.Replies
import Tern.Parked

/-! What becomes of the capability that goes with a message. The three lookups
of a transfer report an error, name two slots, or fail an assertion on a word of
the receiver's buffer; what `copy_cap` answers is not looked at. -/

namespace Tern

open Lib Cdt

/-! ## The lookups -/

/-- The state in which the lookups take place: the message words and the badge
have arrived. -/
def arrivedWords (k : Kernel) (senderBuffer buffer badge : Word) (tag : MessageTag) : Kernel :=
  { k with
    buffers := Function.update k.buffers buffer (copyMessage (k.buffers senderBuffer)
      (k.buffers buffer) tag.length.toNat) }.setBufferWord buffer senderBadge badge

/-- The capability to transfer and the slot for it. -/
def transferLookups (k : Kernel) (sender receiver senderBuffer buffer : Word) :
    Result (Except ErrorCode (Word × Word)) := do
  match ← lookupCapSlotRaw k.slots (cspaceRootOf sender)
      (k.buffers senderBuffer (capsOrBadges 0)) 64#64 with
  | .error e => return .error e
  | .ok cap =>
    match ← lookupReceiveSlot k receiver buffer with
    | .error e => return .error e
    | .ok slot => return .ok (cap, slot)

/-- `copy_cap` from `src` to `dest` is not refused. -/
structure CopyAllowed (s : Slots) (dest src : Word) : Prop where
  empty : (s dest).cap.type = .null
  fresh : (s src).cap.type = .untyped → (s src).cap.badge = 0#64

theorem CopyAllowed.copyCap_eq {s : Slots} {dest src : Word} (h : CopyAllowed s dest src)
    (mask : Word) : (copyCap s dest src mask).2 =
      insertCteAfter (s.setCap dest (copied (s src).cap mask)) dest src := by
  rcases copyCap_cases s dest src mask with ⟨-, -, -, hd | ⟨hu, hb⟩⟩ | ⟨-, -, hr⟩
  · exact absurd h.empty hd
  · exact absurd (h.fresh hu) hb
  · rw [hr]

theorem copyCap_refused {s : Slots} {dest src : Word} (h : ¬ CopyAllowed s dest src)
    (mask : Word) : (copyCap s dest src mask).2 = s := by
  rcases copyCap_cases s dest src mask with ⟨r, hr, -⟩ | ⟨hempty, hfresh, -⟩
  · rw [hr]
  · exact absurd ⟨hempty, hfresh⟩ h

section

variable {k k' : Kernel} {sender receiver senderBuffer buffer badge src slot : Word}
  {tag res : MessageTag}

theorem transferCap_announced (h : tag.extraCaps ≠ 0) :
    transferCap k sender receiver senderBuffer buffer tag = (do
      match ← transferLookups k sender receiver senderBuffer buffer with
      | .error _ => return ({ tag with extraCaps := 0 }, k)
      | .ok (cap, slot) =>
        return (tag, { k with slots := (copyCap k.slots slot cap capRightsAll).2 })) := by
  rw [transferCap, if_neg h, transferLookups]
  rcases lookupCapSlotRaw k.slots (cspaceRootOf sender)
    (k.buffers senderBuffer (capsOrBadges 0)) 64#64 with e | e | cap
  · rfl
  · rfl
  · rcases lookupReceiveSlot k receiver buffer with e | e | slot <;> rfl

/-- The lookups read the slots and the two buffers only. -/
theorem transferLookups_congr (hslots : k'.slots = k.slots) (hbuffers : k'.buffers = k.buffers) :
    transferLookups k' sender receiver senderBuffer buffer =
      transferLookups k sender receiver senderBuffer buffer := by
  simp only [transferLookups, lookupReceiveSlot, hslots, hbuffers]

theorem transferLookups_eq_ok :
    transferLookups k sender receiver senderBuffer buffer = .ok (.ok (src, slot)) ↔
      lookupCapSlotRaw k.slots (cspaceRootOf sender) (k.buffers senderBuffer (capsOrBadges 0))
        64#64 = .ok (.ok src) ∧ lookupReceiveSlot k receiver buffer = .ok (.ok slot) := by
  rw [transferLookups]
  rcases lookupCapSlotRaw k.slots (cspaceRootOf sender)
    (k.buffers senderBuffer (capsOrBadges 0)) 64#64 with e | e | cap
  · simp [bind, Except.bind]
  · simp [bind, Except.bind, pure, Except.pure]
  · rcases lookupReceiveSlot k receiver buffer with e | e | slot' <;>
      simp [bind, Except.bind, pure, Except.pure]

/-- The badge and the message words leave the word that names the sender's
capability as it is, also in a buffer that both threads share. -/
theorem arrivedWords_named :
    (arrivedWords k senderBuffer buffer badge tag).buffers senderBuffer (capsOrBadges 0) =
      k.buffers senderBuffer (capsOrBadges 0) := by
  by_cases hb : senderBuffer = buffer
  · subst hb
    simp [arrivedWords, Kernel.setBufferWord, copyMessage, capsOrBadges, senderBadge]
  · simp [arrivedWords, Kernel.setBufferWord, hb]

/-- A transfer that returns, with a tag that announces a capability. -/
theorem transferMessage_caps (h : transferMessage k sender receiver badge tag = .ok (res, k'))
    (htag : tag.extraCaps ≠ 0) : ∃ senderBuffer buffer x,
    (k.tcbs sender).ipcBuffer = some senderBuffer ∧ (k.tcbs receiver).ipcBuffer = some buffer ∧
    transferLookups (arrivedWords k senderBuffer buffer badge tag) sender receiver senderBuffer
      buffer = .ok x ∧
    match x with
    | .error _ => res = { tag with extraCaps := 0 } ∧ k'.slots = k.slots
    | .ok (src, slot) => res = tag ∧ k'.slots = (copyCap k.slots slot src capRightsAll).2 := by
  simp only [transferMessage, bind_eq_ok, deref_eq_ok] at h
  obtain ⟨buffer, hbuffer, senderBuffer, hsender, ⟨tag₂, k₂⟩, hcap, k₃, hset, hk'⟩ := h
  cases hk'
  rw [Tern.senderBuffer, if_neg (fun hc => htag hc.2), deref_eq_ok] at hsender
  have hslots : k'.slots = k₂.slots := by
    rw [(setIpcResult_frame hset).2, setReplyTo]
    split <;> rfl
  rw [transferCap_announced htag] at hcap
  simp only [bind_eq_ok] at hcap
  obtain ⟨x, hx, hcap⟩ := hcap
  refine ⟨senderBuffer, buffer, x, hsender, hbuffer, hx, ?_⟩
  rcases x with e | ⟨src, slot⟩ <;> cases hcap <;> exact ⟨rfl, hslots⟩

/-- The tag that a thread finds as the result of its system call. -/
def givenTag (k : Kernel) (t : Word) : Result MessageTag := do
  let f ← ipcFrame k t
  return MessageTag.ofWord f.rax

theorem setIpcResult_given (h : setIpcResult k receiver tag = .ok k') :
    givenTag k' receiver = .ok tag := by
  simp only [setIpcResult, bind_eq_ok, pure_eq_ok] at h
  obtain ⟨f, -, rfl⟩ := h
  by_cases hcurrent : k.currentTcb = some receiver <;>
    simp [givenTag, ipcFrame, hcurrent, Kernel.modifyTcb, bind, Except.bind, pure, Except.pure,
      MessageTag.ofWord_toWord]

theorem transferMessage_given (h : transferMessage k sender receiver badge tag = .ok (res, k')) :
    givenTag k' receiver = .ok res := by
  simp only [transferMessage, bind_eq_ok] at h
  obtain ⟨-, -, -, -, ⟨tag₂, k₂⟩, -, k₃, hset, hk'⟩ := h
  cases hk'
  exact setIpcResult_given hset

end

/-! ## Reported transfers -/

/-- The slot of the capability that the sender names. -/
def Named (k : Kernel) (sender src : Word) : Prop :=
  ∃ buffer, (k.tcbs sender).ipcBuffer = some buffer ∧
    lookupCapSlotRaw k.slots (cspaceRootOf sender) (k.buffers buffer (capsOrBadges 0)) 64#64 =
      .ok (.ok src)

/-- The slots that got a capability. -/
def installed (k k' : Kernel) : Set Word :=
  {a | (k.slots a).cap.type = .null ∧ (k'.slots a).cap.type ≠ .null}

/-- A capability derived from the one the sender names is new in the slot that
the receiver had designated. -/
structure Arrived (k k' : Kernel) (sender receiver a : Word) : Prop where
  designated : Designated k receiver a
  new : a ∈ installed k k'
  derived : ∃ src, Named k sender src ∧
    (k'.slots a).cap = copied (k.slots src).cap capRightsAll ∧ (k'.slots a).prev = some src

/-- The receiver is told what happened. -/
structure Reported (k k' : Kernel) (sender receiver : Word) (res : MessageTag) : Prop where
  given : givenTag k' receiver = .ok res
  arrived : res.extraCaps ≠ 0 ↔ ∃ a, Arrived k k' sender receiver a
  count : res.extraCaps.toNat = (installed k k').ncard

/-- The condition: if the lookups name two slots, one capability is announced,
there is one to copy, the copy is not refused, and the slot is the one that the
receiver had designated. -/
def TransferHonest (k : Kernel) (sender receiver badge : Word) (tag : MessageTag) : Prop :=
  ∀ senderBuffer buffer src slot, (k.tcbs sender).ipcBuffer = some senderBuffer →
    (k.tcbs receiver).ipcBuffer = some buffer →
    transferLookups (arrivedWords k senderBuffer buffer badge tag) sender receiver senderBuffer
      buffer = .ok (.ok (src, slot)) →
    tag.extraCaps = 1 ∧ (k.slots src).cap.type ≠ .null ∧ CopyAllowed k.slots slot src ∧
      Designated k receiver slot

section

variable {k k' : Kernel} {sender receiver badge src slot : Word} {tag res : MessageTag}

theorem Named.unique {src' : Word} (h : Named k sender src) (h' : Named k sender src') :
    src = src' := by
  obtain ⟨b, hb, hsrc⟩ := h
  obtain ⟨b', hb', hsrc'⟩ := h'
  cases hb.symm.trans hb'
  cases hsrc.symm.trans hsrc'
  rfl

theorem installed_of_slots_eq (h : k'.slots = k.slots) : installed k k' = ∅ := by
  apply Set.eq_empty_of_forall_notMem
  rintro a ⟨hnull, hne⟩
  rw [h] at hne
  exact hne hnull

/-- A copy that is not refused fills one slot, if there is something to copy. -/
theorem installed_of_copy (hallowed : CopyAllowed k.slots slot src)
    (hslots : k'.slots = (copyCap k.slots slot src capRightsAll).2) :
    (k'.slots slot).cap = copied (k.slots src).cap capRightsAll ∧
      (k'.slots slot).prev = some src ∧
      installed k k' = if (k.slots src).cap.type = .null then ∅ else {slot} := by
  have hcopy := hallowed.copyCap_eq capRightsAll
  have hcap : ∀ a, (k'.slots a).cap =
      if a = slot then copied (k.slots src).cap capRightsAll else (k.slots a).cap := by
    intro a
    rw [hslots, hcopy, insertCteAfter_cap, Slots.setCap_cap]
  refine ⟨by rw [hcap, if_pos rfl], ?_, ?_⟩
  · rw [hslots, hcopy, ← Slots.links_prev, insertCteAfter_links, Links.insertAfter_prev, if_pos rfl]
  · ext a
    have htype : (copied (k.slots src).cap capRightsAll).type = (k.slots src).cap.type := rfl
    by_cases ha : a = slot
    · subst ha
      simp [installed, hcap, htype, hallowed.empty]
    · simp [installed, hcap, ha]

/-- A copy that is refused fills none. -/
theorem slots_of_refused (hrefused : ¬ CopyAllowed k.slots slot src)
    (hslots : k'.slots = (copyCap k.slots slot src capRightsAll).2) : k'.slots = k.slots := by
  rw [hslots, copyCap_refused hrefused]

theorem Reported.of_dropped (hgiven : givenTag k' receiver = .ok res) (hres : res.extraCaps = 0)
    (hslots : k'.slots = k.slots) : Reported k k' sender receiver res := by
  have hnone := installed_of_slots_eq hslots
  refine ⟨hgiven, ⟨fun h => absurd hres h, ?_⟩, ?_⟩
  · rintro ⟨a, ha⟩
    have hnew := ha.new
    rw [hnone] at hnew
    exact hnew.elim
  · rw [hres, hnone, Set.ncard_empty]
    rfl

/-- A transfer reported under the tag it was sent with. -/
theorem reported_of_lookups (hgiven : givenTag k' receiver = .ok tag) (htag : tag.extraCaps ≠ 0)
    (hnamed : Named k sender src)
    (hslots : k'.slots = (copyCap k.slots slot src capRightsAll).2) :
    Reported k k' sender receiver tag ↔ tag.extraCaps = 1 ∧ (k.slots src).cap.type ≠ .null ∧
      CopyAllowed k.slots slot src ∧ Designated k receiver slot := by
  constructor
  · intro h
    obtain ⟨a, ha⟩ := h.arrived.mp htag
    by_cases hallowed : CopyAllowed k.slots slot src
    · obtain ⟨-, -, hset⟩ := installed_of_copy hallowed hslots
      have hnew := ha.new
      have hcount := h.count
      by_cases hnull : (k.slots src).cap.type = .null
      · rw [hset, if_pos hnull] at hnew
        exact hnew.elim
      · rw [hset, if_neg hnull] at hnew hcount
        obtain rfl : a = slot := hnew
        rw [Set.ncard_singleton] at hcount
        exact ⟨BitVec.eq_of_toNat_eq hcount, hnull, hallowed, ha.designated⟩
    · have hnew := ha.new
      rw [installed_of_slots_eq (slots_of_refused hallowed hslots)] at hnew
      exact hnew.elim
  · rintro ⟨hone, hnull, hallowed, hdesignated⟩
    obtain ⟨hcap, hprev, hset⟩ := installed_of_copy hallowed hslots
    rw [if_neg hnull] at hset
    refine ⟨hgiven, iff_of_true htag ⟨slot, hdesignated, ?_, src, hnamed, hcap, hprev⟩, ?_⟩
    · rw [hset]
      rfl
    · rw [hset, Set.ncard_singleton, hone]
      rfl

/-- The receiver of a message with capabilities is told what happened exactly if
the condition holds. -/
theorem transfer_reported_iff (h : transferMessage k sender receiver badge tag = .ok (res, k'))
    (htag : tag.extraCaps ≠ 0) :
    Reported k k' sender receiver res ↔ TransferHonest k sender receiver badge tag := by
  have hgiven := transferMessage_given h
  obtain ⟨senderBuffer, buffer, x, hsender, hreceiver, hx, hresult⟩ := transferMessage_caps h htag
  have hfate : ∀ y, (∀ sb b, (k.tcbs sender).ipcBuffer = some sb →
      (k.tcbs receiver).ipcBuffer = some b →
      transferLookups (arrivedWords k sb b badge tag) sender receiver sb b = .ok y → y = x) := by
    intro y sb b hsb hb hy
    cases hsender.symm.trans hsb
    cases hreceiver.symm.trans hb
    cases hx.symm.trans hy
    rfl
  cases x with
  | error e =>
    obtain ⟨rfl, hslots⟩ := hresult
    refine iff_of_true (.of_dropped hgiven rfl hslots) ?_
    intro sb b src slot hsb hb hlookups
    cases hfate _ sb b hsb hb hlookups
  | ok slots =>
    obtain ⟨src, slot⟩ := slots
    obtain ⟨rfl, hslots⟩ := hresult
    have hnamed : Named k sender src := by
      have hsrc := (transferLookups_eq_ok.mp hx).1
      rw [arrivedWords_named] at hsrc
      exact ⟨senderBuffer, hsender, hsrc⟩
    rw [reported_of_lookups hgiven htag hnamed hslots]
    constructor
    · intro hconds sb b src' slot' hsb hb hlookups
      cases hfate _ sb b hsb hb hlookups
      exact hconds
    · exact fun hall => hall senderBuffer buffer src slot hsender hreceiver hx

end

/-- The boot thread names the endpoint in slot 6; the worker, which has the same
CSpace, is to receive capabilities in slot `index`, with lookup depth `depth`. -/
def deliveryKernel (index depth : Word) : Kernel :=
  { exampleKernel [workerTcb]
      [(2, ({ type := .cnode, sizeBits := 12 } : Cap).withPtr initCnode), (5, tcbCap workerTcb),
        (6, endpointCap exampleEndpoint), (7, endpointCap (exampleEndpoint + 0x1000#64))] with
    buffers := fun b i =>
      if b = workerTcb + 0x1000#64 then
        if i = receiveCnode then 2#64 else if i = receiveIndex then index
        else if i = receiveDepth then depth else 0#64
      else if i = capsOrBadges 0 then 6#64 else 0#64 }

/-- A message of one capability. -/
def capTag : MessageTag := { emptyTag with extraCaps := 1 }

/-- The copy fills the designated slot. -/
theorem transfer_reported_empty : ∃ k', transferMessage (deliveryKernel 8 64) initTcb workerTcb 0#64
    capTag = .ok (capTag, k') ∧ Reported (deliveryKernel 8 64) k' initTcb workerTcb capTag := by
  obtain ⟨k', hrun⟩ : ∃ k', transferMessage (deliveryKernel 8 64) initTcb workerTcb 0#64 capTag =
      .ok (capTag, k') := ⟨_, rfl⟩
  refine ⟨k', hrun, (transfer_reported_iff hrun (by decide)).mpr ?_⟩
  intro sb b src slot hsb hb hlookups
  cases hsb
  cases hb
  have hslots : transferLookups (arrivedWords (deliveryKernel 8 64) (initTcb + 0x1000#64)
      (workerTcb + 0x1000#64) 0#64 capTag) initTcb workerTcb (initTcb + 0x1000#64)
      (workerTcb + 0x1000#64) = .ok (.ok (initSlot 6, initSlot 8)) := by decide +kernel
  cases hslots.symm.trans hlookups
  exact ⟨rfl, by decide +kernel, ⟨by decide +kernel, by decide +kernel⟩, workerTcb + 0x1000#64, rfl,
    by decide +kernel⟩

/-- The designated slot is occupied: nothing is copied, one capability announced. -/
theorem refused_copy_reported : ¬ ∀ k sender receiver badge tag res k',
    transferMessage k sender receiver badge tag = .ok (res, k') → tag.extraCaps ≠ 0 →
    Reported k k' sender receiver res := by
  intro h
  obtain ⟨res, k', hrun⟩ : ∃ res k', transferMessage (deliveryKernel 7 64) initTcb workerTcb 0#64
      capTag = .ok (res, k') := ⟨_, _, rfl⟩
  obtain ⟨sb, b, x, hsb, hb, hx, hresult⟩ := transferMessage_caps hrun (by decide)
  cases hsb
  cases hb
  have hslots : transferLookups (arrivedWords (deliveryKernel 7 64) (initTcb + 0x1000#64)
      (workerTcb + 0x1000#64) 0#64 capTag) initTcb workerTcb (initTcb + 0x1000#64)
      (workerTcb + 0x1000#64) = .ok (.ok (initSlot 6, initSlot 7)) := by decide +kernel
  cases hslots.symm.trans hx
  obtain ⟨rfl, hslots⟩ := hresult
  have hcount := (h _ _ _ _ _ _ _ hrun (by decide)).count
  have hrefused : ¬ CopyAllowed (deliveryKernel 7 64).slots (initSlot 7) (initSlot 6) :=
    fun ha => absurd ha.empty (by decide +kernel)
  rw [installed_of_slots_eq (slots_of_refused hrefused hslots), Set.ncard_empty] at hcount
  exact absurd hcount (by decide)

/-! ## Failing assertions -/

/-- The ways in which a message reaches its receiver: it is sent to a thread
that waits on an endpoint, taken from a thread that waits to send, or the reply
to a caller. -/
inductive Delivery (k : Kernel) : Word → Word → Word → MessageTag → Result Kernel → Prop
  | send {e sender receiver badge : Word} {tag : MessageTag} {isCall : Bool}
      {nodes : Lists Node} : k.currentTcb = some sender →
      popFromList k.nodes (.endpoint e) = .ok (.sendReceive receiver, nodes) →
      (k.tcbs receiver).state = .receiving →
      Delivery k sender receiver badge tag (endpointSend k e badge tag isCall)
  | recv {e sender receiver : Word} {tag : MessageTag} {nodes : Lists Node} :
      k.currentTcb = some receiver →
      popFromList k.nodes (.endpoint e) = .ok (.sendReceive sender, nodes) →
      (k.tcbs sender).state = .sending ∨ (k.tcbs sender).state = .calling →
      getPendingIpcInfo k sender = .ok tag →
      Delivery k sender receiver (k.tcbs sender).endpointBadge tag
        ((endpointRecv k e).map Prod.snd)
  | reply {sender receiver : Word} {tag : MessageTag} : k.currentTcb = some sender →
      (k.tcbs sender).replyTo = some receiver → (k.tcbs receiver).state = .calling →
      Delivery k sender receiver 0#64 tag (invokeReply k tag)

/-- Both threads have an IPC buffer, the current one has entered the kernel, and
the head of the run queue is initialised. -/
structure Equipped (k : Kernel) (sender receiver senderBuffer buffer : Word) : Prop where
  source : (k.tcbs sender).ipcBuffer = some senderBuffer
  target : (k.tcbs receiver).ipcBuffer = some buffer
  entered : k.currentTcb = some receiver → (k.tcbs receiver).currentUserFrame.isSome
  queue : (k.nodes.next .runnableTcbs).isSome

/-- The transfer can be done: the lookups name two slots and `copy_cap` would
not refuse. -/
def CanTransfer (k : Kernel) (sender receiver senderBuffer buffer badge : Word)
    (tag : MessageTag) : Prop :=
  ∃ src slot, transferLookups (arrivedWords k senderBuffer buffer badge tag) sender receiver
    senderBuffer buffer = .ok (.ok (src, slot)) ∧ CopyAllowed k.slots slot src

/-- No assertion fails, and a transfer that cannot be done is dropped. -/
structure SafeDelivery (k : Kernel) (sender receiver senderBuffer buffer badge : Word)
    (tag : MessageTag) (x : Result Kernel) : Prop where
  noPanic : x ≠ .error .panic
  dropped : ∀ k', x = .ok k' →
    ¬ CanTransfer k sender receiver senderBuffer buffer badge tag →
    k'.slots = k.slots ∧ ∃ given, givenTag k' receiver = .ok given ∧ given.extraCaps = 0

/-- The condition: no capability goes with the message, or the word for the
lookup depth is 64 if the first two lookups succeed, and the copy is not refused
if all three do. -/
structure TransferSafe (k : Kernel) (sender receiver senderBuffer buffer badge : Word)
    (tag : MessageTag) : Prop where
  depth : tag.extraCaps ≠ 0 → ∀ src root,
    lookupCapSlotRaw k.slots (cspaceRootOf sender) (k.buffers senderBuffer (capsOrBadges 0))
      64#64 = .ok (.ok src) →
    lookupCapSlotRaw k.slots (cspaceRootOf receiver)
      ((arrivedWords k senderBuffer buffer badge tag).buffers buffer receiveCnode) 64#64 =
        .ok (.ok root) →
    (arrivedWords k senderBuffer buffer badge tag).buffers buffer receiveDepth = 64#64
  copy : tag.extraCaps ≠ 0 → ∀ src slot,
    transferLookups (arrivedWords k senderBuffer buffer badge tag) sender receiver senderBuffer
      buffer = .ok (.ok (src, slot)) → CopyAllowed k.slots slot src

section

variable {k k' : Kernel} {sender receiver senderBuffer buffer badge src slot : Word}
  {tag res : MessageTag}

/-- A lookup fails on its depth only. -/
theorem lookupCapSlotRaw_of_depth {s : Slots} {root index depth : Word} (h : depth ≠ 64#64) :
    lookupCapSlotRaw s root index depth = .error .panic := by
  simp [lookupCapSlotRaw, h, assert, bind, Except.bind]

theorem lookupCapSlotRaw_returns (s : Slots) (root index : Word) :
    ∃ x, lookupCapSlotRaw s root index 64#64 = .ok x := by
  unfold lookupCapSlotRaw
  by_cases ht : (s root).cap.type = .cnode
  · by_cases hi : capSize (s root).cap ≤ index
    · exact ⟨.error .rangeError, by simp [ht, hi, assert, bind, Except.bind, pure, Except.pure]⟩
    · exact ⟨.ok (slotAt (capPtr (s root).cap) index),
        by simp [ht, hi, assert, bind, Except.bind, pure, Except.pure]⟩
  · exact ⟨.error .invalidRoot, by simp [ht, assert, bind, Except.bind, pure, Except.pure]⟩

/-- The lookups fail where the first two succeed and the depth is wrong. -/
theorem transferLookups_eq_error {e : Halt} :
    transferLookups k sender receiver senderBuffer buffer = .error e ↔ e = .panic ∧
      (∃ src, lookupCapSlotRaw k.slots (cspaceRootOf sender)
        (k.buffers senderBuffer (capsOrBadges 0)) 64#64 = .ok (.ok src)) ∧
      (∃ root, lookupCapSlotRaw k.slots (cspaceRootOf receiver)
        (k.buffers buffer receiveCnode) 64#64 = .ok (.ok root)) ∧
      k.buffers buffer receiveDepth ≠ 64#64 := by
  rw [transferLookups, lookupReceiveSlot]
  obtain ⟨x, hx⟩ := lookupCapSlotRaw_returns k.slots (cspaceRootOf sender)
    (k.buffers senderBuffer (capsOrBadges 0))
  obtain ⟨y, hy⟩ := lookupCapSlotRaw_returns k.slots (cspaceRootOf receiver)
    (k.buffers buffer receiveCnode)
  rw [hx, hy]
  rcases x with f | src
  · simp [bind, Except.bind, pure, Except.pure]
  · rcases y with f | root
    · simp [bind, Except.bind, pure, Except.pure]
    · by_cases hdepth : k.buffers buffer receiveDepth = 64#64
      · obtain ⟨z, hz⟩ := lookupCapSlotRaw_returns k.slots root (k.buffers buffer receiveIndex)
        rw [hdepth]
        rcases z with f | slot <;> simp [bind, Except.bind, pure, Except.pure, hz]
      · simp [bind, Except.bind, lookupCapSlotRaw_of_depth hdepth, hdepth, eq_comm (a := e)]

theorem setIpcResult_returns
    (h : k.currentTcb = some receiver → (k.tcbs receiver).currentUserFrame.isSome) :
    ∃ k', setIpcResult k receiver tag = .ok k' := by
  unfold setIpcResult ipcFrame
  by_cases hcurrent : k.currentTcb = some receiver
  · obtain ⟨f, hf⟩ := Option.isSome_iff_exists.mp (h hcurrent)
    simp [hcurrent, hf, bind, Except.bind, pure, Except.pure]
  · simp [hcurrent, bind, Except.bind, pure, Except.pure]

/-- The receiver can be told the result after the transfer, too. -/
theorem setReplyTo_entered (h : k'.currentTcb = k.currentTcb) (htcbs : k'.tcbs = k.tcbs)
    (hentered : k.currentTcb = some receiver → (k.tcbs receiver).currentUserFrame.isSome) :
    (setReplyTo k' sender receiver).currentTcb = some receiver →
      ((setReplyTo k' sender receiver).tcbs receiver).currentUserFrame.isSome := by
  unfold setReplyTo
  split
  · simpa [Kernel.modifyTcb, h, htcbs] using hentered
  · simpa [h, htcbs] using hentered

theorem transferCap_threads (h : transferCap k sender receiver senderBuffer buffer tag =
    .ok (res, k')) : k'.currentTcb = k.currentTcb ∧ k'.tcbs = k.tcbs := by
  by_cases htag : tag.extraCaps = 0
  · rw [transferCap, if_pos htag] at h
    cases h
    exact ⟨rfl, rfl⟩
  · rw [transferCap_announced htag] at h
    simp only [bind_eq_ok] at h
    obtain ⟨x, -, h⟩ := h
    rcases x with e | ⟨src, slot⟩ <;> cases h <;> exact ⟨rfl, rfl⟩

/-- For two threads with buffers a transfer fails in the lookups only. -/
theorem transferMessage_eq_error (h : Equipped k sender receiver senderBuffer buffer) {e : Halt} :
    transferMessage k sender receiver badge tag = .error e ↔ tag.extraCaps ≠ 0 ∧
      transferLookups (arrivedWords k senderBuffer buffer badge tag) sender receiver senderBuffer
        buffer = .error e := by
  have hsource : ∃ sb, Tern.senderBuffer k sender tag = .ok sb ∧
      (tag.extraCaps ≠ 0 → sb = senderBuffer) := by
    unfold Tern.senderBuffer
    split
    · next hnone => exact ⟨_, rfl, fun htag => absurd hnone.2 htag⟩
    · exact ⟨senderBuffer, by rw [h.source]; rfl, fun _ => rfl⟩
  obtain ⟨sb, hsb, hsame⟩ := hsource
  have hrest : ∀ x k₁, transferCap (arrivedWords k sb buffer badge tag) sender receiver sb buffer
      tag = .ok (x, k₁) → ∃ k₂, setIpcResult (setReplyTo k₁ sender receiver) receiver x = .ok k₂ := by
    intro x k₁ hcap
    obtain ⟨hcurrent, htcbs⟩ := transferCap_threads hcap
    exact setIpcResult_returns (setReplyTo_entered hcurrent htcbs h.entered)
  have hfail : transferMessage k sender receiver badge tag = .error e ↔
      transferCap (arrivedWords k sb buffer badge tag) sender receiver sb buffer tag = .error e := by
    unfold transferMessage
    simp only [h.target, deref, hsb]
    show (transferCap (arrivedWords k sb buffer badge tag) sender receiver sb buffer tag >>= _) =
      .error e ↔ _
    rw [bind_eq_error, or_iff_left]
    rintro ⟨⟨x, k₁⟩, hcap, herror⟩
    obtain ⟨k₂, hk₂⟩ := hrest x k₁ hcap
    rw [show setIpcResult (setReplyTo k₁ sender receiver) receiver x = .ok k₂ from hk₂] at herror
    cases herror
  rw [hfail]
  by_cases htag : tag.extraCaps = 0
  · rw [transferCap, if_pos htag]
    exact iff_of_false (by rintro ⟨⟩) fun hn => hn.1 htag
  · obtain rfl := hsame htag
    rw [transferCap_announced htag, bind_eq_error, or_iff_left, and_iff_right htag]
    rintro ⟨x, -, herror⟩
    rcases x with f | ⟨src, slot⟩ <;> cases herror

/-- Without capabilities the tag is passed on as it is. -/
theorem transferMessage_plain (h : transferMessage k sender receiver badge tag = .ok (res, k'))
    (htag : tag.extraCaps = 0) : res = tag ∧ k'.slots = k.slots := by
  simp only [transferMessage, bind_eq_ok] at h
  obtain ⟨buffer, -, sb, -, ⟨tag₂, k₂⟩, hcap, k₃, hset, hk'⟩ := h
  cases hk'
  rw [transferCap, if_pos htag] at hcap
  cases hcap
  refine ⟨rfl, ?_⟩
  rw [(setIpcResult_frame hset).2, setReplyTo]
  split <;> rfl

theorem TransferSafe.lookups (h : TransferSafe k sender receiver senderBuffer buffer badge tag)
    (htag : tag.extraCaps ≠ 0) :
    transferLookups (arrivedWords k senderBuffer buffer badge tag) sender receiver senderBuffer
      buffer ≠ .error .panic := by
  intro hfail
  obtain ⟨-, ⟨src, hsrc⟩, ⟨root, hroot⟩, hdepth⟩ := transferLookups_eq_error.mp hfail
  rw [arrivedWords_named] at hsrc
  exact hdepth (h.depth htag src root hsrc hroot)

section

/-! A delivery is a transfer, in a state `kd` that differs from `k` in the lists
only, and a rest that cannot fail and touches neither capabilities nor results. -/

variable {kd : Kernel} {rest : Kernel → Result Kernel}

theorem arrivedLookups_congr (hslots : kd.slots = k.slots) (hbuffers : kd.buffers = k.buffers) :
    transferLookups (arrivedWords kd senderBuffer buffer badge tag) sender receiver senderBuffer
      buffer = transferLookups (arrivedWords k senderBuffer buffer badge tag) sender receiver
      senderBuffer buffer := by
  apply transferLookups_congr
  · exact hslots
  · simp only [arrivedWords, Kernel.setBufferWord, hbuffers]

theorem arrived_eq_error {e : Halt} (h : Equipped kd sender receiver senderBuffer buffer)
    (hslots : kd.slots = k.slots) (hbuffers : kd.buffers = k.buffers) :
    transferMessage kd sender receiver badge tag = .error e ↔ tag.extraCaps ≠ 0 ∧
      transferLookups (arrivedWords k senderBuffer buffer badge tag) sender receiver senderBuffer
        buffer = .error e := by
  rw [transferMessage_eq_error h, arrivedLookups_congr hslots hbuffers]

theorem arrived_caps (h : Equipped kd sender receiver senderBuffer buffer)
    (hslots : kd.slots = k.slots) (hbuffers : kd.buffers = k.buffers) {res : MessageTag}
    (hk' : transferMessage kd sender receiver badge tag = .ok (res, k')) (htag : tag.extraCaps ≠ 0) :
    ∃ x, transferLookups (arrivedWords k senderBuffer buffer badge tag) sender receiver senderBuffer
        buffer = .ok x ∧
      match x with
      | .error _ => res = { tag with extraCaps := 0 } ∧ k'.slots = kd.slots
      | .ok (src, slot) => res = tag ∧ k'.slots = (copyCap kd.slots slot src capRightsAll).2 := by
  obtain ⟨sb, b, x, hsb, hb, hx, hresult⟩ := transferMessage_caps hk' htag
  cases hsb.symm.trans h.source
  cases hb.symm.trans h.target
  rw [arrivedLookups_congr hslots hbuffers] at hx
  exact ⟨x, hx, hresult⟩

theorem SafeDelivery.depth (h : Equipped kd sender receiver senderBuffer buffer)
    (hslots : kd.slots = k.slots) (hbuffers : kd.buffers = k.buffers)
    (hsafe : SafeDelivery k sender receiver senderBuffer buffer badge tag
      (transferMessage kd sender receiver badge tag >>= fun x => rest x.2))
    (htag : tag.extraCaps ≠ 0) {src root : Word}
    (hsrc : lookupCapSlotRaw k.slots (cspaceRootOf sender)
      (k.buffers senderBuffer (capsOrBadges 0)) 64#64 = .ok (.ok src))
    (hroot : lookupCapSlotRaw k.slots (cspaceRootOf receiver)
      ((arrivedWords k senderBuffer buffer badge tag).buffers buffer receiveCnode) 64#64 =
        .ok (.ok root)) :
    (arrivedWords k senderBuffer buffer badge tag).buffers buffer receiveDepth = 64#64 := by
  by_contra hdepth
  have hfail : transferMessage kd sender receiver badge tag = .error .panic :=
    (arrived_eq_error h hslots hbuffers).mpr ⟨htag, transferLookups_eq_error.mpr
      ⟨rfl, ⟨src, by rw [arrivedWords_named]; exact hsrc⟩, ⟨root, hroot⟩, hdepth⟩⟩
  apply hsafe.noPanic
  rw [hfail]
  rfl

/-- If a refused copy is announced, the delivery is not safe. -/
theorem SafeDelivery.copy (h : Equipped kd sender receiver senderBuffer buffer)
    (hslots : kd.slots = k.slots) (hbuffers : kd.buffers = k.buffers)
    (hrest : ∀ res k', transferMessage kd sender receiver badge tag = .ok (res, k') →
      ∃ k'', rest k' = .ok k'' ∧ k''.slots = k'.slots ∧ givenTag k'' receiver = givenTag k' receiver)
    (hsafe : SafeDelivery k sender receiver senderBuffer buffer badge tag
      (transferMessage kd sender receiver badge tag >>= fun x => rest x.2))
    (htag : tag.extraCaps ≠ 0) {src slot : Word}
    (hfound : transferLookups (arrivedWords k senderBuffer buffer badge tag) sender receiver
      senderBuffer buffer = .ok (.ok (src, slot))) : CopyAllowed k.slots slot src := by
  obtain ⟨⟨res, k'⟩, hk'⟩ : ∃ y, transferMessage kd sender receiver badge tag = .ok y := by
    cases hrun : transferMessage kd sender receiver badge tag with
    | ok y => exact ⟨y, rfl⟩
    | error e =>
      have hlost := ((arrived_eq_error h hslots hbuffers).mp hrun).2
      cases hfound.symm.trans hlost
  obtain ⟨k'', hk'', -, hgiven⟩ := hrest res k' hk'
  by_contra hrefused
  have hnot : ¬ CanTransfer k sender receiver senderBuffer buffer badge tag := by
    rintro ⟨src', slot', hfound', hallowed⟩
    cases hfound.symm.trans hfound'
    exact hrefused hallowed
  have hx : (transferMessage kd sender receiver badge tag >>= fun x => rest x.2) = .ok k'' := by
    rw [hk']
    exact hk''
  obtain ⟨-, given, htold, hzero⟩ := hsafe.dropped k'' hx hnot
  obtain ⟨x, hx, hresult⟩ := arrived_caps h hslots hbuffers hk' htag
  cases hx.symm.trans hfound
  obtain ⟨rfl, -⟩ := hresult
  rw [hgiven, transferMessage_given hk'] at htold
  cases htold
  exact htag hzero

theorem TransferSafe.safeDelivery (h : Equipped kd sender receiver senderBuffer buffer)
    (hslots : kd.slots = k.slots) (hbuffers : kd.buffers = k.buffers)
    (hrest : ∀ res k', transferMessage kd sender receiver badge tag = .ok (res, k') →
      ∃ k'', rest k' = .ok k'' ∧ k''.slots = k'.slots ∧ givenTag k'' receiver = givenTag k' receiver)
    (hsafe : TransferSafe k sender receiver senderBuffer buffer badge tag) :
    SafeDelivery k sender receiver senderBuffer buffer badge tag
      (transferMessage kd sender receiver badge tag >>= fun x => rest x.2) := by
  constructor
  · intro hfail
    rcases bind_eq_error.mp hfail with hfail | ⟨⟨res, k'⟩, hk', hfail⟩
    · obtain ⟨htag, hfail⟩ := (arrived_eq_error h hslots hbuffers).mp hfail
      exact hsafe.lookups htag hfail
    · obtain ⟨k'', hk'', -⟩ := hrest res k' hk'
      cases hk''.symm.trans hfail
  · intro k'' hk'' hnot
    simp only [bind_eq_ok] at hk''
    obtain ⟨⟨res, k'⟩, hk', hk''⟩ := hk''
    obtain ⟨k₃, hk₃, hkeeps, hgiven⟩ := hrest res k' hk'
    cases hk''.symm.trans hk₃
    rw [hkeeps, hgiven, transferMessage_given hk']
    by_cases htag : tag.extraCaps = 0
    · obtain ⟨rfl, hsame⟩ := transferMessage_plain hk' htag
      exact ⟨hsame.trans hslots, res, rfl, htag⟩
    · obtain ⟨x, hx, hresult⟩ := arrived_caps h hslots hbuffers hk' htag
      rcases x with e | ⟨src, slot⟩
      · obtain ⟨rfl, hsame⟩ := hresult
        exact ⟨hsame.trans hslots, _, rfl, rfl⟩
      · exact absurd ⟨src, slot, hx, hsafe.copy htag src slot hx⟩ hnot

theorem safeDelivery_iff (rest : Kernel → Result Kernel)
    (h : Equipped kd sender receiver senderBuffer buffer) (hslots : kd.slots = k.slots)
    (hbuffers : kd.buffers = k.buffers)
    (hrest : ∀ res k', transferMessage kd sender receiver badge tag = .ok (res, k') →
      ∃ k'', rest k' = .ok k'' ∧ k''.slots = k'.slots ∧ givenTag k'' receiver = givenTag k' receiver) :
    SafeDelivery k sender receiver senderBuffer buffer badge tag
      (transferMessage kd sender receiver badge tag >>= fun x => rest x.2) ↔
    TransferSafe k sender receiver senderBuffer buffer badge tag := by
  constructor
  · intro hsafe
    exact ⟨fun htag src root => hsafe.depth h hslots hbuffers htag,
      fun htag src slot => hsafe.copy h hslots hbuffers hrest htag⟩
  · exact TransferSafe.safeDelivery h hslots hbuffers hrest

end

/-! ## The deliveries -/

/-- The result is read from the processor's thread and the frames. -/
theorem givenTag_congr {t : Word} (hcurrent : k'.currentTcb = k.currentTcb)
    (hlive : (k'.tcbs t).currentUserFrame = (k.tcbs t).currentUserFrame)
    (hsaved : (k'.tcbs t).savedState = (k.tcbs t).savedState) : givenTag k' t = givenTag k t := by
  simp only [givenTag, ipcFrame, hcurrent, hlive, hsaved]

theorem modifyTcb_given {t : Word} (u : Word) {f : Tcb → Tcb}
    (hlive : ∀ c, (f c).currentUserFrame = c.currentUserFrame)
    (hsaved : ∀ c, (f c).savedState = c.savedState) :
    givenTag (k.modifyTcb u f) t = givenTag k t := by
  have hcurrent : (k.modifyTcb u f).currentTcb = k.currentTcb := rfl
  apply givenTag_congr hcurrent <;> rw [Kernel.modifyTcb_tcbs] <;> split
  · next e => rw [hlive, e]
  · rfl
  · next e => rw [hsaved, e]
  · rfl

theorem switchTcb_given (k : Kernel) (u t : Word) :
    givenTag (switchTcb k u) t = givenTag k t := by
  have hstate : givenTag (k.setState u .runnable) t = givenTag k t :=
    modifyTcb_given u (fun _ => rfl) fun _ => rfl
  rw [← hstate]
  exact givenTag_congr rfl rfl rfl

theorem scheduleTcb_given {t u : Word} (hstate : (k.tcbs u).state ≠ .dead)
    (hqueue : (k.nodes.next .runnableTcbs).isSome) :
    ∃ k', scheduleTcb k u = .ok k' ∧ k'.slots = k.slots ∧ givenTag k' t = givenTag k t := by
  obtain ⟨next, hnext⟩ := Option.isSome_iff_exists.mp hqueue
  have happend : appendToList k.nodes (.run u) .runnableTcbs =
      .ok (k.nodes.appended (.run u) .runnableTcbs next) :=
    appendToList_eq_ok.mpr ⟨next, hnext, rfl⟩
  refine ⟨((k.setState u .runnable).withNodes (k.nodes.appended (.run u) .runnableTcbs next)).noted
    (.madeRunnable u), ?_, rfl, ?_⟩
  · have happend' : appendToList (k.setState u .runnable).nodes (.run u) .runnableTcbs = _ := happend
    simp [scheduleTcb, assert, hstate, happend', bind, Except.bind, pure, Except.pure]
  · have hset : givenTag (k.setState u .runnable) t = givenTag k t :=
      modifyTcb_given u (fun _ => rfl) fun _ => rfl
    rw [← hset]
    exact givenTag_congr rfl rfl rfl

/-- Taking a node off another list leaves the run queue initialised. -/
theorem popFromList_queue {L L' : Lists Node} {h a : Node} (hpop : popFromList L h = .ok (a, L'))
    (hqueue : (L.next .runnableTcbs).isSome) : (L'.next .runnableTcbs).isSome := by
  obtain ⟨-, L₁, hremove, rfl⟩ := popFromList_eq_ok.mp hpop
  obtain ⟨p, n, -, -, rfl⟩ := removeFromList_eq_ok.mp hremove
  show ((L.spliceOut a p n).next .runnableTcbs).isSome
  rw [Links.spliceOut_next]
  split_ifs
  · rfl
  · rfl
  · exact hqueue

/-- The state in which a transfer across an endpoint takes place. -/
def popped (k : Kernel) (nodes : Lists Node) (sender receiver : Word) : Kernel :=
  (k.withNodes nodes).noted (.received sender receiver (k.tcbs sender).expectsReply)

theorem Equipped.popped {e : Word} {a : Node} {nodes : Lists Node}
    (h : Equipped k sender receiver senderBuffer buffer)
    (hpop : popFromList k.nodes (.endpoint e) = .ok (a, nodes)) :
    Equipped (Tern.popped k nodes sender receiver) sender receiver senderBuffer buffer :=
  ⟨h.source, h.target, h.entered, popFromList_queue hpop h.queue⟩

/-- The first waiting thread decides whether an operation blocks. -/
theorem firstState_popped {e t : Word} {nodes : Lists Node}
    (hpop : popFromList k.nodes (.endpoint e) = .ok (.sendReceive t, nodes)) :
    isListEmpty k.nodes (.endpoint e) = false ∧ firstState k e = .ok (k.tcbs t).state := by
  have hfirst := (popFromList_eq_ok.mp hpop).1
  exact ⟨by simp [isListEmpty, hfirst],
    by simp [firstState, hfirst, Node.tcbOfSendReceive, deref, bind, Except.bind, pure, Except.pure]⟩

theorem sendMessageDirectly_equipped {kd : Kernel} (badge : Word) (tag : MessageTag)
    (resumeNow : Bool) (h : Equipped kd sender receiver senderBuffer buffer)
    (hcurrent : kd.currentTcb = some sender) :
    sendMessageDirectly kd receiver badge tag resumeNow =
      (transferMessage kd sender receiver badge tag >>= fun x =>
        if resumeNow then .ok (switchTcb x.2 receiver) else scheduleTcb x.2 receiver) := by
  have hthis : thisTcb kd = .ok sender := by simp [thisTcb, hcurrent]
  have hsource : (kd.tcbs sender).ipcBuffer.isSome = true := by rw [h.source]; rfl
  have htarget : (kd.tcbs receiver).ipcBuffer.isSome = true := by rw [h.target]; rfl
  simp only [sendMessageDirectly, hthis, hsource, htarget, assert, if_true, bind, Except.bind]
  rfl

theorem sendWillBlock_popped {e : Word} {nodes : Lists Node}
    (hpop : popFromList k.nodes (.endpoint e) = .ok (.sendReceive receiver, nodes))
    (hstate : (k.tcbs receiver).state = .receiving) : sendWillBlock k e = .ok false := by
  obtain ⟨hsome, hfirst⟩ := firstState_popped hpop
  simp [sendWillBlock, hsome, hfirst, hstate, bind, Except.bind, pure, Except.pure]

theorem recvWillBlock_popped {e : Word} {nodes : Lists Node}
    (hpop : popFromList k.nodes (.endpoint e) = .ok (.sendReceive sender, nodes))
    (hstate : (k.tcbs sender).state ≠ .receiving) : recvWillBlock k e = .ok false := by
  obtain ⟨hsome, hfirst⟩ := firstState_popped hpop
  simp [recvWillBlock, hsome, hfirst, hstate, bind, Except.bind, pure, Except.pure]

/-- A receiver takes the message of the first waiting sender. -/
theorem endpointRecv_popped {e : Word} {nodes : Lists Node} (hcurrent : k.currentTcb = some receiver)
    (hpop : popFromList k.nodes (.endpoint e) = .ok (.sendReceive sender, nodes))
    (hstate : (k.tcbs sender).state ≠ .receiving) (htag : getPendingIpcInfo k sender = .ok tag) :
    (endpointRecv k e).map Prod.snd =
      (transferMessage (popped k nodes sender receiver) sender receiver
        (k.tcbs sender).endpointBadge tag >>= fun x => settleSender x.2 sender receiver) := by
  have htag' : getPendingIpcInfo (popped k nodes sender receiver) sender = .ok tag := htag
  have hrun : endpointRecv k e = (transferMessage (popped k nodes sender receiver) sender receiver
      (k.tcbs sender).endpointBadge tag >>= fun x =>
        settleSender x.2 sender receiver >>= fun k => .ok (x.1, k)) := by
    simp only [endpointRecv, recvWillBlock_popped hpop hstate, receiveMessageFromBlockedSender,
      thisTcb, hcurrent, hpop]
    show (getPendingIpcInfo (popped k nodes sender receiver) sender >>= _) = _
    rw [htag']
    rfl
  rw [hrun]
  cases transferMessage (popped k nodes sender receiver) sender receiver
    (k.tcbs sender).endpointBadge tag with
  | error e => rfl
  | ok x =>
    simp only [bind, Except.bind]
    cases settleSender x.2 sender receiver <;> rfl

/-- A delivery is safe exactly if its transfer meets the condition. -/
theorem delivery_safe_iff {x : Result Kernel} (hd : Delivery k sender receiver badge tag x)
    (h : Equipped k sender receiver senderBuffer buffer) :
    SafeDelivery k sender receiver senderBuffer buffer badge tag x ↔
      TransferSafe k sender receiver senderBuffer buffer badge tag := by
  cases hd with
  | @send e _ _ _ _ isCall nodes hcurrent hpop hstate =>
    have hx : endpointSend k e badge tag isCall =
        (transferMessage (popped k nodes sender receiver) sender receiver badge tag >>= fun x =>
          .ok (switchTcb x.2 receiver)) := by
      simp only [endpointSend, sendWillBlock_popped hpop hstate, sendMessageToBlockedReceiver,
        thisTcb, hcurrent, hpop]
      exact sendMessageDirectly_equipped badge tag true (h.popped hpop) hcurrent
    rw [hx]
    exact safeDelivery_iff (fun k => .ok (switchTcb k receiver)) (h.popped hpop) rfl rfl
      fun res k' _ => ⟨_, rfl, rfl, switchTcb_given k' receiver receiver⟩
  | @recv e _ _ _ nodes hcurrent hpop hstate htag =>
    have hne : (k.tcbs sender).state ≠ .receiving ∧ (k.tcbs sender).state ≠ .dead := by
      rcases hstate with hs | hs <;> rw [hs] <;> decide
    rw [endpointRecv_popped hcurrent hpop hne.1 htag]
    refine safeDelivery_iff (fun k => settleSender k sender receiver) (h.popped hpop) rfl rfl ?_
    intro res k' hk'
    have hplaces := SamePlaces.transferMessage hk'
    unfold settleSender
    split
    · exact ⟨_, rfl, rfl, modifyTcb_given receiver (fun _ => rfl) fun _ => rfl⟩
    · apply scheduleTcb_given
      · rw [hplaces.state]
        exact hne.2
      · rw [hplaces.nodes]
        exact (h.popped hpop).queue
  | reply hcurrent hto hstate =>
    let kd := k.noted (.replied sender receiver (k.tcbs sender).expectsReply)
    have hkd : Equipped kd sender receiver senderBuffer buffer :=
      ⟨h.source, h.target, h.entered, h.queue⟩
    have hx : invokeReply k tag = (transferMessage kd sender receiver 0#64 tag >>= fun x =>
        scheduleTcb x.2 receiver) := by
      have hreply : invokeReply k tag = sendMessageDirectly kd receiver 0#64 tag false := by
        simp [invokeReply, thisTcb, hcurrent, hto, hstate, deref, bind, Except.bind, kd]
      rw [hreply, sendMessageDirectly_equipped 0#64 tag false hkd hcurrent]
      rfl
    rw [hx]
    refine safeDelivery_iff (fun k => scheduleTcb k receiver) hkd rfl rfl ?_
    intro res k' hk'
    have hplaces := SamePlaces.transferMessage hk'
    apply scheduleTcb_given
    · rw [hplaces.state]
      exact fun hdead => by cases hstate.symm.trans hdead
    · rw [hplaces.nodes]
      exact h.queue

end

/-- The worker has called the boot thread, which is about to reply. -/
def replyingKernel : Kernel :=
  { deliveryKernel 8 64 with
    tcbs := fun t => if t = workerTcb then { state := .calling, ipcBuffer := some (t + 0x1000#64) }
      else { (deliveryKernel 8 64).tcbs t with replyTo := some workerTcb } }

theorem delivery_safe_reply : SafeDelivery replyingKernel initTcb workerTcb (initTcb + 0x1000#64)
    (workerTcb + 0x1000#64) 0#64 capTag (invokeReply replyingKernel capTag) := by
  have hdelivery : Delivery replyingKernel initTcb workerTcb 0#64 capTag
      (invokeReply replyingKernel capTag) := .reply rfl (by decide +kernel) (by decide +kernel)
  have hequipped : Equipped replyingKernel initTcb workerTcb (initTcb + 0x1000#64)
      (workerTcb + 0x1000#64) :=
    ⟨by decide +kernel, by decide +kernel, by decide +kernel, by decide +kernel⟩
  refine (delivery_safe_iff hdelivery hequipped).mpr ⟨fun _ src root _ _ => by decide +kernel, ?_⟩
  intro _ src slot hlookups
  have hslots : transferLookups (arrivedWords replyingKernel (initTcb + 0x1000#64)
      (workerTcb + 0x1000#64) 0#64 capTag) initTcb workerTcb (initTcb + 0x1000#64)
      (workerTcb + 0x1000#64) = .ok (.ok (initSlot 6, initSlot 8)) := by decide +kernel
  cases hslots.symm.trans hlookups
  exact ⟨by decide +kernel, by decide +kernel⟩

/-- The worker waits on the endpoint and has never touched its IPC buffer; a
message that announces a capability panics the kernel. -/
theorem uninitialised_path_panics : ¬ ∀ k, (kernelSystem examplePlatform).Reached k →
    ∀ sender receiver senderBuffer buffer badge tag x, Delivery k sender receiver badge tag x →
      Equipped k sender receiver senderBuffer buffer →
      SafeDelivery k sender receiver senderBuffer buffer badge tag x := by
  intro h
  have hrun : (do
      let k ← runSyscalls examplePlatform [resumeFrame 5, yieldFrame, recvFrame 6] replyKernel
      let popped ← popFromList k.nodes (.endpoint exampleEndpoint)
      return ((k.currentTcb, popped.1, (k.tcbs workerTcb).state),
        ((k.tcbs initTcb).ipcBuffer, (k.tcbs workerTcb).ipcBuffer),
        (k.nodes.next .runnableTcbs).isSome,
        decide ((endpointSend k exampleEndpoint 0#64 capTag false).map (fun _ => ()) =
          .error .panic))) =
      (.ok ((some initTcb, .sendReceive workerTcb, .receiving),
        (some (initTcb + 0x1000#64), some (workerTcb + 0x1000#64)), true, true) : Result _) := by
    decide +kernel
  simp only [bind_eq_ok, pure_eq_ok, Prod.mk.injEq, decide_eq_true_eq] at hrun
  obtain ⟨k, hk, ⟨first, nodes⟩, hpop, ⟨hcurrent, rfl, hstate⟩, ⟨hsource, htarget⟩, hqueue, hfail⟩ :=
    hrun
  have hreached : (kernelSystem examplePlatform).Reached k :=
    runSyscalls_reached (.start replyKernel_booted) (fun _ _ _ => trivial) (by decide +kernel) hk
  have hentered : k.currentTcb = some workerTcb → (k.tcbs workerTcb).currentUserFrame.isSome := by
    intro hworker
    rw [hcurrent] at hworker
    exact absurd hworker (by decide)
  have hdelivery : Delivery k initTcb workerTcb 0#64 capTag
      (endpointSend k exampleEndpoint 0#64 capTag false) := .send hcurrent hpop hstate
  have hsafe := h k hreached _ _ _ _ _ _ _ hdelivery ⟨hsource, htarget, hentered, hqueue⟩
  apply hsafe.noPanic
  cases hsend : endpointSend k exampleEndpoint 0#64 capTag false with
  | ok k' =>
    rw [hsend] at hfail
    cases hfail
  | error e =>
    rw [hsend] at hfail
    cases hfail
    rfl

end Tern
