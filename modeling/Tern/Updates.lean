import Tern.Frames

/-! What kernel entries write, reduced to a few kinds of update: `Update` for
threads and buffers, `Message` also for a capability that goes with a message,
`Effect` also for signals and interrupts. Every kernel function but the methods
makes a sequence of them, so that what each kind keeps is kept by the functions. -/

namespace Tern

open Cdt Relation

inductive Update (k : Kernel) : Kernel → Prop
  | tcb (t : Word) (f : Tcb → Tcb) (hsaved : ∀ c, (f c).savedState = c.savedState)
      (hlive : ∀ c, (f c).currentUserFrame = c.currentUserFrame)
      (hbuffer : ∀ c, (f c).ipcBuffer = c.ipcBuffer) : Update k (k.modifyTcb t f)
  | save (t : Word) (f : Frame) (h : (k.tcbs t).currentUserFrame = some f) :
      Update k (k.modifyTcb t fun c => { c with savedState := f })
  | arm (t : Word) : Update k (k.modifyTcb t fun c =>
      { c with savedState := ensureFrameValidForUsermode c.savedState })
  | resultLive (t : Word) (f : Frame) (w : Word) (h : (k.tcbs t).currentUserFrame = some f) :
      Update k (k.modifyTcb t fun c => { c with currentUserFrame := some { f with rax := w } })
  | resultSaved (t w : Word) : Update k (k.modifyTcb t fun c =>
      { c with savedState := { c.savedState with rax := w } })
  | nodes (nodes : Lists Node) : Update k (k.withNodes nodes)
  | noted (e : Event) : Update k (k.noted e)
  | buffers (buffers : Word → IpcBuffer) : Update k { k with buffers }
  | processor (currentTcb returnToTcb : Option Word) (vmRoot tlsBase : Word) :
      Update k { k with currentTcb, returnToTcb, vmRoot, tlsBase }

inductive Message (k : Kernel) : Kernel → Prop
  | update {k' : Kernel} (h : Update k k') : Message k k'
  | copy (dest src : Word) :
      Message k { k with slots := (copyCap k.slots dest src capRightsAll).2 }

inductive Effect (k : Kernel) : Kernel → Prop
  | message {k' : Kernel} (h : Message k k') : Effect k k'
  | notifications (notifications : Word → Notification) (signals : List Signal) :
      Effect k { k with notifications, signals }
  | interrupts (irqHandlers : Word → IrqHandlerData) (irqMasked : BitVec 32 → Bool) :
      Effect k { k with irqHandlers, irqMasked }

abbrev Updates : Kernel → Kernel → Prop := ReflTransGen Update
abbrev Messages : Kernel → Kernel → Prop := ReflTransGen Message
abbrev Effects : Kernel → Kernel → Prop := ReflTransGen Effect

variable {k k' : Kernel} {t : Word} {tag tag' : MessageTag}

theorem Updates.messages (h : Updates k k') : Messages k k' :=
  ReflTransGen.mono (fun _ _ => .update) _ _ h

theorem Messages.effects (h : Messages k k') : Effects k k' :=
  ReflTransGen.mono (fun _ _ => .message) _ _ h

theorem Updates.effects (h : Updates k k') : Effects k k' :=
  Messages.effects (Updates.messages h)

theorem Update.slots (h : Update k k') : k'.slots = k.slots := by
  cases h <;> rfl

theorem Updates.slots (h : Updates k k') : k'.slots = k.slots := by
  induction h with
  | refl => rfl
  | tail _ hstep ih => exact hstep.slots.trans ih

/-- What every kind of effect keeps, a sequence of effects keeps. -/
theorem Effects.invariant {I : Kernel → Prop} (hI : ∀ k k', Effect k k' → I k → I k')
    (h : Effects k k') (hk : I k) : I k' := by
  induction h with
  | refl => exact hk
  | tail _ hstep ih => exact hI _ _ hstep ih

theorem Update.setState (k : Kernel) (t : Word) (state : TaskState) :
    Update k (k.setState t state) :=
  .tcb t _ (fun _ => rfl) (fun _ => rfl) (fun _ => rfl)

/-! ## Threads -/

theorem setIpcResult_updates (hk : setIpcResult k t tag = .ok k') : Updates k k' := by
  simp only [setIpcResult, bind_eq_ok, pure_eq_ok] at hk
  obtain ⟨f, hf, rfl⟩ := hk
  unfold ipcFrame at hf
  split
  · rename_i hcurrent
    rw [if_pos hcurrent] at hf
    split at hf
    · rename_i hlive
      cases hf
      exact .single (.resultLive t f _ hlive)
    · cases hf
  · rename_i hcurrent
    rw [if_neg hcurrent] at hf
    cases hf
    exact .single (.resultSaved t _)

theorem setMrs_updates {l : List Word} {k : Kernel} {i : Nat} (hk : setMrs k i l = .ok k') :
    Updates k k' := by
  induction l generalizing k i with
  | nil =>
    cases hk
    exact .refl
  | cons w l ih =>
    simp only [setMrs, setMr, bind_eq_ok, pure_eq_ok] at hk
    obtain ⟨_, ⟨p, -, rfl⟩, hk⟩ := hk
    exact .head (.buffers _) (ih hk)

theorem answer_updates {r : Reply} (hk : answer k r = .ok (tag, k')) : Updates k k' := by
  simp only [answer, bind_eq_ok, pure_eq_ok, Prod.mk.injEq] at hk
  obtain ⟨_, hset, -, rfl⟩ := hk
  exact setMrs_updates hset

theorem scheduleTcb_updates (hk : scheduleTcb k t = .ok k') : Updates k k' := by
  simp only [scheduleTcb, bind_eq_ok, pure_eq_ok] at hk
  obtain ⟨-, -, nodes, -, rfl⟩ := hk
  exact .tail (.tail (.single (.setState k t .runnable)) (.nodes nodes)) (.noted _)

theorem suspendTcb_updates (hk : suspendTcb k t = .ok k') : Updates k k' := by
  simp only [suspendTcb, bind_eq_ok, pure_eq_ok] at hk
  obtain ⟨nodes, -, rfl⟩ := hk
  exact .tail (.single (.setState k t .suspended)) (.nodes nodes)

theorem switchTcb_updates (k : Kernel) (t : Word) : Updates k (switchTcb k t) :=
  .tail (.tail (.single (.setState k t .runnable)) (.processor _ _ _ _)) (.noted _)

theorem pickNextTcb_updates {next : Option Word} (hk : pickNextTcb k = .ok (next, k')) :
    Updates k k' := by
  unfold pickNextTcb at hk
  split at hk
  · cases hk
    exact .refl
  · simp only [bind_eq_ok, pure_eq_ok, Prod.mk.injEq] at hk
    obtain ⟨⟨_, nodes⟩, -, -, -, -, rfl⟩ := hk
    exact .single (.nodes nodes)

theorem schedule_updates (hk : schedule k = .ok k') : Updates k k' := by
  simp only [schedule, bind_eq_ok] at hk
  obtain ⟨⟨next, k₁⟩, hpick, hk⟩ := hk
  have hpicked := pickNextTcb_updates hpick
  cases next with
  | none =>
    dsimp only at hk
    split at hk <;> cases hk
    · exact hpicked
    · exact hpicked.tail (.processor _ _ _ _)
  | some t =>
    cases hk
    exact hpicked.trans (switchTcb_updates k₁ t)

theorem killTcb_updates (hk : killTcb k t = .ok k') : Updates k k' := by
  simp only [killTcb, bind_eq_ok, pure_eq_ok] at hk
  obtain ⟨-, -, rfl⟩ := hk
  exact .single (.setState k t .dead)

theorem saveCurrent_updates (hk : saveCurrent k = .ok k') : Updates k k' := by
  unfold saveCurrent at hk
  split at hk
  · split at hk
    · unfold saveTcbState at hk
      split at hk
      · rename_i f hf
        cases hk
        exact .single (.save _ f hf)
      · cases hk
    · cases hk
      exact .refl
  · cases hk
    exact .refl

theorem rescheduleCurrent_updates (hk : rescheduleCurrent k = .ok k') : Updates k k' := by
  unfold rescheduleCurrent at hk
  split at hk
  · split at hk
    · exact scheduleTcb_updates hk
    · cases hk
      exact .refl
  · cases hk
    exact .refl

theorem switchTcbActual_updates {dm : DirectMap} (hk : switchTcbActual dm k t = .ok k') :
    Updates k k' := by
  simp only [switchTcbActual, bind_eq_ok, pure_eq_ok] at hk
  obtain ⟨-, -, k₁, hsave, k₂, hresched, -, -, rfl⟩ := hk
  refine (saveCurrent_updates hsave).trans ((rescheduleCurrent_updates hresched).trans ?_)
  exact .tail (.tail (.single (.processor (some t) _ _ _)) (.setState _ t .running)) (.arm t)

theorem returnFromKernelCode_updates {dm : DirectMap} (hk : returnFromKernelCode dm k = .ok k') :
    Updates k k' := by
  unfold returnFromKernelCode at hk
  split at hk
  · cases hk
    exact .refl
  · split at hk
    · exact switchTcbActual_updates hk
    · simp only [bind_eq_ok, pure_eq_ok] at hk
      obtain ⟨k₁, hsave, rfl⟩ := hk
      exact (saveCurrent_updates hsave).tail (.processor none _ _ _)

/-! ## Messages -/

theorem transferCap_messages {s r sbuf buf : Word}
    (hk : transferCap k s r sbuf buf tag = .ok (tag', k')) : Messages k k' := by
  unfold transferCap at hk
  split at hk
  · cases hk
    exact .refl
  · simp only [bind_eq_ok] at hk
    obtain ⟨x, -, hk⟩ := hk
    cases x with
    | error e =>
      cases hk
      exact .refl
    | ok cap =>
      simp only [bind_eq_ok] at hk
      obtain ⟨y, -, hk⟩ := hk
      cases y with
      | error e =>
        cases hk
        exact .refl
      | ok recvSlot =>
        cases hk
        exact .single (.copy recvSlot cap)

theorem setReplyTo_updates (k : Kernel) (s r : Word) : Updates k (setReplyTo k s r) := by
  unfold setReplyTo
  split
  · exact .single (.tcb r _ (fun _ => rfl) (fun _ => rfl) (fun _ => rfl))
  · exact .refl

theorem transferMessage_messages {s r b : Word}
    (hk : transferMessage k s r b tag = .ok (tag', k')) : Messages k k' := by
  simp only [transferMessage, bind_eq_ok, pure_eq_ok] at hk
  obtain ⟨buf, -, sbuf, -, ⟨tag₁, k₁⟩, hcap, k₂, hset, heq⟩ := hk
  obtain ⟨-, rfl⟩ := Prod.mk.inj heq
  have hresult := (setReplyTo_updates k₁ s r).trans (setIpcResult_updates hset)
  refine .trans ?_ (Updates.messages hresult)
  exact .head (.update (.buffers _)) (.head (.update (.buffers _)) (transferCap_messages hcap))

theorem sendMessageDirectly_messages {r b : Word} {now : Bool}
    (hk : sendMessageDirectly k r b tag now = .ok k') : Messages k k' := by
  simp only [sendMessageDirectly, bind_eq_ok] at hk
  obtain ⟨-, -, this, -, -, -, ⟨_, k₁⟩, htransfer, hk⟩ := hk
  have hmessage := transferMessage_messages htransfer
  split at hk
  · cases hk
    exact hmessage.trans (Updates.messages (switchTcb_updates k₁ r))
  · exact hmessage.trans (Updates.messages (scheduleTcb_updates hk))

theorem sendMessageToBlockedReceiver_messages {e b : Word} {now : Bool}
    (hk : sendMessageToBlockedReceiver k e b tag now = .ok k') : Messages k k' := by
  simp only [sendMessageToBlockedReceiver, bind_eq_ok] at hk
  obtain ⟨this, -, ⟨next, nodes⟩, -, receiver, -, hk⟩ := hk
  exact .head (.update (.nodes nodes))
    (.head (.update (.noted _)) (sendMessageDirectly_messages hk))

theorem queueMessageOnEndpoint_updates {e b : Word} {isCall : Bool}
    (hk : queueMessageOnEndpoint k e b tag isCall = .ok k') : Updates k k' := by
  simp only [queueMessageOnEndpoint, bind_eq_ok] at hk
  obtain ⟨this, -, -, -, -, -, nodes, -, hk⟩ := hk
  have hstate := Update.setState (k.withNodes nodes) this (if isCall then .calling else .sending)
  refine .head (.nodes nodes) (.head hstate (.head ?_ (schedule_updates hk)))
  exact .tcb this _ (fun _ => rfl) (fun _ => rfl) (fun _ => rfl)

theorem settleSender_updates {s r : Word} (hk : settleSender k s r = .ok k') : Updates k k' := by
  unfold settleSender at hk
  split at hk
  · cases hk
    exact .single (.tcb r _ (fun _ => rfl) (fun _ => rfl) (fun _ => rfl))
  · exact scheduleTcb_updates hk

theorem receiveMessageFromBlockedSender_messages {e : Word}
    (hk : receiveMessageFromBlockedSender k e = .ok (tag, k')) : Messages k k' := by
  simp only [receiveMessageFromBlockedSender, bind_eq_ok, pure_eq_ok, Prod.mk.injEq] at hk
  obtain ⟨this, -, ⟨next, nodes⟩, -, sender, -, info, -, ⟨result, k₁⟩, htransfer, k₂, hsettle, -,
    rfl⟩ := hk
  have hmessage := (transferMessage_messages htransfer).trans
    (Updates.messages (settleSender_updates hsettle))
  exact .head (.update (.nodes nodes)) (.head (.update (.noted _)) hmessage)

/-- Both ways to block as a receiver. -/
theorem blockReceiver_updates {this : Word} {nodes : Lists Node}
    (hk : schedule ((k.withNodes nodes).setState this .receiving) = .ok k') : Updates k k' :=
  .head (.nodes nodes) (.head (.setState _ this _) (schedule_updates hk))

theorem queueReceiverOnEndpoint_updates {e : Word}
    (hk : queueReceiverOnEndpoint k e = .ok (tag, k')) : Updates k k' := by
  simp only [queueReceiverOnEndpoint, bind_eq_ok, pure_eq_ok, Prod.mk.injEq] at hk
  obtain ⟨this, -, nodes, -, k₁, hschedule, -, rfl⟩ := hk
  exact blockReceiver_updates hschedule

theorem endpointSend_messages {e b : Word} {isCall : Bool}
    (hk : endpointSend k e b tag isCall = .ok k') : Messages k k' := by
  simp only [endpointSend, bind_eq_ok] at hk
  obtain ⟨block, -, hk⟩ := hk
  cases block with
  | true => exact Updates.messages (queueMessageOnEndpoint_updates hk)
  | false => exact sendMessageToBlockedReceiver_messages hk

theorem endpointRecv_messages {e : Word} (hk : endpointRecv k e = .ok (tag, k')) :
    Messages k k' := by
  simp only [endpointRecv, bind_eq_ok] at hk
  obtain ⟨block, -, hk⟩ := hk
  cases block with
  | true => exact Updates.messages (queueReceiverOnEndpoint_updates hk)
  | false => exact receiveMessageFromBlockedSender_messages hk

theorem endpointNbrecv_messages {e : Word} (hk : endpointNbrecv k e = .ok (tag, k')) :
    Messages k k' := by
  simp only [endpointNbrecv, bind_eq_ok] at hk
  obtain ⟨block, -, hk⟩ := hk
  cases block with
  | true =>
    cases hk
    exact .refl
  | false => exact receiveMessageFromBlockedSender_messages hk

theorem setExpectsReply_update (k : Kernel) (t : Word) (expects : Bool) :
    Update k (setExpectsReply k t expects) :=
  .tcb t _ (fun _ => rfl) (fun _ => rfl) (fun _ => rfl)

theorem invokeEndpointSend_messages {cap : Word} (hk : invokeEndpointSend k cap tag = .ok k') :
    Messages k k' := by
  simp only [invokeEndpointSend, bind_eq_ok] at hk
  obtain ⟨-, -, this, -, hk⟩ := hk
  exact .head (.update (setExpectsReply_update k this false)) (endpointSend_messages hk)

theorem invokeEndpointCall_messages {cap : Word} (hk : invokeEndpointCall k cap tag = .ok k') :
    Messages k k' := by
  simp only [invokeEndpointCall, bind_eq_ok] at hk
  obtain ⟨-, -, this, -, hk⟩ := hk
  exact .head (.update (setExpectsReply_update k this true)) (.head
    (.update (.setState _ this .calling)) (.head (.update (.noted _)) (endpointSend_messages hk)))

theorem invokeReply_messages (hk : invokeReply k tag = .ok k') : Messages k k' := by
  simp only [invokeReply, bind_eq_ok] at hk
  obtain ⟨this, -, hk⟩ := hk
  split at hk
  · cases hk
  · split at hk
    · cases hk
    · exact .head (.update (.noted _)) (sendMessageDirectly_messages hk)

/-! ## Notifications -/

theorem handleRecvWithPendingNotification_effects
    (hk : handleRecvWithPendingNotification k = .ok (some k')) : Effects k k' := by
  simp only [handleRecvWithPendingNotification, bind_eq_ok] at hk
  obtain ⟨this, -, hk⟩ := hk
  split at hk
  · cases hk
  · split at hk
    · cases hk
    · simp only [bind_eq_ok, pure_eq_ok, Option.some.injEq] at hk
      obtain ⟨buffer, -, rfl⟩ := hk
      exact .head (.message (.update (.buffers _))) (.single (.notifications _ _))

/-- A receive takes the pending word of the bound notification, or a message. -/
theorem invokeEndpointRecv_cases {cap : Word} (hk : invokeEndpointRecv k cap = .ok (tag, k')) :
    Messages k k' ∨ handleRecvWithPendingNotification k = .ok (some k') := by
  simp only [invokeEndpointRecv, bind_eq_ok] at hk
  obtain ⟨-, -, pending, hpending, hk⟩ := hk
  cases pending with
  | none => exact .inl (endpointRecv_messages hk)
  | some k₁ =>
    cases hk
    exact .inr hpending

theorem invokeEndpointNbrecv_cases {cap : Word}
    (hk : invokeEndpointNbrecv k cap = .ok (tag, k')) :
    Messages k k' ∨ handleRecvWithPendingNotification k = .ok (some k') := by
  simp only [invokeEndpointNbrecv, bind_eq_ok] at hk
  obtain ⟨-, -, pending, hpending, hk⟩ := hk
  cases pending with
  | none => exact .inl (endpointNbrecv_messages hk)
  | some k₁ =>
    cases hk
    exact .inr hpending

theorem signalWaitingReceiver_effects {n r b : Word}
    (hk : signalWaitingReceiver k n r b = .ok k') : Effects k k' := by
  simp only [signalWaitingReceiver, bind_eq_ok, pure_eq_ok] at hk
  obtain ⟨k₁, hset, buffer, -, rfl⟩ := hk
  refine (Updates.effects (setIpcResult_updates hset)).trans ?_
  refine .trans ?_ (Updates.effects (switchTcb_updates _ r))
  exact .head (.message (.update (.buffers _))) (.single (.notifications _ _))

theorem notificationSignal_effects {n b : Word} (hk : notificationSignal k n b = .ok k') :
    Effects k k' := by
  unfold notificationSignal at hk
  dsimp only at hk
  split at hk
  · split at hk
    · simp only [signalBoundReceiverWaitingOnSomethingElse, bind_eq_ok] at hk
      obtain ⟨nodes, -, hk⟩ := hk
      exact .head (.notifications _ _) (.head (.message (.update (.nodes nodes)))
        (signalWaitingReceiver_effects hk))
    · cases hk
      exact .single (.notifications _ _)
  · simp only [bind_eq_ok] at hk
    obtain ⟨first, -, t, -, nodes, -, hk⟩ := hk
    exact .head (.notifications _ _) (.head (.message (.update (.nodes nodes)))
      (signalWaitingReceiver_effects hk))

theorem killIfBoundToOther_updates {n this : Word}
    (hk : killIfBoundToOther k n this = .ok k') : Updates k k' := by
  unfold killIfBoundToOther at hk
  dsimp only at hk
  split at hk
  · simp only [bind_eq_ok] at hk
    obtain ⟨k₁, hkill, hk⟩ := hk
    exact (killTcb_updates hkill).trans (schedule_updates hk)
  · cases hk
    exact .refl

theorem queueReceiverOnNotification_updates {n : Word}
    (hk : queueReceiverOnNotification k n = .ok (tag, k')) : Updates k k' := by
  simp only [queueReceiverOnNotification, bind_eq_ok, pure_eq_ok, Prod.mk.injEq] at hk
  obtain ⟨this, -, nodes, -, k₁, hschedule, -, rfl⟩ := hk
  exact blockReceiver_updates hschedule

theorem invokeNotificationRecv_effects {cap : Word}
    (hk : invokeNotificationRecv k cap = .ok (tag, k')) : Effects k k' := by
  simp only [invokeNotificationRecv, bind_eq_ok] at hk
  obtain ⟨-, -, this, -, k₁, hkill, hk⟩ := hk
  refine (Updates.effects (killIfBoundToOther_updates hkill)).trans ?_
  split at hk
  · exact Updates.effects (queueReceiverOnNotification_updates hk)
  · cases hk
    exact .single (.notifications _ _)

/-! ## Methods -/

section

variable {P : Platform} {fuel : Nat} {slot : Word} {mr cap : Nat → Word} {m : Method} {r : Reply}

/-- The methods that write capability slots. -/
def Method.writesSlots : Method → Bool
  | .cnodeCopy | .cnodeDelete | .cnodeMint | .cnodeRevoke | .tcbConfigure | .untypedRetype
  | .ioPortControlIssue | .irqControlGet => true
  | _ => false

theorem onSlots_slots {x : Result (Reply × Slots)} (h : onSlots k x = .ok (r, k')) :
    x = .ok (r, k'.slots) := by
  obtain ⟨slots, hx, rfl⟩ := onSlots_eq_ok.mp h
  exact hx

theorem retype_slots {dm : DirectMap}
    {type sizeBits root nodeIndex nodeOffset numObjects : Word} {nodeDepth : BitVec 8}
    (h : retype dm k slot type sizeBits root nodeIndex nodeDepth nodeOffset numObjects =
      .ok (r, k')) :
    untypedRetype dm k.slots slot type sizeBits root nodeIndex nodeDepth nodeOffset numObjects =
      .ok (r, k'.slots) := by
  simp only [retype, bind_eq_ok] at h
  obtain ⟨⟨r', t⟩, hr, h⟩ := h
  dsimp only at h
  split at h
  · rename_i hfail
    cases h
    rcases untypedRetype_cases hr with ⟨-, rfl⟩ | ⟨_, _, rfl, -⟩
    · exact hr
    · cases hfail
  · simp only [bind_eq_ok, pure_eq_ok, Prod.mk.injEq] at h
    obtain ⟨_, -, _, -, rfl, rfl⟩ := h
    exact hr

theorem invokeMethod_slots (hm : m.writesSlots = false)
    (h : invokeMethod P fuel k slot mr cap m = .ok (r, k')) : k'.slots = k.slots := by
  cases m <;> simp only [invokeMethod] at h
  case cnodeCopy | cnodeDelete | cnodeMint | cnodeRevoke | tcbConfigure | untypedRetype |
      ioPortControlIssue | irqControlGet => cases hm
  case cnodeDebugGet =>
    rcases withSlot_cases (onSlots_slots h) with ⟨hsame, -⟩ | ⟨cte, -, h⟩
    · exact hsame
    · exact (congrArg Prod.snd (Except.ok.inj h)).symm
  case tcbResume =>
    simp only [tcbResume, bind_eq_ok, pure_eq_ok, Prod.mk.injEq] at h
    obtain ⟨_, hschedule, -, rfl⟩ := h
    exact (scheduleTcb_updates hschedule).slots
  case tcbSuspend =>
    simp only [tcbSuspend, bind_eq_ok, pure_eq_ok, Prod.mk.injEq] at h
    obtain ⟨_, hsuspend, -, rfl⟩ := h
    exact (suspendTcb_updates hsuspend).slots
  case tcbBindNotification =>
    simp only [Except.ok.injEq, tcbBindNotification] at h
    split at h
    · cases h
      rfl
    · split at h <;> cases h <;> rfl
  case tcbSetTlsBase =>
    cases h
    split <;> rfl
  case ioPortIn8 | ioPortIn16 | ioPortIn32 | ioPortOut8 | ioPortOut16 | ioPortOut32 =>
    simp only [Except.ok.injEq, ioPortIn, ioPortOut] at h
    split at h <;> cases h <;> rfl
  case pdptMap | pdMap | ptMap | pageMap | hugePageMap =>
    obtain rfl := congrArg Prod.snd (Except.ok.inj h)
    exact mapEntry_slots
  case cnodeDebugPrint | tcbSetName | tcbReadRegisters | tcbWriteRegisters | tcbSetDebug |
      irqHandlerAck | irqHandlerClear | irqHandlerSetNotification =>
    cases h
    rfl

end

/-! ## Entries -/

/-- What an entry does before `return_from_kernel_code`. -/
def Entry.handle (P : Platform) (fuel : Nat) (k : Kernel) : Entry → Result Kernel
  | .syscall f => doSyscall P fuel (saveFrameOnTcb k f) f.rdi f.rsi (f.rax.setWidth 32)
  | .interrupt f => handleInterrupt P (saveFrameOnTcb k f) f

def Entry.frame : Entry → Frame
  | .syscall f => f
  | .interrupt f => f

/-- The whole entry. -/
def Entry.enter (P : Platform) (fuel : Nat) (k : Kernel) (e : Entry) : Result Kernel := do
  let k ← e.handle P fuel k
  returnFromKernelCode P.dm k

theorem syscallEntry_eq (P : Platform) (fuel : Nat) (k : Kernel) (f : Frame) :
    syscallEntry P fuel k f = (Entry.syscall f).enter P fuel k :=
  rfl

theorem interruptEntry_eq (P : Platform) (fuel : Nat) (k : Kernel) (f : Frame) :
    interruptEntry P k f = (Entry.interrupt f).enter P fuel k :=
  rfl

/-- Saving the frame of user code changes nothing else. -/
theorem saveFrameOnTcb_spec (k : Kernel) (f : Frame) :
    ∃ tcbs, saveFrameOnTcb k f = { k with tcbs } ∧ ∀ t,
      (tcbs t).ipcBuffer = (k.tcbs t).ipcBuffer ∧ (tcbs t).savedState = (k.tcbs t).savedState ∧
      ((tcbs t).currentUserFrame = (k.tcbs t).currentUserFrame ∨
        f.cs = userCs ∧ (tcbs t).currentUserFrame = some f) := by
  unfold saveFrameOnTcb
  split
  · rename_i this _
    split
    · rename_i hcs
      refine ⟨_, rfl, fun t => ?_⟩
      by_cases ht : t = this
      · simp [ht, hcs]
      · simp [ht]
    · exact ⟨k.tcbs, rfl, fun t => ⟨rfl, rfl, .inl rfl⟩⟩
  · exact ⟨k.tcbs, rfl, fun t => ⟨rfl, rfl, .inl rfl⟩⟩

/-- The entry invokes the method `m` with these registers and slots, and the
dispatcher's checks pass. -/
def Handles (k : Kernel) (e : Entry) (slot : Word) (m : Method) (mr cap : Nat → Word) : Prop :=
  ∃ f, e = .syscall f ∧ Asks k f .call slot ∧ Admitted k slot f.tag m mr cap

theorem Handles.invokes {f : Frame} {slot : Word} {m : Method} {mr cap : Nat → Word}
    (h : Handles k (.syscall f) slot m mr cap) : Invokes k f m (capPtr (k.slots slot).cap) := by
  obtain ⟨_, hf, hasks, hadmitted⟩ := h
  cases hf
  exact ⟨slot, hasks, hadmitted.type, hadmitted.label, rfl⟩

theorem Admitted.unique {slot : Word} {info : MessageTag} {m : Method} {mr mr' cap cap' : Nat → Word}
    (h : Admitted k slot info m mr cap) (h' : Admitted k slot info m mr' cap') :
    mr' = mr ∧ cap' = cap := by
  cases h.registers.symm.trans h'.registers
  obtain ⟨t, ht, hcap⟩ := h.caps
  obtain ⟨t', ht', hcap'⟩ := h'.caps
  cases ht.symm.trans ht'
  cases hcap.symm.trans hcap'
  exact ⟨rfl, rfl⟩

/-- An entry invokes one method at most, on one slot and with one set of arguments. -/
theorem Handles.unique {e : Entry} {slot slot' : Word} {m m' : Method} {mr mr' cap cap' : Nat → Word}
    (h : Handles k e slot m mr cap) (h' : Handles k e slot' m' mr' cap') :
    slot' = slot ∧ m' = m ∧ mr' = mr ∧ cap' = cap := by
  obtain ⟨f, rfl, ⟨-, t, ht, hslot⟩, hm⟩ := h
  obtain ⟨_, hf, ⟨-, t', ht', hslot'⟩, hm'⟩ := h'
  cases hf
  cases ht.symm.trans ht'
  cases hslot.symm.trans hslot'
  cases hm.label.symm.trans hm'.label
  exact ⟨rfl, rfl, hm.unique hm'⟩

theorem Handles.of_same_buffers {tcbs : Word → Tcb} {e : Entry} {slot : Word} {m : Method}
    {mr cap : Nat → Word} (htcbs : ∀ t, (tcbs t).ipcBuffer = (k.tcbs t).ipcBuffer)
    (h : Handles k e slot m mr cap) : Handles { k with tcbs } e slot m mr cap := by
  have hbuffer : thisBuffer { k with tcbs } = thisBuffer k := by
    unfold thisBuffer
    cases k.currentTcb with
    | none => rfl
    | some t => simp only [htcbs]
  have hcaps : ∀ t n, lookupCaps { k with tcbs } t n = lookupCaps k t n := by
    intro t n
    induction n with
    | zero => rfl
    | succ n ih => simp only [lookupCaps, getCap, ih, hbuffer]
  obtain ⟨f, rfl, hasks, hm⟩ := h
  refine ⟨f, rfl, hasks, hm.label, ?_, hm.type, hm.length, hm.extra, ?_⟩
  · have hregisters := hm.registers
    simp only [getMrs, hbuffer] at hregisters ⊢
    exact hregisters
  · obtain ⟨t, ht, hcap⟩ := hm.caps
    exact ⟨t, ht, (hcaps t _).trans hcap⟩

/-- Saving the frame does not change which method is invoked. -/
theorem handles_saveFrame {f : Frame} {e : Entry} {slot : Word} {m : Method}
    {mr cap : Nat → Word} :
    Handles (saveFrameOnTcb k f) e slot m mr cap ↔ Handles k e slot m mr cap := by
  obtain ⟨tcbs, heq, htcbs⟩ := saveFrameOnTcb_spec k f
  rw [heq]
  constructor
  · intro h
    exact h.of_same_buffers (k := { k with tcbs }) fun t => ((htcbs t).1).symm
  · exact Handles.of_same_buffers fun t => (htcbs t).1

theorem opSyscallPlain_messages {info : MessageTag} {number : SyscallNumber}
    {x : Result (MessageTag × Kernel)} (hx : opSyscallPlain k info number = some x)
    (hk : x = .ok (tag, k')) : Messages k k' := by
  subst hk
  cases number <;> simp only [opSyscallPlain, reduceCtorEq, Option.some.injEq] at hx
  case exit =>
    simp only [bind_eq_ok, pure_eq_ok, Prod.mk.injEq] at hx
    obtain ⟨this, -, k₁, hkill, k₂, hschedule, -, rfl⟩ := hx
    exact Updates.messages ((killTcb_updates hkill).trans (schedule_updates hschedule))
  case debugWrite =>
    cases hx
    exact .refl
  case yield =>
    simp only [bind_eq_ok, pure_eq_ok, Prod.mk.injEq] at hx
    obtain ⟨k₁, hschedule, -, rfl⟩ := hx
    exact Updates.messages (schedule_updates hschedule)
  case reply =>
    simp only [bind_eq_ok, pure_eq_ok, Prod.mk.injEq] at hx
    obtain ⟨k₁, hreply, -, rfl⟩ := hx
    exact invokeReply_messages hreply

/-- What a system call on the capability in `slot` comes down to. -/
inductive CapCall (P : Platform) (fuel : Nat) (k : Kernel) (slot : Word) (info : MessageTag)
    (k' : Kernel) : SyscallNumber → Prop
  | messages {number : SyscallNumber} : Messages k k' → CapCall P fuel k slot info k' number
  | receives {number : SyscallNumber} {k₁ : Kernel} : Messages k k₁ →
      handleRecvWithPendingNotification k₁ = .ok (some k') → CapCall P fuel k slot info k' number
  | signals : (k.slots slot).cap.type = .notification →
      notificationSignal k (capPtr (k.slots slot).cap) (k.slots slot).cap.badge = .ok k' →
      CapCall P fuel k slot info k' .send
  | waits {tag : MessageTag} : (k.slots slot).cap.type = .notification →
      invokeNotificationRecv k slot = .ok (tag, k') → CapCall P fuel k slot info k' .recv
  | method {r : Reply} {k₁ : Kernel} : dispatchMethod P fuel k slot info = .ok (r, k₁) →
      Updates k₁ k' → CapCall P fuel k slot info k' .call

theorem opSyscallOn_capCall {P : Platform} {fuel : Nat} {slot : Word} {info : MessageTag}
    {number : SyscallNumber}
    (hk : opSyscallOn P fuel k slot info (some number) = .ok (tag, k')) :
    CapCall P fuel k slot info k' number := by
  have hreceive : ∀ {k₁ : Kernel}, Messages k k₁ →
      Messages k₁ k' ∨ handleRecvWithPendingNotification k₁ = .ok (some k') →
      CapCall P fuel k slot info k' number := by
    rintro k₁ h₁ (hmessages | hpending)
    · exact .messages (h₁.trans hmessages)
    · exact .receives h₁ hpending
  cases number with
  | call =>
    simp only [opSyscallOn] at hk
    split at hk
    · simp only [bind_eq_ok] at hk
      obtain ⟨⟨r, k₁⟩, hdispatch, hanswer⟩ := hk
      exact .method hdispatch (answer_updates hanswer)
    · simp only [bind_eq_ok, pure_eq_ok, Prod.mk.injEq] at hk
      obtain ⟨k₁, hcall, -, rfl⟩ := hk
      exact .messages (invokeEndpointCall_messages hcall)
  | send =>
    simp only [opSyscallOn] at hk
    split at hk
    · next htype =>
      simp only [invokeNotificationSend, bind_eq_ok, pure_eq_ok, Prod.mk.injEq] at hk
      obtain ⟨k₁, ⟨-, -, hsend⟩, -, rfl⟩ := hk
      exact .signals htype hsend
    · split at hk
      · simp only [bind_eq_ok, pure_eq_ok, Prod.mk.injEq] at hk
        obtain ⟨k₁, hsend, -, rfl⟩ := hk
        exact .messages (invokeEndpointSend_messages hsend)
      · cases hk
        exact .messages .refl
  | nbsend =>
    simp only [opSyscallOn] at hk
    split at hk
    · cases hk
      exact .messages .refl
    · cases hk
  | recv =>
    simp only [opSyscallOn] at hk
    split at hk
    · next htype => exact .waits htype hk
    · split at hk
      · exact hreceive .refl (invokeEndpointRecv_cases hk)
      · cases hk
        exact .messages .refl
  | nbrecv =>
    simp only [opSyscallOn] at hk
    split at hk
    · cases hk
      exact .messages .refl
    · exact hreceive .refl (invokeEndpointNbrecv_cases hk)
  | replyrecv =>
    simp only [opSyscallOn] at hk
    split at hk
    · cases hk
      exact .messages .refl
    · simp only [invokeReplyRecv, bind_eq_ok] at hk
      obtain ⟨k₁, hreply, hk⟩ := hk
      exact hreceive (invokeReply_messages hreply) (invokeEndpointRecv_cases hk)
  | exit | debugWrite | yield | reply =>
    cases hk
    exact .messages .refl

/-- A system call sends messages, or it is one on a capability. -/
theorem doSyscall_steps {P : Platform} {fuel : Nat} {f : Frame}
    (hk : doSyscall P fuel k f.rdi f.rsi (f.rax.setWidth 32) = .ok k') :
    Messages k k' ∨ ∃ slot number k₂, Asks k f number slot ∧
      CapCall P fuel k slot f.tag k₂ number ∧ Updates k₂ k' := by
  simp only [doSyscall, bind_eq_ok] at hk
  obtain ⟨⟨tag, k₂⟩, hop, hk⟩ := hk
  have hresult : Updates k₂ k' := by
    split at hk
    · cases hk
      exact .refl
    · simp only [bind_eq_ok] at hk
      obtain ⟨this, -, hset⟩ := hk
      exact setIpcResult_updates hset
  unfold opSyscall at hop
  dsimp only at hop
  split at hop
  · rename_i x hx
    obtain ⟨number, -, hplain⟩ := Option.bind_eq_some_iff.mp hx
    exact .inl ((opSyscallPlain_messages hplain hop).trans (Updates.messages hresult))
  · simp only [bind_eq_ok] at hop
    obtain ⟨this, hthis, found, hfound, hop⟩ := hop
    cases found with
    | error e => exact .inl (Updates.messages ((answer_updates hop).trans hresult))
    | ok slot =>
      cases hnumber : SyscallNumber.ofInt? (f.rax.setWidth 32) with
      | none =>
        rw [hnumber] at hop
        cases hop
        exact .inl (Updates.messages hresult)
      | some number =>
        rw [hnumber] at hop
        exact .inr ⟨slot, number, k₂, ⟨hnumber, this, (deref_eq_ok _ _).mp hthis, hfound⟩,
          opSyscallOn_capCall hop, hresult⟩

/-- A system call is a sequence of effects, or a method and the delivery of its
answer. -/
theorem doSyscall_cases {P : Platform} {fuel : Nat} {f : Frame}
    (hk : doSyscall P fuel k f.rdi f.rsi (f.rax.setWidth 32) = .ok k') :
    Effects k k' ∨ ∃ slot m mr cap r k₁, Handles k (.syscall f) slot m mr cap ∧
      invokeMethod P fuel k slot mr cap m = .ok (r, k₁) ∧ Updates k₁ k' := by
  rcases doSyscall_steps hk with hmessages | ⟨slot, number, k₂, hasks, hcall, hresult⟩
  · exact .inl (Messages.effects hmessages)
  · cases hcall with
    | messages h => exact .inl ((Messages.effects h).trans (Updates.effects hresult))
    | receives h hpending =>
      have hreceive := handleRecvWithPendingNotification_effects hpending
      exact .inl ((Messages.effects h).trans (hreceive.trans (Updates.effects hresult)))
    | signals _ h => exact .inl ((notificationSignal_effects h).trans (Updates.effects hresult))
    | waits _ h => exact .inl ((invokeNotificationRecv_effects h).trans (Updates.effects hresult))
    | method hdispatch hanswer =>
      rcases dispatchMethod_cases hdispatch with ⟨rfl, -⟩ | ⟨m, mr, cap, hadmitted, hinvoke⟩
      · exact .inl (Updates.effects (hanswer.trans hresult))
      · exact .inr ⟨slot, m, mr, cap, _, _, ⟨f, rfl, hasks, hadmitted⟩, hinvoke,
          hanswer.trans hresult⟩

theorem handleInterrupt_effects {P : Platform} {f : Frame}
    (hk : handleInterrupt P k f = .ok k') : Effects k k' := by
  unfold handleInterrupt at hk
  split at hk
  · unfold handleIrq at hk
    dsimp only at hk
    split at hk
    · cases hk
      exact .refl
    · split at hk
      · cases hk
        exact .refl
      · exact .head (.interrupts _ _) (notificationSignal_effects hk)
  · split at hk
    · cases hk
      exact .refl
    · cases hk

/-- Everything an entry can do: effects after the frame is saved, or one method
between the saving of the frame and the delivery of the answer. -/
theorem Entry.handle_cases {P : Platform} {fuel : Nat} {e : Entry}
    (hk : e.handle P fuel k = .ok k') :
    Effects (saveFrameOnTcb k e.frame) k' ∨ ∃ slot m mr cap r k₁, Handles k e slot m mr cap ∧
      invokeMethod P fuel (saveFrameOnTcb k e.frame) slot mr cap m = .ok (r, k₁) ∧
      Updates k₁ k' := by
  cases e with
  | syscall f =>
    rcases doSyscall_cases hk with heffects | ⟨slot, m, mr, cap, r, k₁, hhandles, hinvoke, hanswer⟩
    · exact .inl heffects
    · exact .inr ⟨slot, m, mr, cap, r, k₁, handles_saveFrame.mp hhandles, hinvoke, hanswer⟩
  | interrupt f => exact .inl (handleInterrupt_effects hk)

/-- A call that gets past the dispatcher's checks executes the method and delivers
its answer. -/
theorem doSyscall_answers {P : Platform} {fuel : Nat} {f : Frame} {slot : Word} {m : Method}
    {mr cap : Nat → Word} (h : Handles k (.syscall f) slot m mr cap)
    (hk : doSyscall P fuel k f.rdi f.rsi (f.rax.setWidth 32) = .ok k') :
    ∃ r k₁ tag k₂, invokeMethod P fuel k slot mr cap m = .ok (r, k₁) ∧
      answer k₁ r = .ok (tag, k₂) ∧ (k' = k₂ ∨ ∃ t, setIpcResult k₂ t tag = .ok k') := by
  obtain ⟨_, hf, ⟨hnumber, t, ht, hslot⟩, hm⟩ := h
  cases hf
  have hne : (k.slots slot).cap.type ≠ .endpoint := by
    rw [hm.type]
    cases m <;> decide
  have hcall : SyscallNumber.ofInt? (f.rax.setWidth 32) = some .call := hnumber
  simp only [doSyscall, opSyscall, hcall, Option.bind_some, opSyscallPlain, bind_eq_ok] at hk
  obtain ⟨⟨tag, k₂⟩, ⟨this, hthis, found, hfound, hop⟩, hk⟩ := hk
  cases ht.symm.trans ((deref_eq_ok _ _).mp hthis)
  cases hslot.symm.trans hfound
  simp only [opSyscallOn, ne_eq, hne, not_false_eq_true, if_true, bind_eq_ok] at hop
  obtain ⟨⟨r, k₁⟩, hdispatch, hanswer⟩ := hop
  refine ⟨r, k₁, tag, k₂, (dispatchMethod_of_admitted hm).symm.trans hdispatch, hanswer, ?_⟩
  split at hk
  · cases hk
    exact .inl rfl
  · simp only [bind_eq_ok] at hk
    obtain ⟨this, -, hset⟩ := hk
    exact .inr ⟨this, hset⟩

end Tern
