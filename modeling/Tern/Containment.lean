import Tern.Ports

/-! What a kernel entry leaves alone. Messages, signals and waits write states, queues,
buffers, capability slots and the RAX of threads; registers otherwise, address spaces,
page tables, ports and the processor's bases are only written by the methods that are
for it and by the switch at the end of an entry. -/

namespace Tern

/-- The registers of a frame but RAX. -/
def Frame.context (f : Frame) : Frame := { f with rax := 0#64 }

/-- A TCB without what messages write. -/
def Tcb.fixed (c : Tcb) : Tcb :=
  { c with
    state := .runnable
    endpointBadge := 0#64
    expectsReply := false
    replyTo := none
    savedState := c.savedState.context
    currentUserFrame := c.currentUserFrame.map Frame.context }

/-- The parts of the state that messages, signals and waits leave alone; the badge of a
pending message is written by its sender. -/
structure Spares (k k' : Kernel) : Prop where
  tcbs : ∀ t, (k'.tcbs t).fixed = (k.tcbs t).fixed
  badge : ∀ t, k.currentTcb ≠ some t → (k'.tcbs t).endpointBadge = (k.tcbs t).endpointBadge
  current : k'.currentTcb = k.currentTcb
  vmRoot : k'.vmRoot = k.vmRoot
  tlsBase : k'.tlsBase = k.tlsBase
  memory : k'.memory = k.memory
  userFrames : k'.userFrames = k.userFrames
  portAccesses : k'.portAccesses = k.portAccesses

namespace Spares

variable {k k' k'' : Kernel}

theorem of_tcbs (htcbs : k'.tcbs = k.tcbs) (hcurrent : k'.currentTcb = k.currentTcb)
    (hroot : k'.vmRoot = k.vmRoot) (htls : k'.tlsBase = k.tlsBase) (hmemory : k'.memory = k.memory)
    (hframes : k'.userFrames = k.userFrames) (hports : k'.portAccesses = k.portAccesses) :
    Spares k k' :=
  ⟨fun _ => by rw [htcbs], fun _ _ => by rw [htcbs], hcurrent, hroot, htls, hmemory, hframes, hports⟩

theorem refl (k : Kernel) : Spares k k := .of_tcbs rfl rfl rfl rfl rfl rfl rfl

theorem trans (h : Spares k k') (h' : Spares k' k'') : Spares k k'' where
  tcbs t := (h'.tcbs t).trans (h.tcbs t)
  badge t ht := (h'.badge t (h.current ▸ ht)).trans (h.badge t ht)
  current := h'.current.trans h.current
  vmRoot := h'.vmRoot.trans h.vmRoot
  tlsBase := h'.tlsBase.trans h.tlsBase
  memory := h'.memory.trans h.memory
  userFrames := h'.userFrames.trans h.userFrames
  portAccesses := h'.portAccesses.trans h.portAccesses

/-- A change to the other fields of one TCB. -/
theorem modifyTcb (k : Kernel) (t : Word) (f : Tcb → Tcb)
    (hf : (f (k.tcbs t)).fixed = (k.tcbs t).fixed)
    (hbadge : (f (k.tcbs t)).endpointBadge = (k.tcbs t).endpointBadge) :
    Spares k (k.modifyTcb t f) := by
  refine ⟨fun x => ?_, fun x _ => ?_, rfl, rfl, rfl, rfl, rfl, rfl⟩ <;>
    rw [Kernel.modifyTcb_tcbs] <;> split
  · next e => rw [e, hf]
  · rfl
  · next e => rw [e, hbadge]
  · rfl

theorem setState (k : Kernel) (t : Word) (state : TaskState) : Spares k (k.setState t state) :=
  .modifyTcb k t _ rfl rfl

theorem withNodes (k : Kernel) (nodes : Lists Node) : Spares k (k.withNodes nodes) :=
  .of_tcbs rfl rfl rfl rfl rfl rfl rfl

theorem noted (k : Kernel) (e : Event) : Spares k (k.noted e) :=
  .of_tcbs rfl rfl rfl rfl rfl rfl rfl

end Spares

variable {k k' : Kernel} {t : Word} {tag tag' : MessageTag}

/-! ## Threads -/

theorem setIpcResult_spares (hk : setIpcResult k t tag = .ok k') : Spares k k' := by
  simp only [setIpcResult, ipcFrame, bind_eq_ok, pure_eq_ok] at hk
  obtain ⟨f, hf, rfl⟩ := hk
  by_cases hcurrent : k.currentTcb = some t
  · rw [if_pos hcurrent] at hf ⊢
    cases hlive : (k.tcbs t).currentUserFrame with
    | none =>
      rw [hlive] at hf
      cases hf
    | some g =>
      rw [hlive] at hf
      cases hf
      exact .modifyTcb k t _ (by simp [Tcb.fixed, hlive, Frame.context]) rfl
  · rw [if_neg hcurrent] at hf ⊢
    cases hf
    exact .modifyTcb k t _ rfl rfl

theorem setMrs_spares {l : List Word} {k : Kernel} {i : Nat} (hk : setMrs k i l = .ok k') :
    Spares k k' := by
  induction l generalizing k i with
  | nil =>
    cases hk
    exact .refl _
  | cons w l ih =>
    simp only [setMrs, setMr, bind_eq_ok, pure_eq_ok] at hk
    obtain ⟨_, ⟨p, -, rfl⟩, hk⟩ := hk
    have hrest := ih hk
    refine Spares.trans ?_ hrest
    exact .of_tcbs rfl rfl rfl rfl rfl rfl rfl

theorem answer_spares {r : Reply} (hk : answer k r = .ok (tag, k')) : Spares k k' := by
  simp only [answer, bind_eq_ok, pure_eq_ok, Prod.mk.injEq] at hk
  obtain ⟨_, hset, -, rfl⟩ := hk
  exact setMrs_spares hset

theorem scheduleTcb_spares (hk : scheduleTcb k t = .ok k') : Spares k k' := by
  simp only [scheduleTcb, bind_eq_ok, pure_eq_ok] at hk
  obtain ⟨-, -, nodes, -, rfl⟩ := hk
  exact (Spares.setState k t .runnable).trans ((Spares.withNodes _ nodes).trans (.noted _ _))

theorem switchTcb_spares (k : Kernel) (t : Word) : Spares k (switchTcb k t) :=
  (Spares.setState k t .runnable).trans (.of_tcbs rfl rfl rfl rfl rfl rfl rfl)

theorem pickNextTcb_spares {next : Option Word} (hk : pickNextTcb k = .ok (next, k')) :
    Spares k k' := by
  unfold pickNextTcb at hk
  split at hk
  · cases hk
    exact .refl k
  · simp only [bind_eq_ok, pure_eq_ok, Prod.mk.injEq] at hk
    obtain ⟨⟨_, nodes⟩, -, -, -, -, rfl⟩ := hk
    exact .withNodes k nodes

theorem schedule_spares (hk : schedule k = .ok k') : Spares k k' := by
  simp only [schedule, bind_eq_ok] at hk
  obtain ⟨⟨next, k₁⟩, hpick, hk⟩ := hk
  have hpicked := pickNextTcb_spares hpick
  cases next with
  | none =>
    dsimp only at hk
    split at hk <;> cases hk
    · exact hpicked
    · exact hpicked.trans (.of_tcbs rfl rfl rfl rfl rfl rfl rfl)
  | some t =>
    cases hk
    exact hpicked.trans (switchTcb_spares k₁ t)

theorem killTcb_spares (hk : killTcb k t = .ok k') : Spares k k' := by
  simp only [killTcb, bind_eq_ok, pure_eq_ok] at hk
  obtain ⟨-, -, rfl⟩ := hk
  exact .setState k t .dead

/-! ## Messages -/

theorem transferCap_spares {s r sbuf buf : Word}
    (hk : transferCap k s r sbuf buf tag = .ok (tag', k')) : Spares k k' := by
  unfold transferCap at hk
  split at hk
  · cases hk
    exact .refl k
  · simp only [bind_eq_ok] at hk
    obtain ⟨x, -, hk⟩ := hk
    cases x with
    | error e =>
      cases hk
      exact .refl k
    | ok cap =>
      simp only [bind_eq_ok] at hk
      obtain ⟨y, -, hk⟩ := hk
      cases y with
      | error e =>
        cases hk
        exact .refl k
      | ok recvSlot =>
        cases hk
        exact .of_tcbs rfl rfl rfl rfl rfl rfl rfl

theorem setReplyTo_spares (k : Kernel) (s r : Word) : Spares k (setReplyTo k s r) := by
  unfold setReplyTo
  split
  · exact .modifyTcb k r _ rfl rfl
  · exact .refl k

theorem setExpectsReply_spares (k : Kernel) (t : Word) (expects : Bool) :
    Spares k (setExpectsReply k t expects) :=
  .modifyTcb k t _ rfl rfl

theorem transferMessage_spares {s r b : Word}
    (hk : transferMessage k s r b tag = .ok (tag', k')) : Spares k k' := by
  simp only [transferMessage, bind_eq_ok, pure_eq_ok] at hk
  obtain ⟨buf, -, sbuf, -, ⟨tag₁, k₁⟩, hcap, k₂, hset, heq⟩ := hk
  obtain ⟨-, rfl⟩ := Prod.mk.inj heq
  have hresult := (setReplyTo_spares k₁ s r).trans (setIpcResult_spares hset)
  refine Spares.trans ?_ ((transferCap_spares hcap).trans hresult)
  exact .of_tcbs rfl rfl rfl rfl rfl rfl rfl

theorem sendMessageDirectly_spares {r b : Word} {now : Bool}
    (hk : sendMessageDirectly k r b tag now = .ok k') : Spares k k' := by
  simp only [sendMessageDirectly, bind_eq_ok] at hk
  obtain ⟨-, -, this, -, -, -, ⟨_, k₁⟩, htransfer, hk⟩ := hk
  have hmessage := transferMessage_spares htransfer
  split at hk
  · cases hk
    exact hmessage.trans (switchTcb_spares k₁ r)
  · exact hmessage.trans (scheduleTcb_spares hk)

theorem sendMessageToBlockedReceiver_spares {e b : Word} {now : Bool}
    (hk : sendMessageToBlockedReceiver k e b tag now = .ok k') : Spares k k' := by
  simp only [sendMessageToBlockedReceiver, bind_eq_ok] at hk
  obtain ⟨this, -, ⟨next, nodes⟩, -, receiver, -, hk⟩ := hk
  refine (Spares.withNodes k nodes).trans ?_
  exact (Spares.noted _ _).trans (sendMessageDirectly_spares hk)

theorem queueMessageOnEndpoint_spares {e b : Word} {isCall : Bool}
    (hk : queueMessageOnEndpoint k e b tag isCall = .ok k') : Spares k k' := by
  simp only [queueMessageOnEndpoint, bind_eq_ok] at hk
  obtain ⟨this, hthis, -, -, -, -, nodes, -, hk⟩ := hk
  have hstate := (Spares.withNodes k nodes).trans
    (.setState _ this (if isCall then .calling else .sending))
  -- the badge is written, but that of the current thread
  have hbadge : ∀ k₁ : Kernel, k₁.currentTcb = some this →
      Spares k₁ (k₁.modifyTcb this fun c => { c with endpointBadge := b }) := by
    intro k₁ hcurrent
    refine ⟨fun x => ?_, fun x hx => ?_, rfl, rfl, rfl, rfl, rfl, rfl⟩ <;>
      rw [Kernel.modifyTcb_tcbs] <;> split
    · next e => rw [e]; rfl
    · rfl
    · next e => exact absurd (hcurrent.trans (congrArg some e.symm)) hx
    · rfl
  refine hstate.trans (Spares.trans (hbadge _ ?_) (schedule_spares hk))
  exact (deref_eq_ok _ _).mp hthis

theorem settleSender_spares {s r : Word} (hk : settleSender k s r = .ok k') : Spares k k' := by
  unfold settleSender at hk
  split at hk
  · cases hk
    exact .modifyTcb k r _ rfl rfl
  · exact scheduleTcb_spares hk

theorem receiveMessageFromBlockedSender_spares {e : Word}
    (hk : receiveMessageFromBlockedSender k e = .ok (tag, k')) : Spares k k' := by
  simp only [receiveMessageFromBlockedSender, bind_eq_ok, pure_eq_ok, Prod.mk.injEq] at hk
  obtain ⟨this, -, ⟨next, nodes⟩, -, sender, -, info, -, ⟨result, k₁⟩, htransfer, k₂, hsettle, -,
    rfl⟩ := hk
  refine Spares.trans ?_ ((transferMessage_spares htransfer).trans (settleSender_spares hsettle))
  exact (Spares.withNodes k nodes).trans (.noted _ _)

/-- Both ways to block as a receiver. -/
theorem blockReceiver_spares {this : Word} {nodes : Lists Node}
    (hk : schedule ((k.withNodes nodes).setState this .receiving) = .ok k') : Spares k k' :=
  (Spares.withNodes k nodes).trans ((Spares.setState _ this _).trans (schedule_spares hk))

theorem queueReceiverOnEndpoint_spares {e : Word}
    (hk : queueReceiverOnEndpoint k e = .ok (tag, k')) : Spares k k' := by
  simp only [queueReceiverOnEndpoint, bind_eq_ok, pure_eq_ok, Prod.mk.injEq] at hk
  obtain ⟨this, -, nodes, -, k₁, hschedule, -, rfl⟩ := hk
  exact blockReceiver_spares hschedule

theorem endpointSend_spares {e b : Word} {isCall : Bool}
    (hk : endpointSend k e b tag isCall = .ok k') : Spares k k' := by
  simp only [endpointSend, bind_eq_ok] at hk
  obtain ⟨block, -, hk⟩ := hk
  cases block with
  | true => exact queueMessageOnEndpoint_spares hk
  | false => exact sendMessageToBlockedReceiver_spares hk

theorem endpointRecv_spares {e : Word} (hk : endpointRecv k e = .ok (tag, k')) :
    Spares k k' := by
  simp only [endpointRecv, bind_eq_ok] at hk
  obtain ⟨block, -, hk⟩ := hk
  cases block with
  | true => exact queueReceiverOnEndpoint_spares hk
  | false => exact receiveMessageFromBlockedSender_spares hk

theorem endpointNbrecv_spares {e : Word} (hk : endpointNbrecv k e = .ok (tag, k')) :
    Spares k k' := by
  simp only [endpointNbrecv, bind_eq_ok] at hk
  obtain ⟨block, -, hk⟩ := hk
  cases block with
  | true =>
    cases hk
    exact .refl k
  | false => exact receiveMessageFromBlockedSender_spares hk

theorem invokeEndpointSend_spares {cap : Word} (hk : invokeEndpointSend k cap tag = .ok k') :
    Spares k k' := by
  simp only [invokeEndpointSend, bind_eq_ok] at hk
  obtain ⟨-, -, this, -, hk⟩ := hk
  exact (setExpectsReply_spares k this false).trans (endpointSend_spares hk)

theorem invokeEndpointCall_spares {cap : Word} (hk : invokeEndpointCall k cap tag = .ok k') :
    Spares k k' := by
  simp only [invokeEndpointCall, bind_eq_ok] at hk
  obtain ⟨-, -, this, -, hk⟩ := hk
  refine (setExpectsReply_spares k this true).trans ((Spares.setState _ this .calling).trans ?_)
  exact (Spares.noted _ _).trans (endpointSend_spares hk)

theorem invokeReply_spares (hk : invokeReply k tag = .ok k') : Spares k k' := by
  simp only [invokeReply, bind_eq_ok] at hk
  obtain ⟨this, -, hk⟩ := hk
  split at hk
  · cases hk
  · split at hk
    · cases hk
    · exact (Spares.noted _ _).trans (sendMessageDirectly_spares hk)

/-! ## Notifications -/

theorem handleRecvWithPendingNotification_spares
    (hk : handleRecvWithPendingNotification k = .ok (some k')) : Spares k k' := by
  simp only [handleRecvWithPendingNotification, bind_eq_ok] at hk
  obtain ⟨this, -, hk⟩ := hk
  split at hk
  · cases hk
  · split at hk
    · cases hk
    · simp only [bind_eq_ok, pure_eq_ok, Option.some.injEq] at hk
      obtain ⟨buffer, -, rfl⟩ := hk
      exact .of_tcbs rfl rfl rfl rfl rfl rfl rfl

theorem signalWaitingReceiver_spares {n r b : Word}
    (hk : signalWaitingReceiver k n r b = .ok k') : Spares k k' := by
  simp only [signalWaitingReceiver, bind_eq_ok, pure_eq_ok] at hk
  obtain ⟨k₁, hset, buffer, -, rfl⟩ := hk
  refine (setIpcResult_spares hset).trans (.trans ?_ (switchTcb_spares _ r))
  exact .of_tcbs rfl rfl rfl rfl rfl rfl rfl

theorem notificationSignal_spares {n b : Word} (hk : notificationSignal k n b = .ok k') :
    Spares k k' := by
  have hword : ∀ k₁ k₂ : Kernel, k₁ = { k with
      notifications := k₁.notifications, signals := k₁.signals, nodes := k₁.nodes } →
      Spares k₁ k₂ → Spares k k₂ := by
    intro k₁ k₂ heq h
    refine .trans ?_ h
    rw [heq]
    exact .of_tcbs rfl rfl rfl rfl rfl rfl rfl
  unfold notificationSignal at hk
  dsimp only at hk
  split at hk
  · split at hk
    · simp only [signalBoundReceiverWaitingOnSomethingElse, bind_eq_ok] at hk
      obtain ⟨nodes, -, hk⟩ := hk
      exact hword _ _ rfl (signalWaitingReceiver_spares hk)
    · cases hk
      exact .of_tcbs rfl rfl rfl rfl rfl rfl rfl
  · simp only [bind_eq_ok] at hk
    obtain ⟨first, -, t, -, nodes, -, hk⟩ := hk
    exact hword _ _ rfl (signalWaitingReceiver_spares hk)

theorem killIfBoundToOther_spares {n this : Word}
    (hk : killIfBoundToOther k n this = .ok k') : Spares k k' := by
  unfold killIfBoundToOther at hk
  dsimp only at hk
  split at hk
  · simp only [bind_eq_ok] at hk
    obtain ⟨k₁, hkill, hk⟩ := hk
    exact (killTcb_spares hkill).trans (schedule_spares hk)
  · cases hk
    exact .refl k

theorem invokeNotificationRecv_spares {cap : Word}
    (hk : invokeNotificationRecv k cap = .ok (tag, k')) : Spares k k' := by
  simp only [invokeNotificationRecv, bind_eq_ok] at hk
  obtain ⟨-, -, this, -, k₁, hkill, hk⟩ := hk
  refine (killIfBoundToOther_spares hkill).trans ?_
  split at hk
  · simp only [queueReceiverOnNotification, bind_eq_ok, pure_eq_ok, Prod.mk.injEq] at hk
    obtain ⟨this, -, nodes, -, k₂, hschedule, -, rfl⟩ := hk
    exact blockReceiver_spares hschedule
  · cases hk
    exact .of_tcbs rfl rfl rfl rfl rfl rfl rfl

/-! ## System calls and interrupts -/

theorem invokeEndpointRecv_spares {cap : Word} (hk : invokeEndpointRecv k cap = .ok (tag, k')) :
    Spares k k' := by
  simp only [invokeEndpointRecv, bind_eq_ok] at hk
  obtain ⟨-, -, pending, hpending, hk⟩ := hk
  cases pending with
  | none => exact endpointRecv_spares hk
  | some k₁ =>
    cases hk
    exact handleRecvWithPendingNotification_spares hpending

theorem invokeEndpointNbrecv_spares {cap : Word}
    (hk : invokeEndpointNbrecv k cap = .ok (tag, k')) : Spares k k' := by
  simp only [invokeEndpointNbrecv, bind_eq_ok] at hk
  obtain ⟨-, -, pending, hpending, hk⟩ := hk
  cases pending with
  | none => exact endpointNbrecv_spares hk
  | some k₁ =>
    cases hk
    exact handleRecvWithPendingNotification_spares hpending

theorem opSyscallPlain_spares {info : MessageTag} {number : SyscallNumber}
    {x : Result (MessageTag × Kernel)} (hx : opSyscallPlain k info number = some x)
    (hk : x = .ok (tag, k')) : Spares k k' := by
  subst hk
  cases number <;> simp only [opSyscallPlain, reduceCtorEq, Option.some.injEq] at hx
  case exit =>
    simp only [bind_eq_ok, pure_eq_ok, Prod.mk.injEq] at hx
    obtain ⟨this, -, k₁, hkill, k₂, hschedule, -, rfl⟩ := hx
    exact (killTcb_spares hkill).trans (schedule_spares hschedule)
  case debugWrite =>
    cases hx
    exact .refl k
  case yield =>
    simp only [bind_eq_ok, pure_eq_ok, Prod.mk.injEq] at hx
    obtain ⟨k₁, hschedule, -, rfl⟩ := hx
    exact schedule_spares hschedule
  case reply =>
    simp only [bind_eq_ok, pure_eq_ok, Prod.mk.injEq] at hx
    obtain ⟨k₁, hreply, -, rfl⟩ := hx
    exact invokeReply_spares hreply

/-- On a capability, a system call keeps within these bounds or it dispatches a method. -/
theorem opSyscallOn_spares {P : Platform} {fuel : Nat} {slot : Word} {info : MessageTag}
    {number : Option SyscallNumber} (hk : opSyscallOn P fuel k slot info number = .ok (tag, k')) :
    Spares k k' ∨ number = some .call ∧ ∃ r k₁,
      dispatchMethod P fuel k slot info = .ok (r, k₁) ∧ Spares k₁ k' := by
  rcases number with _ | number
  · cases hk
    exact .inl (.refl k)
  cases number with
  | call =>
    simp only [opSyscallOn] at hk
    split at hk
    · simp only [bind_eq_ok] at hk
      obtain ⟨⟨r, k₁⟩, hdispatch, hanswer⟩ := hk
      exact .inr ⟨rfl, r, k₁, hdispatch, answer_spares hanswer⟩
    · simp only [bind_eq_ok, pure_eq_ok, Prod.mk.injEq] at hk
      obtain ⟨k₁, hcall, -, rfl⟩ := hk
      exact .inl (invokeEndpointCall_spares hcall)
  | send =>
    simp only [opSyscallOn] at hk
    split at hk
    · simp only [invokeNotificationSend, bind_eq_ok, pure_eq_ok, Prod.mk.injEq] at hk
      obtain ⟨k₁, ⟨-, -, hsend⟩, -, rfl⟩ := hk
      exact .inl (notificationSignal_spares hsend)
    · split at hk
      · simp only [bind_eq_ok, pure_eq_ok, Prod.mk.injEq] at hk
        obtain ⟨k₁, hsend, -, rfl⟩ := hk
        exact .inl (invokeEndpointSend_spares hsend)
      · cases hk
        exact .inl (.refl k)
  | nbsend =>
    simp only [opSyscallOn] at hk
    split at hk
    · cases hk
      exact .inl (.refl k)
    · cases hk
  | recv =>
    simp only [opSyscallOn] at hk
    split at hk
    · exact .inl (invokeNotificationRecv_spares hk)
    · split at hk
      · exact .inl (invokeEndpointRecv_spares hk)
      · cases hk
        exact .inl (.refl k)
  | nbrecv =>
    simp only [opSyscallOn] at hk
    split at hk
    · cases hk
      exact .inl (.refl k)
    · exact .inl (invokeEndpointNbrecv_spares hk)
  | replyrecv =>
    simp only [opSyscallOn] at hk
    split at hk
    · cases hk
      exact .inl (.refl k)
    · simp only [invokeReplyRecv, bind_eq_ok] at hk
      obtain ⟨k₁, hreply, hk⟩ := hk
      exact .inl ((invokeReply_spares hreply).trans (invokeEndpointRecv_spares hk))
  | exit | debugWrite | yield | reply =>
    cases hk
    exact .inl (.refl k)

theorem doSyscall_spares {P : Platform} {fuel : Nat} {f : Frame}
    (hk : doSyscall P fuel k f.rdi f.rsi (f.rax.setWidth 32) = .ok k') :
    Spares k k' ∨ ∃ slot m mr cap r k₁, Handles k (.syscall f) slot m mr cap ∧
      invokeMethod P fuel k slot mr cap m = .ok (r, k₁) ∧ Spares k₁ k' := by
  simp only [doSyscall, bind_eq_ok] at hk
  obtain ⟨⟨tag, k₂⟩, hop, hk⟩ := hk
  have hresult : Spares k₂ k' := by
    split at hk
    · cases hk
      exact .refl k₂
    · simp only [bind_eq_ok] at hk
      obtain ⟨this, -, hset⟩ := hk
      exact setIpcResult_spares hset
  unfold opSyscall at hop
  dsimp only at hop
  split at hop
  · rename_i x hx
    obtain ⟨number, -, hplain⟩ := Option.bind_eq_some_iff.mp hx
    exact .inl ((opSyscallPlain_spares hplain hop).trans hresult)
  · simp only [bind_eq_ok] at hop
    obtain ⟨this, hthis, found, hfound, hop⟩ := hop
    cases found with
    | error e => exact .inl ((answer_spares hop).trans hresult)
    | ok slot =>
      rcases opSyscallOn_spares hop with h | ⟨hnumber, r, k₁, hdispatch, hanswer⟩
      · exact .inl (h.trans hresult)
      · have hasks : Asks k f .call slot :=
          ⟨hnumber, this, (deref_eq_ok _ _).mp hthis, hfound⟩
        rcases dispatchMethod_cases hdispatch with ⟨rfl, -⟩ | ⟨m, mr, cap, hadmitted, hinvoke⟩
        · exact .inl (hanswer.trans hresult)
        · exact .inr ⟨slot, m, mr, cap, r, k₁, ⟨f, rfl, hasks, hadmitted⟩, hinvoke,
            hanswer.trans hresult⟩

theorem handleInterrupt_spares {P : Platform} {f : Frame}
    (hk : handleInterrupt P k f = .ok k') : Spares k k' := by
  unfold handleInterrupt at hk
  split at hk
  · unfold handleIrq at hk
    dsimp only at hk
    split at hk
    · cases hk
      exact .refl k
    · split at hk
      · cases hk
        exact .refl k
      · refine Spares.trans ?_ (notificationSignal_spares hk)
        exact .of_tcbs rfl rfl rfl rfl rfl rfl rfl
  · split at hk
    · cases hk
      exact .refl k
    · cases hk

/-- Everything an entry can do before it returns: nothing outside of its bounds, or one
method in between. -/
theorem Entry.handle_spares {P : Platform} {fuel : Nat} {e : Entry}
    (hk : e.handle P fuel k = .ok k') :
    Spares (saveFrameOnTcb k e.frame) k' ∨ ∃ slot m mr cap r k₁, Handles k e slot m mr cap ∧
      invokeMethod P fuel (saveFrameOnTcb k e.frame) slot mr cap m = .ok (r, k₁) ∧
      Spares k₁ k' := by
  cases e with
  | syscall f =>
    rcases doSyscall_spares hk with h | ⟨slot, m, mr, cap, r, k₁, hhandles, hinvoke, hanswer⟩
    · exact .inl h
    · exact .inr ⟨slot, m, mr, cap, r, k₁, handles_saveFrame.mp hhandles, hinvoke, hanswer⟩
  | interrupt f => exact .inl (handleInterrupt_spares hk)

/-! ## Methods -/

/-- What a change of TCBs does not write, it leaves alone in all of them. -/
theorem modifyTcb_field {α : Type} (f : Tcb → Tcb) (g : Tcb → α) (hg : ∀ c, g (f c) = g c) (x : Word) :
    g ((k.modifyTcb t f).tcbs x) = g (k.tcbs x) := by
  rw [Kernel.modifyTcb_tcbs]
  split
  · next e => rw [e, hg]
  · rfl

/-- What a method on the object at `obj` writes of registers and bases. -/
structure MethodSpares (m : Method) (obj : Word) (k k' : Kernel) : Prop where
  live : ∀ t, (k'.tcbs t).currentUserFrame = (k.tcbs t).currentUserFrame
  badge : ∀ t, (k'.tcbs t).endpointBadge = (k.tcbs t).endpointBadge
  saved : ∀ t, m = .tcbWriteRegisters ∧ t = obj ∨ (k'.tcbs t).savedState = (k.tcbs t).savedState
  tls : ∀ t, m = .tcbSetTlsBase ∧ t = obj ∨ (k'.tcbs t).tlsBase = (k.tcbs t).tlsBase
  current : k'.currentTcb = k.currentTcb
  vmRoot : k'.vmRoot = k.vmRoot
  tlsBase : ∀ t, k.currentTcb = some t → k.tlsBase = (k.tcbs t).tlsBase →
    k'.tlsBase = (k'.tcbs t).tlsBase

namespace MethodSpares

variable {m : Method} {obj : Word}

theorem of_tcbs (htcbs : k'.tcbs = k.tcbs) (hcurrent : k'.currentTcb = k.currentTcb)
    (hroot : k'.vmRoot = k.vmRoot) (htls : k'.tlsBase = k.tlsBase) : MethodSpares m obj k k' :=
  ⟨fun _ => by rw [htcbs], fun _ => by rw [htcbs], fun _ => .inr (by rw [htcbs]),
    fun _ => .inr (by rw [htcbs]), hcurrent, hroot, fun t _ h => by rw [htcbs, htls, h]⟩

theorem congr {k₁ : Kernel} (h : MethodSpares m obj k k₁) (htcbs : k'.tcbs = k₁.tcbs)
    (hcurrent : k'.currentTcb = k₁.currentTcb) (hroot : k'.vmRoot = k₁.vmRoot)
    (htls : k'.tlsBase = k₁.tlsBase) : MethodSpares m obj k k' where
  live t := by rw [htcbs, h.live]
  badge t := by rw [htcbs, h.badge]
  saved t := by rw [htcbs]; exact h.saved t
  tls t := by rw [htcbs]; exact h.tls t
  current := hcurrent.trans h.current
  vmRoot := hroot.trans h.vmRoot
  tlsBase t ht hbase := by rw [htcbs, htls]; exact h.tlsBase t ht hbase

/-- A change to one TCB that leaves registers and bases alone. -/
theorem modifyTcb (t : Word) (f : Tcb → Tcb) (hlive : ∀ c, (f c).currentUserFrame = c.currentUserFrame)
    (hbadge : ∀ c, (f c).endpointBadge = c.endpointBadge)
    (hsaved : ∀ c, (f c).savedState = c.savedState) (htls : ∀ c, (f c).tlsBase = c.tlsBase) :
    MethodSpares m obj k (k.modifyTcb t f) :=
  ⟨modifyTcb_field f _ hlive, modifyTcb_field f _ hbadge,
    fun x => .inr (modifyTcb_field f _ hsaved x), fun x => .inr (modifyTcb_field f _ htls x), rfl, rfl,
    fun x _ h => h.trans (modifyTcb_field f _ htls x).symm⟩

theorem setState (t : Word) (state : TaskState) : MethodSpares m obj k (k.setState t state) :=
  .modifyTcb t _ (fun _ => rfl) (fun _ => rfl) (fun _ => rfl) (fun _ => rfl)

end MethodSpares

theorem mapEntry_bases (k : Kernel) (above : List (Word × Word)) (entry value : Word) :
    (mapEntry k above entry value).2.currentTcb = k.currentTcb ∧
      (mapEntry k above entry value).2.vmRoot = k.vmRoot ∧
      (mapEntry k above entry value).2.tlsBase = k.tlsBase := by
  unfold mapEntry
  split
  · exact ⟨rfl, rfl, rfl⟩
  · split <;> exact ⟨rfl, rfl, rfl⟩

theorem tcbWriteRegisters_spares (k : Kernel) (slot regs : Word) :
    MethodSpares .tcbWriteRegisters (capPtr (k.slots slot).cap) k
      (tcbWriteRegisters k slot regs).2 := by
  have hother : ∀ {α : Type} (g : Tcb → α), (∀ c f, g { c with savedState := f } = g c) →
      ∀ t, g ((tcbWriteRegisters k slot regs).2.tcbs t) = g (k.tcbs t) :=
    fun g hg => modifyTcb_field (fun c => { c with savedState := k.userFrames regs }) g fun c => hg c _
  refine ⟨hother _ fun _ _ => rfl, hother _ fun _ _ => rfl, fun t => ?_,
    fun t => .inr (hother _ (fun _ _ => rfl) t), rfl, rfl,
    fun t _ hbase => hbase.trans (hother _ (fun _ _ => rfl) t).symm⟩
  by_cases ht : t = capPtr (k.slots slot).cap
  · exact .inl ⟨rfl, ht⟩
  · exact .inr (by simp only [tcbWriteRegisters, Kernel.modifyTcb_tcbs, if_neg ht])

theorem tcbSetTlsBase_spares (k : Kernel) (slot base : Word) :
    MethodSpares .tcbSetTlsBase (capPtr (k.slots slot).cap) k (tcbSetTlsBase k slot base).2 := by
  unfold tcbSetTlsBase
  dsimp only
  set obj := capPtr (k.slots slot).cap with hobj
  have hwritten : MethodSpares .tcbSetTlsBase obj k
      { k.modifyTcb obj fun c => { c with tlsBase := base } with
        tlsBase := if k.currentTcb = some obj then base else k.tlsBase } := by
    have hother : ∀ {α : Type} (g : Tcb → α), (∀ c, g { c with tlsBase := base } = g c) →
        ∀ t, g ((k.modifyTcb obj fun c => { c with tlsBase := base }).tcbs t) = g (k.tcbs t) :=
      fun g hg => modifyTcb_field _ g hg
    refine ⟨hother _ fun _ => rfl, hother _ fun _ => rfl, fun t => .inr (hother _ (fun _ => rfl) t),
      fun t => ?_, rfl, rfl, fun t hcurrent hbase => ?_⟩
    · by_cases ht : t = obj
      · exact .inl ⟨rfl, ht⟩
      · exact .inr (by simp only [Kernel.modifyTcb_tcbs, if_neg ht])
    · -- the processor's base is written where the thread is the current one
      by_cases ht : t = obj
      · simp only [Kernel.modifyTcb_tcbs, if_pos ht, if_pos (ht ▸ hcurrent)]
      · have hne : k.currentTcb ≠ some obj := fun e => ht (Option.some.inj (hcurrent.symm.trans e))
        simp only [Kernel.modifyTcb_tcbs, if_neg ht, if_neg hne]
        exact hbase
  by_cases hcurrent : k.currentTcb = some obj
  · rw [if_pos hcurrent] at hwritten
    rw [if_pos (show (k.modifyTcb obj _).currentTcb = some obj from hcurrent)]
    exact hwritten
  · rw [if_neg hcurrent] at hwritten
    rw [if_neg (show ¬ (k.modifyTcb obj _).currentTcb = some obj from hcurrent)]
    exact hwritten

/-- Each method writes no more registers and bases than those it is for. -/
theorem invokeMethod_spares {P : Platform} {fuel : Nat} {slot : Word} {mr cap : Nat → Word}
    {m : Method} {r : Reply} (hm : m ≠ .untypedRetype)
    (h : invokeMethod P fuel k slot mr cap m = .ok (r, k')) :
    MethodSpares m (capPtr (k.slots slot).cap) k k' := by
  cases m <;> simp only [invokeMethod] at h
  case untypedRetype => exact absurd rfl hm
  case cnodeCopy | cnodeDelete | cnodeMint | cnodeRevoke | cnodeDebugGet | ioPortControlIssue =>
    simp only [onSlots, bind_eq_ok, pure_eq_ok, Prod.mk.injEq] at h
    obtain ⟨-, -, -, rfl⟩ := h
    exact .of_tcbs rfl rfl rfl rfl
  case cnodeDebugPrint | tcbSetName | tcbReadRegisters | irqHandlerAck | irqHandlerClear |
      irqHandlerSetNotification =>
    cases h
    exact .of_tcbs rfl rfl rfl rfl
  case tcbResume =>
    simp only [tcbResume, scheduleTcb, bind_eq_ok, pure_eq_ok, Prod.mk.injEq] at h
    obtain ⟨_, ⟨-, -, nodes, -, rfl⟩, -, rfl⟩ := h
    exact (MethodSpares.setState (capPtr (k.slots slot).cap) .runnable).congr rfl rfl rfl rfl
  case tcbSuspend =>
    simp only [tcbSuspend, suspendTcb, bind_eq_ok, pure_eq_ok, Prod.mk.injEq] at h
    obtain ⟨_, ⟨nodes, -, rfl⟩, -, rfl⟩ := h
    exact (MethodSpares.setState (capPtr (k.slots slot).cap) .suspended).congr rfl rfl rfl rfl
  case tcbConfigure =>
    cases h
    have hbuffer : ∀ b, MethodSpares .tcbConfigure (capPtr (k.slots slot).cap) k
        (k.modifyTcb (capPtr (k.slots slot).cap) fun c => { c with ipcBuffer := b }) :=
      fun b => .modifyTcb _ _ (fun _ => rfl) (fun _ => rfl) (fun _ => rfl) (fun _ => rfl)
    exact (hbuffer _).congr rfl rfl rfl rfl
  case tcbSetDebug =>
    cases h
    exact .modifyTcb _ _ (fun _ => rfl) (fun _ => rfl) (fun _ => rfl) (fun _ => rfl)
  case tcbWriteRegisters =>
    obtain rfl := congrArg Prod.snd (Except.ok.inj h)
    exact tcbWriteRegisters_spares k slot (mr 3)
  case tcbSetTlsBase =>
    obtain rfl := congrArg Prod.snd (Except.ok.inj h)
    exact tcbSetTlsBase_spares k slot (mr 0)
  case tcbBindNotification =>
    simp only [Except.ok.injEq, tcbBindNotification] at h
    split at h
    · cases h
      exact .of_tcbs rfl rfl rfl rfl
    · split at h
      · cases h
        exact .of_tcbs rfl rfl rfl rfl
      · have hbind : ∀ n, MethodSpares .tcbBindNotification (capPtr (k.slots slot).cap) k
            (k.modifyTcb (capPtr (k.slots slot).cap) fun c => { c with boundNotification := n }) :=
          fun n => .modifyTcb _ _ (fun _ => rfl) (fun _ => rfl) (fun _ => rfl) (fun _ => rfl)
        cases h
        exact (hbind _).congr rfl rfl rfl rfl
  case ioPortIn8 | ioPortIn16 | ioPortIn32 | ioPortOut8 | ioPortOut16 | ioPortOut32 =>
    simp only [Except.ok.injEq, ioPortIn, ioPortOut] at h
    split at h <;> cases h <;> exact .of_tcbs rfl rfl rfl rfl
  case pdptMap | pdMap | ptMap | pageMap | hugePageMap =>
    obtain rfl := congrArg Prod.snd (Except.ok.inj h)
    obtain ⟨hcurrent, hroot, htls⟩ := mapEntry_bases _ _ _ _
    exact .of_tcbs (mapEntry_tcbs _ _ _ _) hcurrent hroot htls
  case irqControlGet =>
    rcases irqControlGet_cases h with ⟨-, rfl⟩ | ⟨dest, -, -, -, -, -, rfl⟩
    · exact .of_tcbs rfl rfl rfl rfl
    · exact .of_tcbs rfl rfl rfl rfl

end Tern
