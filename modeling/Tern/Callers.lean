import Tern.Entries

/-! Nested calls. `reply_to` is written when a message is delivered whose sender
has `expects_reply` set, and that flag says what the sender did last: a reply of a
thread that made a call before, and no send since, overwrites the `reply_to` of
the client it answers. `lastCaller` reads off the history whose call a thread
received last; `reply_to` is that thread as long as no reply overwrites it. -/

namespace Tern

variable {P : Platform} {k k' k'' : Kernel} {e : Entry} {s c r t u : Word}
  {tag tag' : MessageTag}

/-- The thread whose call `t` received last. -/
def lastCaller (t : Word) : List Event → Option Word
  | [] => none
  | .received a b expects :: h => if b = t ∧ expects then some a else lastCaller t h
  | .called _ :: h => lastCaller t h
  | .replied _ _ _ :: h => lastCaller t h
  | .madeRunnable _ :: h => lastCaller t h

/-- Every reply of `t` went to the thread whose call it had received last. -/
def AnswersLastCaller (t : Word) : List Event → Prop
  | [] => True
  | .replied a c _ :: h => (a = t → lastCaller t h = some c) ∧ AnswersLastCaller t h
  | .received _ _ _ :: h => AnswersLastCaller t h
  | .called _ :: h => AnswersLastCaller t h
  | .madeRunnable _ :: h => AnswersLastCaller t h

/-- The thread will answer the caller it received last, and always has. -/
structure CallerKept (k : Kernel) (t : Word) : Prop where
  replyTo : (k.tcbs t).replyTo = lastCaller t k.history
  answers : AnswersLastCaller t k.history

/-- A reply of `s` to `c` leaves the `reply_to` of `c` alone: the flag of `s` is
clear, or there is nothing to change. -/
def KeepsReplyTo (k : Kernel) (s c : Word) : Prop :=
  (k.tcbs s).expectsReply = false ∨ (k.tcbs c).replyTo = some s

/-- If the entry replies to `t`, it leaves the `reply_to` of `t` alone. -/
def RepliesKeep (t : Word) (k : Kernel) (e : Entry) : Prop :=
  ∀ s, e.Makes k (.reply s t) → k.currentTcb = some s → (k.tcbs s).replyTo = some t →
    KeepsReplyTo k s t

/-! ## What delivers no message -/

/-- No `reply_to` has changed, and no message was delivered. -/
structure SameCallers (k k' : Kernel) : Prop where
  replyTo : ∀ t, (k'.tcbs t).replyTo = (k.tcbs t).replyTo
  last : ∀ t, lastCaller t k'.history = lastCaller t k.history
  answers : ∀ t, AnswersLastCaller t k'.history ↔ AnswersLastCaller t k.history

theorem SameView.callers (h : SameView k k') : SameCallers k k' :=
  ⟨h.replyTo, fun _ => by rw [h.history], fun _ => by rw [h.history]⟩

namespace SameCallers

theorem refl (k : Kernel) : SameCallers k k := ⟨fun _ => rfl, fun _ => rfl, fun _ => Iff.rfl⟩

theorem trans (h : SameCallers k k') (h' : SameCallers k' k'') : SameCallers k k'' :=
  ⟨fun t => (h'.replyTo t).trans (h.replyTo t), fun t => (h'.last t).trans (h.last t),
    fun t => (h'.answers t).trans (h.answers t)⟩

theorem of_eq (htcbs : k'.tcbs = k.tcbs) (hhistory : k'.history = k.history) :
    SameCallers k k' :=
  ⟨fun _ => by rw [htcbs], fun _ => by rw [hhistory], fun _ => by rw [hhistory]⟩

theorem modifyTcb (k : Kernel) (t : Word) (f : Tcb → Tcb) (hf : ∀ c, (f c).replyTo = c.replyTo) :
    SameCallers k (k.modifyTcb t f) := by
  refine ⟨fun x => ?_, fun _ => rfl, fun _ => Iff.rfl⟩
  rw [Kernel.modifyTcb_tcbs]
  split
  · next e => rw [e, hf]
  · rfl

theorem setState (k : Kernel) (t : Word) (state : TaskState) :
    SameCallers k (k.setState t state) :=
  modifyTcb k t _ fun _ => rfl

theorem madeRunnable (k : Kernel) (t : Word) : SameCallers k (k.noted (.madeRunnable t)) :=
  ⟨fun _ => rfl, fun _ => rfl, fun _ => Iff.rfl⟩

theorem called (k : Kernel) (t : Word) : SameCallers k (k.noted (.called t)) :=
  ⟨fun _ => rfl, fun _ => rfl, fun _ => Iff.rfl⟩

theorem prepared (k : Kernel) (t : Word) (isCall : Bool) : SameCallers k (k.prepared t isCall) := by
  have hexpects := modifyTcb k t (fun c => { c with expectsReply := isCall }) fun _ => rfl
  cases isCall with
  | false => exact hexpects
  | true => exact (hexpects.trans (setState _ t .calling)).trans (called _ t)

end SameCallers

theorem scheduleTcb_callers (hk : scheduleTcb k t = .ok k') : SameCallers k k' := by
  simp only [scheduleTcb, bind_eq_ok, pure_eq_ok] at hk
  obtain ⟨-, -, nodes, -, rfl⟩ := hk
  have hnodes : SameCallers (k.setState t .runnable) ((k.setState t .runnable).withNodes nodes) :=
    .of_eq rfl rfl
  exact ((SameCallers.setState k t .runnable).trans hnodes).trans (.madeRunnable _ t)

theorem suspendTcb_callers (hk : suspendTcb k t = .ok k') : SameCallers k k' := by
  simp only [suspendTcb, bind_eq_ok, pure_eq_ok] at hk
  obtain ⟨nodes, -, rfl⟩ := hk
  exact (SameCallers.setState k t .suspended).trans (.of_eq rfl rfl)

theorem switchTcb_callers (k : Kernel) (t : Word) : SameCallers k (switchTcb k t) := by
  have hreturn : SameCallers (k.setState t .runnable)
      { k.setState t .runnable with returnToTcb := some t } := .of_eq rfl rfl
  exact ((SameCallers.setState k t .runnable).trans hreturn).trans (.madeRunnable _ t)

theorem schedule_callers (hk : schedule k = .ok k') : SameCallers k k' := by
  simp only [schedule, pickNextTcb, bind_eq_ok] at hk
  obtain ⟨⟨next, k₁⟩, hpick, hk⟩ := hk
  split at hpick
  · cases hpick
    dsimp only at hk
    split at hk <;> cases hk
    · exact .refl k
    · exact .of_eq rfl rfl
  · simp only [bind_eq_ok, pure_eq_ok, Prod.mk.injEq] at hpick
    obtain ⟨⟨a, nodes⟩, -, u, -, rfl, rfl⟩ := hpick
    cases hk
    have hnodes : SameCallers k (k.withNodes nodes) := .of_eq rfl rfl
    exact hnodes.trans (switchTcb_callers _ u)

theorem killTcb_callers (hk : killTcb k t = .ok k') : SameCallers k k' := by
  simp only [killTcb, bind_eq_ok, pure_eq_ok] at hk
  obtain ⟨-, -, rfl⟩ := hk
  exact .setState k t .dead

theorem returnFromKernelCode_callers {dm : DirectMap} (hk : returnFromKernelCode dm k = .ok k') :
    SameCallers k k' := by
  unfold returnFromKernelCode at hk
  split at hk
  · cases hk
    exact .refl k
  · split at hk
    · next u hu =>
      simp only [switchTcbActual, bind_eq_ok, pure_eq_ok] at hk
      obtain ⟨-, -, k₁, hsave, k₂, hresched, -, -, rfl⟩ := hk
      have h₁ := (saveCurrent_quiet hsave).view.callers
      have h₂ : SameCallers k₁ k₂ := by
        unfold rescheduleCurrent at hresched
        split at hresched
        · split at hresched
          · exact scheduleTcb_callers hresched
          · cases hresched
            exact .refl k₁
        · cases hresched
          exact .refl k₁
      have h₃ : SameCallers k₂ { k₂ with
          currentTcb := some u, vmRoot := tcbVmRoot dm k₂ u, tlsBase := (k₂.tcbs u).tlsBase } :=
        .of_eq rfl rfl
      have hrunning := ((h₁.trans h₂).trans h₃).trans (.setState _ u .running)
      exact hrunning.trans (.modifyTcb _ u
        (fun c => { c with savedState := ensureFrameValidForUsermode c.savedState }) fun _ => rfl)
    · simp only [bind_eq_ok, pure_eq_ok] at hk
      obtain ⟨k₁, hsave, rfl⟩ := hk
      exact (saveCurrent_quiet hsave).view.callers.trans (.of_eq rfl rfl)

theorem notificationSignal_callers {n badge : Word} (hk : notificationSignal k n badge = .ok k') :
    SameCallers k k' := by
  have hdeliver : ∀ {k₁ : Kernel} {r w : Word}, SameCallers k k₁ →
      signalWaitingReceiver k₁ n r w = .ok k' → SameCallers k k' := by
    intro k₁ r w h₁ hk
    simp only [signalWaitingReceiver, bind_eq_ok, pure_eq_ok] at hk
    obtain ⟨k₂, hset, buffer, -, rfl⟩ := hk
    have hbuffer : SameCallers k₂
        ((k₂.setBufferWord buffer senderBadge w).logged (.delivered n r w)) := .of_eq rfl rfl
    have h₂ := h₁.trans (setIpcResult_quiet hset).view.callers
    exact (h₂.trans hbuffer).trans (switchTcb_callers _ r)
  simp only [notificationSignal] at hk
  split at hk
  · split at hk
    · simp only [signalBoundReceiverWaitingOnSomethingElse, bind_eq_ok] at hk
      obtain ⟨nodes, -, hk⟩ := hk
      refine hdeliver ?_ hk
      exact .of_eq rfl rfl
    · cases hk
      exact .of_eq rfl rfl
  · simp only [bind_eq_ok] at hk
    obtain ⟨a, -, r, -, nodes, -, hk⟩ := hk
    refine hdeliver ?_ hk
    exact .of_eq rfl rfl

/-- A thread blocks, in whatever queue and state. -/
theorem block_callers {nodes : Lists Node} {state : TaskState}
    (hk : schedule ((k.withNodes nodes).setState u state) = .ok k') : SameCallers k k' := by
  have hnodes : SameCallers k (k.withNodes nodes) := .of_eq rfl rfl
  exact (hnodes.trans (.setState _ u state)).trans (schedule_callers hk)

theorem queueReceiverOnNotification_callers {n : Word}
    (hk : queueReceiverOnNotification k n = .ok (tag, k')) : SameCallers k k' := by
  simp only [queueReceiverOnNotification, bind_eq_ok, pure_eq_ok, Prod.mk.injEq] at hk
  obtain ⟨this, -, nodes, -, k₁, hsched, -, rfl⟩ := hk
  exact block_callers hsched

/-! ## What delivers one -/

theorem setReplyTo_replyTo (k : Kernel) (s r x : Word) : ((setReplyTo k s r).tcbs x).replyTo =
    if x = r ∧ (k.tcbs s).expectsReply then some s else (k.tcbs x).replyTo := by
  unfold setReplyTo
  split
  · next hs =>
    rw [Kernel.modifyTcb_tcbs]
    by_cases hx : x = r <;> simp [hx, hs]
  · next hs => simp [hs]

theorem setReplyTo_history (k : Kernel) (s r : Word) :
    (setReplyTo k s r).history = k.history := by
  unfold setReplyTo
  split <;> rfl

/-- Besides copying the message, `transfer_message` makes the sender the one to
reply to. -/
theorem transferMessage_callers {badge : Word}
    (hk : transferMessage k s r badge tag = .ok (tag', k')) :
    SameCallers (setReplyTo k s r) k' ∧ (k'.tcbs s).expectsReply = (k.tcbs s).expectsReply := by
  simp only [transferMessage, bind_eq_ok, pure_eq_ok, Prod.mk.injEq] at hk
  obtain ⟨buf, -, sbuf, -, ⟨tag₁, k₁⟩, hcap, k₂, hset, -, rfl⟩ := hk
  have h₁ : SameView k k₁ := by
    refine .trans ?_ (transferCap_quiet hcap).view
    exact .of_eq rfl rfl rfl rfl rfl
  have h₂ : SameCallers (setReplyTo k s r) (setReplyTo k₁ s r) := by
    refine ⟨fun x => ?_, fun x => ?_, fun x => ?_⟩
    · rw [setReplyTo_replyTo, setReplyTo_replyTo, h₁.expectsReply, h₁.replyTo]
    · rw [setReplyTo_history, setReplyTo_history, h₁.history]
    · rw [setReplyTo_history, setReplyTo_history, h₁.history]
  have hset' := (setIpcResult_quiet hset).view
  refine ⟨h₂.trans hset'.callers, (hset'.expectsReply s).trans ?_⟩
  rw [← h₁.expectsReply]
  unfold setReplyTo
  split
  · rw [Kernel.modifyTcb_tcbs]
    split
    · next hsr => rw [hsr]
    · rfl
  · rfl

theorem sendMessageDirectly_callers {badge : Word} {resumeNow : Bool}
    (hs : k.currentTcb = some s) (hk : sendMessageDirectly k r badge tag resumeNow = .ok k') :
    SameCallers (setReplyTo k s r) k' := by
  simp only [sendMessageDirectly, thisTcb, bind_eq_ok, deref_eq_ok, hs, Option.some.injEq] at hk
  obtain ⟨-, -, this, rfl, -, -, ⟨tag₁, k₁⟩, htransfer, hk⟩ := hk
  have h₁ := (transferMessage_callers htransfer).1
  split at hk
  · cases hk
    exact h₁.trans (switchTcb_callers k₁ r)
  · exact h₁.trans (scheduleTcb_callers hk)

/-- A reply writes the client's `reply_to` exactly when the replier's flag is set. -/
theorem invokeReply_callers (hk : invokeReply k tag = .ok k') :
    ∃ s c, k.currentTcb = some s ∧ (k.tcbs s).replyTo = some c ∧
      SameCallers (setReplyTo (k.noted (.replied s c (k.tcbs s).expectsReply)) s c) k' := by
  obtain ⟨s, c, hs, hto, -, hsend⟩ := invokeReply_client hk
  exact ⟨s, c, hs, hto, sendMessageDirectly_callers
    (k := k.noted (.replied s c (k.tcbs s).expectsReply)) hs hsend⟩

namespace CallerKept

theorem same (h : CallerKept k t) (hs : SameCallers k k') : CallerKept k' t :=
  ⟨(hs.replyTo t).trans (h.replyTo.trans (hs.last t).symm), (hs.answers t).mpr h.answers⟩

/-- A message is received: the receiver is to reply to its sender, if that is a call. -/
theorem receive (h : CallerKept k t) (s r : Word) :
    CallerKept (setReplyTo (k.noted (.received s r (k.tcbs s).expectsReply)) s r) t where
  replyTo := by
    rw [setReplyTo_replyTo, setReplyTo_history]
    show (if t = r ∧ (k.tcbs s).expectsReply then some s else (k.tcbs t).replyTo) =
      if r = t ∧ (k.tcbs s).expectsReply then some s else lastCaller t k.history
    simp only [h.replyTo, eq_comm]
  answers := by
    rw [setReplyTo_history]
    exact h.answers

/-- A reply is delivered. -/
theorem reply (h : CallerKept k t) (hto : (k.tcbs s).replyTo = some c)
    (hkeep : c = t → KeepsReplyTo k s c) (b : Bool) :
    CallerKept (setReplyTo (k.noted (.replied s c b)) s c) t where
  replyTo := by
    rw [setReplyTo_replyTo, setReplyTo_history]
    show (if t = c ∧ (k.tcbs s).expectsReply then some s else (k.tcbs t).replyTo) =
      lastCaller t k.history
    split
    · next hwritten =>
      obtain ⟨rfl, hflag⟩ := hwritten
      rcases hkeep rfl with hclear | hsame
      · cases hclear.symm.trans hflag
      · rw [← h.replyTo, hsame]
    · exact h.replyTo
  answers := by
    rw [setReplyTo_history]
    refine ⟨?_, h.answers⟩
    rintro rfl
    exact h.replyTo.symm.trans hto

theorem endpointSend (h : CallerKept k t) {e badge : Word} {isCall : Bool}
    (hk : endpointSend k e badge tag isCall = .ok k') : CallerKept k' t := by
  simp only [Tern.endpointSend, bind_eq_ok] at hk
  obtain ⟨b, -, hk⟩ := hk
  split at hk
  · simp only [queueMessageOnEndpoint, bind_eq_ok] at hk
    obtain ⟨this, -, info, -, -, -, nodes, -, hk⟩ := hk
    have hnodes : SameCallers k (k.withNodes nodes) := .of_eq rfl rfl
    have hstate := hnodes.trans (.setState _ this (if isCall then .calling else .sending))
    have hbadge := hstate.trans (.modifyTcb _ this (fun c => { c with endpointBadge := badge })
      fun _ => rfl)
    exact h.same (hbadge.trans (schedule_callers hk))
  · simp only [sendMessageToBlockedReceiver, thisTcb, bind_eq_ok, deref_eq_ok] at hk
    obtain ⟨this, hthis, ⟨a, nodes⟩, -, r, -, hk⟩ := hk
    have hpopped : CallerKept (k.withNodes nodes) t := h.same (.of_eq rfl rfl)
    exact (hpopped.receive this r).same (sendMessageDirectly_callers
      (k := (k.withNodes nodes).noted (.received this r (k.tcbs this).expectsReply)) hthis hk)

theorem receiveMessageFromBlockedSender (h : CallerKept k t) {e : Word}
    (hk : receiveMessageFromBlockedSender k e = .ok (tag, k')) : CallerKept k' t := by
  simp only [Tern.receiveMessageFromBlockedSender, bind_eq_ok, pure_eq_ok, Prod.mk.injEq] at hk
  obtain ⟨this, -, ⟨a, nodes⟩, -, u, -, tag₁, -, ⟨tag₂, k₁⟩, htransfer, k₂, hsettle, -, rfl⟩ := hk
  have hpopped : CallerKept (k.withNodes nodes) t := h.same (.of_eq rfl rfl)
  obtain ⟨hsame, hflag⟩ := transferMessage_callers htransfer
  have h₁ := (hpopped.receive u this).same hsame
  unfold settleSender at hsettle
  split at hsettle
  · next hcall =>
    -- `reply_to` is written a second time, with the same thread
    cases hsettle
    refine h₁.same ⟨fun x => ?_, fun _ => rfl, fun _ => Iff.rfl⟩
    rw [Kernel.modifyTcb_tcbs]
    split
    · next hx =>
      rw [hx, hsame.replyTo, setReplyTo_replyTo, if_pos ⟨rfl, hflag.symm.trans hcall⟩]
    · rfl
  · exact h₁.same (scheduleTcb_callers hsettle)

theorem receipt (h : CallerKept k t) (hk : Receipt k k') : CallerKept k' t := by
  cases hk with
  | same hs => exact h.same hs.callers
  | recv hk =>
    simp only [endpointRecv, bind_eq_ok] at hk
    obtain ⟨b, -, hk⟩ := hk
    split at hk
    · simp only [queueReceiverOnEndpoint, bind_eq_ok, pure_eq_ok, Prod.mk.injEq] at hk
      obtain ⟨this, -, nodes, -, k₁, hsched, -, rfl⟩ := hk
      exact h.same (block_callers hsched)
    · exact h.receiveMessageFromBlockedSender hk
  | nbrecv hk =>
    simp only [endpointNbrecv, bind_eq_ok] at hk
    obtain ⟨b, -, hk⟩ := hk
    split at hk
    · cases hk
      exact h
    · exact h.receiveMessageFromBlockedSender hk

theorem body (h : CallerKept k t) {m : Move} (hb : Body k m k')
    (hkeep : ∀ s, m = .reply s t → KeepsReplyTo k s t) : CallerKept k' t := by
  cases hb with
  | stays => exact h
  | exits hu hdead hsched =>
    exact h.same ((killTcb_callers hdead).trans (schedule_callers hsched))
  | yields hsched => exact h.same (schedule_callers hsched)
  | sends hu hk => exact (h.same (.prepared k _ _)).endpointSend hk
  | receives hu hk => exact h.receipt hk
  | replies hu hto hcalling hreply hk =>
    rename_i s c tag k₁
    obtain ⟨s', c', hs', hto', hsame⟩ := invokeReply_callers hreply
    cases hu.symm.trans hs'
    cases hto.symm.trans hto'
    refine CallerKept.receipt (same (h.reply hto ?_ _) hsame) hk
    rintro rfl
    exact hkeep s rfl
  | signals hk => exact h.same (notificationSignal_callers hk)
  | waits hu hk => exact h.same (queueReceiverOnNotification_callers hk)
  | waitsKilled hu hdead hsched hk =>
    exact h.same (((killTcb_callers hdead).trans (schedule_callers hsched)).trans
      (queueReceiverOnNotification_callers hk))
  | resumes hk => exact h.same (scheduleTcb_callers hk)
  | suspends hk => exact h.same (suspendTcb_callers hk)

end CallerKept

/-! ## Runs -/

theorem KernelStep.callerKept (hs : KernelStep P k e k')
    (hretype : ∀ f obj, e = .syscall f → ¬ Invokes k f .untypedRetype obj)
    (hok : RepliesKeep t k e) (h : CallerKept k t) : CallerKept k' t := by
  obtain ⟨k₁, ⟨m, k₀, k₂, hm, hbefore, hb, hafter⟩, hreturn⟩ := hs.handled hretype
  have h₂ : CallerKept k₂ t := by
    refine (h.same hbefore.callers).body hb ?_
    rintro s rfl
    cases hb with
    | replies hu hto =>
      rw [hbefore.current] at hu
      rw [hbefore.replyTo] at hto
      have hkeeps := hok s hm hu hto
      unfold KeepsReplyTo at hkeeps ⊢
      rwa [hbefore.expectsReply, hbefore.replyTo]
  exact (h₂.same hafter.callers).same (returnFromKernelCode_callers hreturn)

/-- A reply leaves the client's `reply_to` as it was exactly under the condition. -/
theorem invokeReply_keeps_iff (hs : k.currentTcb = some s) (hto : (k.tcbs s).replyTo = some c)
    (hk : invokeReply k tag = .ok k') :
    (k'.tcbs c).replyTo = (k.tcbs c).replyTo ↔ KeepsReplyTo k s c := by
  obtain ⟨s', c', hs', hto', hsame⟩ := invokeReply_callers hk
  cases hs.symm.trans hs'
  cases hto.symm.trans hto'
  rw [hsame.replyTo, setReplyTo_replyTo]
  show (if c = c ∧ (k.tcbs s).expectsReply then some s else (k.tcbs c).replyTo) = _ ↔ _
  cases hflag : (k.tcbs s).expectsReply with
  | false => simp [KeepsReplyTo, hflag]
  | true => simp [KeepsReplyTo, hflag, eq_comm]

/-- As long as the replies to a thread leave its `reply_to` alone, it answers the
thread whose call it received last, whatever calls it made in between. -/
theorem nested_calls_keep_caller (hk : (kernelSystem P).ReachedBy (RepliesKeep t) k) :
    CallerKept k t ∧ ∀ l s tag l', l.currentTcb = some s → (l.tcbs s).replyTo = some t →
      invokeReply l tag = .ok l' →
      ((l'.tcbs t).replyTo = (l.tcbs t).replyTo ↔ KeepsReplyTo l s t) := by
  refine ⟨?_, fun l s tag l' => invokeReply_keeps_iff⟩
  refine hk.invariant (I := fun k => CallerKept k t) ?_ ?_
  · rintro k (h : Booted k)
    refine ⟨?_, ?_⟩
    · rw [h.history, (h.fresh t).2]
      rfl
    · rw [h.history]
      trivial
  · rintro k e k' h hok ⟨hs, hretype⟩
    exact hs.callerKept hretype hok h

/-- The boot thread holds the worker, the helper and two endpoints. -/
def nestedKernel : Kernel :=
  exampleKernel [workerTcb, helperTcb] [(5, tcbCap workerTcb), (6, tcbCap helperTcb),
    (9, endpointCap exampleEndpoint), (10, endpointCap (exampleEndpoint + 0x1000#64))]

theorem nestedKernel_booted : Booted nestedKernel := exampleKernel_booted _ _

/-- The helper calls the worker, which calls the boot thread before it replies. -/
def nestedCall : List Frame :=
  [recvFrame 9, recvFrame 10, callFrame 2 9 emptyTag, callFrame 2 10 emptyTag]

theorem repliesKeep_of_number {f : Frame} (hn : f.number ≠ some .reply ∧ f.number ≠ some .replyrecv) :
    RepliesKeep t k (.syscall f) := by
  rintro s (h | ⟨slot, ⟨h, -⟩, -⟩)
  · exact absurd h hn.1
  · exact absurd h hn.2

/-- The boot thread has made no call when it answers the worker. -/
theorem nested_calls_keep_caller_worker : ∃ k,
    (kernelSystem examplePlatform).ReachedBy (RepliesKeep workerTcb) k ∧
      .replied initTcb workerTcb false ∈ k.history ∧
      .replied workerTcb helperTcb true ∈ k.history ∧ CallerKept k workerTcb := by
  have hrun : (do
      let k₁ ← runSyscalls examplePlatform
        ([resumeFrame 6, resumeFrame 5, yieldFrame] ++ nestedCall) nestedKernel
      let k₂ ← syscallEntry examplePlatform 0 k₁ replyFrame
      let k₃ ← syscallEntry examplePlatform 0 k₂ (recvFrame 10)
      let k₄ ← syscallEntry examplePlatform 0 k₃ replyFrame
      return decide (k₁.currentTcb = some initTcb ∧ (k₁.tcbs initTcb).expectsReply = false ∧
        k₃.currentTcb = some workerTcb ∧ (k₃.tcbs workerTcb).replyTo = some helperTcb ∧
        .replied initTcb workerTcb false ∈ k₄.history ∧
        .replied workerTcb helperTcb true ∈ k₄.history)) =
      (.ok true : Result _) := by decide +kernel
  simp only [bind_eq_ok, pure_eq_ok, decide_eq_true_eq] at hrun
  obtain ⟨k₁, h₁, k₂, h₂, k₃, h₃, k₄, h₄, hboot, hflag, hworker, hto, hin, hout⟩ := hrun
  have hcalls : ∀ f ∈ [resumeFrame 6, resumeFrame 5, yieldFrame] ++ nestedCall,
      f.number ≠ some .reply ∧ f.number ≠ some .replyrecv := by decide +kernel
  have hk₁ : (kernelSystem examplePlatform).ReachedBy (RepliesKeep workerTcb) k₁ :=
    runSyscalls_reached (.start nestedKernel_booted)
      (fun f hf _ => repliesKeep_of_number (hcalls f hf)) (by decide +kernel) h₁
  have hk₂ : (kernelSystem examplePlatform).ReachedBy (RepliesKeep workerTcb) k₂ := by
    refine .step hk₁ ?_ (syscallEntry_step h₂ (by decide))
    intro s _ hs _
    cases hboot.symm.trans hs
    exact .inl hflag
  have hk₃ := hk₂.step (repliesKeep_of_number (by decide)) (syscallEntry_step h₃ (by decide))
  have hk₄ : (kernelSystem examplePlatform).ReachedBy (RepliesKeep workerTcb) k₄ := by
    refine .step hk₃ ?_ (syscallEntry_step h₄ (by decide))
    intro s _ hs hself
    cases hworker.symm.trans hs
    cases hto.symm.trans hself
  exact ⟨k₄, hk₄, hin, hout, (nested_calls_keep_caller hk₄).1⟩

/-- The boot thread was a client of the worker before: its reply to the worker's
call looks like a call, and the helper waits for an answer that goes elsewhere. -/
theorem reply_replaces_caller :
    ¬ ∀ k, (kernelSystem examplePlatform).Reached k → CallerKept k workerTcb := by
  intro h
  obtain ⟨k, hrun, hread⟩ := runSyscalls_reads
    (show (runSyscalls examplePlatform ([resumeFrame 6, resumeFrame 5, yieldFrame, recvFrame 9,
        callFrame 2 9 emptyTag, replyFrame] ++ nestedCall ++ [replyFrame]) nestedKernel).map
      (fun k => ((k.tcbs workerTcb).replyTo, lastCaller workerTcb k.history)) =
        .ok (some initTcb, some helperTcb) by decide +kernel)
  obtain ⟨hto, hlast⟩ := Prod.ext_iff.mp hread
  have hk : (kernelSystem examplePlatform).Reached k :=
    runSyscalls_reached (.start nestedKernel_booted) (fun _ _ _ => trivial) (by decide +kernel) hrun
  cases hto.symm.trans ((h k hk).replyTo.trans hlast)

end Tern
