import Tern.Refinement
import Tern.Updates

/-! Threads out of reach. A thread that is dead or suspended, that no list node
leads to and that is neither the current one nor the one to return to, is found
by no kernel function that is not given its address. So it stays where it is,
whatever other entries follow, whether or not the lists are in order elsewhere. -/

namespace Tern

open Lib

variable {P : Platform} {k k' : Kernel} {s : TaskState} {t u : Word} {tag tag' : MessageTag}

/-- One of the two list nodes in the thread's TCB. -/
def Node.IsOf (t : Word) (a : Node) : Prop := a = .run t ∨ a = .sendReceive t

/-- States, lists and the processor are as before. -/
structure SamePlaces (k k' : Kernel) : Prop where
  state : ∀ t, (k'.tcbs t).state = (k.tcbs t).state
  nodes : k'.nodes = k.nodes
  current : k'.currentTcb = k.currentTcb
  returnTo : k'.returnToTcb = k.returnToTcb

/-- The thread is in the state `s`, no list leads to it and the kernel will not
return to it. -/
structure Parked (k : Kernel) (s : TaskState) (t : Word) : Prop where
  state : (k.tcbs t).state = s
  nodes : ∀ a : Node, a.IsOf t → k.nodes.Detached a
  returnTo : k.returnToTcb ≠ some t

theorem SameView.places (h : SameView k k') : SamePlaces k k' :=
  ⟨h.state, h.nodes, h.current, h.returnTo⟩

namespace SamePlaces

variable {k'' : Kernel}

theorem refl (k : Kernel) : SamePlaces k k := ⟨fun _ => rfl, rfl, rfl, rfl⟩

theorem trans (h : SamePlaces k k') (h' : SamePlaces k' k'') : SamePlaces k k'' :=
  ⟨fun t => (h'.state t).trans (h.state t), h'.nodes.trans h.nodes, h'.current.trans h.current,
    h'.returnTo.trans h.returnTo⟩

/-- A change to another field of a TCB. -/
theorem modifyTcb (k : Kernel) (t : Word) (f : Tcb → Tcb) (hf : ∀ c, (f c).state = c.state) :
    SamePlaces k (k.modifyTcb t f) := by
  refine ⟨fun x => ?_, rfl, rfl, rfl⟩
  rw [Kernel.modifyTcb_tcbs]
  split
  · next e => rw [e, hf]
  · rfl

theorem noted (k : Kernel) (e : Event) : SamePlaces k (k.noted e) := ⟨fun _ => rfl, rfl, rfl, rfl⟩

theorem setReplyTo (k : Kernel) (s r : Word) : SamePlaces k (setReplyTo k s r) := by
  unfold Tern.setReplyTo
  split
  · exact modifyTcb k r _ fun _ => rfl
  · exact refl k

theorem transferMessage {s r badge : Word}
    (hk : transferMessage k s r badge tag = .ok (tag', k')) : SamePlaces k k' := by
  simp only [Tern.transferMessage, bind_eq_ok, pure_eq_ok, Prod.mk.injEq] at hk
  obtain ⟨buf, -, sbuf, -, ⟨tag₁, k₁⟩, hcap, k₂, hset, -, rfl⟩ := hk
  have hcap' : SamePlaces k k₁ := by
    refine trans ?_ (transferCap_quiet hcap).view.places
    exact ⟨fun _ => rfl, rfl, rfl, rfl⟩
  exact hcap'.trans ((setReplyTo k₁ s r).trans (setIpcResult_quiet hset).view.places)

end SamePlaces

namespace Parked

theorem same (h : Parked k s t) (hs : SamePlaces k k') : Parked k' s t where
  state := (hs.state t).trans h.state
  nodes := hs.nodes ▸ h.nodes
  returnTo := hs.returnTo ▸ h.returnTo

theorem setState (h : Parked k s t) (hu : u ≠ t) (s' : TaskState) :
    Parked (k.setState u s') s t where
  state := by
    simp only [Kernel.setState, Kernel.modifyTcb_tcbs, if_neg hu.symm]
    exact h.state
  nodes := h.nodes
  returnTo := h.returnTo

/-! ## Lists -/

/-- What other nodes lead to does not belong to the thread. -/
theorem next_ne (h : Parked k s t) {a b : Node} (ha : ¬ a.IsOf t) (hn : k.nodes.next a = some b) :
    ¬ b.IsOf t := by
  intro hb
  exact ((h.nodes b hb).2 a (fun e => ha (e ▸ hb))).1 hn

theorem append (h : Parked k s t) {a head : Node} (ha : ¬ a.IsOf t) (hhead : ¬ head.IsOf t)
    {nodes : Lists Node} (hk : appendToList k.nodes a head = .ok nodes) :
    Parked (k.withNodes nodes) s t := by
  rw [appendToList_eq_ok] at hk
  obtain ⟨n, hn, rfl⟩ := hk
  refine { h with nodes := fun b hb => (h.nodes b hb).spliceIn ?_ ?_ hn }
  · exact fun e => ha (e ▸ hb)
  · exact fun e => hhead (e ▸ hb)

theorem remove (h : Parked k s t) {a : Node} (ha : ¬ a.IsOf t) {nodes : Lists Node}
    (hk : removeFromList k.nodes a = .ok nodes) : Parked (k.withNodes nodes) s t := by
  rw [removeFromList_eq_ok] at hk
  obtain ⟨p, n, hp, hn, rfl⟩ := hk
  refine { h with nodes := fun b hb => (h.nodes b hb).spliceOut ?_ hp hn }
  exact fun e => ha (e ▸ hb)

theorem pop (h : Parked k s t) {a head : Node} (hhead : ¬ head.IsOf t) {nodes : Lists Node}
    (hk : popFromList k.nodes head = .ok (a, nodes)) :
    ¬ a.IsOf t ∧ Parked (k.withNodes nodes) s t := by
  obtain ⟨hnext, removed, hremove, rfl⟩ := popFromList_eq_ok.mp hk
  have ha := h.next_ne hhead hnext
  have hremoved := h.remove ha hremove
  exact ⟨ha, hremoved.state, hremoved.nodes, hremoved.returnTo⟩

end Parked

theorem Node.runnableTcbs_not (t : Word) : ¬ Node.runnableTcbs.IsOf t := by
  rintro (h | h) <;> cases h

theorem Queue.head_not (q : Queue) (t : Word) : ¬ q.head.IsOf t := by
  cases q <;> rintro (h | h) <;> cases h

theorem Node.run_not (hu : u ≠ t) : ¬ (Node.run u).IsOf t := by
  rintro (h | h) <;> cases h
  exact hu rfl

theorem Node.sendReceive_not (hu : u ≠ t) : ¬ (Node.sendReceive u).IsOf t := by
  rintro (h | h) <;> cases h
  exact hu rfl

theorem Node.tcbOfRun_ne {a : Node} (ha : ¬ a.IsOf t) (hu : a.tcbOfRun = .ok u) : u ≠ t := by
  rintro rfl
  cases a <;> cases hu
  exact ha (.inl rfl)

theorem Node.tcbOfSendReceive_ne {a : Node} (ha : ¬ a.IsOf t) (hu : a.tcbOfSendReceive = .ok u) :
    u ≠ t := by
  rintro rfl
  cases a <;> cases hu
  exact ha (.inr rfl)

theorem schedule_current (hk : schedule k = .ok k') : k'.currentTcb = k.currentTcb := by
  simp only [schedule, pickNextTcb, bind_eq_ok] at hk
  obtain ⟨⟨next, k₁⟩, hpick, hk⟩ := hk
  split at hpick
  · cases hpick
    dsimp only at hk
    split at hk <;> cases hk <;> rfl
  · simp only [bind_eq_ok, pure_eq_ok, Prod.mk.injEq] at hpick
    obtain ⟨_, -, u, -, rfl, rfl⟩ := hpick
    cases hk
    rfl

theorem killTcb_current (hk : killTcb k u = .ok k') : k'.currentTcb = k.currentTcb := by
  simp only [killTcb, bind_eq_ok, pure_eq_ok] at hk
  obtain ⟨-, -, rfl⟩ := hk
  rfl

theorem invokeReply_current (hk : invokeReply k tag = .ok k') : k'.currentTcb = k.currentTcb := by
  obtain ⟨this, c, -, -, -, hsend⟩ := invokeReply_client hk
  simp only [sendMessageDirectly, bind_eq_ok, Bool.false_eq_true, if_false, scheduleTcb,
    pure_eq_ok] at hsend
  obtain ⟨-, -, _, -, -, -, ⟨_, k₁⟩, htransfer, -, -, nodes, -, rfl⟩ := hsend
  exact (SamePlaces.transferMessage htransfer).current

namespace Parked

/-! ## Scheduling -/

theorem scheduleTcb (h : Parked k s t) (hu : u ≠ t) (hk : scheduleTcb k u = .ok k') :
    Parked k' s t := by
  simp only [Tern.scheduleTcb, bind_eq_ok, pure_eq_ok] at hk
  obtain ⟨-, -, nodes, happend, rfl⟩ := hk
  have hstate := h.setState hu .runnable
  exact (hstate.append (Node.run_not hu) (Node.runnableTcbs_not t) happend).same (.noted _ _)

theorem suspendTcb (h : Parked k s t) (hu : u ≠ t) (hk : suspendTcb k u = .ok k') :
    Parked k' s t := by
  simp only [Tern.suspendTcb, bind_eq_ok, pure_eq_ok] at hk
  obtain ⟨nodes, hremove, rfl⟩ := hk
  exact (h.setState hu .suspended).remove (Node.run_not hu) hremove

theorem switchTcb (h : Parked k s t) (hu : u ≠ t) : Parked (switchTcb k u) s t :=
  { (h.setState hu .runnable).same (.noted _ (.madeRunnable u)) with
    returnTo := fun e => hu (Option.some.inj e) }

theorem schedule (h : Parked k s t) (hk : schedule k = .ok k') : Parked k' s t := by
  simp only [Tern.schedule, pickNextTcb, bind_eq_ok] at hk
  obtain ⟨⟨next, k₁⟩, hpick, hk⟩ := hk
  split at hpick
  · cases hpick
    dsimp only at hk
    split at hk <;> cases hk
    · exact h
    · exact { h with returnTo := by rintro ⟨⟩ }
  · simp only [bind_eq_ok, pure_eq_ok, Prod.mk.injEq] at hpick
    obtain ⟨⟨a, nodes⟩, hpop, u, hu, rfl, rfl⟩ := hpick
    cases hk
    obtain ⟨ha, hpopped⟩ := h.pop (Node.runnableTcbs_not t) hpop
    exact hpopped.switchTcb (Node.tcbOfRun_ne ha hu)

theorem killTcb (h : Parked k s t) (hu : u ≠ t) (hk : killTcb k u = .ok k') : Parked k' s t := by
  simp only [Tern.killTcb, bind_eq_ok, pure_eq_ok] at hk
  obtain ⟨-, -, rfl⟩ := hk
  exact h.setState hu .dead

/-- A thread that has stopped loses the processor, wherever it would have gone. -/
theorem schedule_of_stopped (hk : currentRuns k = false) (r : Option Word) :
    Tern.schedule { k with returnToTcb := r } = Tern.schedule k := by
  simp only [Tern.schedule, pickNextTcb]
  split
  · have hr : currentRuns { k with returnToTcb := r } = false := hk
    simp [bind, Except.bind, pure, Except.pure, hk, hr]
  · cases popFromList k.nodes .runnableTcbs with
    | error e => rfl
    | ok x =>
      cases hx : x.1.tcbOfRun with
      | error e => simp [bind, Except.bind, hx]
      | ok u =>
        simp only [bind, Except.bind, pure, Except.pure, hx]
        rfl

/-- Leaving the kernel, the processor goes to another thread. -/
theorem leave (h : Parked k s t) (hs : s ≠ .running) {dm : DirectMap}
    (hk : returnFromKernelCode dm k = .ok k') : Parked k' s t ∧ k'.currentTcb ≠ some t := by
  unfold returnFromKernelCode at hk
  split at hk
  · next he =>
    cases hk
    exact ⟨h, he ▸ h.returnTo⟩
  · split at hk
    · next u hu =>
      have hut : u ≠ t := fun e => h.returnTo (hu.trans (congrArg some e))
      simp only [switchTcbActual, bind_eq_ok, pure_eq_ok] at hk
      obtain ⟨-, -, k₁, hsave, k₂, hresched, -, -, rfl⟩ := hk
      have h₁ := h.same (saveCurrent_quiet hsave).view.places
      have h₂ : Parked k₂ s t := by
        unfold rescheduleCurrent at hresched
        split at hresched
        · next c hc =>
          split at hresched
          · next hrunning =>
            refine h₁.scheduleTcb ?_ hresched
            rintro rfl
            exact hs (h₁.state.symm.trans (beq_iff_eq.mp hrunning))
          · cases hresched
            exact h₁
        · cases hresched
          exact h₁
      have h₃ : Parked { k₂ with
          currentTcb := some u, vmRoot := tcbVmRoot dm k₂ u, tlsBase := (k₂.tcbs u).tlsBase } s t :=
        { h₂ with }
      exact ⟨(h₃.setState hut .running).same (.modifyTcb _ _ _ fun _ => rfl),
        fun e => hut (Option.some.inj e)⟩
    · simp only [bind_eq_ok, pure_eq_ok] at hk
      obtain ⟨k₁, hsave, rfl⟩ := hk
      exact ⟨{ h.same (saveCurrent_quiet hsave).view.places with }, by rintro ⟨⟩⟩

/-! ## Messages -/

theorem sendMessageDirectly (h : Parked k s t) (hu : u ≠ t) {badge : Word} {resumeNow : Bool}
    (hk : sendMessageDirectly k u badge tag resumeNow = .ok k') : Parked k' s t := by
  simp only [Tern.sendMessageDirectly, bind_eq_ok] at hk
  obtain ⟨-, -, this, -, -, -, ⟨tag₁, k₁⟩, htransfer, hk⟩ := hk
  have h₁ := h.same (.transferMessage htransfer)
  split at hk
  · cases hk
    exact h₁.switchTcb hu
  · exact h₁.scheduleTcb hu hk

/-- The current thread is put on a wait queue, and another one is chosen. -/
theorem block (h : Parked k s t) (hu : u ≠ t) (q : Queue) {nodes : Lists Node}
    (happend : appendToList k.nodes (.sendReceive u) q.head = .ok nodes) (s' : TaskState) :
    Parked ((k.withNodes nodes).setState u s') s t :=
  (h.append (Node.sendReceive_not hu) (q.head_not t) happend).setState hu s'

theorem endpointSend (h : Parked k s t) (hc : k.currentTcb ≠ some t) {e badge : Word}
    {isCall : Bool} (hk : endpointSend k e badge tag isCall = .ok k') : Parked k' s t := by
  simp only [Tern.endpointSend, bind_eq_ok] at hk
  obtain ⟨b, -, hk⟩ := hk
  split at hk
  · simp only [queueMessageOnEndpoint, thisTcb, bind_eq_ok, deref_eq_ok] at hk
    obtain ⟨this, hthis, info, -, -, -, nodes, happend, hk⟩ := hk
    have hne : this ≠ t := fun e => hc (hthis.trans (congrArg some e))
    have hblocked := h.block hne (.endpoint e) happend (if isCall then .calling else .sending)
    have hbadge := SamePlaces.modifyTcb ((k.withNodes nodes).setState this
      (if isCall then .calling else .sending)) this (fun c => { c with endpointBadge := badge })
      fun _ => rfl
    exact (hblocked.same hbadge).schedule hk
  · simp only [sendMessageToBlockedReceiver, bind_eq_ok] at hk
    obtain ⟨this, -, ⟨a, nodes⟩, hpop, r, hr, hk⟩ := hk
    obtain ⟨ha, hpopped⟩ := h.pop (Queue.head_not (.endpoint e) t) hpop
    refine sendMessageDirectly ?_ (Node.tcbOfSendReceive_ne ha hr) hk
    exact hpopped.same (.noted _ _)

theorem receiveMessageFromBlockedSender (h : Parked k s t) {e : Word}
    (hk : receiveMessageFromBlockedSender k e = .ok (tag, k')) : Parked k' s t := by
  simp only [Tern.receiveMessageFromBlockedSender, bind_eq_ok, pure_eq_ok, Prod.mk.injEq] at hk
  obtain ⟨this, -, ⟨a, nodes⟩, hpop, u, hu, tag₁, -, ⟨tag₂, k₁⟩, htransfer, k₂, hsettle, -, rfl⟩ :=
    hk
  obtain ⟨ha, hpopped⟩ := h.pop (Queue.head_not (.endpoint e) t) hpop
  have h₁ := (hpopped.same (.noted _ _)).same (.transferMessage htransfer)
  unfold settleSender at hsettle
  split at hsettle
  · cases hsettle
    exact h₁.same (.modifyTcb _ _ _ fun _ => rfl)
  · exact h₁.scheduleTcb (Node.tcbOfSendReceive_ne ha hu) hsettle

theorem receipt (h : Parked k s t) (hc : k.currentTcb ≠ some t) (hk : Receipt k k') :
    Parked k' s t := by
  cases hk with
  | same hs => exact h.same hs.places
  | recv hk =>
    simp only [endpointRecv, bind_eq_ok] at hk
    obtain ⟨b, -, hk⟩ := hk
    split at hk
    · simp only [queueReceiverOnEndpoint, thisTcb, bind_eq_ok, deref_eq_ok, pure_eq_ok,
        Prod.mk.injEq] at hk
      obtain ⟨this, hthis, nodes, happend, k₁, hsched, -, rfl⟩ := hk
      have hne : this ≠ t := fun e => hc (hthis.trans (congrArg some e))
      exact (h.block hne (.endpoint _) happend .receiving).schedule hsched
    · exact h.receiveMessageFromBlockedSender hk
  | nbrecv hk =>
    simp only [endpointNbrecv, bind_eq_ok] at hk
    obtain ⟨b, -, hk⟩ := hk
    split at hk
    · cases hk
      exact h
    · exact h.receiveMessageFromBlockedSender hk

/-- A reply goes to a thread that is blocked in a call. -/
theorem invokeReply (h : Parked k s t) (hs : s ≠ .calling) (hk : invokeReply k tag = .ok k') :
    Parked k' s t := by
  obtain ⟨this, c, -, -, hcalling, hsend⟩ := invokeReply_client hk
  refine (h.same (.noted _ _)).sendMessageDirectly ?_ hsend
  rintro rfl
  exact hs (h.state.symm.trans hcalling)

/-! ## Notifications -/

theorem signalWaitingReceiver (h : Parked k s t) (hu : u ≠ t) {n badge : Word}
    (hk : signalWaitingReceiver k n u badge = .ok k') : Parked k' s t := by
  simp only [Tern.signalWaitingReceiver, bind_eq_ok, pure_eq_ok] at hk
  obtain ⟨k₁, hset, buffer, -, rfl⟩ := hk
  have h₁ := h.same (setIpcResult_quiet hset).view.places
  exact switchTcb { h₁ with } hu

theorem notificationSignal (h : Parked k s t) (hs : s ≠ .receiving) {n badge : Word}
    (hk : notificationSignal k n badge = .ok k') : Parked k' s t := by
  simp only [Tern.notificationSignal] at hk
  split at hk
  · split at hk
    · next r hr =>
      simp only [boundReceiver, Option.filter_eq_some_iff, beq_iff_eq] at hr
      have hne : r ≠ t := by
        rintro rfl
        exact hs (h.state.symm.trans hr.2)
      simp only [signalBoundReceiverWaitingOnSomethingElse, bind_eq_ok] at hk
      obtain ⟨nodes, hremove, hk⟩ := hk
      have h₁ := h.remove (Node.sendReceive_not hne) hremove
      refine signalWaitingReceiver ?_ hne hk
      exact ⟨h₁.state, h₁.nodes, h₁.returnTo⟩
    · cases hk
      exact { h with }
  · simp only [bind_eq_ok, deref_eq_ok] at hk
    obtain ⟨a, hfirst, r, hr, nodes, hremove, hk⟩ := hk
    have ha := h.next_ne (Queue.head_not (.notification n) t) hfirst
    have h₁ := h.remove ha hremove
    refine signalWaitingReceiver ?_ (Node.tcbOfSendReceive_ne ha hr) hk
    exact ⟨h₁.state, h₁.nodes, h₁.returnTo⟩

theorem queueReceiverOnNotification (h : Parked k s t) (hc : k.currentTcb ≠ some t) {n : Word}
    (hk : queueReceiverOnNotification k n = .ok (tag, k')) : Parked k' s t := by
  simp only [Tern.queueReceiverOnNotification, thisTcb, bind_eq_ok, deref_eq_ok, pure_eq_ok,
    Prod.mk.injEq] at hk
  obtain ⟨this, hthis, nodes, happend, k₁, hsched, -, rfl⟩ := hk
  have hne : this ≠ t := fun e => hc (hthis.trans (congrArg some e))
  exact (h.block hne (.notification n) happend .receiving).schedule hsched

/-! ## Entries -/

theorem prepared (h : Parked k s t) (hu : u ≠ t) (isCall : Bool) :
    Parked (k.prepared u isCall) s t := by
  have hexpects := SamePlaces.modifyTcb k u (fun c => { c with expectsReply := isCall }) fun _ => rfl
  cases isCall with
  | false => exact h.same hexpects
  | true => exact ((h.same hexpects).setState hu .calling).same (.noted _ _)

/-- Only what is given the thread itself reaches it: a resume, which refuses dead
threads, or a suspension. -/
theorem body (h : Parked k s t) (hs : s = .dead ∨ s = .suspended) (hc : k.currentTcb ≠ some t)
    {m : Move} (hb : Body k m k') (hresume : m = .resume t → s = .dead)
    (hsuspend : m ≠ .suspend t) : Parked k' s t := by
  have hne : ∀ {u : Word}, k.currentTcb = some u → u ≠ t := by
    rintro u hu rfl
    exact hc hu
  cases hb with
  | stays => exact h
  | exits hu hdead hsched => exact (h.killTcb (hne hu) hdead).schedule hsched
  | yields hsched => exact h.schedule hsched
  | sends hu hk =>
    rename_i u e badge tag isCall
    refine (h.prepared (hne hu) isCall).endpointSend ?_ hk
    cases isCall <;> exact hc
  | receives hu hk => exact h.receipt hc hk
  | replies hu hto hcalling hreply hk =>
    refine (h.invokeReply ?_ hreply).receipt ?_ hk
    · rcases hs with rfl | rfl <;> nofun
    · rw [invokeReply_current hreply]
      exact hc
  | signals hk =>
    refine h.notificationSignal ?_ hk
    rcases hs with rfl | rfl <;> nofun
  | waits hu hk => exact h.queueReceiverOnNotification hc hk
  | waitsKilled hu hdead hsched hk =>
    refine ((h.killTcb (hne hu) hdead).schedule hsched).queueReceiverOnNotification ?_ hk
    rw [schedule_current hsched, killTcb_current hdead]
    exact hc
  | resumes hk =>
    rename_i u
    refine h.scheduleTcb ?_ hk
    rintro rfl
    simp only [Tern.scheduleTcb, bind_eq_ok, assert_eq_ok, bne_iff_ne] at hk
    exact hk.choose_spec.1 (h.state.trans (hresume rfl))
  | suspends hk =>
    refine h.suspendTcb ?_ hk
    rintro rfl
    exact hsuspend rfl

end Parked

/-- The thread is on no wait queue, and the two directions of the run queue agree
about its node. -/
def WaitsNowhere (k : Kernel) (t : Word) : Prop :=
  k.nodes.Agrees (.run t) ∧ k.nodes.Detached (.sendReceive t)

/-- On lists that are in order, that is to wait on no queue. -/
theorem Represents.waitsNowhere_iff {v : View} (h : Represents k v) :
    WaitsNowhere k t ↔ v.Unlinked t := by
  constructor
  · rintro ⟨-, hdetached⟩ q hq
    have hreach : InQueue k q t := (h.inQueue_iff q).mpr hq
    refine hdetached.not_reach ?_ hreach
    cases q <;> nofun
  · intro hlink
    exact ⟨h.rings.agrees _, h.rings.detached (View.free_sendReceive hlink)⟩

/-- Taken off the run queue, such a thread is out of reach. -/
theorem WaitsNowhere.suspended (h : WaitsNowhere k t) (hr : k.returnToTcb ≠ some t)
    (hk : suspendTcb k t = .ok k') : Parked k' .suspended t := by
  simp only [suspendTcb, bind_eq_ok, pure_eq_ok, removeFromList_eq_ok] at hk
  obtain ⟨nodes, ⟨p, n, hp, hn, rfl⟩, rfl⟩ := hk
  refine ⟨?_, ?_, hr⟩
  · simp only [Kernel.withNodes, Kernel.setState, Kernel.modifyTcb_tcbs, if_true]
  · rintro a (rfl | rfl)
    · exact h.1.spliceOut hp hn
    · exact h.2.spliceOut (by rintro ⟨⟩) hp hn

/-- A killed thread that waits nowhere is out of reach once another is chosen. -/
theorem WaitsNowhere.killed {k₁ : Kernel} (h : WaitsNowhere k t) (hc : k.currentTcb = some t)
    (hkill : killTcb k t = .ok k₁) (hk : schedule k₁ = .ok k') : Parked k' .dead t := by
  simp only [killTcb, destroyTcb, bind_eq_ok, assert_eq_ok, pure_eq_ok] at hkill
  obtain ⟨-, ⟨-, hempty, -⟩, rfl⟩ := hkill
  have hstate : ((k.setState t .dead).tcbs t).state = .dead := by
    simp only [Kernel.setState, Kernel.modifyTcb_tcbs, if_true]
  have hstopped : currentRuns (k.setState t .dead) = false := by
    simp only [currentRuns, show (k.setState t .dead).currentTcb = some t from hc, hstate]
    rfl
  -- `destroy_tcb` has seen that the node in the run queue is linked to itself
  have hself : k.nodes.next (.run t) = some (.run t) := by
    simpa [isListEmpty, Kernel.setState, Kernel.modifyTcb] using hempty
  have hparked : Parked { k.setState t .dead with returnToTcb := none } .dead t := by
    refine ⟨hstate, ?_, by rintro ⟨⟩⟩
    rintro a (rfl | rfl)
    · exact Links.Idle.detached (.inr ⟨hself, (h.1 _).1.mp hself⟩) h.1
    · exact h.2
  rw [← Parked.schedule_of_stopped hstopped none] at hk
  exact hparked.schedule hk

theorem Parked.waitsNowhere (h : Parked k s t) : WaitsNowhere k t :=
  ⟨(h.nodes _ (.inl rfl)).agrees, h.nodes _ (.inr rfl)⟩

/-- An entry leaves a thread out of reach, unless it resumes it, or suspends it
when it is dead. -/
theorem KernelStep.parked {e : Entry} (hstep : KernelStep P k e k')
    (hretype : ∀ f obj, e = .syscall f → ¬ Invokes k f .untypedRetype obj)
    (hs : s = .dead ∨ s = .suspended) (h : Parked k s t) (hc : k.currentTcb ≠ some t)
    (hresume : e.Makes k (.resume t) → s = .dead)
    (hsuspend : e.Makes k (.suspend t) → s = .suspended) :
    Parked k' s t ∧ k'.currentTcb ≠ some t := by
  obtain ⟨k₁, ⟨m, k₀, k₂, hm, hbefore, hb, hafter⟩, hreturn⟩ := hstep.handled hretype
  have h₀ := h.same hbefore.places
  have h₂ : Parked k₂ s t := by
    by_cases hself : m = .suspend t
    · subst hself
      obtain rfl := hsuspend hm
      cases hb with
      | suspends hk => exact h₀.waitsNowhere.suspended h₀.returnTo hk
    · refine h₀.body hs ?_ hb (fun e => hresume (e ▸ hm)) hself
      rw [hbefore.current]
      exact hc
  refine (h₂.same hafter.places).leave ?_ hreturn
  rcases hs with rfl | rfl <;> nofun

/-- Out of reach in one state, out of reach in every later one. -/
theorem Parked.reached {ok : Kernel → Entry → Prop} (hs : s = .dead ∨ s = .suspended)
    (h : Parked k s t) (hc : k.currentTcb ≠ some t)
    (hresume : ∀ k e, ok k e → e.Makes k (.resume t) → s = .dead)
    (hsuspend : ∀ k e, ok k e → (k.tcbs t).state = s → e.Makes k (.suspend t) → s = .suspended)
    (hrun : ((kernelSystem P).startingAt k).ReachedBy ok k') :
    Parked k' s t ∧ k'.currentTcb ≠ some t := by
  refine hrun.invariant (I := fun k => Parked k s t ∧ k.currentTcb ≠ some t) ?_ ?_
  · rintro k₁ rfl
    exact ⟨h, hc⟩
  · rintro k₁ e k₂ ⟨h₁, hc₁⟩ hok ⟨hstep, hretype⟩
    exact hstep.parked hretype hs h₁ hc₁ (hresume k₁ e hok) (hsuspend k₁ e hok h₁.state)

end Tern
