import Tern.Syscall

/-! Frames: what the functions of the kernel leave alone. `SameView` says that
no thread, no list and no event was touched, `SameSignals` that no notification
word changed and nothing was signalled or delivered, `Quiet` says both. -/

namespace Tern

@[simp] theorem Kernel.modifyTcb_tcbs (k : Kernel) (t x : Word) (f : Tcb → Tcb) :
    (k.modifyTcb t f).tcbs x = if x = t then f (k.tcbs t) else k.tcbs x := by
  simp [modifyTcb, Function.update_apply]

/-- Threads, lists and events are as before. -/
structure SameView (k k' : Kernel) : Prop where
  state : ∀ t, (k'.tcbs t).state = (k.tcbs t).state
  expectsReply : ∀ t, (k'.tcbs t).expectsReply = (k.tcbs t).expectsReply
  replyTo : ∀ t, (k'.tcbs t).replyTo = (k.tcbs t).replyTo
  nodes : k'.nodes = k.nodes
  current : k'.currentTcb = k.currentTcb
  returnTo : k'.returnToTcb = k.returnToTcb
  history : k'.history = k.history

namespace SameView

variable {k k' k'' : Kernel}

theorem refl (k : Kernel) : SameView k k := ⟨fun _ => rfl, fun _ => rfl, fun _ => rfl, rfl, rfl, rfl, rfl⟩

/-- Changes outside the threads, the lists and the history. -/
theorem of_eq (htcbs : k'.tcbs = k.tcbs) (hnodes : k'.nodes = k.nodes)
    (hcurrent : k'.currentTcb = k.currentTcb) (hreturn : k'.returnToTcb = k.returnToTcb)
    (hhistory : k'.history = k.history) : SameView k k' := by
  refine ⟨fun t => ?_, fun t => ?_, fun t => ?_, hnodes, hcurrent, hreturn, hhistory⟩ <;> rw [htcbs]

theorem trans (h : SameView k k') (h' : SameView k' k'') : SameView k k'' :=
  ⟨fun t => (h'.state t).trans (h.state t), fun t => (h'.expectsReply t).trans (h.expectsReply t),
    fun t => (h'.replyTo t).trans (h.replyTo t), h'.nodes.trans h.nodes,
    h'.current.trans h.current, h'.returnTo.trans h.returnTo, h'.history.trans h.history⟩

/-- A change to the other fields of a TCB. -/
theorem modifyTcb (k : Kernel) (t : Word) (f : Tcb → Tcb) (hstate : ∀ c, (f c).state = c.state)
    (hexpects : ∀ c, (f c).expectsReply = c.expectsReply)
    (hreply : ∀ c, (f c).replyTo = c.replyTo) : SameView k (k.modifyTcb t f) := by
  refine ⟨fun x => ?_, fun x => ?_, fun x => ?_, rfl, rfl, rfl, rfl⟩ <;>
    rw [Kernel.modifyTcb_tcbs] <;> split
  · next e => rw [e, hstate]
  · rfl
  · next e => rw [e, hexpects]
  · rfl
  · next e => rw [e, hreply]
  · rfl

end SameView

/-- No pending word changed, nothing was signalled or delivered. -/
structure SameSignals (k k' : Kernel) : Prop where
  word : ∀ n, (k'.notifications n).word = (k.notifications n).word
  signals : k'.signals = k.signals

structure Quiet (k k' : Kernel) : Prop where
  view : SameView k k'
  signals : SameSignals k k'

namespace SameSignals

variable {k k' k'' : Kernel}

theorem refl (k : Kernel) : SameSignals k k := ⟨fun _ => rfl, rfl⟩

theorem of_eq (hn : k'.notifications = k.notifications) (hs : k'.signals = k.signals) :
    SameSignals k k' :=
  ⟨fun _ => by rw [hn], hs⟩

theorem trans (h : SameSignals k k') (h' : SameSignals k' k'') : SameSignals k k'' :=
  ⟨fun n => (h'.word n).trans (h.word n), h'.signals.trans h.signals⟩

end SameSignals

namespace Quiet

variable {k k' k'' : Kernel}

theorem refl (k : Kernel) : Quiet k k := ⟨.refl k, .refl k⟩

theorem of_eq (htcbs : k'.tcbs = k.tcbs) (hnodes : k'.nodes = k.nodes)
    (hcurrent : k'.currentTcb = k.currentTcb) (hreturn : k'.returnToTcb = k.returnToTcb)
    (hhistory : k'.history = k.history)
    (hword : ∀ n, (k'.notifications n).word = (k.notifications n).word)
    (hsignals : k'.signals = k.signals) : Quiet k k' :=
  ⟨.of_eq htcbs hnodes hcurrent hreturn hhistory, hword, hsignals⟩

theorem trans (h : Quiet k k') (h' : Quiet k' k'') : Quiet k k'' :=
  ⟨h.view.trans h'.view, h.signals.trans h'.signals⟩

theorem modifyTcb (k : Kernel) (t : Word) (f : Tcb → Tcb) (hstate : ∀ c, (f c).state = c.state)
    (hexpects : ∀ c, (f c).expectsReply = c.expectsReply)
    (hreply : ∀ c, (f c).replyTo = c.replyTo) : Quiet k (k.modifyTcb t f) :=
  ⟨.modifyTcb k t f hstate hexpects hreply, .of_eq rfl rfl⟩

end Quiet

variable {k k' : Kernel} {t : Word} {tag tag' : MessageTag}

/-! ## Data that no list depends on -/

theorem setIpcResult_quiet (hk : setIpcResult k t tag = .ok k') : Quiet k k' := by
  simp only [setIpcResult, bind_eq_ok, pure_eq_ok] at hk
  obtain ⟨f, -, rfl⟩ := hk
  split
  · exact Quiet.modifyTcb k t _ (fun _ => rfl) (fun _ => rfl) (fun _ => rfl)
  · exact Quiet.modifyTcb k t _ (fun _ => rfl) (fun _ => rfl) (fun _ => rfl)

theorem setMrs_quiet {l : List Word} {k : Kernel} {i : Nat} (hk : setMrs k i l = .ok k') :
    Quiet k k' := by
  induction l generalizing k i with
  | nil =>
    cases hk
    exact .refl _
  | cons w l ih =>
    simp only [setMrs, setMr, bind_eq_ok, pure_eq_ok] at hk
    obtain ⟨k₁, ⟨p, -, rfl⟩, hk⟩ := hk
    refine Quiet.trans ?_ (ih hk)
    exact .of_eq rfl rfl rfl rfl rfl (fun _ => rfl) rfl

theorem answer_quiet {r : Reply} (hk : answer k r = .ok (tag, k')) : Quiet k k' := by
  simp only [answer, bind_eq_ok, pure_eq_ok, Prod.mk.injEq] at hk
  obtain ⟨k₁, hset, -, rfl⟩ := hk
  exact setMrs_quiet hset

theorem saveFrameOnTcb_quiet (k : Kernel) (f : Frame) : Quiet k (saveFrameOnTcb k f) := by
  unfold saveFrameOnTcb
  split
  · split
    · exact Quiet.modifyTcb k _ _ (fun _ => rfl) (fun _ => rfl) (fun _ => rfl)
    · exact .refl k
  · exact .refl k

theorem transferCap_quiet {s r sbuf buf : Word}
    (hk : transferCap k s r sbuf buf tag = .ok (tag', k')) : Quiet k k' := by
  unfold transferCap at hk
  split at hk
  · cases hk
    exact .refl k
  · simp only [bind_eq_ok] at hk
    obtain ⟨x, -, hk⟩ := hk
    cases x with
    | error e =>
      cases hk
      exact .refl k
    | ok cap =>
      simp only [bind_eq_ok] at hk
      obtain ⟨y, -, hk⟩ := hk
      cases y with
      | error e =>
        cases hk
        exact .refl k
      | ok recvSlot =>
        cases hk
        exact .of_eq rfl rfl rfl rfl rfl (fun _ => rfl) rfl

theorem onSlots_quiet {x : Result (Reply × Slots)} {r : Reply} (hk : onSlots k x = .ok (r, k')) :
    Quiet k k' := by
  simp only [onSlots, bind_eq_ok, pure_eq_ok, Prod.mk.injEq] at hk
  obtain ⟨-, -, -, rfl⟩ := hk
  exact .of_eq rfl rfl rfl rfl rfl (fun _ => rfl) rfl

theorem mapEntry_quiet (k : Kernel) (above : List (Word × Word)) (entry value : Word) :
    Quiet k (mapEntry k above entry value).2 := by
  unfold mapEntry
  split
  · exact .refl k
  · split
    · exact .refl k
    · exact .of_eq rfl rfl rfl rfl rfl (fun _ => rfl) rfl

theorem tcbBindNotification_quiet (k : Kernel) (cap notification : Word) :
    Quiet k (tcbBindNotification k cap notification).2 := by
  have hbind := Quiet.modifyTcb k (capPtr (k.slots cap).cap)
    (fun c => { c with boundNotification := pointer (capPtr (k.slots notification).cap) })
    (fun _ => rfl) (fun _ => rfl) (fun _ => rfl)
  simp only [tcbBindNotification]
  split
  · exact .refl k
  · split
    · exact .refl k
    · refine hbind.trans (.of_eq rfl rfl rfl rfl rfl (fun n => ?_) rfl)
      simp only [Kernel.modifyTcb, Function.update_apply]
      split
      · next e => rw [e]
      · rfl

theorem tcbSetTlsBase_quiet (k : Kernel) (cap tlsBase : Word) :
    Quiet k (tcbSetTlsBase k cap tlsBase).2 := by
  have hset := Quiet.modifyTcb k (capPtr (k.slots cap).cap) (fun c => { c with tlsBase })
    (fun _ => rfl) (fun _ => rfl) (fun _ => rfl)
  simp only [tcbSetTlsBase]
  split
  · exact hset.trans (.of_eq rfl rfl rfl rfl rfl (fun _ => rfl) rfl)
  · exact hset

/-- The methods other than `tcb_resume`, `tcb_suspend` and `untyped_retype`. -/
theorem invokeMethod_quiet {P : Platform} {fuel : Nat} {slot : Word} {mr cap : Nat → Word}
    {m : Method} {r : Reply} (hk : invokeMethod P fuel k slot mr cap m = .ok (r, k'))
    (hm : m ≠ .tcbResume ∧ m ≠ .tcbSuspend ∧ m ≠ .untypedRetype) : Quiet k k' := by
  cases m <;> simp only [invokeMethod] at hk
  case tcbResume => exact absurd rfl hm.1
  case tcbSuspend => exact absurd rfl hm.2.1
  case untypedRetype => exact absurd rfl hm.2.2
  case cnodeCopy | cnodeDelete | cnodeMint | cnodeRevoke | cnodeDebugGet | ioPortControlIssue =>
    exact onSlots_quiet hk
  case cnodeDebugPrint | tcbSetName =>
    cases hk
    exact .refl k
  case tcbConfigure =>
    cases hk
    refine Quiet.trans ?_ (Quiet.modifyTcb _ _ _ (fun _ => rfl) (fun _ => rfl) fun _ => rfl)
    exact .of_eq rfl rfl rfl rfl rfl (fun _ => rfl) rfl
  case tcbReadRegisters =>
    cases hk
    exact .of_eq rfl rfl rfl rfl rfl (fun _ => rfl) rfl
  case tcbWriteRegisters | tcbSetDebug =>
    cases hk
    exact Quiet.modifyTcb _ _ _ (fun _ => rfl) (fun _ => rfl) (fun _ => rfl)
  case tcbSetTlsBase =>
    obtain rfl := congrArg Prod.snd (Except.ok.inj hk)
    exact tcbSetTlsBase_quiet k _ _
  case tcbBindNotification =>
    obtain rfl := congrArg Prod.snd (Except.ok.inj hk)
    exact tcbBindNotification_quiet k _ _
  case ioPortIn8 | ioPortIn16 | ioPortIn32 | ioPortOut8 | ioPortOut16 | ioPortOut32 =>
    simp only [Except.ok.injEq, ioPortIn, ioPortOut] at hk
    split at hk <;> cases hk
    · exact .refl k
    · exact .of_eq rfl rfl rfl rfl rfl (fun _ => rfl) rfl
  case pdptMap =>
    obtain rfl := congrArg Prod.snd (Except.ok.inj hk)
    refine Quiet.trans ?_ (mapEntry_quiet _ _ _ _)
    exact .of_eq rfl rfl rfl rfl rfl (fun _ => rfl) rfl
  case pdMap | ptMap | pageMap | hugePageMap =>
    obtain rfl := congrArg Prod.snd (Except.ok.inj hk)
    exact mapEntry_quiet k _ _ _
  case irqControlGet =>
    rcases irqControlGet_cases hk with ⟨-, rfl⟩ | ⟨dest, -, -, -, -, -, rfl⟩
    · exact .refl k'
    · exact .of_eq rfl rfl rfl rfl rfl (fun _ => rfl) rfl
  case irqHandlerAck | irqHandlerClear | irqHandlerSetNotification =>
    cases hk
    exact .of_eq rfl rfl rfl rfl rfl (fun _ => rfl) rfl

/-! ## Scheduling -/

theorem scheduleTcb_signals (hk : scheduleTcb k t = .ok k') : SameSignals k k' := by
  simp only [scheduleTcb, bind_eq_ok, pure_eq_ok] at hk
  obtain ⟨-, -, nodes, -, rfl⟩ := hk
  exact .of_eq rfl rfl

theorem suspendTcb_signals (hk : suspendTcb k t = .ok k') : SameSignals k k' := by
  simp only [suspendTcb, bind_eq_ok, pure_eq_ok] at hk
  obtain ⟨nodes, -, rfl⟩ := hk
  exact .of_eq rfl rfl

theorem pickNextTcb_signals {next : Option Word} (hk : pickNextTcb k = .ok (next, k')) :
    SameSignals k k' := by
  unfold pickNextTcb at hk
  split at hk
  · cases hk
    exact .refl k
  · simp only [bind_eq_ok, pure_eq_ok, Prod.mk.injEq] at hk
    obtain ⟨-, -, -, -, -, rfl⟩ := hk
    exact .of_eq rfl rfl

theorem schedule_signals (hk : schedule k = .ok k') : SameSignals k k' := by
  simp only [schedule, bind_eq_ok] at hk
  obtain ⟨⟨next, k₁⟩, hpick, hk⟩ := hk
  have hsame := pickNextTcb_signals hpick
  cases next with
  | none =>
    dsimp only at hk
    split at hk <;> cases hk
    · exact hsame
    · exact hsame.trans (.of_eq rfl rfl)
  | some t =>
    cases hk
    exact hsame.trans (.of_eq rfl rfl)

theorem killTcb_signals (hk : killTcb k t = .ok k') : SameSignals k k' := by
  simp only [killTcb, bind_eq_ok, pure_eq_ok] at hk
  obtain ⟨-, -, rfl⟩ := hk
  exact .of_eq rfl rfl

theorem saveCurrent_quiet (hk : saveCurrent k = .ok k') : Quiet k k' := by
  unfold saveCurrent at hk
  split at hk
  · split at hk
    · unfold saveTcbState at hk
      split at hk
      · cases hk
        exact Quiet.modifyTcb k _ _ (fun _ => rfl) (fun _ => rfl) (fun _ => rfl)
      · cases hk
    · cases hk
      exact .refl k
  · cases hk
    exact .refl k

theorem switchTcbActual_signals {dm : DirectMap} (hk : switchTcbActual dm k t = .ok k') :
    SameSignals k k' := by
  simp only [switchTcbActual, bind_eq_ok, pure_eq_ok] at hk
  obtain ⟨-, -, k₁, hsave, k₂, hresched, -, -, rfl⟩ := hk
  have h₁ := (saveCurrent_quiet hsave).signals
  have h₂ : SameSignals k₁ k₂ := by
    unfold rescheduleCurrent at hresched
    split at hresched
    · split at hresched
      · exact scheduleTcb_signals hresched
      · cases hresched
        exact .refl k₁
    · cases hresched
      exact .refl k₁
  exact (h₁.trans h₂).trans (.of_eq rfl rfl)

theorem returnFromKernelCode_signals {dm : DirectMap} (hk : returnFromKernelCode dm k = .ok k') :
    SameSignals k k' := by
  unfold returnFromKernelCode at hk
  split at hk
  · cases hk
    exact .refl k
  · split at hk
    · exact switchTcbActual_signals hk
    · simp only [bind_eq_ok, pure_eq_ok] at hk
      obtain ⟨k₁, hsave, rfl⟩ := hk
      exact (saveCurrent_quiet hsave).signals.trans (.of_eq rfl rfl)

end Tern
