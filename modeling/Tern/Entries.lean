import Tern.Frames

/-! Kernel entries taken apart, once for all invariants. Between the saving of
the frame and `return_from_kernel_code` an entry calls a few of the functions on
threads and lists, one constructor of `Body` for each way; everything else it
does is to data that no list depends on. -/

namespace Tern

variable {P : Platform} {fuel : Nat} {k k' : Kernel} {f : Frame} {slot t : Word} {tag : MessageTag}

/-- The entries that need a condition, and all others. -/
inductive Move
  | plain
  | reply (t c : Word)
  | resume (u : Word)
  | suspend (u : Word)
  | killedWait (t : Word)

/-- The notification is bound to a thread, and that is not `t`. -/
def BoundToOther (k : Kernel) (n t : Word) : Prop :=
  (k.notifications n).boundTcb.isSome ∧ (k.notifications n).boundTcb ≠ some t

/-- The entry may turn out to be the move. -/
def Entry.Makes (k : Kernel) : Entry → Move → Prop
  | _, .plain => True
  | .syscall f, .reply _ _ => Replies k f
  | .syscall f, .resume u => Invokes k f .tcbResume u
  | .syscall f, .suspend u => Invokes k f .tcbSuspend u
  | .syscall f, .killedWait t =>
    ∃ n, WaitsOn k f n ∧ BoundToOther k n t ∧ (k.notifications n).word = 0#64
  | .interrupt _, _ => False

/-- What `send` and `call` do to the caller before they look at the endpoint. -/
def Kernel.prepared (k : Kernel) (s : Word) : Bool → Kernel
  | true => ((setExpectsReply k s true).setState s .calling).noted (.called s)
  | false => setExpectsReply k s false

/-- What a receive comes down to. -/
inductive Receipt (k : Kernel) : Kernel → Prop
  | same {k' : Kernel} : SameView k k' → Receipt k k'
  | recv {e : Word} {tag : MessageTag} {k' : Kernel} : endpointRecv k e = .ok (tag, k') →
      Receipt k k'
  | nbrecv {e : Word} {tag : MessageTag} {k' : Kernel} : endpointNbrecv k e = .ok (tag, k') →
      Receipt k k'

/-- What an entry does to threads and lists, by the functions that it calls. -/
inductive Body (k : Kernel) : Move → Kernel → Prop
  | stays : Body k .plain k
  | exits {t : Word} {k₁ k' : Kernel} : k.currentTcb = some t → killTcb k t = .ok k₁ →
      schedule k₁ = .ok k' → Body k .plain k'
  | yields {k' : Kernel} : schedule k = .ok k' → Body k .plain k'
  | sends {t e badge : Word} {tag : MessageTag} {isCall : Bool} {k' : Kernel} :
      k.currentTcb = some t → endpointSend (k.prepared t isCall) e badge tag isCall = .ok k' →
      Body k .plain k'
  | receives {t : Word} {k' : Kernel} : k.currentTcb = some t → Receipt k k' → Body k .plain k'
  | replies {t c : Word} {tag : MessageTag} {k₁ k' : Kernel} : k.currentTcb = some t →
      (k.tcbs t).replyTo = some c → (k.tcbs c).state = .calling → invokeReply k tag = .ok k₁ →
      Receipt k₁ k' → Body k (.reply t c) k'
  | signals {n badge : Word} {k' : Kernel} : notificationSignal k n badge = .ok k' →
      Body k .plain k'
  | waits {t n : Word} {tag : MessageTag} {k' : Kernel} : k.currentTcb = some t →
      queueReceiverOnNotification k n = .ok (tag, k') → Body k .plain k'
  | waitsKilled {t n : Word} {tag : MessageTag} {k₁ k₂ k' : Kernel} : k.currentTcb = some t →
      killTcb k t = .ok k₁ → schedule k₁ = .ok k₂ →
      queueReceiverOnNotification k₂ n = .ok (tag, k') → Body k (.killedWait t) k'
  | resumes {u : Word} {k' : Kernel} : scheduleTcb k u = .ok k' → Body k (.resume u) k'
  | suspends {u : Word} {k' : Kernel} : suspendTcb k u = .ok k' → Body k (.suspend u) k'

/-- The entry has done one of the moves that its arguments allow, between changes
to other data. -/
def Handled (k : Kernel) (e : Entry) (k' : Kernel) : Prop :=
  ∃ m k₀ k₁, e.Makes k m ∧ SameView k k₀ ∧ Body k₀ m k₁ ∧ SameView k₁ k'

variable {e : Entry}

theorem Handled.of_same (h : SameView k k') : Handled k e k' :=
  ⟨.plain, k, k, by cases e <;> trivial, .refl k, .stays, h⟩

theorem Body.handled {m : Move} (hm : e.Makes k m) (hb : Body k m k') : Handled k e k' :=
  ⟨m, k, k', hm, .refl k, hb, .refl k'⟩

theorem Handled.trans {k'' : Kernel} (h : Handled k e k') (hs : SameView k' k'') :
    Handled k e k'' := by
  obtain ⟨m, k₀, k₁, hm, hbefore, hb, hafter⟩ := h
  exact ⟨m, k₀, k₁, hm, hbefore, hb, hafter.trans hs⟩

theorem Entry.makes_plain (k : Kernel) (e : Entry) : e.Makes k .plain := by
  cases e <;> trivial

/-! ## Endpoints and notifications -/

theorem handleRecvWithPendingNotification_same
    (hk : handleRecvWithPendingNotification k = .ok (some k')) : SameView k k' := by
  simp only [handleRecvWithPendingNotification, bind_eq_ok] at hk
  obtain ⟨this, -, hk⟩ := hk
  split at hk
  · cases hk
  · split at hk
    · cases hk
    · simp only [bind_eq_ok, pure_eq_ok, Option.some.injEq] at hk
      obtain ⟨buffer, -, rfl⟩ := hk
      exact .of_eq rfl rfl rfl rfl rfl

theorem invokeEndpointRecv_receipt {cap : Word} (hk : invokeEndpointRecv k cap = .ok (tag, k')) :
    Receipt k k' := by
  simp only [invokeEndpointRecv, bind_eq_ok] at hk
  obtain ⟨-, -, pending, hpending, hk⟩ := hk
  cases pending with
  | some k₁ =>
    cases hk
    exact .same (handleRecvWithPendingNotification_same hpending)
  | none => exact .recv hk

theorem invokeEndpointNbrecv_receipt {cap : Word}
    (hk : invokeEndpointNbrecv k cap = .ok (tag, k')) : Receipt k k' := by
  simp only [invokeEndpointNbrecv, bind_eq_ok] at hk
  obtain ⟨-, -, pending, hpending, hk⟩ := hk
  cases pending with
  | some k₁ =>
    cases hk
    exact .same (handleRecvWithPendingNotification_same hpending)
  | none => exact .nbrecv hk

/-- A reply goes to the thread in `reply_to`, which waits for it. -/
theorem invokeReply_client (hk : invokeReply k tag = .ok k') :
    ∃ t c, k.currentTcb = some t ∧ (k.tcbs t).replyTo = some c ∧ (k.tcbs c).state = .calling ∧
      sendMessageDirectly (k.noted (.replied t c (k.tcbs t).expectsReply)) c 0#64 tag false =
        .ok k' := by
  simp only [invokeReply, thisTcb, bind_eq_ok, deref_eq_ok] at hk
  obtain ⟨t, ht, hk⟩ := hk
  cases hto : (k.tcbs t).replyTo with
  | none =>
    rw [hto] at hk
    cases hk
  | some c =>
    rw [hto] at hk
    dsimp only at hk
    split at hk
    · cases hk
    · next hs => exact ⟨t, c, ht, hto, not_not.mp hs, hk⟩

/-- A wait on a notification, of a thread that may be killed for it. -/
theorem invokeNotificationRecv_body {cap : Word} (ht : k.currentTcb = some t)
    (hk : invokeNotificationRecv k cap = .ok (tag, k')) :
    ∃ m k₁, Body k m k₁ ∧ SameView k₁ k' ∧
      (m = .plain ∨ m = .killedWait t ∧ BoundToOther k (capPtr (k.slots cap).cap) t ∧
        (k.notifications (capPtr (k.slots cap).cap)).word = 0#64) := by
  simp only [invokeNotificationRecv, thisTcb, bind_eq_ok, deref_eq_ok, ht, Option.some.injEq] at hk
  obtain ⟨-, -, this, rfl, k₁, hkill, hk⟩ := hk
  simp only [killIfBoundToOther] at hkill
  split at hkill
  · next hother =>
    simp only [bind_eq_ok] at hkill
    obtain ⟨k₂, hdead, hsched⟩ := hkill
    have hword := ((killTcb_signals hdead).trans (schedule_signals hsched)).word
      (capPtr (k.slots cap).cap)
    split at hk
    · next hzero =>
      exact ⟨_, k', .waitsKilled ht hdead hsched hk, .refl k',
        .inr ⟨rfl, hother, hword.symm.trans hzero⟩⟩
    · cases hk
      exact ⟨.plain, k₁, .exits ht hdead hsched, .of_eq rfl rfl rfl rfl rfl, .inl rfl⟩
  · cases hkill
    split at hk
    · exact ⟨.plain, k', .waits ht hk, .refl k', .inl rfl⟩
    · cases hk
      exact ⟨.plain, k, .stays, .of_eq rfl rfl rfl rfl rfl, .inl rfl⟩

/-! ## System calls -/

theorem opSyscallPlain_handled {number : SyscallNumber} (hn : f.number = some number)
    (hk : opSyscallPlain k f.tag number = some (.ok (tag, k'))) : Handled k (.syscall f) k' := by
  have hplain := Entry.makes_plain k (.syscall f)
  cases number <;> simp only [opSyscallPlain, Option.some.injEq, reduceCtorEq] at hk
  case exit =>
    simp only [thisTcb, bind_eq_ok, deref_eq_ok, pure_eq_ok, Prod.mk.injEq] at hk
    obtain ⟨t, ht, k₁, hdead, k₂, hsched, -, rfl⟩ := hk
    exact (Body.exits ht hdead hsched).handled hplain
  case debugWrite =>
    cases hk
    exact .of_same (.refl k)
  case yield =>
    simp only [bind_eq_ok, pure_eq_ok, Prod.mk.injEq] at hk
    obtain ⟨k₁, hsched, -, rfl⟩ := hk
    exact (Body.yields hsched).handled hplain
  case reply =>
    simp only [bind_eq_ok, pure_eq_ok, Prod.mk.injEq] at hk
    obtain ⟨k₁, hreply, -, rfl⟩ := hk
    obtain ⟨t, c, ht, hto, hs, -⟩ := invokeReply_client hreply
    exact (Body.replies ht hto hs hreply (.same (.refl k₁))).handled
      (show Entry.Makes k (.syscall f) (.reply t c) from .inl hn)

/-- A method invocation. -/
theorem dispatchMethod_handled {r : Reply} (hcall : Asks k f .call slot)
    (hretype : ∀ obj, ¬ Invokes k f .untypedRetype obj)
    (hk : dispatchMethod P fuel k slot f.tag = .ok (r, k')) : Handled k (.syscall f) k' := by
  rcases dispatchMethod_cases hk with ⟨rfl, -⟩ | ⟨m, mr, cap, hadm, hk⟩
  · exact .of_same (.refl _)
  have hinv : Invokes k f m (capPtr (k.slots slot).cap) :=
    ⟨slot, hcall, hadm.type, hadm.label, rfl⟩
  by_cases hm : m ≠ .tcbResume ∧ m ≠ .tcbSuspend ∧ m ≠ .untypedRetype
  · exact .of_same (invokeMethod_quiet hk hm).view
  obtain rfl | rfl | rfl : m = .tcbResume ∨ m = .tcbSuspend ∨ m = .untypedRetype := by tauto
  · simp only [invokeMethod, tcbResume, bind_eq_ok, pure_eq_ok, Prod.mk.injEq] at hk
    obtain ⟨k₁, hsched, -, rfl⟩ := hk
    exact (Body.resumes hsched).handled (show Entry.Makes k (.syscall f) (.resume _) from hinv)
  · simp only [invokeMethod, tcbSuspend, bind_eq_ok, pure_eq_ok, Prod.mk.injEq] at hk
    obtain ⟨k₁, hsuspend, -, rfl⟩ := hk
    exact (Body.suspends hsuspend).handled (show Entry.Makes k (.syscall f) (.suspend _) from hinv)
  · exact absurd hinv (hretype _)

/-- A system call on the capability in `slot`. -/
theorem opSyscallOn_handled (ht : k.currentTcb = some t)
    (hslot : lookupCapSlot k.slots (cspaceRootOf t) f.rdi 64#64 = .ok (.ok slot))
    (hretype : ∀ obj, ¬ Invokes k f .untypedRetype obj)
    (hk : opSyscallOn P fuel k slot f.tag f.number = .ok (tag, k')) :
    Handled k (.syscall f) k' := by
  have hasks : ∀ {number : SyscallNumber}, f.number = some number → Asks k f number slot :=
    fun hn => ⟨hn, t, ht, hslot⟩
  have hplain := Entry.makes_plain k (.syscall f)
  have hsame : Handled k (.syscall f) k := .of_same (.refl k)
  unfold opSyscallOn at hk
  split at hk
  · next hn =>
    -- call
    split at hk
    · simp only [bind_eq_ok] at hk
      obtain ⟨⟨r, k₁⟩, hd, ha⟩ := hk
      exact (dispatchMethod_handled (hasks hn) hretype hd).trans (answer_quiet ha).view
    · simp only [bind_eq_ok, pure_eq_ok, Prod.mk.injEq, invokeEndpointCall, thisTcb, deref_eq_ok,
        ht, Option.some.injEq] at hk
      obtain ⟨k₁, ⟨-, -, this, rfl, hcall⟩, -, rfl⟩ := hk
      exact (@Body.sends _ _ _ _ _ true _ ht hcall).handled hplain
  · -- send
    split at hk
    · simp only [bind_eq_ok, pure_eq_ok, Prod.mk.injEq, invokeNotificationSend] at hk
      obtain ⟨k₁, ⟨-, -, hsignal⟩, -, rfl⟩ := hk
      exact (Body.signals hsignal).handled hplain
    · split at hk
      · simp only [bind_eq_ok, pure_eq_ok, Prod.mk.injEq, invokeEndpointSend, thisTcb, deref_eq_ok,
          ht, Option.some.injEq] at hk
        obtain ⟨k₁, ⟨-, -, this, rfl, hsend⟩, -, rfl⟩ := hk
        exact (@Body.sends _ _ _ _ _ false _ ht hsend).handled hplain
      · cases hk
        exact hsame
  · -- nbsend
    split at hk
    · cases hk
      exact hsame
    · simp only [bind_eq_ok, invokeEndpointNbsend] at hk
      obtain ⟨k₁, hpanic, -⟩ := hk
      cases hpanic
  · next hn =>
    -- recv
    split at hk
    · next htype =>
      obtain ⟨m, k₁, hb, hs, hm⟩ := invokeNotificationRecv_body ht hk
      refine ⟨m, k, k₁, ?_, .refl k, hb, hs⟩
      rcases hm with rfl | ⟨rfl, hother, hzero⟩
      · trivial
      · exact ⟨_, ⟨slot, hasks hn, htype, rfl⟩, hother, hzero⟩
    · split at hk
      · exact (Body.receives ht (invokeEndpointRecv_receipt hk)).handled hplain
      · cases hk
        exact hsame
  · -- nbrecv
    split at hk
    · cases hk
      exact hsame
    · exact (Body.receives ht (invokeEndpointNbrecv_receipt hk)).handled hplain
  · next hn =>
    -- reply_recv
    split at hk
    · cases hk
      exact hsame
    · next htype =>
      simp only [invokeReplyRecv, bind_eq_ok] at hk
      obtain ⟨k₁, hreply, hrecv⟩ := hk
      obtain ⟨t', c, ht', hto, hs, -⟩ := invokeReply_client hreply
      have hb := Body.replies ht' hto hs hreply (invokeEndpointRecv_receipt hrecv)
      exact hb.handled (show Entry.Makes k (.syscall f) (.reply t' c) from
        .inr ⟨slot, hasks hn, not_not.mp htype⟩)
  · cases hk
    exact hsame

theorem opSyscall_handled (hretype : ∀ obj, ¬ Invokes k f .untypedRetype obj)
    (hk : opSyscall P fuel k f.rdi f.rsi (f.rax.setWidth 32) = .ok (tag, k')) :
    Handled k (.syscall f) k' := by
  simp only [opSyscall] at hk
  split at hk
  · next x hx =>
    subst hk
    obtain ⟨number, hn, hx⟩ := Option.bind_eq_some_iff.mp hx
    exact opSyscallPlain_handled hn hx
  · simp only [thisTcb, bind_eq_ok, deref_eq_ok] at hk
    obtain ⟨t, ht, y, hy, hk⟩ := hk
    cases y with
    | error e => exact .of_same (answer_quiet hk).view
    | ok slot => exact opSyscallOn_handled ht hy hretype hk

theorem doSyscall_handled (hretype : ∀ obj, ¬ Invokes k f .untypedRetype obj)
    (hk : doSyscall P fuel k f.rdi f.rsi (f.rax.setWidth 32) = .ok k') :
    Handled k (.syscall f) k' := by
  simp only [doSyscall, bind_eq_ok] at hk
  obtain ⟨⟨tag, k₁⟩, hop, hresult⟩ := hk
  have hhandled := opSyscall_handled hretype hop
  dsimp only at hresult
  split at hresult
  · cases hresult
    exact hhandled
  · simp only [bind_eq_ok] at hresult
    obtain ⟨t, -, hresult⟩ := hresult
    exact hhandled.trans (setIpcResult_quiet hresult).view

/-- An interrupt signals the notification of its handler, or nothing. -/
theorem handleInterrupt_handled (hk : handleInterrupt P k f = .ok k') :
    Handled k (.interrupt f) k' := by
  unfold handleInterrupt at hk
  split at hk
  · simp only [handleIrq] at hk
    split at hk
    · cases hk
      exact .of_same (.of_eq rfl rfl rfl rfl rfl)
    · split at hk
      · cases hk
        exact .of_same (.of_eq rfl rfl rfl rfl rfl)
      · refine ⟨.plain, _, k', trivial, ?_, .signals hk, .refl k'⟩
        exact .of_eq rfl rfl rfl rfl rfl
  · split at hk
    · cases hk
      exact .of_same (.refl _)
    · cases hk

/-! ## Whole entries -/

theorem saveFrameOnTcb_eq (k : Kernel) (f : Frame) :
    ∃ tcbs, saveFrameOnTcb k f = { k with tcbs } := by
  unfold saveFrameOnTcb
  split
  · split
    · exact ⟨_, rfl⟩
    · exact ⟨k.tcbs, rfl⟩
  · exact ⟨k.tcbs, rfl⟩

/-- What an entry asks for does not depend on IPC buffers and saved frames. -/
theorem Entry.makes_save (k : Kernel) (buffers : Word → IpcBuffer) (f : Frame) (e : Entry)
    (m : Move) : e.Makes (saveFrameOnTcb { k with buffers } f) m ↔ e.Makes k m := by
  obtain ⟨tcbs, h⟩ := saveFrameOnTcb_eq { k with buffers } f
  rw [h]
  cases e <;> cases m <;> exact Iff.rfl

/-- An entry is handled, and leaves the kernel. -/
theorem KernelStep.handled (hs : KernelStep P k e k')
    (hretype : ∀ f obj, e = .syscall f → ¬ Invokes k f .untypedRetype obj) :
    ∃ k₁, Handled k e k₁ ∧ returnFromKernelCode P.dm k₁ = .ok k' := by
  have hsaved : ∀ (buffers : Word → IpcBuffer) (f : Frame) {k₁ : Kernel},
      Handled (saveFrameOnTcb { k with buffers } f) e k₁ → Handled k e k₁ := by
    rintro buffers f k₁ ⟨m, k₀, k₂, hm, hbefore, hb, hafter⟩
    refine ⟨m, k₀, k₂, (Entry.makes_save k buffers f e m).mp hm, ?_, hb, hafter⟩
    have hbuffers : SameView k { k with buffers } := .of_eq rfl rfl rfl rfl rfl
    exact hbuffers.trans ((saveFrameOnTcb_quiet { k with buffers } f).view.trans hbefore)
  cases hs with
  | syscall fuel buffers f _ hk =>
    simp only [syscallEntry, bind_eq_ok] at hk
    obtain ⟨k₁, hcall, hreturn⟩ := hk
    refine ⟨k₁, hsaved buffers f (doSyscall_handled (fun obj hinv => ?_) hcall), hreturn⟩
    obtain ⟨tcbs, hsave⟩ := saveFrameOnTcb_eq { k with buffers } f
    rw [hsave] at hinv
    exact hretype f obj rfl hinv
  | interrupt buffers f _ hk =>
    simp only [interruptEntry, bind_eq_ok] at hk
    obtain ⟨k₁, hhandle, hreturn⟩ := hk
    exact ⟨k₁, hsaved buffers f (handleInterrupt_handled hhandle), hreturn⟩

end Tern
