import Tern.Signals
import Tern.Turns

/-! A signal and a wait, in either order. A signal that finds the thread waiting
puts the badge into its buffer and wakes it; a signal that comes first leaves
the badge in the word of the notification, and the wait that takes it from there
returns without it. -/

namespace Tern

open Lib

variable {k k' : Kernel} {v : View} {n t s b : Word}

/-! ## The two orders -/

/-- The wait of `t` is over: it runs on, with `b` in the `sender_badge` of its
buffer, and nothing is pending. -/
structure Woken (k : Kernel) (n t b : Word) : Prop where
  current : k.currentTcb = some t
  badge : ∃ buffer, (k.tcbs t).ipcBuffer = some buffer ∧ k.buffers buffer senderBadge = b
  word : (k.notifications n).word = 0#64

/-- A thread `t` about to wait on `n`, where nothing is pending and nobody waits,
and a running thread `s` about to signal it with the badge `b`: in `k` it is the
turn of `t`, in `k'` that of `s`. -/
structure Signalling (k k' : Kernel) (t s n b : Word) (wait signal : Frame)
    (slotT slotS : Word) : Prop where
  waiter : Turn k t s
  signaller : Turn k' s t
  running : (k'.tcbs s).state = .running
  same : SameMachine k k'
  wait : OnObject k.slots .notification t wait .recv slotT n
  signal : OnObject k.slots .notification s signal .send slotS n
  badge : (k.slots slotS).cap.badge = b
  word : (k.notifications n).word = 0#64
  empty : isListEmpty k.nodes (.notification n) = true
  empty' : isListEmpty k'.nodes (.notification n) = true
  noReceiver : boundReceiver k' n = none

/-- The wait and then the signal, or the signal, a yield and then the wait: both
times the thread ends up woken. -/
def EndsAlike (P : Platform) (fuel : Nat) (k k' : Kernel) (t n b : Word)
    (wait signal yield : Frame) : Prop :=
  (∃ k₁ k₂, syscallEntry P fuel k wait = .ok k₁ ∧ syscallEntry P fuel k₁ signal = .ok k₂ ∧
    Woken k₂ n t b) ∧
  ∃ k₁ k₂ k₃, syscallEntry P fuel k' signal = .ok k₁ ∧ syscallEntry P fuel k₁ yield = .ok k₂ ∧
    syscallEntry P fuel k₂ wait = .ok k₃ ∧ Woken k₃ n t b

/-! ## First the wait -/

theorem opSyscallOn_wait (P : Platform) (fuel : Nat) {slot : Word} {tag : MessageTag}
    (htype : (k.slots slot).cap.type = .notification) :
    opSyscallOn P fuel k slot tag (some .recv) = invokeNotificationRecv k slot := by
  simp [opSyscallOn, htype]

theorem opSyscallOn_signal (P : Platform) (fuel : Nat) {slot : Word} {tag : MessageTag}
    (htype : (k.slots slot).cap.type = .notification) :
    opSyscallOn P fuel k slot tag (some .send) =
      (notificationSignal k (capPtr (k.slots slot).cap) (k.slots slot).cap.badge >>= fun k =>
        .ok (.noreturn, k)) := by
  simp [opSyscallOn, htype, invokeNotificationSend, assert, bind, Except.bind, pure, Except.pure]

/-- Nothing pending: the thread blocks. -/
theorem wait_waits (P : Platform) (fuel : Nat) {wait : Frame} {slot : Word} (ht : Turn k t s)
    (he : isListEmpty k.nodes (.notification n) = true)
    (hw : OnObject k.slots .notification t wait .recv slot n)
    (hword : (k.notifications n).word = 0#64) (hb : ¬ BoundToOther k n t) :
    ∃ k₁, syscallEntry P fuel k wait = .ok k₁ ∧ Waits k k₁ t s (.notification n) ∧
      k₁.tcbs t = { k.tcbs t with
        state := .receiving
        currentUserFrame := some wait
        savedState := wait } := by
  have hobject : capPtr ((k.withFrame t wait).slots slot).cap = n := hw.object
  have htype : ((k.withFrame t wait).slots slot).cap.type = .notification := hw.type
  obtain ⟨nodes, k₁, happend, hk₁, hwaits, hself⟩ :=
    ht.receiver_waits (q := .notification n) he wait P.dm
  have happend' : appendToList (k.withFrame t wait).nodes (.sendReceive t) (.notification n) =
      .ok nodes := happend
  have hthis : thisTcb (k.withFrame t wait) = .ok t := by
    simp [thisTcb, Kernel.withFrame, Kernel.modifyTcb, ht.current]
  have hfree : ¬ BoundToOther (k.withFrame t wait) n t := hb
  have hword' : ((k.withFrame t wait).notifications n).word = 0#64 := hword
  have hkill : killIfBoundToOther (k.withFrame t wait) n t = .ok (k.withFrame t wait) :=
    if_neg hfree
  have hqueue : invokeNotificationRecv (k.withFrame t wait) slot =
      (schedule (((k.withFrame t wait).withNodes nodes).setState t .receiving) >>=
        fun k => .ok (.noreturn, k)) := by
    simp only [invokeNotificationRecv, htype, hobject, hthis, hkill, hword',
      queueReceiverOnNotification, happend', assert, beq_self_eq_true, if_true, bind, Except.bind]
    rfl
  refine ⟨k₁, ?_, hwaits, hself⟩
  rw [syscallEntry_on P fuel hw.user hw.number ht.current hw.found rfl,
    opSyscallOn_wait P fuel htype, hqueue, finish_noreturn, hk₁]

/-- `signal_waiting_receiver`, when it gets to its end: the result and the badge
are there, and the processor goes to the receiver. -/
def Kernel.told (k : Kernel) (n t buffer badge : Word) : Kernel :=
  switchTcb (((k.modifyTcb t fun c =>
    { c with savedState := { (k.tcbs t).savedState with rax := msgOk.toWord } }).setBufferWord buffer
      senderBadge badge).logged (.delivered n t badge)) t

theorem signalWaitingReceiver_told (hcurrent : k.currentTcb ≠ some t) {buffer : Word}
    (hbuffer : (k.tcbs t).ipcBuffer = some buffer) (badge : Word) :
    signalWaitingReceiver k n t badge = .ok (k.told n t buffer badge) := by
  simp [signalWaitingReceiver, setIpcResult_saved hcurrent, hbuffer, Kernel.told, deref, bind,
    Except.bind, pure, Except.pure]

theorem Represents.told (h : Represents k v) (n t buffer badge : Word) :
    Represents (k.told n t buffer badge) (v.switchTo t) := by
  have hsaved := SameView.modifyTcb k t (fun c =>
      { c with savedState := { (k.tcbs t).savedState with rax := msgOk.toWord } })
    (fun _ => rfl) (fun _ => rfl) (fun _ => rfl)
  refine Represents.switchTcb ((hsaved.trans ?_).represents h) t
  exact .of_eq rfl rfl rfl rfl rfl

theorem Kernel.told_self (k : Kernel) (n t buffer badge : Word) :
    (k.told n t buffer badge).tcbs t = { k.tcbs t with
      state := .runnable
      savedState := { (k.tcbs t).savedState with rax := msgOk.toWord } } := by
  simp [Kernel.told, switchTcb, Kernel.noted, Kernel.setState, Kernel.logged, Kernel.setBufferWord]

theorem Kernel.told_ne (k : Kernel) {x : Word} (n buffer badge : Word) (hx : x ≠ t) :
    (k.told n t buffer badge).tcbs x = k.tcbs x := by
  simp [Kernel.told, switchTcb, Kernel.noted, Kernel.setState, Kernel.logged, Kernel.setBufferWord,
    hx]

theorem Kernel.told_badge (k : Kernel) (n t buffer badge : Word) :
    (k.told n t buffer badge).buffers buffer senderBadge = badge := by
  show Function.update k.buffers buffer _ buffer senderBadge = badge
  rw [Function.update_self, Function.update_self]

/-- The badge is in the word of the notification. -/
def Kernel.pends (k : Kernel) (n badge : Word) : Kernel :=
  (k.setWord n ((k.notifications n).word ||| badge)).logged (.signalled n badge)

theorem Kernel.pends_word (k : Kernel) (n badge : Word) :
    ((k.pends n badge).notifications n).word = (k.notifications n).word ||| badge :=
  (k.setWord_word n _ n).trans (if_pos rfl)

/-- A signal takes the first thread off the queue and tells it. -/
theorem notificationSignal_wakes (h : Represents k v) (hcurrent : k.currentTcb ≠ some t)
    {l : List Word} (hwait : v.waiting (.notification n) = t :: l) {buffer : Word}
    (hbuffer : (k.tcbs t).ipcBuffer = some buffer) (badge : Word) :
    ∃ nodes, Represents (((k.pends n badge).setWord n 0#64).withNodes nodes)
        (v.dequeue (.notification n) t) ∧
      notificationSignal k n badge = .ok ((((k.pends n badge).setWord n 0#64).withNodes nodes).told
        n t buffer ((k.notifications n).word ||| badge)) := by
  have hsame : SameView k ((k.pends n badge).setWord n 0#64) := .of_eq rfl rfl rfl rfl rfl
  obtain ⟨nodes, hremove, hrep⟩ := (hsame.represents h).remove_waiting
    (hwait ▸ List.mem_cons_self : t ∈ v.waiting (.notification n))
  have hremove' : removeFromList k.nodes (.sendReceive t) = .ok nodes := hremove
  have hnonempty : ¬ isListEmpty k.nodes (.notification n) = true := by
    have hempty := h.waiting_empty (.notification n)
    rw [hwait] at hempty
    exact fun he => List.cons_ne_nil t l (hempty.mp he)
  have hfirst : k.nodes.next (.notification n) = some (.sendReceive t) :=
    h.next_waiting (q := .notification n) hwait
  have hother : (((k.pends n badge).setWord n 0#64).withNodes nodes).currentTcb ≠ some t := hcurrent
  have htold := signalWaitingReceiver_told (n := n) hother hbuffer
    ((k.notifications n).word ||| badge)
  refine ⟨nodes, hrep, ?_⟩
  simp only [notificationSignal, Kernel.logged, Kernel.setWord, hnonempty, hfirst, deref,
    Node.tcbOfSendReceive, hremove', bind, Except.bind]
  exact htold

/-- The signal finds the thread waiting. -/
theorem signal_wakes (P : Platform) (fuel : Nat) {k₁ : Kernel} {wait signal : Frame}
    {slot buffer : Word} (hw : Waits k k₁ t s (.notification n)) (hne : t ≠ s)
    (ht : k₁.tcbs t = { k.tcbs t with
        state := .receiving
        currentUserFrame := some wait
        savedState := wait })
    (hs : OnObject k.slots .notification s signal .send slot n)
    (hword : (k.notifications n).word = 0#64)
    (hbuffer : (k.tcbs t).ipcBuffer = some buffer) :
    ∃ k₂, syscallEntry P fuel k₁ signal = .ok k₂ ∧ Woken k₂ n t (k.slots slot).cap.badge := by
  obtain ⟨v, hrep, hwait, -⟩ := hw.lists
  obtain ⟨k₀, hk₀⟩ : ∃ k₀, k₀ = k₁.withFrame s signal := ⟨_, rfl⟩
  have hslots : k₀.slots = k.slots := hk₀ ▸ hw.slots
  have hcurrent : k₀.currentTcb = some s := hk₀ ▸ hw.current
  have hself : k₀.tcbs s = { k₁.tcbs s with currentUserFrame := some signal } := by
    rw [hk₀, Kernel.withFrame_self]
  have hother : k₀.tcbs t = k₁.tcbs t := by rw [hk₀, Kernel.withFrame_ne _ _ hne]
  have hzero : (k₀.notifications n).word = 0#64 := by
    rw [← hword, ← hw.notifications, hk₀]
    rfl
  have hnot : k₀.currentTcb ≠ some t := by
    rw [hcurrent]
    exact fun he => hne (Option.some.inj he).symm
  have hbuffer₀ : (k₀.tcbs t).ipcBuffer = some buffer := by rw [hother, ht, ← hbuffer]
  obtain ⟨nodes, hrep₀, hsignal⟩ := notificationSignal_wakes (hk₀ ▸ hrep.withFrame s signal) hnot
    hwait hbuffer₀ (k.slots slot).cap.badge
  rw [hzero, BitVec.zero_or] at hsignal
  obtain ⟨k₂, hk₂⟩ : ∃ k₂, k₂ = ((k₀.pends n (k.slots slot).cap.badge).setWord n 0#64).withNodes
    nodes := ⟨_, rfl⟩
  rw [← hk₂] at hrep₀ hsignal
  have htcbs : k₂.tcbs = k₀.tcbs := hk₂ ▸ rfl
  have hs₂ : (k₂.told n t buffer (k.slots slot).cap.badge).tcbs s = k₀.tcbs s := by
    rw [Kernel.told_ne k₂ n _ _ hne.symm, htcbs]
  have hcurrent₂ : (k₂.told n t buffer (k.slots slot).cap.badge).currentTcb = some s :=
    (show k₂.currentTcb = some s from hk₂ ▸ hcurrent)
  obtain ⟨k₃, hk₃, hleft, -⟩ := (hrep₀.told n t buffer (k.slots slot).cap.badge).leave P.dm
    (f := signal) hcurrent₂ rfl hne.symm (by rw [hs₂, hself]; simp [hw.runs]) (by rw [hs₂, hself])
    (by rw [Kernel.told_self])
  refine ⟨k₃, ?_, hleft.current, ⟨buffer, ?_, ?_⟩, ?_⟩
  · rw [syscallEntry_on P fuel hs.user hs.number hw.current (by rw [hw.slots]; exact hs.found) rfl,
      ← hk₀, opSyscallOn_signal P fuel (by rw [hslots]; exact hs.type), finish_noreturn, hslots,
      hs.object, hsignal]
    exact hk₃
  · rw [hleft.new, Kernel.told_self, htcbs, hother, ht]
    exact hbuffer
  · rw [hleft.buffers]
    exact Kernel.told_badge ..
  · rw [hleft.notifications]
    show (k₂.notifications n).word = 0#64
    rw [hk₂]
    exact (Kernel.setWord_word _ n _ n).trans (if_pos rfl)

/-! ## First the signal -/

theorem boundReceiver_congr (hbound : (k'.notifications n).boundTcb = (k.notifications n).boundTcb)
    (hstate : ∀ x, (k'.tcbs x).state = (k.tcbs x).state) :
    boundReceiver k' n = boundReceiver k n := by
  simp only [boundReceiver, hbound, hstate]

theorem notificationSignal_pends (he : isListEmpty k.nodes (.notification n) = true)
    (hr : boundReceiver k n = none) (badge : Word) :
    notificationSignal k n badge = .ok (k.pends n badge) := by
  have hr' : boundReceiver (k.pends n badge) n = none := by
    rw [← hr]
    refine boundReceiver_congr ?_ fun _ => rfl
    simp [Kernel.pends, Kernel.logged, Kernel.setWord]
  rw [Kernel.pends] at hr' ⊢
  simp only [notificationSignal, hr', show isListEmpty ((k.setWord n _).logged _).nodes
    (.notification n) = true from he, if_true]
  rfl

/-- Nobody waits: the badge stays in the word, and the turn with its thread. -/
theorem signal_pends (P : Platform) (fuel : Nat) {signal : Frame} {slot : Word} (hs : Turn k s t)
    (he : isListEmpty k.nodes (.notification n) = true) (hr : boundReceiver k n = none)
    (hsignal : OnObject k.slots .notification s signal .send slot n) :
    syscallEntry P fuel k signal =
        .ok ((k.withFrame s signal).pends n (k.slots slot).cap.badge) ∧
      Turn ((k.withFrame s signal).pends n (k.slots slot).cap.badge) s t := by
  obtain ⟨v, hrep, hv⟩ := hs.lists
  obtain ⟨k₀, hk₀⟩ : ∃ k₀, k₀ = k.withFrame s signal := ⟨_, rfl⟩
  have hslots : k₀.slots = k.slots := hk₀ ▸ rfl
  have hempty : isListEmpty k₀.nodes (.notification n) = true := hk₀ ▸ he
  have hnone : boundReceiver k₀ n = none := by
    have hkeep := (saveFrameOnTcb_quiet k signal).view
    rw [saveFrameOnTcb_user hs.current hsignal.user, ← hk₀] at hkeep
    rw [← hr]
    exact boundReceiver_congr (by rw [hk₀]; rfl) hkeep.state
  have hpends := notificationSignal_pends hempty hnone (k.slots slot).cap.badge
  have hreturn : (k₀.pends n (k.slots slot).cap.badge).returnToTcb =
      (k₀.pends n (k.slots slot).cap.badge).currentTcb := by
    have hreturns : k.returnToTcb = k.currentTcb := by
      rw [hrep.returnTo, hrep.current, hv.returns.returnTo]
    rw [hk₀]
    exact hreturns
  have hsame : SameView k₀ (k₀.pends n (k.slots slot).cap.badge) := .of_eq rfl rfl rfl rfl rfl
  rw [← hk₀]
  refine ⟨?_, hk₀ ▸ hs.current, hk₀ ▸ hs.next, v, hsame.represents (hk₀ ▸ hrep.withFrame s signal),
    hv⟩
  rw [syscallEntry_on P fuel hsignal.user hsignal.number hs.current hsignal.found rfl, ← hk₀,
    opSyscallOn_signal P fuel (by rw [hslots]; exact hsignal.type), finish_noreturn, hslots,
    hsignal.object, hpends]
  exact returnFromKernelCode_stays P.dm hreturn

/-- A wait that finds a word goes on at once: it takes the word, and leaves the
buffer as it is. -/
theorem wait_takes (P : Platform) (fuel : Nat) {wait : Frame} {slot : Word} (ht : Turn k t s)
    (hw : OnObject k.slots .notification t wait .recv slot n)
    (hword : (k.notifications n).word ≠ 0#64) (hb : ¬ BoundToOther k n t) :
    ∃ k₁, syscallEntry P fuel k wait = .ok k₁ ∧ k₁.currentTcb = some t ∧
      (k₁.notifications n).word = 0#64 ∧ k₁.buffers = k.buffers ∧
      (k₁.tcbs t).ipcBuffer = (k.tcbs t).ipcBuffer := by
  obtain ⟨v, hrep, hv⟩ := ht.lists
  obtain ⟨k₀, hk₀⟩ : ∃ k₀, k₀ = (k.withFrame t wait).setWord n 0#64 := ⟨_, rfl⟩
  have hobject : capPtr ((k.withFrame t wait).slots slot).cap = n := hw.object
  have htype : ((k.withFrame t wait).slots slot).cap.type = .notification := hw.type
  have hthis : thisTcb (k.withFrame t wait) = .ok t := by
    simp [thisTcb, Kernel.withFrame, Kernel.modifyTcb, ht.current]
  have hfree : ¬ BoundToOther (k.withFrame t wait) n t := hb
  have hkill : killIfBoundToOther (k.withFrame t wait) n t = .ok (k.withFrame t wait) :=
    if_neg hfree
  have hword' : ((k.withFrame t wait).notifications n).word ≠ 0#64 := hword
  have htake : invokeNotificationRecv (k.withFrame t wait) slot = .ok (msgOk, k₀) := by
    simp [invokeNotificationRecv, htype, hobject, hthis, hkill, hword', assert, hk₀, bind,
      Except.bind, pure, Except.pure]
  have hcurrent : k₀.currentTcb = some t := hk₀ ▸ ht.current
  have hself : k₀.tcbs t = { k.tcbs t with currentUserFrame := some wait } := by
    rw [hk₀]
    exact k.withFrame_self t wait
  have hframe : (k₀.tcbs t).currentUserFrame = some wait := by rw [hself]
  have hreturn : k₀.returnToTcb = k₀.currentTcb := by
    rw [hk₀]
    show k.returnToTcb = k.currentTcb
    rw [hrep.returnTo, hrep.current, hv.returns.returnTo]
  have hyes : msgOk.isNoreturn = false := by decide
  have hfinish : finishSyscall k₀ msgOk = .ok (k₀.modifyTcb t fun c =>
      { c with currentUserFrame := some { wait with rax := msgOk.toWord } }) := by
    simp [finishSyscall, hyes, thisTcb, hcurrent, deref, setIpcResult_current hcurrent hframe,
      bind, Except.bind]
  obtain ⟨k₁, hk₁⟩ : ∃ k₁, k₁ = k₀.modifyTcb t fun c =>
    { c with currentUserFrame := some { wait with rax := msgOk.toWord } } := ⟨_, rfl⟩
  rw [← hk₁] at hfinish
  refine ⟨k₁, ?_, hk₁ ▸ hcurrent, ?_, ?_, ?_⟩
  · rw [syscallEntry_on P fuel hw.user hw.number ht.current hw.found rfl,
      opSyscallOn_wait P fuel htype, htake]
    simp only [bind, Except.bind, hfinish]
    exact returnFromKernelCode_stays P.dm (hk₁ ▸ hreturn)
  · rw [hk₁, hk₀]
    exact (Kernel.setWord_word _ n _ n).trans (if_pos rfl)
  · rw [hk₁, hk₀]
    rfl
  · simp [hk₁, hself]

/-! ## A wait that does not return -/

theorem returnFromKernelCode_current {dm : DirectMap} (hk : returnFromKernelCode dm k = .ok k') :
    k'.currentTcb = k.returnToTcb := by
  unfold returnFromKernelCode at hk
  split at hk
  · next he =>
    cases hk
    exact he.symm
  · split at hk
    · next x hx =>
      simp only [switchTcbActual, bind_eq_ok, pure_eq_ok] at hk
      obtain ⟨-, -, k₁, -, k₂, -, -, -, rfl⟩ := hk
      exact hx.symm
    · next hx =>
      simp only [bind_eq_ok, pure_eq_ok] at hk
      obtain ⟨k₁, -, rfl⟩ := hk
      exact hx.symm

/-- A thread that has stopped and is not on the run queue is not scheduled. -/
theorem View.Schedules.returns_ne {w : View} (hs : v.Schedules w) (hc : v.current = some t)
    (ht : t ∉ v.runQueue) (hstate : v.state t ≠ .running) : w.returnTo ≠ some t := by
  cases hs with
  | first hq =>
    rintro he
    cases he
    exact ht (hq ▸ List.mem_cons_self)
  | stays _ hruns =>
    obtain ⟨x, hx, hxs⟩ := hruns
    cases hc.symm.trans hx
    exact absurd hxs hstate
  | idles => nofun

/-- A thread that finds no word, or that is killed, is not the one to return to. -/
theorem invokeNotificationRecv_leaves (h : Represents k v) (hv : v.Consistent)
    (hc : v.current = some t) {cap : Word} {tag : MessageTag}
    (hgo : (k.notifications (capPtr (k.slots cap).cap)).word = 0#64 ∨
      BoundToOther k (capPtr (k.slots cap).cap) t)
    (hk : invokeNotificationRecv k cap = .ok (tag, k')) : k'.returnToTcb ≠ some t := by
  obtain ⟨hrun, hlink, -⟩ := hv.current_free hc
  simp only [invokeNotificationRecv, thisTcb, bind_eq_ok, deref_eq_ok, h.current, hc,
    Option.some.injEq] at hk
  obtain ⟨-, -, this, rfl, k₁, hkill, hk⟩ := hk
  simp only [killIfBoundToOther] at hkill
  split at hkill
  · simp only [bind_eq_ok] at hkill
    obtain ⟨k₂, hdead, hsched⟩ := hkill
    obtain ⟨w, hw, hrep⟩ := (h.killTcb hdead).schedule hsched
    split at hk
    · -- the killed thread is queued all the same
      obtain ⟨hwait, hcur, hsub⟩ : w.waiting = v.waiting ∧ w.current = v.current ∧
          w.runQueue ⊆ v.runQueue := by
        cases hw with
        | first => exact ⟨rfl, rfl, List.erase_subset⟩
        | stays => exact ⟨rfl, rfl, List.Subset.refl _⟩
        | idles => exact ⟨rfl, rfl, List.Subset.refl _⟩
      obtain ⟨w', hw', hrep'⟩ := hrep.queueReceiverOnNotification (hcur.trans hc)
        (fun q => by rw [hwait]; exact hlink q) hk
      rw [hrep'.returnTo]
      exact hw'.returns_ne (hcur.trans hc) (fun hm => hrun (hsub hm)) (by simp)
    · cases hk
      show k₁.returnToTcb ≠ some t
      rw [hrep.returnTo]
      exact hw.returns_ne hc hrun (by simp)
  · next hfree =>
    cases hkill
    rw [if_pos (hgo.resolve_right hfree)] at hk
    obtain ⟨w, hw, hrep⟩ := h.queueReceiverOnNotification hc hlink hk
    rw [hrep.returnTo]
    exact hw.returns_ne hc hrun (by simp)

theorem wait_leaves {P : Platform} {fuel : Nat} {wait : Frame} {slot : Word} (ht : Turn k t s)
    (hw : OnObject k.slots .notification t wait .recv slot n)
    (hgo : (k.notifications n).word = 0#64 ∨ BoundToOther k n t)
    (hk : syscallEntry P fuel k wait = .ok k') : k'.currentTcb ≠ some t := by
  obtain ⟨v, hrep, hv⟩ := ht.lists
  have hobject : capPtr ((k.withFrame t wait).slots slot).cap = n := hw.object
  rw [syscallEntry_on P fuel hw.user hw.number ht.current hw.found rfl,
    opSyscallOn_wait (k := k.withFrame t wait) P fuel hw.type] at hk
  simp only [bind_eq_ok] at hk
  obtain ⟨⟨tag, k₁⟩, hwait, k₂, hfinish, hreturn⟩ := hk
  have hleaves := invokeNotificationRecv_leaves (hrep.withFrame t wait) hv
    (hrep.current.symm.trans ht.current) (by rw [hobject]; exact hgo) hwait
  have hsame : k₂.returnToTcb = k₁.returnToTcb := by
    unfold finishSyscall at hfinish
    split at hfinish
    · cases hfinish
      rfl
    · simp only [bind_eq_ok] at hfinish
      obtain ⟨this, -, hset⟩ := hfinish
      exact (setIpcResult_quiet hset).view.returnTo
  rw [returnFromKernelCode_current hreturn, hsame]
  exact hleaves

/-! ## Both orders -/

/-- When the two orders end alike. -/
theorem endsAlike_iff (P : Platform) (fuel : Nat) {wait signal yield : Frame}
    {slotT slotS : Word} (h : Signalling k k' t s n b wait signal slotT slotS)
    (huser : yield.cs = userCs) (hyield : yield.number = some .yield) :
    EndsAlike P fuel k k' t n b wait signal yield ↔ b ≠ 0#64 ∧ ¬ BoundToOther k n t ∧
      ∃ buffer, (k.tcbs t).ipcBuffer = some buffer ∧ k.buffers buffer senderBadge = b := by
  have hsame := h.same
  have hsignal : OnObject k'.slots .notification s signal .send slotS n := hsame.slots ▸ h.signal
  have hwait : OnObject k'.slots .notification t wait .recv slotT n := hsame.slots ▸ h.wait
  obtain ⟨k₁, hk₁⟩ : ∃ k₁, k₁ = (k'.withFrame s signal).pends n (k'.slots slotS).cap.badge :=
    ⟨_, rfl⟩
  obtain ⟨hpends, hturn⟩ := signal_pends P fuel h.signaller h.empty' h.noReceiver hsignal
  rw [← hk₁] at hpends hturn
  have hrunning : (k₁.tcbs s).state = .running := by
    rw [← h.running, hk₁]
    simp [Kernel.pends, Kernel.logged, Kernel.setWord, Kernel.withFrame]
  obtain ⟨k₂, hpasses, hsame₂, hturn₂, -, -⟩ := hturn.yields P fuel hrunning huser hyield
  have hword : (k₂.notifications n).word = b := by
    have hzero : ((k'.withFrame s signal).notifications n).word = 0#64 := by
      rw [← h.word, ← hsame.notifications]
      rfl
    rw [hsame₂.notifications, hk₁, Kernel.pends_word, hzero, BitVec.zero_or, hsame.slots, h.badge]
  have hbound : BoundToOther k₂ n t ↔ BoundToOther k n t := by
    have hkeep : (k₂.notifications n).boundTcb = (k.notifications n).boundTcb := by
      rw [hsame₂.notifications, hk₁, ← hsame.notifications]
      simp [Kernel.pends, Kernel.logged, Kernel.setWord, Kernel.withFrame, Kernel.modifyTcb]
    rw [BoundToOther, BoundToOther, hkeep]
  have hbuffer : (k₂.tcbs t).ipcBuffer = (k.tcbs t).ipcBuffer ∧ k₂.buffers = k.buffers := by
    rw [hsame₂.ipcBuffer, hsame₂.buffers, hk₁, ← hsame.ipcBuffer t, ← hsame.buffers]
    refine ⟨?_, rfl⟩
    show ((k'.withFrame s signal).tcbs t).ipcBuffer = _
    obtain ⟨-, -, -, -, -, -, hne⟩ := h.waiter.view
    rw [Kernel.withFrame_ne _ _ hne]
  have hwait₂ : OnObject k₂.slots .notification t wait .recv slotT n := by
    rw [hsame₂.slots, hk₁]
    exact hwait
  constructor
  · rintro ⟨-, l₁, l₂, l₃, hl₁, hl₂, hl₃, hwoken⟩
    cases hpends.symm.trans hl₁
    cases hpasses.symm.trans hl₂
    have hstays : ¬ ((k₂.notifications n).word = 0#64 ∨ BoundToOther k₂ n t) :=
      fun hgo => wait_leaves hturn₂ hwait₂ hgo hl₃ hwoken.current
    rw [not_or, hword, hbound] at hstays
    obtain ⟨m, hm, -, -, hbuffers, hipc⟩ := wait_takes P fuel hturn₂ hwait₂
      (hword ▸ hstays.1) (fun hb => hstays.2 (hbound.mp hb))
    cases hm.symm.trans hl₃
    obtain ⟨buffer, hsome, hbadge⟩ := hwoken.badge
    refine ⟨hstays.1, hstays.2, buffer, ?_, ?_⟩
    · rw [← hbuffer.1, ← hipc, hsome]
    · rw [← hbuffer.2, ← hbuffers, hbadge]
  · rintro ⟨hb, hfree, buffer, hsome, hbadge⟩
    obtain ⟨-, -, -, -, -, -, hne⟩ := h.waiter.view
    refine ⟨?_, k₁, k₂, ?_⟩
    · obtain ⟨m, hm, hwaits, hself⟩ := wait_waits P fuel h.waiter h.empty h.wait h.word hfree
      obtain ⟨m', hm', hwoken⟩ := signal_wakes P fuel hwaits hne hself h.signal h.word hsome
      exact ⟨m, m', hm, hm', h.badge ▸ hwoken⟩
    · obtain ⟨m, hm, hcurrent, hzero, hbuffers, hipc⟩ := wait_takes P fuel hturn₂ hwait₂
        (hword ▸ hb) (fun ho => hfree (hbound.mp ho))
      refine ⟨m, hpends, hpasses, hm, hcurrent, ⟨buffer, ?_, ?_⟩, hzero⟩
      · rw [hipc, hbuffer.1, hsome]
      · rw [hbuffers, hbuffer.2, hbadge]

/-- No signal is lost or altered, as far as waits find nothing in the word: for
one signal and one wait in either order, and over every run. -/
theorem signal_delivered_iff (P : Platform) (fuel : Nat) {wait signal yield : Frame}
    {slotT slotS : Word} (h : Signalling k k' t s n b wait signal slotT slotS)
    (huser : yield.cs = userCs) (hyield : yield.number = some .yield) :
    (EndsAlike P fuel k k' t n b wait signal yield ↔ b ≠ 0#64 ∧ ¬ BoundToOther k n t ∧
      ∃ buffer, (k.tcbs t).ipcBuffer = some buffer ∧ k.buffers buffer senderBadge = b) ∧
    ∀ m l, (signalSystem P m).ReachedBy (TakesDelivered m) l → Conserved l m ∧
      ∀ e l', (signalSystem P m).step l e l' → (Conserved l' m ↔ TakesDelivered m l e) := by
  refine ⟨endsAlike_iff P fuel h huser hyield, fun m l hl => ?_⟩
  have hconserved := conserved_of_reached hl
  exact ⟨hconserved, fun e l' hs => hs.1.conserved_iff hs.2 hconserved⟩

/-- The boot thread holds the worker in slot 5 and, with badge 5, a notification
in slot 6. -/
def signalKernel : Kernel :=
  exampleKernel [workerTcb] [(5, tcbCap workerTcb),
    (6, ({ type := .notification, badge := 5 } : Cap).withPtr exampleNotification)]

theorem signalKernel_booted : Booted signalKernel := exampleKernel_booted _ _

theorem yieldFrame_user : yieldFrame.cs = userCs := rfl

theorem yieldFrame_number : yieldFrame.number = some .yield := by decide

/-- The worker is resumed; it is the turn of the boot thread to wait, or, after a
yield, of the worker to signal. -/
theorem signalling_worker : ∃ k k',
    Signalling k k' initTcb workerTcb exampleNotification 5 (recvFrame 6) (sendFrame 6)
      (initSlot 6) (initSlot 6) ∧
    (k.tcbs initTcb).ipcBuffer = some (initTcb + 0x1000#64) ∧
    k.buffers (initTcb + 0x1000#64) senderBadge = 0#64 := by
  obtain ⟨k, hrun, hread⟩ := runSyscalls_reads
    (show (runSyscalls examplePlatform [resumeFrame 5] signalKernel).map (fun k => decide (
      (k.currentTcb = some initTcb ∧ k.nodes.next .runnableTcbs = some (.run workerTcb) ∧
        (k.tcbs initTcb).state = .running ∧
        isListEmpty k.nodes (.notification exampleNotification) = true) ∧
      ((k.tcbs initTcb).ipcBuffer = some (initTcb + 0x1000#64) ∧
        k.buffers (initTcb + 0x1000#64) senderBadge = 0#64) ∧
      k.notifications exampleNotification = {} ∧
      ((k.slots (initSlot 6)).cap.type = .notification ∧ (k.slots (initSlot 6)).cap.badge = 5#64 ∧
        capPtr (k.slots (initSlot 6)).cap = exampleNotification) ∧
      lookupCapSlot k.slots (cspaceRootOf initTcb) 6 64#64 = .ok (.ok (initSlot 6)) ∧
      lookupCapSlot k.slots (cspaceRootOf workerTcb) 6 64#64 = .ok (.ok (initSlot 6)))) =
      .ok true by decide +kernel)
  simp only [decide_eq_true_eq] at hread
  obtain ⟨⟨hcurrent, hnext, hstate, hempty⟩, ⟨hipc, hbuffer⟩, hfresh, ⟨htype, hbadge, hptr⟩,
    hfoundt, hfounds⟩ := hread
  have hslot : lookupCapSlot signalKernel.slots (cspaceRootOf initTcb) (resumeFrame 5).rdi 64#64 =
      .ok (.ok (initSlot 5)) := by decide +kernel
  have hsafe : ListSafe signalKernel (.syscall (resumeFrame 5)) :=
    signalKernel_booted.resume_safe (by decide) rfl hslot (by decide +kernel)
  simp only [runSyscalls, bind_eq_ok, Except.ok.injEq, exists_eq_right] at hrun
  have hk : (kernelSystem examplePlatform).ReachedBy ListSafe k :=
    .step (.start signalKernel_booted) hsafe (syscallEntry_step hrun (by decide))
  have hturn : Turn k initTcb workerTcb := ⟨hcurrent, hnext, lists_in_order hk⟩
  obtain ⟨k', -, hsame, hturn', hrunning, hempty'⟩ :=
    hturn.yields examplePlatform 0 hstate yieldFrame_user yieldFrame_number
  refine ⟨k, k', ⟨hturn, hturn', hrunning, hsame, ⟨rfl, by decide, hfoundt, htype, hptr⟩,
    ⟨rfl, by decide, hfounds, htype, hptr⟩, hbadge, ?_, hempty,
    (hempty' (.notification _)).trans hempty, ?_⟩, hipc, hbuffer⟩
  · rw [hfresh]
    rfl
  · rw [boundReceiver, hsame.notifications, hfresh]
    rfl

/-- The worker waits, the boot thread signals twice, and what is pending of the
second signal, the same badge again, it takes itself. -/
theorem signalled_twice : ∃ k, (signalSystem examplePlatform exampleNotification).ReachedBy
      (TakesDelivered exampleNotification) k ∧
    k.signals = [.signalled exampleNotification 5, .delivered exampleNotification workerTcb 5,
      .signalled exampleNotification 5] := by
  let wordOf (k : Kernel) : Word := (k.notifications exampleNotification).word
  have hrun : (do
      let k₁ ← syscallEntry examplePlatform 0 signalKernel (resumeFrame 5)
      let k₂ ← syscallEntry examplePlatform 0 k₁ yieldFrame
      let k₃ ← syscallEntry examplePlatform 0 k₂ (recvFrame 6)
      let k₄ ← syscallEntry examplePlatform 0 k₃ (sendFrame 6)
      let k₅ ← syscallEntry examplePlatform 0 k₄ (sendFrame 6)
      let k₆ ← syscallEntry examplePlatform 0 k₅ (recvFrame 6)
      return ([wordOf k₁, wordOf k₂, wordOf k₃, wordOf k₄, wordOf k₅,
        deliveredFrom exampleNotification k₅.signals], k₆.signals)) =
      (.ok ([0, 0, 0, 0, 5, 5], [.signalled exampleNotification 5,
        .delivered exampleNotification workerTcb 5, .signalled exampleNotification 5]) :
        Result _) := by decide +kernel
  simp only [bind_eq_ok, pure_eq_ok, Prod.mk.injEq, List.cons.injEq, and_true] at hrun
  obtain ⟨k₁, h₁, k₂, h₂, k₃, h₃, k₄, h₄, k₅, h₅, k₆, h₆, ⟨hw₁, hw₂, hw₃, hw₄, hw₅, hd₅⟩, hsignals⟩ :=
    hrun
  have hnone : ∀ {k : Kernel} {e : Entry}, wordOf k = 0#64 →
      TakesDelivered exampleNotification k e := by
    intro k e hk f _ _
    rw [show (k.notifications exampleNotification).word = 0#64 from hk, BitVec.or_zero]
  have hlast : TakesDelivered exampleNotification k₅ (.syscall (recvFrame 6)) := by
    intro f _ _
    rw [show (k₅.notifications exampleNotification).word = 5 from hw₅, hd₅]
    decide
  exact ⟨k₆, .step (.step (.step (.step (.step (.step (.start ⟨signalKernel_booted, rfl⟩)
    (hnone rfl) (syscallEntry_step h₁ (by decide))) (hnone hw₁) (syscallEntry_step h₂ (by decide)))
    (hnone hw₂) (syscallEntry_step h₃ (by decide))) (hnone hw₃) (syscallEntry_step h₄ (by decide)))
    (hnone hw₄) (syscallEntry_step h₅ (by decide))) hlast (syscallEntry_step h₆ (by decide)),
    hsignals⟩

theorem signal_delivered_iff_worker : ∃ k k',
    Signalling k k' initTcb workerTcb exampleNotification 5 (recvFrame 6) (sendFrame 6)
      (initSlot 6) (initSlot 6) ∧
    (EndsAlike examplePlatform 0 k k' initTcb exampleNotification 5 (recvFrame 6) (sendFrame 6)
        yieldFrame ↔ 5#64 ≠ 0#64 ∧ ¬ BoundToOther k exampleNotification initTcb ∧
      ∃ buffer, (k.tcbs initTcb).ipcBuffer = some buffer ∧ k.buffers buffer senderBadge = 5#64) ∧
    ∃ l, l.signals = [.signalled exampleNotification 5, .delivered exampleNotification workerTcb 5,
      .signalled exampleNotification 5] ∧ Conserved l exampleNotification := by
  obtain ⟨k, k', hsignalling, -, -⟩ := signalling_worker
  obtain ⟨l, hl, hsignals⟩ := signalled_twice
  have hdelivered := signal_delivered_iff examplePlatform 0 hsignalling yieldFrame_user
    yieldFrame_number
  exact ⟨k, k', hsignalling, hdelivered.1, l, hsignals, (hdelivered.2 _ _ hl).1⟩

/-- The boot thread waits after the signal: the badge is gone. -/
theorem signal_before_wait_lost :
    (¬ ∀ k k' t s n b wait signal yield slotT slotS,
      Signalling k k' t s n b wait signal slotT slotS → yield.cs = userCs →
        yield.number = some .yield → EndsAlike examplePlatform 0 k k' t n b wait signal yield) ∧
    ¬ ∀ k, (signalSystem examplePlatform exampleNotification).Reached k →
      Conserved k exampleNotification := by
  refine ⟨fun h => ?_, fun h => ?_⟩
  · obtain ⟨k, k', hsignalling, hipc, hbuffer⟩ := signalling_worker
    obtain ⟨-, -, buffer, hsome, hbadge⟩ := (endsAlike_iff examplePlatform 0 hsignalling
      yieldFrame_user yieldFrame_number).mp
        (h _ _ _ _ _ _ _ _ _ _ _ hsignalling yieldFrame_user yieldFrame_number)
    cases hipc.symm.trans hsome
    cases hbuffer.symm.trans hbadge
  · have hrun : (do
        let k₁ ← syscallEntry examplePlatform 0 signalKernel (sendFrame 6)
        let k₂ ← syscallEntry examplePlatform 0 k₁ (recvFrame 6)
        return (k₂.signals, (k₂.notifications exampleNotification).word)) =
        (.ok ([.signalled exampleNotification 5], 0#64) : Result _) := by decide +kernel
    simp only [bind_eq_ok, pure_eq_ok, Prod.mk.injEq] at hrun
    obtain ⟨k₁, h₁, k₂, h₂, hsignals, hword⟩ := hrun
    have hk : (signalSystem examplePlatform exampleNotification).Reached k₂ :=
      .step (.step (.start ⟨signalKernel_booted, rfl⟩) trivial
        (syscallEntry_step h₁ (by decide))) trivial (syscallEntry_step h₂ (by decide))
    have hlost := h k₂ hk
    rw [Conserved, hsignals, hword] at hlost
    cases hlost

end Tern
