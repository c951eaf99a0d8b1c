import Tern.Progress

/-! Turns: two threads that make their system calls one after the other. A call
that blocks hands the processor to the other thread, a yield passes the turn. -/

namespace Tern

open Lib

variable {k k' : Kernel} {v : View} {t : Word}

/-- The thread `x` runs, the thread `y` is the next on the run queue, and the
kernel's lists are in order. -/
structure Turn (k : Kernel) (x y : Word) : Prop where
  current : k.currentTcb = some x
  next : k.nodes.next .runnableTcbs = some (.run y)
  lists : ∃ v, Represents k v ∧ v.Consistent

/-- The frame of a system call on an object of this type, through the capability
in `slot`. -/
structure OnObject (slots : Slots) (type : CapType) (t : Word) (f : Frame)
    (number : SyscallNumber) (slot obj : Word) : Prop where
  user : f.cs = userCs
  number : f.number = some number
  found : lookupCapSlot slots (cspaceRootOf t) f.rdi 64#64 = .ok (.ok slot)
  type : (slots slot).cap.type = type
  object : capPtr (slots slot).cap = obj

/-- The same machine, but for who runs and who is next. -/
structure SameMachine (k k' : Kernel) : Prop where
  slots : k'.slots = k.slots
  buffers : k'.buffers = k.buffers
  notifications : k'.notifications = k.notifications
  ipcBuffer : ∀ t, (k'.tcbs t).ipcBuffer = (k.tcbs t).ipcBuffer
  replyTo : ∀ t, (k'.tcbs t).replyTo = (k.tcbs t).replyTo
  boundNotification : ∀ t, (k'.tcbs t).boundNotification = (k.tcbs t).boundNotification

/-- What a turn says about the view. -/
theorem Turn.view {x y : Word} (h : Turn k x y) :
    ∃ v l, Represents k v ∧ v.Consistent ∧ v.current = some x ∧ v.runQueue = y :: l ∧ x ≠ y := by
  obtain ⟨v, hrep, hv⟩ := h.lists
  have hcurrent : v.current = some x := hrep.current.symm.trans h.current
  have hnext := hrep.rings.next_head (show Node.runnableTcbs.IsHead from trivial)
  cases hq : v.runQueue with
  | nil =>
    simp only [View.members, hq, List.map_nil, List.headD_nil] at hnext
    cases h.next.symm.trans hnext
  | cons z l =>
    simp only [View.members, hq, List.map_cons, List.headD_cons] at hnext
    cases h.next.symm.trans hnext
    refine ⟨v, l, hrep, hv, hcurrent, hq, ?_⟩
    rintro rfl
    exact (hv.current_free hcurrent).1 (hq ▸ List.mem_cons_self)

/-! ## Frames and results -/

theorem Represents.withFrame (h : Represents k v) (t : Word) (f : Frame) :
    Represents (k.withFrame t f) v :=
  (SameView.modifyTcb k t (fun c => { c with currentUserFrame := some f }) (fun _ => rfl)
    (fun _ => rfl) (fun _ => rfl)).represents h

theorem Kernel.withFrame_self (k : Kernel) (t : Word) (f : Frame) :
    (k.withFrame t f).tcbs t = { k.tcbs t with currentUserFrame := some f } := by
  simp [Kernel.withFrame, Kernel.modifyTcb]

theorem Kernel.withFrame_ne (k : Kernel) {t x : Word} (f : Frame) (hx : x ≠ t) :
    (k.withFrame t f).tcbs x = k.tcbs x := by
  simp [Kernel.withFrame, Kernel.modifyTcb, hx]

theorem setIpcResult_current {t : Word} {f : Frame} (hcurrent : k.currentTcb = some t)
    (hframe : (k.tcbs t).currentUserFrame = some f) (tag : MessageTag) :
    setIpcResult k t tag = .ok (k.modifyTcb t fun c =>
      { c with currentUserFrame := some { f with rax := tag.toWord } }) := by
  simp [setIpcResult, ipcFrame, hcurrent, hframe, bind, Except.bind, pure, Except.pure]

theorem setIpcResult_saved {t : Word} (hcurrent : k.currentTcb ≠ some t) (tag : MessageTag) :
    setIpcResult k t tag = .ok (k.modifyTcb t fun c =>
      { c with savedState := { (k.tcbs t).savedState with rax := tag.toWord } }) := by
  simp [setIpcResult, ipcFrame, hcurrent, bind, Except.bind, pure, Except.pure]

/-- The tag is in the receiver's frame already when `do_syscall` puts it there. -/
theorem finishSyscall_again {t : Word} {f : Frame} {tag : MessageTag}
    (hcurrent : k.currentTcb = some t) (hframe : (k.tcbs t).currentUserFrame = some f)
    (hrax : f.rax = tag.toWord) : finishSyscall k tag = .ok k := by
  unfold finishSyscall
  split
  · rfl
  · have hsame : k.modifyTcb t (fun c =>
        { c with currentUserFrame := some { f with rax := tag.toWord } }) = k := by
      have hself : { k.tcbs t with currentUserFrame := some { f with rax := tag.toWord } } =
          k.tcbs t := by
        rw [← hrax, ← hframe]
      simp only [Kernel.modifyTcb, hself, Function.update_eq_self]
    simp only [thisTcb, hcurrent, deref, bind, Except.bind, setIpcResult_current hcurrent hframe,
      hsame]

theorem finish_noreturn (dm : DirectMap) (x : Result Kernel) :
    ((x >>= fun k => .ok (MessageTag.noreturn, k)) >>= fun y =>
      finishSyscall y.2 y.1 >>= returnFromKernelCode dm) = (x >>= returnFromKernelCode dm) := by
  have hno : MessageTag.noreturn.isNoreturn = true := by decide
  cases x with
  | error => rfl
  | ok k => simp [finishSyscall, hno, bind, Except.bind]

theorem returnFromKernelCode_stays (dm : DirectMap) (h : k.returnToTcb = k.currentTcb) :
    returnFromKernelCode dm k = .ok k :=
  if_pos h

/-! ## A call that blocks -/

/-- After the first call its thread waits alone on the queue, and the other
thread runs; capabilities, buffers and notifications are as before. -/
structure Waits (k k₁ : Kernel) (x y : Word) (q : Queue) : Prop extends SameBase k k₁ where
  lists : ∃ v, Represents k₁ v ∧ v.waiting q = [x] ∧ x ∉ v.runQueue
  current : k₁.currentTcb = some y
  returnTo : k₁.returnToTcb = some y
  runs : (k₁.tcbs y).state = .running
  ipcBuffer : (k₁.tcbs y).ipcBuffer = (k.tcbs y).ipcBuffer
  replyTo : (k₁.tcbs y).replyTo = (k.tcbs y).replyTo
  boundNotification : (k₁.tcbs y).boundNotification = (k.tcbs y).boundNotification

/-- A thread that has put itself on a queue leaves the processor to the next one. -/
theorem block_waits {k₁ : Kernel} {l : List Word} {x y : Word} {q : Queue} {st : TaskState}
    {f : Frame}
    (hv : v.Consistent) (hc : v.current = some x) (hrq : v.runQueue = y :: l) (hne : x ≠ y)
    (hnil : v.waiting q = []) {w : View} (hw : w.runQueue = v.runQueue)
    (hwait : w.waiting = v.waiting) (hwstate : ∀ t, t ≠ x → w.state t = v.state t)
    (hrep : Represents k₁ ((w.enqueue q x).setState x st))
    (hcurrent : k₁.currentTcb = some x) (hbase : SameBase k k₁)
    (hst : st ≠ .running ∧ st ≠ .dead) (hframe : (k₁.tcbs x).currentUserFrame = some f)
    (hkeep : k₁.tcbs y = k.tcbs y) (dm : DirectMap) :
    ∃ k₂, (schedule k₁ >>= returnFromKernelCode dm) = .ok k₂ ∧ Waits k k₂ x y q ∧
      k₂.tcbs x = { k₁.tcbs x with savedState := f } := by
  have hx : x ∉ v.runQueue := (hv.current_free hc).1
  have hstate : (k₁.tcbs x).state = st := by
    rw [hrep.state]
    exact Function.update_self ..
  have hrun : ∀ t ∈ ((w.enqueue q x).setState x st).runQueue,
      ((w.enqueue q x).setState x st).state t = .runnable := by
    intro t ht
    have ht' : t ∈ v.runQueue := hw ▸ ht
    have htx : t ≠ x := fun e => hx (e ▸ ht')
    simp only [View.setState_state, Function.update_of_ne htx, View.enqueue_state, hwstate t htx]
    exact hv.queued.run_state t ht'
  obtain ⟨k₂, v₂, hk₂, hleft, hrep₂, hwait₂, hq₂, -⟩ := hrep.block hrun dm hcurrent
    (show _ = y :: l from hw.trans hrq) hne (hstate ▸ hst.1) (hstate ▸ hst.2) hframe
  refine ⟨k₂, hk₂, ⟨hbase.trans hleft.toSameBase, ⟨v₂, hrep₂, ?_, ?_⟩, hleft.current,
    hleft.returnTo, ?_, ?_, ?_, ?_⟩, ?_⟩
  · rw [hwait₂]
    simp [View.enqueue, hwait, hnil]
  · rw [hq₂]
    exact fun hm => hx (hrq ▸ List.mem_cons_of_mem y hm)
  · rw [hleft.new]
  · rw [hleft.new, hkeep]
  · rw [hleft.new, hkeep]
  · rw [hleft.new, hkeep]
  · rw [hleft.old, hstate, if_neg hst.1, ← hstate]

/-- A thread that finds nothing on a queue puts itself there and blocks. -/
theorem Turn.receiver_waits {x y : Word} {q : Queue} (ht : Turn k x y)
    (he : isListEmpty k.nodes q.head = true) (f : Frame) (dm : DirectMap) :
    ∃ nodes k₁, appendToList (k.withFrame x f).nodes (.sendReceive x) q.head = .ok nodes ∧
      (schedule (((k.withFrame x f).withNodes nodes).setState x .receiving) >>=
        returnFromKernelCode dm) = .ok k₁ ∧ Waits k k₁ x y q ∧
      k₁.tcbs x = { k.tcbs x with
        state := .receiving
        currentUserFrame := some f
        savedState := f } := by
  obtain ⟨v, l, hrep, hv, hc, hq, hne⟩ := ht.view
  obtain ⟨-, hlink, -⟩ := hv.current_free hc
  have hnil : v.waiting q = [] := (hrep.waiting_empty q).mp he
  obtain ⟨nodes, happend, hrep₁⟩ := (hrep.withFrame x f).append_waiting q hlink
  obtain ⟨k₁, hk₁⟩ : ∃ k₁, k₁ = ((k.withFrame x f).withNodes nodes).setState x .receiving :=
    ⟨_, rfl⟩
  have hself : k₁.tcbs x = { k.tcbs x with
      state := .receiving, currentUserFrame := some f } := by
    rw [hk₁]
    simp [Kernel.setState, Kernel.modifyTcb, Kernel.withNodes, Kernel.withFrame]
  have hother : k₁.tcbs y = k.tcbs y := by
    rw [hk₁]
    simp [Kernel.setState, Kernel.modifyTcb, Kernel.withNodes, Kernel.withFrame, hne.symm]
  have hbase : SameBase k k₁ := by
    rw [hk₁]
    exact ⟨rfl, rfl, rfl, rfl⟩
  have hcurrent₁ : k₁.currentTcb = some x := by
    rw [hk₁]
    exact ht.current
  have hst : TaskState.receiving ≠ .running ∧ TaskState.receiving ≠ .dead := by decide
  obtain ⟨k₂, hk₂, hwaits, hself₂⟩ := block_waits hv hc hq hne hnil rfl rfl (fun _ _ => rfl)
    (hk₁ ▸ hrep₁.setState x .receiving) hcurrent₁ hbase hst (f := f) (by rw [hself]) hother dm
  refine ⟨nodes, k₂, happend, hk₁ ▸ hk₂, hwaits, ?_⟩
  rw [hself₂, hself]

/-! ## Passing the turn -/

/-- In a run whose entries are safe the lists are in order. -/
theorem lists_in_order {P : Platform} (h : (kernelSystem P).ReachedBy ListSafe k) :
    ∃ v, Represents k v ∧ v.Consistent := by
  obtain ⟨v, hrep, hv, -⟩ := reachedBy_consistent (J := fun _ => True)
    (fun k e v m w hrep _ _ hsafe hm ha => hsafe.safe hrep hm ha) (fun _ _ => trivial)
    (fun _ _ _ _ _ _ _ _ _ _ _ _ _ _ => trivial) h
  exact ⟨v, hrep, hv⟩

/-- What the switch of a yield of `x` leaves of the threads, when `y` is next. -/
theorem yieldSwitch_tcbs {x y : Word} (k : Kernel) (f : Frame) (nodes : Lists Node)
    (hne : x ≠ y) : let k₁ := switchTcb ((k.withFrame x f).withNodes nodes) y
    k₁.tcbs x = { k.tcbs x with currentUserFrame := some f } ∧
      k₁.tcbs y = { k.tcbs y with state := .runnable } ∧
      ∀ t, t ≠ x → t ≠ y → k₁.tcbs t = k.tcbs t := by
  refine ⟨?_, ?_, fun t htx hty => ?_⟩ <;>
    simp [switchTcb, Kernel.noted, Kernel.setState, Kernel.modifyTcb, Kernel.withNodes,
      Kernel.withFrame, hne.symm, *]

/-- A running thread that yields to the first of the run queue is the first
there itself afterwards. -/
theorem View.Leaves.yielded {v v' : View} {x y : Word} {l : List Word}
    (h : (v.scheduleTo y).Leaves v') (hc : v.current = some x) (hq : v.runQueue = y :: l)
    (hne : x ≠ y) (hruns : (v.scheduleTo y).state x = .running) :
    v'.runQueue = x :: l ∧ v'.waiting = v.waiting := by
  cases h with
  | stays he => exact absurd (Option.some.inj (he.trans hc)) hne.symm
  | switches hr hc' =>
    cases hr
    cases hc.symm.trans hc'
    exact ⟨by simp [hq], rfl⟩
  | leavesBehind _ _ hnot => exact absurd ⟨x, hc, hruns⟩ hnot
  | idles hr => cases hr

/-- A yield passes the turn: the other order starts one system call away. -/
theorem Turn.yields {x y : Word} (P : Platform) (fuel : Nat) {f : Frame} (h : Turn k x y)
    (hrunning : (k.tcbs x).state = .running) (hf : f.cs = userCs)
    (hnumber : f.number = some .yield) :
    ∃ k', syscallEntry P fuel k f = .ok k' ∧ SameMachine k k' ∧ Turn k' y x ∧
      (k'.tcbs y).state = .running ∧ ∀ q : Queue, isListEmpty k'.nodes q.head = isListEmpty k.nodes q.head := by
  obtain ⟨v, l, hrep, hv, hc, hq, hne⟩ := h.view
  obtain ⟨nodes, hsched, -⟩ := (hrep.withFrame x f).schedule_first hq
  obtain ⟨k₁, hk₁⟩ : ∃ k₁, k₁ = switchTcb ((k.withFrame x f).withNodes nodes) y := ⟨_, rfl⟩
  rw [← hk₁] at hsched
  obtain ⟨w, hschedules, hrep₁⟩ := (hrep.withFrame x f).schedule hsched
  have hready : w.Ready := by
    refine hschedules.ready hv.queued (fun c hc' => ?_) fun _ => hv.returns
    cases hc.symm.trans hc'
    rw [← hrep.state, hrunning]
    nofun
  obtain rfl : w = v.scheduleTo y := by
    cases hschedules with
    | first hq' =>
      cases hq.symm.trans hq'
      rfl
    | stays hq' => cases hq.symm.trans hq'
    | idles hq' => cases hq.symm.trans hq'
  obtain ⟨hx₁, hy₁, hother₁⟩ : _ ∧ _ ∧ _ := hk₁ ▸ yieldSwitch_tcbs k f nodes hne
  have hbase₁ : SameBase k k₁ := by
    rw [hk₁]
    exact ⟨rfl, rfl, rfl, rfl⟩
  have hcurrent₁ : k₁.currentTcb = some x := by
    rw [hk₁]
    exact h.current
  have hreturn₁ : k₁.returnToTcb = some y := by
    rw [hk₁]
    rfl
  obtain ⟨k', hk', hleft, -⟩ := hrep₁.leave P.dm hcurrent₁ hreturn₁ hne
    (by rw [hx₁]; simp [hrunning]) (by rw [hx₁]) (by rw [hy₁])
  obtain ⟨v', hleaves, hrep'⟩ := hrep₁.returnFromKernelCode
    (fun c hm => by rw [hready.queued.run_state c hm]; nofun) hk'
  have hcons := hleaves.consistent hready
  have hruns : (v.scheduleTo y).state x = .running := by
    rw [← hrep₁.state, hx₁]
    exact hrunning
  have hlists := hleaves.yielded hc hq hne hruns
  have hentry : syscallEntry P fuel k f = .ok k' := by
    have hn : SyscallNumber.ofInt? (f.rax.setWidth 32) = some .yield := hnumber
    have hno : MessageTag.noreturn.isNoreturn = true := by decide
    simp only [syscallEntry, saveFrameOnTcb_user h.current hf, doSyscall, opSyscall, hn,
      Option.bind_some, opSyscallPlain, hsched, hno, if_true, bind, Except.bind, pure, Except.pure]
    exact hk'
  have hfields : ∀ t, (k'.tcbs t).ipcBuffer = (k.tcbs t).ipcBuffer ∧
      (k'.tcbs t).replyTo = (k.tcbs t).replyTo ∧
      (k'.tcbs t).boundNotification = (k.tcbs t).boundNotification := by
    intro t
    rcases eq_or_ne t x with rfl | htx
    · rw [hleft.old, hx₁]
      exact ⟨rfl, rfl, rfl⟩
    · rcases eq_or_ne t y with rfl | hty
      · rw [hleft.new, hy₁]
        exact ⟨rfl, rfl, rfl⟩
      · rw [hleft.others t htx hty, hother₁ t htx hty]
        exact ⟨rfl, rfl, rfl⟩
  have hbase := hbase₁.trans hleft.toSameBase
  refine ⟨k', hentry, ⟨hbase.slots, hbase.buffers, hbase.notifications, fun t => (hfields t).1,
    fun t => (hfields t).2.1, fun t => (hfields t).2.2⟩, ⟨hleft.current, ?_, v', hrep', hcons⟩,
    by rw [hleft.new], ?_⟩
  · rw [hrep'.rings.next_head (show Node.runnableTcbs.IsHead from trivial)]
    simp [View.members, hlists.1]
  · intro q
    have hempty := hrep.waiting_empty q
    have hempty' := hrep'.waiting_empty q
    rw [hlists.2] at hempty'
    exact Bool.eq_iff_iff.mpr (hempty'.trans hempty.symm)

end Tern
