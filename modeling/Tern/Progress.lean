import Tern.Refinement

/-! What the lists hold is enough for the functions that move threads: on lists
that represent a view they do not halt. Each is given with the state it leaves,
so that a whole kernel entry can be followed step by step. -/

namespace Tern

open Lib

variable {k k' : Kernel} {v : View} {t c : Word}

namespace Represents

/-! ## Lists -/

theorem append_waiting (h : Represents k v) (q : Queue) (ht : v.Unlinked t) :
    ∃ nodes, appendToList k.nodes (.sendReceive t) q.head = .ok nodes ∧
      Represents (k.withNodes nodes) (v.enqueue q t) := by
  have happend := appendToList_eq_ok.mpr
    ⟨_, h.rings.next_head q.isHead, (Eq.refl (k.nodes.appended (.sendReceive t) _ _))⟩
  exact ⟨_, happend, h.enqueue ht happend⟩

theorem remove_waiting (h : Represents k v) {q : Queue} (ht : t ∈ v.waiting q) :
    ∃ nodes, removeFromList k.nodes (.sendReceive t) = .ok nodes ∧
      Represents (k.withNodes nodes) (v.dequeue q t) := by
  have hmem : .sendReceive t ∈ v.members q.head := by
    rw [View.members_head]
    exact List.mem_map_of_mem ht
  obtain ⟨p, n, hp, hn, -⟩ := h.rings.remove q.isHead hmem
  have hremove := removeFromList_eq_ok.mpr ⟨p, n, hp, hn, rfl⟩
  exact ⟨_, hremove, h.dequeue ht hremove⟩

theorem next_waiting (h : Represents k v) {q : Queue} {l : List Word} (hl : v.waiting q = t :: l) :
    k.nodes.next q.head = some (.sendReceive t) := by
  rw [h.rings.next_head q.isHead, View.members_head, hl]
  rfl

theorem pop_first (h : Represents k v) {q : Queue} {l : List Word} (hl : v.waiting q = t :: l) :
    ∃ nodes, popFromList k.nodes q.head = .ok (.sendReceive t, nodes) ∧
      Represents (k.withNodes nodes) (v.dequeue q t) := by
  obtain ⟨removed, hremove, -⟩ := h.remove_waiting (hl ▸ List.mem_cons_self : t ∈ v.waiting q)
  have hpop := popFromList_eq_ok.mpr ⟨h.next_waiting hl, removed, hremove, rfl⟩
  exact ⟨_, hpop, (h.pop_waiting hpop rfl).2⟩

theorem append_run (h : Represents k v) (t : Word) :
    ∃ nodes, appendToList k.nodes (.run t) .runnableTcbs = .ok nodes :=
  ⟨_, appendToList_eq_ok.mpr
    ⟨_, h.rings.next_head (show Node.runnableTcbs.IsHead from trivial), rfl⟩⟩

/-! ## The run queue -/

theorem scheduleTcb_ok (h : Represents k v) (hs : (k.tcbs t).state ≠ .dead) :
    ∃ nodes, Tern.scheduleTcb k t =
      .ok (((k.setState t .runnable).withNodes nodes).noted (.madeRunnable t)) := by
  obtain ⟨nodes, happend⟩ := h.append_run t
  have happend' : appendToList (k.setState t .runnable).nodes (.run t) .runnableTcbs = .ok nodes :=
    happend
  refine ⟨nodes, ?_⟩
  simp [Tern.scheduleTcb, assert, hs, happend', bind, Except.bind, pure, Except.pure]

/-- `schedule` with a thread on the run queue. -/
theorem schedule_first (h : Represents k v) {l : List Word} (hq : v.runQueue = t :: l) :
    ∃ nodes, Tern.schedule k = .ok (Tern.switchTcb (k.withNodes nodes) t) ∧
      Represents (k.withNodes nodes) { v with runQueue := l } := by
  have hmem : .run t ∈ v.members .runnableTcbs := by simp [View.members, hq]
  have hhead := h.rings.next_head (show Node.runnableTcbs.IsHead from trivial)
  rw [show v.members .runnableTcbs = .run t :: l.map .run by simp [View.members, hq]] at hhead
  obtain ⟨nodes, hpop⟩ : ∃ nodes, popFromList k.nodes .runnableTcbs = .ok (.run t, nodes) := by
    obtain ⟨p, n, hp, hn, -⟩ := h.rings.remove (show Node.runnableTcbs.IsHead from trivial) hmem
    exact ⟨_, popFromList_eq_ok.mpr
      ⟨hhead, _, removeFromList_eq_ok.mpr ⟨p, n, hp, hn, rfl⟩, rfl⟩⟩
  have hnil : ¬ isListEmpty k.nodes .runnableTcbs = true := by
    rw [h.runQueue_empty, hq]
    rintro ⟨⟩
  have hpick : Tern.pickNextTcb k = .ok (some t, k.withNodes nodes) := by
    simp [Tern.pickNextTcb, hnil, hpop, Node.tcbOfRun, bind, Except.bind, pure, Except.pure]
  refine ⟨nodes, ?_, ?_⟩
  · simp only [Tern.schedule, hpick, bind, Except.bind, pure, Except.pure]
  · rcases h.pickNextTcb hpick with ⟨h₁, -⟩ | ⟨t', l', h₁, hq', hrep⟩
    · cases h₁
    · cases h₁
      rw [hq, List.erase_cons_head] at hrep
      exact hrep

end Represents

/-! ## Leaving the kernel -/

/-- The end of `switch_tcb_actual`. -/
def Kernel.entering (dm : DirectMap) (k : Kernel) (t : Word) : Kernel :=
  ({ k with currentTcb := some t, vmRoot := tcbVmRoot dm k t, tlsBase := (k.tcbs t).tlsBase
    }.setState t .running).modifyTcb t fun c =>
      { c with savedState := ensureFrameValidForUsermode c.savedState }

theorem Kernel.entering_self (dm : DirectMap) (k : Kernel) (t : Word) :
    (k.entering dm t).tcbs t = { k.tcbs t with
      state := .running
      savedState := ensureFrameValidForUsermode (k.tcbs t).savedState } := by
  simp [Kernel.entering, Kernel.setState, Kernel.modifyTcb]

theorem Kernel.entering_ne (dm : DirectMap) (k : Kernel) {x : Word} (hx : x ≠ t) :
    (k.entering dm t).tcbs x = k.tcbs x := by
  simp [Kernel.entering, Kernel.setState, Kernel.modifyTcb, hx]

/-- Capabilities, IPC buffers and notifications are as before. -/
structure SameBase (k k' : Kernel) : Prop where
  slots : k'.slots = k.slots
  buffers : k'.buffers = k.buffers
  notifications : k'.notifications = k.notifications
  signals : k'.signals = k.signals

theorem SameBase.trans {k'' : Kernel} (h : SameBase k k') (h' : SameBase k' k'') :
    SameBase k k'' :=
  ⟨h'.slots.trans h.slots, h'.buffers.trans h.buffers, h'.notifications.trans h.notifications,
    h'.signals.trans h.signals⟩

/-- The kernel has left the current thread `c` for `t`. -/
structure Left (k k' : Kernel) (c t : Word) (f : Frame) : Prop extends SameBase k k' where
  current : k'.currentTcb = some t
  returnTo : k'.returnToTcb = some t
  old : k'.tcbs c = { k.tcbs c with
    state := if (k.tcbs c).state = .running then .runnable else (k.tcbs c).state
    savedState := f }
  new : k'.tcbs t = { k.tcbs t with
    state := .running
    savedState := ensureFrameValidForUsermode (k.tcbs t).savedState }
  others : ∀ x, x ≠ c → x ≠ t → k'.tcbs x = k.tcbs x

theorem Left.entering (dm : DirectMap) {k₂ : Kernel} {f : Frame} (hne : c ≠ t)
    (hbase : SameBase k k₂) (hreturn : k₂.returnToTcb = some t)
    (hold : k₂.tcbs c = { k.tcbs c with
      state := if (k.tcbs c).state = .running then .runnable else (k.tcbs c).state
      savedState := f })
    (hkeep : ∀ x, x ≠ c → k₂.tcbs x = k.tcbs x) : Left k (k₂.entering dm t) c t f where
  toSameBase := hbase.trans ⟨rfl, rfl, rfl, rfl⟩
  current := rfl
  returnTo := hreturn
  old := (Kernel.entering_ne dm k₂ hne).trans hold
  new := (Kernel.entering_self dm k₂ t).trans (by rw [hkeep t hne.symm])
  others x hc ht := (Kernel.entering_ne dm k₂ ht).trans (hkeep x hc)

theorem returnFromKernelCode_enters {dm : DirectMap} {k₁ k₂ : Kernel}
    (hcurrent : k.currentTcb = some c) (hreturn : k.returnToTcb = some t) (hne : c ≠ t)
    (hsave : saveCurrent k = .ok k₁) (hresched : rescheduleCurrent k₁ = .ok k₂)
    (hs : (k₂.tcbs t).state = .runnable) :
    returnFromKernelCode dm k = .ok (k₂.entering dm t) := by
  have hneq : ¬ some t = some c := fun e => hne (Option.some.inj e).symm
  have hct : (some c != some t) = true := by simpa using hne
  have hrunnable : ((k₂.tcbs t).state == .runnable) = true := by rw [hs]; rfl
  simp only [returnFromKernelCode, hreturn, hcurrent, if_neg hneq, switchTcbActual, hct, assert,
    if_true, hsave, hresched, hrunnable, bind, Except.bind, pure, Except.pure]
  rfl

theorem Represents.leave (h : Represents k v) (dm : DirectMap) {f : Frame}
    (hcurrent : k.currentTcb = some c) (hreturn : k.returnToTcb = some t) (hne : c ≠ t)
    (halive : (k.tcbs c).state ≠ .dead) (hframe : (k.tcbs c).currentUserFrame = some f)
    (hs : (k.tcbs t).state = .runnable) :
    ∃ k', Tern.returnFromKernelCode dm k = .ok k' ∧ Left k k' c t f ∧
      ((k.tcbs c).state ≠ .running → k'.nodes = k.nodes) := by
  have hsave : saveCurrent k = .ok (k.modifyTcb c fun x => { x with savedState := f }) := by
    simp [saveCurrent, hcurrent, halive, saveTcbState, hframe]
  obtain ⟨k₁, hk₁⟩ : ∃ k₁, k₁ = k.modifyTcb c fun x => { x with savedState := f } := ⟨_, rfl⟩
  rw [← hk₁] at hsave
  have hrep₁ : Represents k₁ v := (saveCurrent_quiet hsave).view.represents h
  have hold : k₁.tcbs c = { k.tcbs c with savedState := f } := by simp [hk₁, Kernel.modifyTcb]
  have hkeep : ∀ x, x ≠ c → k₁.tcbs x = k.tcbs x := fun x hx => by
    simp [hk₁, Kernel.modifyTcb, hx]
  have hstate : (k₁.tcbs c).state = (k.tcbs c).state := by rw [hold]
  have hcurrent₁ : k₁.currentTcb = some c := by rw [hk₁]; exact hcurrent
  by_cases hrunning : (k.tcbs c).state = .running
  · obtain ⟨nodes, hsched⟩ := hrep₁.scheduleTcb_ok (t := c) (by rw [hstate]; exact halive)
    have hresched : rescheduleCurrent k₁ =
        .ok (((k₁.setState c .runnable).withNodes nodes).noted (.madeRunnable c)) := by
      simp [rescheduleCurrent, hcurrent₁, hstate, hrunning, hsched]
    obtain ⟨k₂, hk₂⟩ : ∃ k₂, k₂ =
      ((k₁.setState c .runnable).withNodes nodes).noted (.madeRunnable c) := ⟨_, rfl⟩
    rw [← hk₂] at hresched
    have htcbs : k₂.tcbs = Function.update k₁.tcbs c { k₁.tcbs c with state := .runnable } := by
      rw [hk₂]
      rfl
    have hnew : k₂.tcbs t = k.tcbs t := by
      rw [htcbs, Function.update_of_ne hne.symm, hkeep t hne.symm]
    refine ⟨_, returnFromKernelCode_enters hcurrent hreturn hne hsave hresched
      (by rw [hnew, hs]), ?_, fun hn => absurd hrunning hn⟩
    subst hk₂
    have hbase : SameBase k (((k₁.setState c .runnable).withNodes nodes).noted (.madeRunnable c)) :=
      by subst hk₁; exact ⟨rfl, rfl, rfl, rfl⟩
    refine .entering dm hne hbase ?_ ?_ fun x hx => ?_
    · subst hk₁
      exact hreturn
    · rw [htcbs, Function.update_self, hold, if_pos hrunning]
    · rw [htcbs, Function.update_of_ne hx, hkeep x hx]
  · have hresched : rescheduleCurrent k₁ = .ok k₁ := by
      simp [rescheduleCurrent, hcurrent₁, hstate, hrunning]
    have hnew : k₁.tcbs t = k.tcbs t := hkeep t hne.symm
    refine ⟨_, returnFromKernelCode_enters hcurrent hreturn hne hsave hresched
      (by rw [hnew, hs]), ?_, fun _ => ?_⟩
    · subst hk₁
      refine .entering dm hne ⟨rfl, rfl, rfl, rfl⟩ hreturn ?_ hkeep
      rw [hold, if_neg hrunning]
    · rw [hk₁]
      rfl

/-- The current thread `c` has stopped running; the first thread `t` of the run
queue goes on. -/
theorem Represents.block (h : Represents k v) (hv : ∀ x ∈ v.runQueue, v.state x = .runnable)
    (dm : DirectMap) {f : Frame} {l : List Word} (hcurrent : k.currentTcb = some c)
    (hq : v.runQueue = t :: l) (hne : c ≠ t)
    (hrunning : (k.tcbs c).state ≠ .running) (halive : (k.tcbs c).state ≠ .dead)
    (hframe : (k.tcbs c).currentUserFrame = some f) :
    ∃ k' v', (Tern.schedule k >>= Tern.returnFromKernelCode dm) = .ok k' ∧ Left k k' c t f ∧
      Represents k' v' ∧ v'.waiting = v.waiting ∧ v'.runQueue = l ∧
      ∀ x, x ≠ t → v'.state x = v.state x := by
  obtain ⟨nodes, hsched, hrep⟩ := h.schedule_first hq
  obtain ⟨k₁, hk₁⟩ : ∃ k₁, k₁ = Tern.switchTcb (k.withNodes nodes) t := ⟨_, rfl⟩
  have hrep₁ : Represents k₁ (View.switchTo { v with runQueue := l } t) := hk₁ ▸ hrep.switchTcb t
  have hold : k₁.tcbs c = k.tcbs c := by
    simp [hk₁, Tern.switchTcb, Kernel.noted, Kernel.setState, Kernel.modifyTcb, Kernel.withNodes,
      hne]
  have hnew : k₁.tcbs t = { k.tcbs t with state := .runnable } := by
    simp [hk₁, Tern.switchTcb, Kernel.noted, Kernel.setState, Kernel.modifyTcb, Kernel.withNodes]
  have hcurrent₁ : k₁.currentTcb = some c := hk₁ ▸ hcurrent
  have hreturn₁ : k₁.returnToTcb = some t := hk₁ ▸ rfl
  obtain ⟨k', hleave, hleft, -⟩ := hrep₁.leave dm hcurrent₁ hreturn₁ hne (by rwa [hold])
    (by rwa [hold]) (by rw [hnew])
  have hrun : ∀ x ∈ l, (View.switchTo { v with runQueue := l } t).state x ≠ .running := by
    intro x hx
    rw [View.switchTo_state, Function.update_apply]
    split
    · decide
    · rw [hv x (by rw [hq]; exact List.mem_cons_of_mem t hx)]
      decide
  obtain ⟨v', hleaves, hrep'⟩ := hrep₁.returnFromKernelCode hrun hleave
  have hview : v' = { (View.switchTo { v with runQueue := l } t).setState t .running with
      current := some t } := by
    have hc : v.current = some c := h.current.symm.trans hcurrent
    cases hleaves with
    | stays he => exact absurd (Option.some.inj (he.trans hc)) hne.symm
    | switches hr hc' _ hs =>
      cases hr
      cases hc.symm.trans hc'
      rw [← hrep₁.state, hold] at hs
      exact absurd hs hrunning
    | leavesBehind hr =>
      cases hr
      rfl
    | idles hr => cases hr
  refine ⟨k', v', ?_, ?_, hrep', ?_, ?_, ?_⟩
  · rw [hsched, ← hk₁]
    exact hleave
  · have hbase : SameBase k k₁ := by
      subst hk₁
      exact ⟨rfl, rfl, rfl, rfl⟩
    refine ⟨hbase.trans hleft.toSameBase, hleft.current, hleft.returnTo, ?_, ?_, ?_⟩
    · rw [hleft.old, hold]
    · rw [hleft.new, hnew]
    · intro x hc ht
      rw [hleft.others x hc ht, hk₁]
      simp [Tern.switchTcb, Kernel.noted, Kernel.setState, Kernel.modifyTcb, Kernel.withNodes, ht]
  · rw [hview]
    rfl
  · rw [hview]
    rfl
  · intro x hx
    rw [hview]
    simp [hx]

/-! ## Entering the kernel -/

/-- `do_syscall` after `op_syscall`: the tag goes into the caller's frame. -/
def finishSyscall (k : Kernel) (tag : MessageTag) : Result Kernel :=
  if tag.isNoreturn then .ok k
  else do
    let this ← thisTcb k
    setIpcResult k this tag

/-- `save_frame_on_tcb`, from user mode. -/
def Kernel.withFrame (k : Kernel) (t : Word) (f : Frame) : Kernel :=
  k.modifyTcb t fun c => { c with currentUserFrame := some f }

theorem saveFrameOnTcb_user {f : Frame} (hcurrent : k.currentTcb = some t) (hf : f.cs = userCs) :
    saveFrameOnTcb k f = k.withFrame t f := by
  simp [saveFrameOnTcb, hcurrent, hf, Kernel.withFrame]

/-- A system call on a capability, as the steps that it takes. -/
theorem syscallEntry_on (P : Platform) (fuel : Nat) {f : Frame} {slot : Word}
    {number : SyscallNumber} (hf : f.cs = userCs) (hnumber : f.number = some number)
    (hcurrent : k.currentTcb = some t)
    (hslot : lookupCapSlot k.slots (cspaceRootOf t) f.rdi 64#64 = .ok (.ok slot))
    (hplain : opSyscallPlain (k.withFrame t f) f.tag number = none) :
    syscallEntry P fuel k f = (opSyscallOn P fuel (k.withFrame t f) slot f.tag (some number) >>=
      fun x => finishSyscall x.2 x.1 >>= returnFromKernelCode P.dm) := by
  have hn : SyscallNumber.ofInt? (f.rax.setWidth 32) = some number := hnumber
  have hinfo : MessageTag.ofWord f.rsi = f.tag := rfl
  have hthis : thisTcb (k.withFrame t f) = .ok t := by
    simp [thisTcb, Kernel.withFrame, Kernel.modifyTcb, hcurrent]
  have hfound : lookupCapSlot (k.withFrame t f).slots (cspaceRootOf t) f.rdi 64#64 =
      .ok (.ok slot) := hslot
  simp only [syscallEntry, saveFrameOnTcb_user hcurrent hf, doSyscall, opSyscall, hn, hinfo,
    Option.bind_some, hplain, hthis, hfound, bind, Except.bind]
  cases opSyscallOn P fuel (k.withFrame t f) slot f.tag (some number) <;> rfl

end Tern
