import Tern.Parked
import Tern.Turns

/-! Death is final. `kill_tcb` returns to its caller: a killed thread stays dead
when it was on no wait queue and the entry that killed it does not go on to queue
it, and as long as nobody suspends it. -/

namespace Tern

variable {P : Platform} {fuel : Nat} {k k' : Kernel} {e : Entry} {f : Frame} {t : Word}

/-- The entry kills the running thread: it exits, or it waits on a notification
bound to another thread. -/
def Kills (k : Kernel) (e : Entry) (t : Word) : Prop :=
  k.currentTcb = some t ∧ ∃ f, e = .syscall f ∧
    (f.number = some .exit ∨ ∃ n, WaitsOn k f n ∧ BoundToOther k n t)

/-- Dead, on no list, and neither the running thread nor the next one to run. -/
structure Buried (k : Kernel) (t : Word) : Prop where
  dead : (k.tcbs t).state = .dead
  run : ¬ InRunQueue k t
  wait : ∀ q, ¬ InQueue k q t
  current : k.currentTcb ≠ some t
  returnTo : k.returnToTcb ≠ some t

/-- The entry kills only a thread that waits nowhere, not for a wait that finds no
word, suspends no dead thread, and invokes no method that may write to a thread
whatever its state. -/
structure DeathSafe (k : Kernel) (e : Entry) : Prop where
  kill : ∀ t, Kills k e t → WaitsNowhere k t
  wait : ∀ t, k.currentTcb = some t → ¬ e.Makes k (.killedWait t)
  suspend : ∀ u, e.Makes k (.suspend u) → (k.tcbs u).state ≠ .dead
  confined : e.Confined k

theorem Parked.buried (h : Parked k .dead t) (hc : k.currentTcb ≠ some t) : Buried k t where
  dead := h.state
  run := (h.nodes _ (.inl rfl)).not_reach (by nofun)
  wait q := (h.nodes _ (.inr rfl)).not_reach (by cases q <;> nofun)
  current := hc
  returnTo := h.returnTo

theorem doSyscall_exits (hn : f.number = some .exit) (ht : k.currentTcb = some t)
    (hk : doSyscall P fuel k f.rdi f.rsi (f.rax.setWidth 32) = .ok k') :
    ∃ k₁ k₂, killTcb k t = .ok k₁ ∧ schedule k₁ = .ok k₂ ∧ SameView k₂ k' := by
  have hexit : SyscallNumber.ofInt? (f.rax.setWidth 32) = some .exit := hn
  simp only [doSyscall, opSyscall, hexit, Option.bind_some, opSyscallPlain, thisTcb, ht, deref,
    bind_eq_ok, Except.ok.injEq, exists_eq_left', pure_eq_ok] at hk
  obtain ⟨⟨tag, k₃⟩, ⟨k₁, hkill, k₂, hsched, heq⟩, hresult⟩ := hk
  cases heq
  split at hresult
  · cases hresult
    exact ⟨k₁, _, hkill, hsched, .refl _⟩
  · next hno => exact absurd (show MessageTag.noreturn.isNoreturn = true from rfl) hno

theorem doSyscall_waits_killed {n : Word} (hw : WaitsOn k f n) (ht : k.currentTcb = some t)
    (hother : BoundToOther k n t) (hword : (k.notifications n).word ≠ 0#64)
    (hk : doSyscall P fuel k f.rdi f.rsi (f.rax.setWidth 32) = .ok k') :
    ∃ k₁ k₂, killTcb k t = .ok k₁ ∧ schedule k₁ = .ok k₂ ∧ SameView k₂ k' := by
  obtain ⟨slot, ⟨hnumber, t', ht', hslot⟩, htype, rfl⟩ := hw
  cases ht.symm.trans ht'
  have hrecv : SyscallNumber.ofInt? (f.rax.setWidth 32) = some .recv := hnumber
  simp only [doSyscall, opSyscall, hrecv, Option.bind_some, opSyscallPlain, thisTcb, ht, deref,
    bind_eq_ok, Except.ok.injEq, exists_eq_left'] at hk
  obtain ⟨⟨tag, k₃⟩, ⟨found, hfound, hwait⟩, hresult⟩ := hk
  cases hslot.symm.trans hfound
  simp only [opSyscallOn, htype, if_true, invokeNotificationRecv, thisTcb, ht, deref, bind_eq_ok,
    Except.ok.injEq, exists_eq_left'] at hwait
  obtain ⟨-, -, k₂, hkilled, hwait⟩ := hwait
  obtain ⟨k₁, hkill, hsched⟩ : ∃ k₁, killTcb k t = .ok k₁ ∧ schedule k₁ = .ok k₂ := by
    simp only [killIfBoundToOther] at hkilled
    split at hkilled
    · exact (bind_eq_ok _ _ _).mp hkilled
    · next hfree => exact absurd hother hfree
  have hkeep := ((killTcb_signals hkill).trans (schedule_signals hsched)).word
    (capPtr (k.slots slot).cap)
  rw [if_neg (by rw [hkeep]; exact hword)] at hwait
  cases hwait
  have hset : SameView k₂ (k₂.setWord (capPtr (k.slots slot).cap) 0#64) :=
    .of_eq rfl rfl rfl rfl rfl
  refine ⟨k₁, k₂, hkill, hsched, hset.trans ?_⟩
  split at hresult
  · cases hresult
    exact .refl _
  · simp only [bind_eq_ok] at hresult
    obtain ⟨this, -, hresult⟩ := hresult
    exact (setIpcResult_quiet hresult).view

/-- A killed thread is out of reach at the end of the entry. -/
theorem KernelStep.kills (hs : KernelStep P k e k') (hkill : Kills k e t) (hsafe : DeathSafe k e) :
    Parked k' .dead t ∧ k'.currentTcb ≠ some t := by
  have hnowhere := hsafe.kill t hkill
  obtain ⟨ht, f, rfl, hcause⟩ := hkill
  cases hs with
  | syscall fuel buffers _ _ hk =>
    simp only [syscallEntry, bind_eq_ok] at hk
    obtain ⟨k₃, hcall, hreturn⟩ := hk
    obtain ⟨tcbs, hsave⟩ := saveFrameOnTcb_eq { k with buffers } f
    rw [hsave] at hcall
    obtain ⟨k₁, k₂, hdead, hsched, hafter⟩ : ∃ k₁ k₂,
        killTcb { k with buffers, tcbs } t = .ok k₁ ∧ schedule k₁ = .ok k₂ ∧ SameView k₂ k₃ := by
      rcases hcause with hexit | ⟨n, hwait, hother⟩
      · exact doSyscall_exits hexit ht hcall
      · have hword : (k.notifications n).word ≠ 0#64 := by
          intro hzero
          exact hsafe.wait t ht ⟨n, hwait, hother, hzero⟩
        exact doSyscall_waits_killed (k := { k with buffers, tcbs }) hwait ht hother hword hcall
    have hkilled : Parked k₂ .dead t :=
      WaitsNowhere.killed (k := { k with buffers, tcbs }) hnowhere ht hdead hsched
    exact (hkilled.same hafter.places).leave (by nofun) hreturn

/-- In the runs that keep the lists in order, the running thread waits nowhere. -/
theorem waitsNowhere_of_reached (hk : (kernelSystem P).ReachedBy ListSafe k)
    (ht : k.currentTcb = some t) : WaitsNowhere k t := by
  obtain ⟨v, h, hv⟩ := lists_in_order hk
  exact h.waitsNowhere_iff.mpr (hv.current_free (h.current.symm.trans ht)).2.1

/-- Other system calls than exits, waits and invocations are safe. -/
theorem DeathSafe.of_number (hexit : f.number ≠ some .exit) (hrecv : f.number ≠ some .recv)
    (hlabel : Method.ofLabel? f.tag.label = none) : DeathSafe k (.syscall f) where
  kill := by
    rintro t ⟨-, _, ⟨⟩, hn | ⟨n, ⟨slot, ⟨hn, -⟩, -⟩, -⟩⟩
    · exact absurd hn hexit
    · exact absurd hn hrecv
  wait := by
    rintro t - ⟨n, ⟨slot, ⟨hn, -⟩, -⟩, -⟩
    exact hrecv hn
  suspend := by
    rintro u ⟨slot, -, -, hl, -⟩
    cases hlabel.symm.trans hl
  confined := invokesOnly_of_label fun m hm => by cases hlabel.symm.trans hm

/-- A thread that an entry kills is dead and on no list ever after, in the runs
whose entries are safe for it, and is never chosen to run. -/
theorem death_is_final {k₁ k₂ : Kernel} (hs : (kernelSystem P).step k e k₁)
    (hkill : Kills k e t) (hsafe : DeathSafe k e)
    (hrun : ((kernelSystem P).startingAt k₁).ReachedBy DeathSafe k₂) : Buried k₂ t := by
  obtain ⟨h, hc⟩ := hs.1.kills hkill hsafe
  obtain ⟨h', hc'⟩ := h.reached (.inl rfl) hc (fun _ _ _ _ => rfl)
    (fun k e hok hstate hmakes => absurd hstate (hok.suspend t hmakes)) hrun
  exact h'.buried hc'

def exitFrame : Frame := callFrame 0 0 emptyTag

/-- The boot thread holds the worker in slot 5, the helper in slot 6 and, in slot
7, a notification that is bound to itself. -/
def killKernel : Kernel :=
  { exampleKernel [workerTcb, helperTcb] [(5, tcbCap workerTcb), (6, tcbCap helperTcb),
      (7, ({ type := .notification, badge := 5 } : Cap).withPtr exampleNotification)] with
    notifications := fun n =>
      if n = exampleNotification then { boundTcb := some initTcb } else {} }

theorem killKernel_booted : Booted killKernel :=
  { exampleKernel_booted [workerTcb, helperTcb] [(5, tcbCap workerTcb), (6, tcbCap helperTcb),
      (7, ({ type := .notification, badge := 5 } : Cap).withPtr exampleNotification)] with }

theorem resumeWorker_listSafe : ListSafe killKernel (.syscall (resumeFrame 5)) := by
  have hslot : lookupCapSlot killKernel.slots (cspaceRootOf initTcb) (resumeFrame 5).rdi 64#64 =
      .ok (.ok (initSlot 5)) := by decide +kernel
  exact killKernel_booted.resume_safe (by decide) rfl hslot (by decide +kernel)

/-- The worker exits, and the boot thread goes on. -/
theorem death_is_final_worker : ∃ k k₁ k₂,
    (kernelSystem examplePlatform).step k (.syscall exitFrame) k₁ ∧
      Kills k (.syscall exitFrame) workerTcb ∧ DeathSafe k (.syscall exitFrame) ∧
      ((kernelSystem examplePlatform).startingAt k₁).ReachedBy DeathSafe k₂ ∧
      k₂.currentTcb = some initTcb ∧ Buried k₂ workerTcb := by
  have hrun : (do
      let k₀ ← syscallEntry examplePlatform 0 killKernel (resumeFrame 5)
      let k ← syscallEntry examplePlatform 0 k₀ yieldFrame
      let k₁ ← syscallEntry examplePlatform 0 k exitFrame
      let k₂ ← syscallEntry examplePlatform 0 k₁ yieldFrame
      return (k.currentTcb, k₂.currentTcb)) =
      (.ok (some workerTcb, some initTcb) : Result _) := by decide +kernel
  simp only [bind_eq_ok, pure_eq_ok, Prod.mk.injEq] at hrun
  obtain ⟨k₀, h₀, k, h, k₁, h₁, k₂, h₂, hcurrent, hnext⟩ := hrun
  have hk₀ := Lib.Transition.ReachedBy.step (.start killKernel_booted) resumeWorker_listSafe
    (syscallEntry_step h₀ (by decide))
  have hyield : ∀ k, ListSafe k (.syscall yieldFrame) := by
    refine fun k => ⟨?_, ?_⟩
    · rintro u ⟨slot, ⟨hn, -⟩, -⟩
      cases hn
    · rintro t c (hn | ⟨slot, ⟨hn, -⟩, -⟩) <;> cases hn
  have hk : (kernelSystem examplePlatform).ReachedBy ListSafe k :=
    .step hk₀ (hyield k₀) (syscallEntry_step h (by decide))
  have hkills : Kills k (.syscall exitFrame) workerTcb :=
    ⟨hcurrent, exitFrame, rfl, .inl (by decide)⟩
  have hsafe : DeathSafe k (.syscall exitFrame) := by
    refine ⟨?_, ?_, ?_, frame_invokesOnly (by decide)⟩
    · rintro t ⟨ht, -⟩
      exact waitsNowhere_of_reached hk ht
    · rintro t - ⟨n, ⟨slot, ⟨hn, -⟩, -⟩, -⟩
      cases hn
    · rintro u ⟨slot, ⟨hn, -⟩, -⟩
      cases hn
  have hstep := syscallEntry_step h₁ (by decide)
  have hrest : ((kernelSystem examplePlatform).startingAt k₁).ReachedBy DeathSafe k₂ :=
    .step (.start rfl) (.of_number (by decide) (by decide) (by decide))
      (syscallEntry_step h₂ (by decide))
  exact ⟨k, k₁, k₂, hstep, hkills, hsafe, hrest, hnext,
    death_is_final hstep hkills hsafe hrest⟩

/-- The worker waits on the notification and is killed, the helper signals it, and
the worker runs again. -/
theorem killed_worker_runs_again :
    ¬ ∀ k k₁ k₂ e t, (kernelSystem examplePlatform).Reached k →
      (kernelSystem examplePlatform).step k e k₁ → Kills k e t →
      ((kernelSystem examplePlatform).startingAt k₁).Reached k₂ → Buried k₂ t := by
  intro hfinal
  have hrun : (do
      let k ← runSyscalls examplePlatform [resumeFrame 6, resumeFrame 5, yieldFrame] killKernel
      let k₁ ← syscallEntry examplePlatform 0 k (recvFrame 7)
      let k₂ ← syscallEntry examplePlatform 0 k₁ (sendFrame 7)
      return decide (k.currentTcb = some workerTcb ∧ k₂.currentTcb = some workerTcb ∧
        lookupCapSlot k.slots (cspaceRootOf workerTcb) 7 64#64 = .ok (.ok (initSlot 7)) ∧
        (k.slots (initSlot 7)).cap.type = .notification ∧
        capPtr (k.slots (initSlot 7)).cap = exampleNotification ∧
        (k.notifications exampleNotification).boundTcb = some initTcb)) =
      (.ok true : Result _) := by decide +kernel
  simp only [bind_eq_ok, pure_eq_ok, decide_eq_true_eq] at hrun
  obtain ⟨k, h, k₁, h₁, k₂, h₂, hcurrent, hnext, hfound, htype, hptr, hbound⟩ := hrun
  have hk : (kernelSystem examplePlatform).Reached k :=
    runSyscalls_reached (.start killKernel_booted) (fun _ _ _ => trivial) (by decide +kernel) h
  have hother : BoundToOther k exampleNotification workerTcb := by
    rw [BoundToOther, hbound]
    decide
  have hkills : Kills k (.syscall (recvFrame 7)) workerTcb := by
    refine ⟨hcurrent, recvFrame 7, rfl, .inr ⟨exampleNotification, ?_, hother⟩⟩
    exact ⟨initSlot 7, ⟨by decide, workerTcb, hcurrent, hfound⟩, htype, hptr.symm⟩
  have hrest : ((kernelSystem examplePlatform).startingAt k₁).Reached k₂ :=
    .step (.start rfl) trivial (syscallEntry_step h₂ (by decide))
  have hburied := hfinal k k₁ k₂ _ workerTcb hk (syscallEntry_step h₁ (by decide)) hkills hrest
  exact hburied.current hnext

end Tern
