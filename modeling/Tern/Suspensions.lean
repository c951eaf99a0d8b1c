import Tern.Parked
import Tern.Queues
import Tern.Turns

/-! Suspended threads do not run. `suspend_tcb` takes a thread off the run queue
only: one that runs on, or that some wait queue still leads to, is not stopped by
it. Any other thread stays where it is until it is resumed. -/

namespace Tern

variable {P : Platform} {fuel : Nat} {k k' : Kernel} {e : Entry} {f : Frame} {t : Word}

/-- Between two entries the kernel would return to the current thread. -/
theorem returnFromKernelCode_returns {dm : DirectMap} (hk : returnFromKernelCode dm k = .ok k') :
    k'.returnToTcb = k'.currentTcb := by
  unfold returnFromKernelCode at hk
  split at hk
  · next he =>
    cases hk
    exact he
  · split at hk
    · next u hu =>
      simp only [switchTcbActual, bind_eq_ok, pure_eq_ok] at hk
      obtain ⟨-, -, k₁, hsave, k₂, hresched, -, -, rfl⟩ := hk
      have h₂ : k₂.returnToTcb = k₁.returnToTcb := by
        unfold rescheduleCurrent at hresched
        split at hresched
        · split at hresched
          · simp only [scheduleTcb, bind_eq_ok, pure_eq_ok] at hresched
            obtain ⟨-, -, nodes, -, rfl⟩ := hresched
            rfl
          · cases hresched
            rfl
        · cases hresched
          rfl
      exact h₂.trans ((saveCurrent_quiet hsave).view.returnTo.trans hu)
    · next hnone =>
      simp only [bind_eq_ok, pure_eq_ok] at hk
      obtain ⟨k₁, hsave, rfl⟩ := hk
      exact (saveCurrent_quiet hsave).view.returnTo.trans hnone

theorem returnTo_of_reached {ok : Kernel → Entry → Prop}
    (hk : (kernelSystem P).ReachedBy ok k) : k.returnToTcb = k.currentTcb := by
  refine hk.invariant (I := fun k => k.returnToTcb = k.currentTcb) ?_ ?_
  · rintro k (h : Booted k)
    obtain ⟨c, hc, hr, -⟩ := h.current
    exact hr.trans hc.symm
  · rintro k e k' - - ⟨hs, hretype⟩
    obtain ⟨k₁, -, hreturn⟩ := hs.handled hretype
    exact returnFromKernelCode_returns hreturn

/-- A suspension has no arguments to get wrong. -/
theorem Invokes.suspend_handles (h : Invokes k f .tcbSuspend t) :
    ∃ slot, Handles k (.syscall f) slot .tcbSuspend (fun _ => 0#64) (fun _ => 0#64) ∧
      t = capPtr (k.slots slot).cap := by
  obtain ⟨slot, hasks, htype, hlabel, ht⟩ := h
  obtain ⟨-, c, hc, -⟩ := id hasks
  have hadmitted : Admitted k slot f.tag .tcbSuspend (fun _ => 0#64) (fun _ => 0#64) :=
    ⟨hlabel, rfl, htype, Nat.zero_le _, Nat.zero_le _, c, hc, rfl⟩
  exact ⟨slot, ⟨f, rfl, hasks, hadmitted⟩, ht⟩

theorem doSyscall_suspends (h : Invokes k f .tcbSuspend t)
    (hk : doSyscall P fuel k f.rdi f.rsi (f.rax.setWidth 32) = .ok k') :
    ∃ k₁, suspendTcb k t = .ok k₁ ∧ SameView k₁ k' := by
  obtain ⟨slot, hhandles, rfl⟩ := h.suspend_handles
  obtain ⟨r, k₁, tag, k₂, hinvoke, hanswer, hresult⟩ := doSyscall_answers hhandles hk
  simp only [invokeMethod, tcbSuspend, bind_eq_ok, pure_eq_ok, Prod.mk.injEq] at hinvoke
  obtain ⟨_, hsuspend, -, rfl⟩ := hinvoke
  refine ⟨_, hsuspend, (answer_quiet hanswer).view.trans ?_⟩
  rcases hresult with rfl | ⟨c, hset⟩
  · exact .refl _
  · exact (setIpcResult_quiet hset).view

/-- A suspended thread that was not running and waits nowhere is out of reach. -/
theorem KernelStep.suspends (hs : KernelStep P k e k') (hm : e.Makes k (.suspend t))
    (hreturns : k.returnToTcb = k.currentTcb) (hc : k.currentTcb ≠ some t)
    (hwait : WaitsNowhere k t) : Parked k' .suspended t ∧ k'.currentTcb ≠ some t := by
  cases hs with
  | syscall fuel buffers f _ hk =>
    simp only [syscallEntry, bind_eq_ok] at hk
    obtain ⟨k₃, hcall, hreturn⟩ := hk
    obtain ⟨tcbs, hsave⟩ := saveFrameOnTcb_eq { k with buffers } f
    rw [hsave] at hcall
    obtain ⟨k₁, hsuspend, hafter⟩ := doSyscall_suspends (k := { k with buffers, tcbs }) hm hcall
    have hparked : Parked k₁ .suspended t := by
      refine WaitsNowhere.suspended (k := { k with buffers, tcbs }) hwait ?_ hsuspend
      exact hreturns ▸ hc
    exact (hparked.same hafter.places).leave (by nofun) hreturn
  | interrupt => exact hm.elim

/-- A thread that is suspended while it does not run and waits nowhere never runs
again, in any run that does not resume it. -/
theorem suspended_never_runs {k₁ k₂ : Kernel} (hk : (kernelSystem P).Reached k)
    (hs : (kernelSystem P).step k e k₁) (hm : e.Makes k (.suspend t))
    (hc : k.currentTcb ≠ some t) (hwait : WaitsNowhere k t)
    (hrun : ((kernelSystem P).startingAt k₁).ReachedBy
      (fun k e => ¬ e.Makes k (.resume t)) k₂) : k₂.currentTcb ≠ some t := by
  obtain ⟨h, hc₁⟩ := hs.1.suspends hm (returnTo_of_reached hk) hc hwait
  exact (h.reached (.inr rfl) hc₁ (fun _ _ hok hmakes => absurd hmakes hok)
    (fun _ _ _ _ _ => rfl) hrun).2

/-! ## Runs of the worker -/

def suspendFrame (cptr : Word) : Frame := callFrame 2 cptr { emptyTag with label := 12 }

/-- Reading a suspension of the worker off a state with the boot thread's slots. -/
theorem suspendWorker_makes (hc : k.currentTcb = some initTcb)
    (hfound : lookupCapSlot k.slots (cspaceRootOf initTcb) 5 64#64 = .ok (.ok (initSlot 5)))
    (htype : (k.slots (initSlot 5)).cap.type = .tcb)
    (hptr : capPtr (k.slots (initSlot 5)).cap = workerTcb) :
    (Entry.syscall (suspendFrame 5)).Makes k (.suspend workerTcb) :=
  ⟨initSlot 5, ⟨by decide, initTcb, hc, hfound⟩, htype, by decide, hptr.symm⟩

/-- The worker is runnable when it is suspended: the boot thread yields, and still runs. -/
theorem suspended_never_runs_worker : ∃ k k₁ k₂,
    (kernelSystem examplePlatform).Reached k ∧
      (kernelSystem examplePlatform).step k (.syscall (suspendFrame 5)) k₁ ∧
      (Entry.syscall (suspendFrame 5)).Makes k (.suspend workerTcb) ∧
      (k.tcbs workerTcb).state = .runnable ∧ WaitsNowhere k workerTcb ∧
      ((kernelSystem examplePlatform).startingAt k₁).ReachedBy
        (fun k e => ¬ e.Makes k (.resume workerTcb)) k₂ ∧
      k₂.currentTcb = some initTcb ∧ k₂.currentTcb ≠ some workerTcb := by
  have hrun : (do
      let k ← syscallEntry examplePlatform 0 queueKernel (resumeFrame 5)
      let k₁ ← syscallEntry examplePlatform 0 k (suspendFrame 5)
      let k₂ ← syscallEntry examplePlatform 0 k₁ yieldFrame
      return decide (k.currentTcb = some initTcb ∧ (k.tcbs workerTcb).state = .runnable ∧
        lookupCapSlot k.slots (cspaceRootOf initTcb) 5 64#64 = .ok (.ok (initSlot 5)) ∧
        (k.slots (initSlot 5)).cap.type = .tcb ∧
        capPtr (k.slots (initSlot 5)).cap = workerTcb ∧ k₂.currentTcb = some initTcb)) =
      (.ok true : Result _) := by decide +kernel
  simp only [bind_eq_ok, pure_eq_ok, decide_eq_true_eq] at hrun
  obtain ⟨k, h, k₁, h₁, k₂, h₂, hcurrent, hstate, hfound, htype, hptr, hnext⟩ := hrun
  have hslot : lookupCapSlot queueKernel.slots (cspaceRootOf initTcb) (resumeFrame 5).rdi 64#64 =
      .ok (.ok (initSlot 5)) := by decide +kernel
  have hsafe : ListSafe queueKernel (.syscall (resumeFrame 5)) :=
    (exampleKernel_booted _ _).resume_safe (by decide) rfl hslot (by decide +kernel)
  have hk := Lib.Transition.ReachedBy.step (queueKernel_reached ListSafe) hsafe
    (syscallEntry_step h (by decide))
  have hwait : WaitsNowhere k workerTcb := by
    obtain ⟨v, hrep, hv⟩ := lists_in_order hk
    apply hrep.waitsNowhere_iff.mpr
    exact hv.queued.unlinked_of_state (.inl ((hrep.state workerTcb).symm.trans hstate))
  have hmakes := suspendWorker_makes hcurrent hfound htype hptr
  have hstep := syscallEntry_step h₁ (by decide)
  have hrest : ((kernelSystem examplePlatform).startingAt k₁).ReachedBy
      (fun k e => ¬ e.Makes k (.resume workerTcb)) k₂ := by
    refine .step (.start rfl) ?_ (syscallEntry_step h₂ (by decide))
    rintro ⟨slot, ⟨hn, -⟩, -⟩
    cases hn
  have hne : k.currentTcb ≠ some workerTcb := by
    rw [hcurrent]
    decide
  exact ⟨k, k₁, k₂, hk.reached, hstep, hmakes, hstate, hwait, hrest, hnext,
    suspended_never_runs hk.reached hstep hmakes hne hwait hrest⟩

/-- The worker waits on the endpoint, the boot thread suspends it and sends to the
endpoint: the worker runs. -/
theorem suspended_waiter_runs :
    ¬ ∀ k k₁ k₂ e t, (kernelSystem examplePlatform).Reached k →
      (kernelSystem examplePlatform).step k e k₁ → e.Makes k (.suspend t) →
      ((kernelSystem examplePlatform).startingAt k₁).ReachedBy
        (fun k e => ¬ e.Makes k (.resume t)) k₂ → k₂.currentTcb ≠ some t := by
  intro hstops
  have hrun : (do
      let k ← runSyscalls examplePlatform [resumeFrame 5, yieldFrame, recvFrame 6] queueKernel
      let k₁ ← syscallEntry examplePlatform 0 k (suspendFrame 5)
      let k₂ ← syscallEntry examplePlatform 0 k₁ (sendFrame 6)
      return decide (k.currentTcb = some initTcb ∧
        lookupCapSlot k.slots (cspaceRootOf initTcb) 5 64#64 = .ok (.ok (initSlot 5)) ∧
        (k.slots (initSlot 5)).cap.type = .tcb ∧
        capPtr (k.slots (initSlot 5)).cap = workerTcb ∧ k₂.currentTcb = some workerTcb)) =
      (.ok true : Result _) := by decide +kernel
  simp only [bind_eq_ok, pure_eq_ok, decide_eq_true_eq] at hrun
  obtain ⟨k, h, k₁, h₁, k₂, h₂, hcurrent, hfound, htype, hptr, hnext⟩ := hrun
  have hk : (kernelSystem examplePlatform).Reached k :=
    runSyscalls_reached (queueKernel_reached _) (fun _ _ _ => trivial) (by decide +kernel) h
  have hrest : ((kernelSystem examplePlatform).startingAt k₁).ReachedBy
      (fun k e => ¬ e.Makes k (.resume workerTcb)) k₂ := by
    refine .step (.start rfl) ?_ (syscallEntry_step h₂ (by decide))
    rintro ⟨slot, ⟨hn, -⟩, -⟩
    cases hn
  exact hstops k k₁ k₂ _ workerTcb hk (syscallEntry_step h₁ (by decide))
    (suspendWorker_makes hcurrent hfound htype hptr) hrest hnext

end Tern
