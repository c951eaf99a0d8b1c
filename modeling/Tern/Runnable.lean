import Tern.Refinement

/-! No runnable thread is lost: whatever was made runnable and still is, is on
the run queue or is the thread to return to, in every run in which no thread is
killed for its wait while others are on the run queue. That wait calls
`schedule` twice, and only the second choice is remembered. -/

namespace Tern

open Lib

namespace View

variable (v : View)

/-- Inside the kernel a runnable thread may be the one to return to. -/
def Kept : Prop :=
  ∀ t, .madeRunnable t ∈ v.history → v.state t = .runnable → t ∈ v.runQueue ∨ v.returnTo = some t

/-- Between entries it is on the run queue. -/
def Held : Prop := ∀ t, .madeRunnable t ∈ v.history → v.state t = .runnable → t ∈ v.runQueue

variable {v} {v' : View} {t : Word}

theorem Held.kept (h : v.Held) : v.Kept := fun t hm hs => .inl (h t hm hs)

theorem Kept.held (h : v.Kept) (hv : v.Consistent) : v.Held := by
  intro t hm hs
  refine (h t hm hs).resolve_right fun hr => ?_
  have hc := hv.returns.returnTo.symm.trans hr
  rcases hv.returns.state t hc with hs' | hs' <;> cases hs'.symm.trans hs

/-- The thread `t` has been put where it is not lost. -/
theorem Held.change (h : v.Held) (hf : SameBut t v v')
    (ht : v'.state t = .runnable → t ∈ v'.runQueue) : v'.Held := by
  intro x hm hs
  by_cases hx : x = t
  · subst hx
    exact ht hs
  · rw [hf.state x hx] at hs
    exact (hf.run x hx).mpr (h x ((hf.made x hx).mp hm) hs)

/-- The thread `t` has been handed the processor. -/
theorem Held.hand (h : v.Held) (hf : SameBut t v v') (ht : v'.returnTo = some t) : v'.Kept := by
  intro x hm hs
  by_cases hx : x = t
  · subst hx
    exact .inr ht
  · rw [hf.state x hx] at hs
    exact .inl ((hf.run x hx).mpr (h x ((hf.made x hx).mp hm) hs))

theorem Schedules.kept (hs : v.Schedules v') (h : v.Held) : v'.Kept := by
  cases hs with
  | first => exact h.hand (SameBut.scheduleTo v _) rfl
  | stays => exact h.kept
  | idles => exact Held.kept h

/-- The current thread blocks and another one is chosen. -/
theorem Schedules.kept_of_block {q : Queue} {s : TaskState} {w : View}
    (hsched : ((v'.enqueue q t).setState t s).Schedules w) (h : v.Held) (hf : SameBut t v v')
    (hlink : v'.Unlinked t) (hs : s ≠ .runnable) : w.Kept := by
  refine hsched.kept (h.change ((hf.trans (SameBut.enqueue _ hlink q)).trans
    (SameBut.setState _ t s)) fun hr => ?_)
  exact absurd ((Function.update_self ..).symm.trans hr) hs

theorem SendsTo.kept {e : Word} {isCall : Bool} (hv : v.Consistent) (h : v.Held)
    (hc : v.current = some t) (hs : (v.prepared t isCall).SendsTo t e isCall v') : v'.Kept := by
  obtain ⟨hrun, hlink, hstate⟩ := hv.current_free hc
  have hprep := prepared_same v t isCall
  cases hs with
  | blocks hq hsched =>
    refine hsched.kept_of_block h hprep (fun q => by simpa using hlink q) ?_
    cases isCall <;> nofun
  | wakes hw hns hnc =>
    rename_i r l
    generalize (v.prepared t isCall).expectsReply t = b
    have hsent : ((v.prepared t isCall).noted (.received t r b)).Held := by
      refine h.change (hprep.trans (SameBut.received _ t r b)) fun hr => ?_
      cases isCall
      · rcases hstate with hs | hs <;> simp [prepared, hs] at hr
      · simp [prepared] at hr
    refine hsent.hand (t := r) ?_ rfl
    exact ((SameBut.dequeue _ (.endpoint e) r).trans (SameBut.transfer _ r t r)).trans
      (SameBut.switchTo _ r)

theorem Receives.kept {e : Word} (hv : v.Consistent) (h : v.Held) (hc : v.current = some t)
    (hr : v.Receives t e v') : v'.Kept := by
  cases hr with
  | notified => exact h.kept
  | blocks hq hsched =>
    exact hsched.kept_of_block h (SameBut.refl t v) (hv.current_free hc).2.1 nofun
  | takes hw hns =>
    rename_i s l
    have hmem : s ∈ v.waiting (.endpoint e) := by rw [hw]; exact List.mem_cons_self
    refine Held.kept ?_
    unfold take
    cases hx : v.expectsReply s with
    | true =>
      refine h.change (t := s) (((SameBut.dequeue v _ s).trans (SameBut.received _ s t true)).trans
        (SameBut.setReplyTo _ s t s)) fun hs => ?_
      rcases hv.queued.linked _ s hmem with hs' | hs' | hs' | hs' <;> cases hs'.symm.trans hs
    | false =>
      refine h.change (t := s) (((SameBut.dequeue v _ s).trans (SameBut.received _ s t false)).trans
        (SameBut.makeRunnable _ (hv.queued.not_run_of_linked hmem))) fun _ => ?_
      exact List.mem_cons_self

theorem Held.reply {c : Word} (h : v.Held) (hq : v.Queued) (hs : v.state c = .calling) :
    (v.reply t c).Held := by
  have hrun : c ∉ v.runQueue := hq.not_run_of_state (by rw [hs]; nofun)
  refine h.change (t := c) (((SameBut.replied v c t _).trans (SameBut.transfer _ c t c)).trans
    (SameBut.makeRunnable _ (by simpa using hrun))) fun _ => ?_
  exact List.mem_cons_self

/-- Leaving the kernel drops no thread: the one returned to runs. -/
theorem Leaves.kept (hl : v.Leaves v') (h : v.Kept) : v'.Kept := by
  cases hl with
  | stays => exact h
  | switches hret hc hne hstate =>
    rename_i t c
    intro x hm hs
    by_cases hxt : x = t
    · rw [hxt] at hs
      cases (Function.update_self ..).symm.trans hs
    · by_cases hxc : x = c
      · exact .inl (hxc ▸ List.mem_cons_self)
      · have hs' : v.state x = .runnable := by simpa [hxt, hxc] using hs
        have hm' : .madeRunnable x ∈ v.history := by simpa [hxc] using hm
        exact (h x hm' hs').imp_left (List.mem_cons_of_mem c)
  | leavesBehind hret hne hnot =>
    rename_i t
    intro x hm hs
    have hxt : x ≠ t := by
      rintro rfl
      cases (Function.update_self ..).symm.trans hs
    exact h x hm (by simpa [hxt] using hs)
  | idles => exact h

end View

/-- No thread is killed for its wait while another one is on the run queue. -/
theorem Act.kept {v v' : View} {m : Move} (ha : Act v m v') (hv : v.Consistent) (h : v.Held)
    (hm : m.Safe v) (hkilled : ∀ t, m = .killedWait t → v.runQueue = []) : v'.Kept := by
  have hkill : ∀ {t : Word}, (v.setState t .dead).Held := fun {t} =>
    h.change (SameBut.setState v t .dead) (by simp)
  cases ha with
  | stays => exact h.kept
  | exits hc hsched => exact hsched.kept hkill
  | yields hsched => exact hsched.kept h
  | sends hc hs => exact hs.kept hv h hc
  | receives hc hr => exact hr.kept hv h hc
  | replies hc hreply hs => exact (h.reply hv.queued hs).kept
  | repliesAndReceives hc hreply hs hr =>
    exact hr.kept (hv.reply hc hs hm) (h.reply hv.queued hs) ((View.transfer_current _ _).trans hc)
  | wakes hq hs =>
    rename_i r q
    exact h.hand ((SameBut.dequeue v q r).trans (SameBut.switchTo _ r)) rfl
  | waits hc hsched =>
    exact hsched.kept_of_block h (SameBut.refl _ v) (hv.current_free hc).2.1 nofun
  | waitsKilled hc hdies hsched =>
    rename_i t n w
    have hempty := hkilled t rfl
    have hlink := (hv.current_free hc).2.1
    cases hdies with
    | first hq => cases hempty.symm.trans hq
    | stays => exact hsched.kept_of_block hkill (SameBut.refl _ _) hlink nofun
    | idles => exact hsched.kept_of_block hkill (SameBut.returnTo _ t none) hlink nofun
  | resumes hs =>
    rename_i u
    exact (h.change (SameBut.makeRunnable v hm.2.1) fun _ => List.mem_cons_self).kept
  | suspends =>
    rename_i u
    exact (h.change (SameBut.suspend v u) (by simp)).kept

/-! ## Every run -/

/-- `runnable_tcbs` is a list of runnable threads other than the running one,
and holds every thread once that was made runnable and still is, except the one
to return to. -/
def NoneLost (k : Kernel) : Prop :=
  ∃ l : List Word, k.nodes.Ring .runnableTcbs (l.map .run) ∧
    (∀ t ∈ l, (k.tcbs t).state = .runnable ∧ k.currentTcb ≠ some t) ∧
    ∀ t, .madeRunnable t ∈ k.history → (k.tcbs t).state = .runnable →
      l.count t = 1 ∨ k.returnToTcb = some t

/-- The methods that change the states of threads, and the one that decides whose
waits on a notification are fatal. -/
def bindingMethods : List Method := [.tcbResume, .tcbSuspend, .tcbBindNotification]

/-- Besides, no wait on a notification that is bound to another thread finds
both no pending word and a thread on the run queue, and what the entry invokes is a
resumption, a suspension or a binding. -/
structure RunSafe (k : Kernel) (e : Entry) : Prop extends ListSafe k e where
  killed : ∀ t, e.Makes k (.killedWait t) → k.currentTcb = some t →
    isListEmpty k.nodes .runnableTcbs = true
  invokes : e.InvokesOnly (· ∈ bindingMethods) k

theorem Represents.noneLost {k : Kernel} {v : View} (h : Represents k v) (hv : v.Consistent)
    (hkept : v.Kept) : NoneLost k := by
  refine ⟨v.runQueue, h.rings.ring .runnableTcbs trivial, ?_, ?_⟩
  · intro t ht
    have hs := hv.queued.run_state t ht
    refine ⟨(h.state t).trans hs, fun hc => ?_⟩
    exact (hv.current_free (h.current.symm.trans hc)).1 ht
  · intro t hm hs
    rw [h.history] at hm
    rw [h.state] at hs
    rw [h.returnTo]
    exact (hkept t hm hs).imp_left (List.count_eq_one_of_mem hv.queued.run_nodup)

/-- No runnable thread is lost in the runs whose entries are safe. -/
theorem none_lost {P : Platform} {k : Kernel} (h : (kernelSystem P).ReachedBy RunSafe k) :
    NoneLost k := by
  have hrun : ∃ v, Represents k v ∧ v.Consistent ∧ v.Kept := by
    refine reachedBy_consistent ?_ (fun _ _ _ => nofun) ?_ h
    · exact fun k e v m w hrep _ _ hok hm ha => hok.safe hrep hm ha
    · intro k e v m w v' hrep hv hkept hok hm ha _ hl
      refine hl.kept (ha.kept hv (hkept.held hv) (hok.safe hrep hm ha) ?_)
      rintro t rfl
      have hc : v.current = some t := by
        cases ha with
        | waitsKilled hc => exact hc
      exact hrep.runQueue_empty.mp (hok.killed t hm (hrep.current.trans hc))
  obtain ⟨v, hrep, hv, hkept⟩ := hrun
  exact hrep.noneLost hv hkept

/-- The boot thread holds a notification in slot 0, where the IPC buffers name
the capability to bind, and the worker in slot 5. -/
def boundKernel : Kernel :=
  exampleKernel [workerTcb] [(0, ({ type := .notification } : Cap).withPtr exampleNotification),
    (5, tcbCap workerTcb)]

theorem boundKernel_reached (ok : Kernel → Entry → Prop) :
    (kernelSystem examplePlatform).ReachedBy ok boundKernel :=
  .start (exampleKernel_booted _ _)

/-- The boot thread resumes the worker, which nothing held, and runs on. -/
theorem none_lost_resumed : ∃ k, (kernelSystem examplePlatform).ReachedBy RunSafe k ∧
    k.nodes.next .runnableTcbs = some (.run workerTcb) ∧ NoneLost k := by
  obtain ⟨k, hrun, hread⟩ := runSyscalls_reads
    (show (runSyscalls examplePlatform [resumeFrame 5] boundKernel).map
      (fun k => k.nodes.next .runnableTcbs) = .ok (some (.run workerTcb)) by decide +kernel)
  simp only [runSyscalls, bind_eq_ok, Except.ok.injEq, exists_eq_right] at hrun
  have hslot : lookupCapSlot boundKernel.slots (cspaceRootOf initTcb) (resumeFrame 5).rdi 64#64 =
      .ok (.ok (initSlot 5)) := by decide +kernel
  have hsafe : RunSafe boundKernel (.syscall (resumeFrame 5)) := by
    refine ⟨(exampleKernel_booted _ _).resume_safe (by decide) rfl hslot (by decide +kernel), ?_,
      frame_invokesOnly (by decide)⟩
    · rintro t ⟨n, ⟨slot, ⟨hn, -⟩, -⟩, -⟩
      cases hn
  have hk : (kernelSystem examplePlatform).ReachedBy RunSafe k :=
    .step (boundKernel_reached _) hsafe (syscallEntry_step hrun (by decide))
  exact ⟨k, hk, hread, none_lost hk⟩

/-- The worker is bound to the notification, resumed, and the two threads yield
to each other; the boot thread then waits on the notification and is killed. -/
def waitAndLose : List Frame :=
  [callFrame 2 5 { emptyTag with label := 10, extraCaps := 1 }, resumeFrame 5, yieldFrame,
    yieldFrame, recvFrame 0]

/-- The worker was made runnable and is, but it is on no list. -/
theorem killed_waiter_loses_worker :
    ¬ ∀ k, (kernelSystem examplePlatform).ReachedBy
      (fun k e => e.InvokesOnly (· ∈ bindingMethods) k) k → NoneLost k := by
  intro h
  obtain ⟨k, hrun, hread⟩ := runSyscalls_reads
    (show (runSyscalls examplePlatform waitAndLose boundKernel).map
      (fun k => (((k.tcbs workerTcb).state, k.returnToTcb), k.nodes.next .runnableTcbs,
        decide (.madeRunnable workerTcb ∈ k.history))) =
        .ok ((.runnable, none), some .runnableTcbs, true) by decide +kernel)
  simp only [Prod.mk.injEq, decide_eq_true_eq] at hread
  obtain ⟨⟨hstate, hreturn⟩, hnext, hmade⟩ := hread
  have hlabels : ∀ f ∈ waitAndLose,
      (Method.ofLabel? f.tag.label).all (fun m => m ∈ bindingMethods) = true := by
    decide +kernel
  have hk := runSyscalls_reached
    (boundKernel_reached fun k e => e.InvokesOnly (· ∈ bindingMethods) k)
    (fun f hf _ => frame_invokesOnly (hlabels f hf)) (by decide +kernel) hrun
  obtain ⟨l, hring, -, hall⟩ := h k hk
  have hnil : l.map Node.run = [] := (hring.next_self_iff (by simp)).mp hnext
  rcases hall workerTcb hmade hstate with hcount | hr
  · rw [List.map_eq_nil_iff.mp hnil] at hcount
    cases hcount
  · cases hreturn.symm.trans hr

end Tern
