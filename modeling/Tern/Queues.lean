import Tern.Refinement

/-! The wait queues of endpoints and notifications hold exactly the threads that
wait, and no endpoint queue mixes receivers and senders, in every run that
resumes and suspends no thread that waits. `View.Sorted` is the invariant: it
goes beyond `View.Queued` in what it says about the states of the threads. -/

namespace Tern

open Lib

namespace View

variable (v : View)

/-- The thread waits on an endpoint or a notification. -/
def Blocked (t : Word) : Prop :=
  v.state t = .sending ∨ v.state t = .receiving ∨
    (v.state t = .calling ∧ unreceived t v.history = true)

/-- Threads that wait to receive, or threads that wait to send. -/
def Receivers (q : Queue) : Prop := ∀ t ∈ v.waiting q, v.state t = .receiving

def Senders (q : Queue) : Prop := ∀ t ∈ v.waiting q, v.state t = .sending ∨ v.state t = .calling

structure Sorted : Prop where
  blocked_iff : ∀ t, (∃ q, t ∈ v.waiting q) ↔ v.Blocked t
  endpoint : ∀ e, v.Receivers (.endpoint e) ∨ v.Senders (.endpoint e)

variable {v} {v' : View} {t : Word}

theorem not_blocked_of_state (hs : v.state t = .runnable ∨ v.state t = .running ∨
    v.state t = .dead ∨ v.state t = .suspended) : ¬ v.Blocked t := by
  rintro (hb | hb | ⟨hb, -⟩) <;> rw [hb] at hs <;> rcases hs with hs | hs | hs | hs <;> cases hs

theorem blocked_congr (hf : SameBut t v v') {x : Word} (hx : x ≠ t) :
    v'.Blocked x ↔ v.Blocked x := by
  simp only [Blocked, hf.state x hx, hf.unreceived x hx]

/-- The thread `t` has been put where it is on no wait queue. -/
theorem Sorted.unlink (h : v.Sorted) (hf : SameBut t v v') (hlink : v'.Unlinked t)
    (hblocked : ¬ v'.Blocked t) : v'.Sorted where
  blocked_iff x := by
    by_cases hxt : x = t
    · subst hxt
      exact iff_of_false (fun ⟨q, hq⟩ => hlink q hq) hblocked
    · simp only [hf.waiting _ x hxt, blocked_congr hf hxt]
      exact h.blocked_iff x
  endpoint e := by
    have hne : ∀ x ∈ v'.waiting (.endpoint e), x ≠ t := fun x hx e => hlink _ (e ▸ hx)
    refine (h.endpoint e).imp ?_ ?_ <;> intro hall x hx <;> rw [hf.state x (hne x hx)] <;>
      exact hall x ((hf.waiting _ x (hne x hx)).mp hx)

/-- The thread `t` has been put on the wait queue `q`, among its like. -/
theorem Sorted.link (h : v.Sorted) (hf : SameBut t v v') {q : Queue} (hq : t ∈ v'.waiting q)
    (hunique : ∀ r, t ∈ v'.waiting r → r = q) (hblocked : v'.Blocked t)
    (hkind : (v'.state t = .receiving ∧ v.Receivers q) ∨
      ((v'.state t = .sending ∨ v'.state t = .calling) ∧ v.Senders q)) : v'.Sorted where
  blocked_iff x := by
    by_cases hxt : x = t
    · subst hxt
      exact iff_of_true ⟨q, hq⟩ hblocked
    · simp only [hf.waiting _ x hxt, blocked_congr hf hxt]
      exact h.blocked_iff x
  endpoint e := by
    by_cases he : .endpoint e = q
    · subst he
      refine hkind.imp ?_ ?_ <;> rintro ⟨hs, hall⟩ x hx <;> by_cases hxt : x = t
      · rw [hxt]; exact hs
      · rw [hf.state x hxt]
        exact hall x ((hf.waiting _ x hxt).mp hx)
      · rw [hxt]; exact hs
      · rw [hf.state x hxt]
        exact hall x ((hf.waiting _ x hxt).mp hx)
    · have hne : ∀ x ∈ v'.waiting (.endpoint e), x ≠ t :=
        fun x hx ex => he (hunique _ (ex ▸ hx))
      refine (h.endpoint e).imp ?_ ?_ <;> intro hall x hx <;> rw [hf.state x (hne x hx)] <;>
        exact hall x ((hf.waiting _ x (hne x hx)).mp hx)

/-- A thread is taken off its wait queue and made runnable. -/
theorem Sorted.wake (h : v.Sorted) (hq : v.Queued) {q : Queue} (hmem : t ∈ v.waiting q)
    (hf : SameBut t (v.dequeue q t) v') (hwait : v'.waiting = (v.dequeue q t).waiting)
    (hs : v'.state t = .runnable) : v'.Sorted := by
  refine h.unlink ((SameBut.dequeue v q t).trans hf) ?_ (not_blocked_of_state (.inl hs))
  intro r
  rw [hwait]
  exact hq.dequeue_unlinked hmem r

/-- A thread that waits for nothing changes to another state in which it does. -/
theorem Sorted.block (h : v.Sorted) (hf : SameBut t v v') {q : Queue} {s : TaskState}
    (hlink : v'.Unlinked t)
    (hblocked : s = .calling → unreceived t v'.history = true)
    (hkind : (s = .receiving ∧ v.Receivers q) ∨ ((s = .sending ∨ s = .calling) ∧ v.Senders q)) :
    ((v'.enqueue q t).setState t s).Sorted := by
  have hstate : ((v'.enqueue q t).setState t s).state t = s := Function.update_self ..
  refine h.link (q := q) ((hf.trans (SameBut.enqueue _ hlink q)).trans (SameBut.setState _ t s))
    ?_ ?_ ?_ ?_
  · simp
  · intro r hr
    by_contra hne
    exact hlink r (by simpa [Function.update_of_ne hne] using hr)
  · rcases hkind with ⟨rfl, -⟩ | ⟨rfl | rfl, -⟩
    · exact .inr (.inl hstate)
    · exact .inl hstate
    · exact .inr (.inr ⟨hstate, hblocked rfl⟩)
  · rw [hstate]
    exact hkind

theorem Schedules.sorted (hs : v.Schedules v') (hq : v.Queued) (h : v.Sorted) : v'.Sorted := by
  cases hs with
  | first hrun =>
    rename_i t l
    have hrunnable := hq.run_state t (by rw [hrun]; exact List.mem_cons_self)
    exact h.unlink (SameBut.scheduleTo v t) (hq.unlinked_of_state (.inl hrunnable))
      (not_blocked_of_state (.inl (Function.update_self ..)))
  | stays => exact h
  | idles => exact ⟨h.blocked_iff, h.endpoint⟩

theorem Leaves.sorted (hl : v.Leaves v') (hr : v.Ready) (h : v.Sorted) : v'.Sorted := by
  have hdispatch : ∀ {w : View} {t : Word}, w.Sorted → w.Unlinked t →
      View.Sorted { w.setState t .running with current := some t } := by
    intro w t hw ht
    have hs := hw.unlink (SameBut.setState w t .running) ht
      (not_blocked_of_state (.inr (.inl (Function.update_self ..))))
    exact ⟨hs.blocked_iff, hs.endpoint⟩
  cases hl with
  | stays => exact h
  | switches hret hc hne hstate =>
    rename_i t c
    obtain ⟨hs, -⟩ := hr.next hret (by rw [hc]; simpa using hne.symm)
    have hrun : c ∉ v.runQueue := hr.queued.not_run_of_state (by rw [hstate]; nofun)
    refine hdispatch ?_ (hr.queued.unlinked_of_state (.inl hs))
    exact h.unlink (SameBut.makeRunnable v hrun)
      (hr.queued.unlinked_of_state (.inr (.inl hstate)))
      (not_blocked_of_state (.inl (Function.update_self ..)))
  | leavesBehind hret hne hnot =>
    exact hdispatch h (hr.queued.unlinked_of_state (.inl (hr.next hret hne).1))
  | idles => exact ⟨h.blocked_iff, h.endpoint⟩

/-- What a sender finds on the queue is a receiver, or else senders only. -/
theorem Sorted.senders_of_first (h : v.Sorted) {e : Word}
    (hfirst : ∀ r l, v.waiting (.endpoint e) = r :: l → v.state r = .sending ∨ v.state r = .calling) :
    v.Senders (.endpoint e) := by
  rcases h.endpoint e with hr | hs
  · cases hw : v.waiting (.endpoint e) with
    | nil =>
      intro x hx
      rw [hw] at hx
      cases hx
    | cons r l =>
      have hrecv := hr r (by rw [hw]; exact List.mem_cons_self)
      rcases hfirst r l hw with hs | hs <;> cases hrecv.symm.trans hs
  · exact hs

theorem Sorted.receivers_of_first (h : v.Sorted) {e : Word}
    (hfirst : ∀ s l, v.waiting (.endpoint e) = s :: l → v.state s = .receiving) :
    v.Receivers (.endpoint e) := by
  rcases h.endpoint e with hr | hs
  · exact hr
  · cases hw : v.waiting (.endpoint e) with
    | nil =>
      intro x hx
      rw [hw] at hx
      cases hx
    | cons s l =>
      have hrecv := hfirst s l hw
      rcases hs s (by rw [hw]; exact List.mem_cons_self) with hs | hs <;> cases hrecv.symm.trans hs

theorem SendsTo.sorted {e : Word} {isCall : Bool} (hv : v.Consistent) (h : v.Sorted)
    (hc : v.current = some t) (hs : (v.prepared t isCall).SendsTo t e isCall v') : v'.Sorted := by
  obtain ⟨hrun, hlink, hstate⟩ := hv.current_free hc
  have hprep := prepared_same v t isCall
  have hother : ∀ {q : Queue} {r : Word}, r ∈ v.waiting q → (v.prepared t isCall).state r = v.state r := by
    intro q r hr
    exact hprep.state r fun e => hlink q (e ▸ hr)
  have hlink' : (v.prepared t isCall).Unlinked t := fun q => by simpa using hlink q
  cases hs with
  | blocks hq hsched =>
    have hsenders : v.Senders (.endpoint e) := by
      refine h.senders_of_first fun r l hw => ?_
      rw [← hother (q := .endpoint e) (by rw [hw]; exact List.mem_cons_self)]
      exact hq r l (by simpa using hw)
    have hkind : (if isCall then TaskState.calling else .sending) = .sending ∨
        (if isCall then TaskState.calling else .sending) = .calling := by
      cases isCall
      · exact .inl rfl
      · exact .inr rfl
    refine hsched.sorted (hv.queued.block hprep (by simpa using hrun) hlink' (.inr ⟨hkind, e, rfl⟩)
      ?_) (h.block hprep hlink' ?_ (.inr ⟨hkind, hsenders⟩))
    · cases isCall <;> simp [prepared]
    · cases isCall
      · rintro ⟨⟩
      · exact fun _ => by simp [prepared, unreceived]
  | wakes hw hns hnc =>
    rename_i r l
    have hmem : r ∈ v.waiting (.endpoint e) := by
      rw [← prepared_waiting (t := t) isCall, hw]
      exact List.mem_cons_self
    generalize (v.prepared t isCall).expectsReply t = b
    have hnoted := hprep.trans (SameBut.received (v.prepared t isCall) t r b)
    have hsent : ((v.prepared t isCall).noted (.received t r b)).Sorted := by
      refine h.unlink hnoted (fun q => by simpa using hlink q) ?_
      -- the message of the call, if it is one, has now been received
      cases isCall
      · refine not_blocked_of_state ?_
        rcases hstate with hs | hs <;> simp [prepared, hs]
      · simp [Blocked, prepared, unreceived]
    refine hsent.wake (t := r) (q := .endpoint e) (hv.sent hc isCall r b) (by simpa using hmem)
      ((SameBut.transfer _ r t r).trans (SameBut.switchTo _ r)) ?_ (Function.update_self ..)
    exact transfer_waiting t r

theorem Receives.sorted {e : Word} (hv : v.Consistent) (h : v.Sorted) (hc : v.current = some t)
    (hr : v.Receives t e v') : v'.Sorted := by
  obtain ⟨hrun, hlink, -⟩ := hv.current_free hc
  cases hr with
  | notified => exact h
  | blocks hq hsched =>
    exact hsched.sorted (hv.queued.blockReceiver hrun hlink _)
      (h.block (SameBut.refl t v) hlink nofun (.inl ⟨rfl, h.receivers_of_first hq⟩))
  | takes hw hns =>
    rename_i s l
    have hmem : s ∈ v.waiting (.endpoint e) := by rw [hw]; exact List.mem_cons_self
    have hsender : v.state s = .sending ∨ v.state s = .calling := by
      rcases h.endpoint e with hr | hs
      · exact absurd (hr s hmem) hns
      · exact hs s hmem
    unfold take
    cases hx : v.expectsReply s with
    | true =>
      have hcalling : v.state s = .calling := by
        refine hsender.resolve_left fun hs => ?_
        cases ((hv.queued.flagged s).1 hs).symm.trans hx
      have hf := ((SameBut.dequeue v (.endpoint e) s).trans (SameBut.received _ s t true)).trans
        (SameBut.setReplyTo _ s t s)
      refine h.unlink hf (hv.queued.dequeue_unlinked hmem) ?_
      simp [Blocked, hcalling, unreceived]
    | false =>
      have hrunr := hv.queued.not_run_of_linked hmem
      exact h.wake hv.queued hmem ((SameBut.received _ s t false).trans (SameBut.makeRunnable _ hrunr))
        rfl (Function.update_self ..)

theorem Sorted.reply {c : Word} (h : v.Sorted) (hq : v.Queued) (hs : v.state c = .calling)
    (hlink : v.Unlinked c) : (v.reply t c).Sorted := by
  have hrun : c ∉ v.runQueue := hq.not_run_of_state (by rw [hs]; nofun)
  have hf : SameBut c v (v.reply t c) :=
    ((SameBut.replied v c t _).trans (SameBut.transfer _ c t c)).trans
      (SameBut.makeRunnable _ (by simpa using hrun))
  exact h.unlink hf (fun q => by simpa [View.reply] using hlink q)
    (not_blocked_of_state (.inl (Function.update_self ..)))

/-- The notification queues hold receivers only. -/
theorem Sorted.notification (h : v.Sorted) (hq : v.Queued) (n : Word) :
    v.Receivers (.notification n) := by
  intro x hx
  refine (hq.notification n x hx).resolve_right fun hs => ?_
  exact not_blocked_of_state (.inr (.inr (.inr hs))) ((h.blocked_iff x).mp ⟨_, hx⟩)

end View

/-- An entry that suspends no waiting thread leaves the queues sorted. -/
theorem Act.sorted {v v' : View} {m : Move} (ha : Act v m v') (hv : v.Consistent) (h : v.Sorted)
    (hm : m.Safe v) (hsuspend : ∀ u, m = .suspend u → v.Unlinked u) : v'.Sorted := by
  have hkill : ∀ {t : Word}, v.current = some t → (v.setState t .dead).Sorted := fun {t} hc =>
    h.unlink (SameBut.setState v t .dead) (hv.current_free hc).2.1
      (View.not_blocked_of_state (.inr (.inr (.inl (Function.update_self ..)))))
  cases ha with
  | stays => exact h
  | exits hc hsched => exact hsched.sorted (hv.kill hc) (hkill hc)
  | yields hsched => exact hsched.sorted hv.queued h
  | sends hc hs => exact hs.sorted hv h hc
  | receives hc hr => exact hr.sorted hv h hc
  | replies hc hreply hs => exact h.reply hv.queued hs hm
  | repliesAndReceives hc hreply hs hr =>
    exact hr.sorted (hv.reply hc hs hm) (h.reply hv.queued hs hm)
      ((View.transfer_current _ _).trans hc)
  | wakes hq hs =>
    rename_i r q
    exact h.wake hv.queued hq (SameBut.switchTo _ r) rfl (Function.update_self ..)
  | waits hc hsched =>
    obtain ⟨hrun, hlink, -⟩ := hv.current_free hc
    exact hsched.sorted (hv.queued.blockReceiver hrun hlink _)
      (h.block (SameBut.refl _ v) hlink nofun (.inl ⟨rfl, h.notification hv.queued _⟩))
  | waitsKilled hc hdies hsched =>
    rename_i t n w
    obtain ⟨hws, hwc⟩ := hdies.keeps (t := t) (hv.current_free hc).1
    have hdead : w.state t = .dead := hws.trans (Function.update_self ..)
    have hw := (hdies.ready_of_stopped (hv.kill hc) hc (by simp) (by simp)).queued
    have hsorted := hdies.sorted (hv.kill hc) (hkill hc)
    have hlink := hw.unlinked_of_state (.inr (.inr hdead))
    have hrun := hw.not_run_of_state (t := t) (by rw [hdead]; nofun)
    exact hsched.sorted (hw.blockReceiver hrun hlink _)
      (hsorted.block (SameBut.refl _ w) hlink nofun (.inl ⟨rfl, hsorted.notification hw _⟩))
  | resumes hs =>
    rename_i u
    obtain ⟨-, hrun, hlink⟩ := hm
    exact h.unlink (SameBut.makeRunnable v hrun) hlink
      (View.not_blocked_of_state (.inl (Function.update_self ..)))
  | suspends =>
    rename_i u
    exact h.unlink (SameBut.suspend v u) (hsuspend u rfl)
      (View.not_blocked_of_state (.inr (.inr (.inr (Function.update_self ..)))))

/-! ## Every run -/

/-- Exactly the threads that wait are linked, each in one queue, and no endpoint
queue holds both receivers and senders. -/
structure QueuesConsistent (k : Kernel) : Prop where
  linked : ∀ t, (∃ q, InQueue k q t) ↔
    (k.tcbs t).state = .sending ∨ (k.tcbs t).state = .receiving ∨
      ((k.tcbs t).state = .calling ∧ unreceived t k.history = true)
  unique : ∀ t q r, InQueue k q t → InQueue k r t → q = r
  endpoint : ∀ e, (∀ t, InQueue k (.endpoint e) t → (k.tcbs t).state = .receiving) ∨
    (∀ t, InQueue k (.endpoint e) t →
      (k.tcbs t).state = .sending ∨ (k.tcbs t).state = .calling)

/-- The methods that change the states of threads. -/
def schedulingMethods : List Method := [.tcbResume, .tcbSuspend]

/-- Besides, the entry suspends no thread that waits, and what it invokes is a
resumption or a suspension. -/
structure QueueSafe (k : Kernel) (e : Entry) : Prop extends ListSafe k e where
  suspend : ∀ u, e.Makes k (.suspend u) → ∀ q, ¬ InQueue k q u
  invokes : e.InvokesOnly (· ∈ schedulingMethods) k

theorem Represents.queuesConsistent {k : Kernel} {v : View} (h : Represents k v)
    (hq : v.Queued) (hs : v.Sorted) : QueuesConsistent k where
  linked t := by
    simp only [h.inQueue_iff, h.state, h.history]
    exact hs.blocked_iff t
  unique t q r ht ht' :=
    hq.wait_unique t q r ((h.inQueue_iff q).mp ht) ((h.inQueue_iff r).mp ht')
  endpoint e := by
    simp only [h.inQueue_iff, h.state]
    exact hs.endpoint e

theorem Booted.sorted {k : Kernel} (h : Booted k) : (bootView k).Sorted where
  blocked_iff t := by
    refine iff_of_false nofun (View.not_blocked_of_state ?_)
    rcases h.state t with ⟨hs, -⟩ | hs
    · exact .inr (.inl hs)
    · exact .inl hs
  endpoint _ := .inl nofun

/-- The wait queues are consistent in every run whose entries are safe. -/
theorem queues_consistent {P : Platform} {k : Kernel}
    (h : (kernelSystem P).ReachedBy QueueSafe k) : QueuesConsistent k := by
  have hrun : ∃ v, Represents k v ∧ v.Consistent ∧ v.Sorted := by
    refine reachedBy_consistent ?_ (fun k hk => hk.sorted) ?_ h
    · exact fun k e v m w hrep _ _ hok hm ha => hok.safe hrep hm ha
    · intro k e v m w v' hrep hv hs hok hm ha hready hl
      refine hl.sorted hready (ha.sorted hv hs (hok.safe hrep hm ha) ?_)
      rintro u rfl
      exact hrep.unlinked_iff.mp (hok.suspend u hm)
  obtain ⟨v, hrep, hv, hs⟩ := hrun
  exact hrep.queuesConsistent hv.queued hs

/-- The boot thread holds the worker in slot 5 and an endpoint in slot 6. -/
def queueKernel : Kernel :=
  exampleKernel [workerTcb] [(5, tcbCap workerTcb), (6, endpointCap exampleEndpoint)]

theorem queueKernel_reached (ok : Kernel → Entry → Prop) :
    (kernelSystem examplePlatform).ReachedBy ok queueKernel :=
  .start (exampleKernel_booted _ _)

/-- The boot thread blocks on the endpoint, and is linked there. -/
theorem queues_consistent_waiting : ∃ k, (kernelSystem examplePlatform).ReachedBy QueueSafe k ∧
    InQueue k (.endpoint exampleEndpoint) initTcb ∧ QueuesConsistent k := by
  obtain ⟨k, hrun, hread⟩ := runSyscalls_reads
    (show (runSyscalls examplePlatform [recvFrame 6] queueKernel).map
      (fun k => k.nodes.next (.endpoint exampleEndpoint)) = .ok (some (.sendReceive initTcb)) by
        decide +kernel)
  have hsafe : ∀ f ∈ [recvFrame 6], ∀ k, QueueSafe k (.syscall f) := by
    intro f hf k
    obtain rfl := List.mem_singleton.mp hf
    -- a receive is no method invocation and no reply
    refine ⟨⟨?_, ?_⟩, ?_, frame_invokesOnly (by decide)⟩
    · rintro u ⟨slot, ⟨hn, -⟩, -⟩
      cases hn
    · rintro t c (hn | ⟨slot, ⟨hn, -⟩, -⟩)
      · cases hn
      · cases hn
    · rintro u ⟨slot, ⟨hn, -⟩, -⟩
      cases hn
  have hk := runSyscalls_reached (queueKernel_reached _) hsafe (by decide +kernel) hrun
  exact ⟨k, hk, .single hread, queues_consistent hk⟩

/-- The worker is resumed, yielded to, blocks on the endpoint, and is resumed
again: it is runnable and still linked in the endpoint's queue. -/
theorem resume_leaves_waiter_linked :
    ¬ ∀ k, (kernelSystem examplePlatform).ReachedBy
      (fun k e => e.InvokesOnly (· ∈ schedulingMethods) k) k → QueuesConsistent k := by
  intro h
  obtain ⟨k, hrun, hread⟩ := runSyscalls_reads
    (show (runSyscalls examplePlatform [resumeFrame 5, yieldFrame, recvFrame 6, resumeFrame 5]
        queueKernel).map
      (fun k => ((k.tcbs workerTcb).state, k.nodes.next (.endpoint exampleEndpoint))) =
        .ok (.runnable, some (.sendReceive workerTcb)) by decide +kernel)
  obtain ⟨hstate, hnext⟩ := Prod.ext_iff.mp hread
  have hlabels : ∀ f ∈ [resumeFrame 5, yieldFrame, recvFrame 6, resumeFrame 5],
      (Method.ofLabel? f.tag.label).all (fun m => m ∈ schedulingMethods) = true := by
    decide +kernel
  have hk := runSyscalls_reached
    (queueKernel_reached fun k e => e.InvokesOnly (· ∈ schedulingMethods) k)
    (fun f hf _ => frame_invokesOnly (hlabels f hf)) (by decide +kernel) hrun
  have hlinked := ((h k hk).linked workerTcb).mp ⟨.endpoint exampleEndpoint, .single hnext⟩
  dsimp only at hstate
  rw [hstate] at hlinked
  rcases hlinked with hs | hs | ⟨hs, -⟩ <;> cases hs

end Tern
