import Tern.Refinement

/-! Who answers whom. `pendingServer` is the client's side of the history: who
received its last call. `canAnswer` is the server's side: whose call it received
last and has not answered. The kernel keeps only `reply_to`, which no reply
clears; as long as servers reply only to what they received and nobody is
resumed while it waits for an answer, the two sides agree. -/

namespace Tern

open Lib

/-- The client whose call the thread received last, as long as it has not
replied since, and no reply to it has overwritten its `reply_to`. -/
def canAnswer (s : Word) : List Event → Option Word
  | [] => none
  | .received c r expects :: h => if r = s ∧ expects then some c else canAnswer s h
  | .replied a b expects :: h => if a = s ∨ (b = s ∧ expects) then none else canAnswer s h
  | .called _ :: h => canAnswer s h
  | .madeRunnable _ :: h => canAnswer s h

/-- Every reply went to a client whose last call was received by the thread that
replied, and had not been replied to. -/
def AnsweredByReceiver (h : List Event) : Prop :=
  ∀ s c expects h', .replied s c expects :: h' <:+ h → pendingServer c h' = some s

theorem answered_replied {s c : Word} {b : Bool} {h : List Event} :
    AnsweredByReceiver (.replied s c b :: h) ↔ pendingServer c h = some s ∧ AnsweredByReceiver h := by
  refine ⟨fun ha => ⟨ha s c b h (List.suffix_refl _), fun s c b h' hs => ?_⟩, ?_⟩
  · exact ha s c b h' (hs.trans (List.suffix_cons _ _))
  · rintro ⟨hp, ha⟩ s' c' b' h' hs
    rcases List.suffix_cons_iff.mp hs with he | hs
    · cases he
      exact hp
    · exact ha s' c' b' h' hs

theorem answered_cons {e : Event} {h : List Event} (he : ∀ s c b, e ≠ .replied s c b) :
    AnsweredByReceiver (e :: h) ↔ AnsweredByReceiver h := by
  refine ⟨fun ha s c b h' hs => ha s c b h' (hs.trans (List.suffix_cons _ _)), ?_⟩
  intro ha s c b h' hs
  rcases List.suffix_cons_iff.mp hs with heq | hs
  · cases heq
    exact absurd rfl (he s c b)
  · exact ha s c b h' hs

@[simp] theorem answered_called {t : Word} {h : List Event} :
    AnsweredByReceiver (.called t :: h) ↔ AnsweredByReceiver h := answered_cons nofun

@[simp] theorem answered_received {s r : Word} {b : Bool} {h : List Event} :
    AnsweredByReceiver (.received s r b :: h) ↔ AnsweredByReceiver h := answered_cons nofun

@[simp] theorem answered_madeRunnable {t : Word} {h : List Event} :
    AnsweredByReceiver (.madeRunnable t :: h) ↔ AnsweredByReceiver h := answered_cons nofun

namespace View

/-- The client `c` waits for an answer of `s`, and is on no list. -/
structure Awaits (v : View) (s c : Word) : Prop where
  replyTo : v.replyTo s = some c
  state : v.state c = .calling ∨ (v.state c = .suspended ∧ v.current ≠ some c)
  unlinked : v.Unlinked c
  pending : pendingServer c v.history = some s

structure Paired (v : View) : Prop where
  awaits : ∀ s c, canAnswer s v.history = some c → v.Awaits s c
  answered : AnsweredByReceiver v.history

variable {v v' : View} {t : Word}

/-- Nobody can answer a thread that runs or could run, or that is dead. -/
theorem Paired.not_awaited_of_state (h : v.Paired)
    (ht : v.state t = .runnable ∨ v.state t = .running ∨ v.state t = .dead) (s : Word) :
    canAnswer s v.history ≠ some t := by
  intro hs
  rcases (h.awaits s t hs).state with hc | ⟨hc, -⟩ <;> rw [hc] at ht <;>
    rcases ht with ht | ht | ht <;> cases ht

theorem Paired.not_awaited_of_linked (h : v.Paired) {q : Queue} (hq : t ∈ v.waiting q) (s : Word) :
    canAnswer s v.history ≠ some t :=
  fun hs => (h.awaits s t hs).unlinked q hq

theorem Paired.not_awaited_of_current (h : v.Paired) (hv : v.Consistent) (hc : v.current = some t)
    (s : Word) : canAnswer s v.history ≠ some t := by
  intro hs
  rcases (h.awaits s t hs).state with hcalling | ⟨-, hne⟩
  · rcases hv.returns.state t hc with hs' | hs' <;> cases hs'.symm.trans hcalling
  · exact hne hc

/-- What the clients of other threads wait for is not touched by a change to `t`. -/
theorem Awaits.change {s c : Word} (h : v.Awaits s c) (hf : SameBut t v v') (hct : c ≠ t)
    (hreply : v'.replyTo s = v.replyTo s) : v'.Awaits s c where
  replyTo := hreply.trans h.replyTo
  state := by
    rw [hf.state c hct, hf.current]
    exact h.state
  unlinked q hq := h.unlinked q ((hf.waiting q c hct).mp hq)
  pending := (hf.pending c hct).trans h.pending

/-- The thread `t`, which nobody can answer, changes. -/
theorem Paired.change (h : v.Paired) (hf : SameBut t v v')
    (ht : ∀ s, canAnswer s v.history ≠ some t) (hreply : v'.replyTo = v.replyTo)
    (hcan : ∀ s, canAnswer s v'.history = canAnswer s v.history)
    (hanswered : AnsweredByReceiver v.history → AnsweredByReceiver v'.history) : v'.Paired where
  awaits s c hs := by
    rw [hcan] at hs
    refine (h.awaits s c hs).change hf ?_ (congrFun hreply s)
    rintro rfl
    exact ht s hs
  answered := hanswered h.answered

theorem Schedules.paired (hs : v.Schedules v') (hq : v.Queued) (h : v.Paired) : v'.Paired := by
  cases hs with
  | first hrun =>
    rename_i t l
    have hrunnable := hq.run_state t (by rw [hrun]; exact List.mem_cons_self)
    exact h.change (SameBut.scheduleTo v t) (h.not_awaited_of_state (.inl hrunnable)) rfl
      (fun _ => rfl) (by simp)
  | stays => exact h
  | idles =>
    exact ⟨fun s c hs => ⟨(h.awaits s c hs).replyTo, (h.awaits s c hs).state,
      (h.awaits s c hs).unlinked, (h.awaits s c hs).pending⟩, h.answered⟩

/-- The current thread blocks and another one is chosen. -/
theorem Schedules.paired_of_block {q : Queue} {s : TaskState} {w : View}
    (hsched : ((v'.enqueue q t).setState t s).Schedules w)
    (hq : ((v'.enqueue q t).setState t s).Queued) (h : v'.Paired)
    (ht : ∀ s, canAnswer s v'.history ≠ some t) (hlink : v'.Unlinked t) : w.Paired := by
  refine hsched.paired hq (h.change ((SameBut.enqueue _ hlink q).trans (SameBut.setState _ t s)) ht
    rfl (fun _ => rfl) id)

/-- The next thread becomes the current one. -/
theorem Paired.dispatch (h : v.Paired) (hs : v.state t = .runnable) :
    View.Paired { v.setState t .running with current := some t } where
  awaits s c hc := by
    have ha := h.awaits s c hc
    have hct : c ≠ t := by
      rintro rfl
      exact h.not_awaited_of_state (.inl hs) s hc
    refine ⟨ha.replyTo, ?_, ha.unlinked, ha.pending⟩
    refine ha.state.imp ?_ ?_
    · exact fun hs => (Function.update_of_ne hct _ _).trans hs
    · exact fun hs => ⟨(Function.update_of_ne hct _ _).trans hs.1, by simpa using hct.symm⟩
  answered := h.answered

theorem Leaves.paired (hl : v.Leaves v') (hr : v.Ready) (h : v.Paired) : v'.Paired := by
  cases hl with
  | stays => exact h
  | switches hret hc hne hstate =>
    rename_i t c
    obtain ⟨hs, -⟩ := hr.next hret (by rw [hc]; simpa using hne.symm)
    have hrun : c ∉ v.runQueue := hr.queued.not_run_of_state (by rw [hstate]; nofun)
    have hback : (v.makeRunnable c).Paired :=
      h.change (SameBut.makeRunnable v hrun) (h.not_awaited_of_state (.inr (.inl hstate))) rfl
        (fun _ => rfl) (by simp)
    exact hback.dispatch (((SameBut.makeRunnable v hrun).state t hne).trans hs)
  | leavesBehind hret hne hnot => exact h.dispatch (hr.next hret hne).1
  | idles =>
    refine ⟨fun s c hs => ?_, h.answered⟩
    have ha := h.awaits s c hs
    exact ⟨ha.replyTo, ha.state.imp_right fun hs => ⟨hs.1, nofun⟩, ha.unlinked, ha.pending⟩

theorem Paired.prepared (h : v.Paired) (hv : v.Consistent) (hc : v.current = some t)
    (isCall : Bool) : (v.prepared t isCall).Paired := by
  refine h.change (prepared_same v t isCall) (h.not_awaited_of_current hv hc) ?_ ?_ ?_
  · cases isCall <;> rfl
  · cases isCall <;> exact fun _ => rfl
  · cases isCall <;> simp [View.prepared]

/-- A call is received: the caller waits for an answer of the receiver. -/
theorem Paired.receive {a b : Word} (h : v.Paired) (ha : ∀ s, canAnswer s v.history ≠ some a)
    (hstate : v.state a = .calling ∨ (v.state a = .suspended ∧ v.current ≠ some a))
    (hlink : v.Unlinked a) : ((v.noted (.received a b true)).setReplyTo b a).Paired where
  awaits s c hs := by
    by_cases hsb : s = b
    · subst hsb
      obtain rfl : a = c := by simpa [canAnswer] using hs
      exact ⟨by simp, hstate, hlink, by simp [pendingServer]⟩
    · have hs' : canAnswer s v.history = some c := by simpa [canAnswer, Ne.symm hsb] using hs
      have hca : c ≠ a := by
        rintro rfl
        exact ha s hs'
      refine (h.awaits s c hs').change ((SameBut.received v a b true).trans
        (SameBut.setReplyTo _ a b a)) hca ?_
      simp [Function.update_of_ne hsb]
  answered := by simpa using h.answered

theorem SendsTo.paired {e : Word} {isCall : Bool} (hv : v.Consistent) (h : v.Paired)
    (hc : v.current = some t) (hs : (v.prepared t isCall).SendsTo t e isCall v') : v'.Paired := by
  obtain ⟨hrun, hlink, hstate⟩ := hv.current_free hc
  have hprep := h.prepared hv hc isCall
  have hnot : ∀ s, canAnswer s (v.prepared t isCall).history ≠ some t := by
    have hcurrent := h.not_awaited_of_current hv hc
    cases isCall <;> exact hcurrent
  have hlink' : (v.prepared t isCall).Unlinked t := fun q => by simpa using hlink q
  cases hs with
  | blocks hq hsched =>
    have hkind : (if isCall then TaskState.calling else .sending) = .sending ∨
        (if isCall then TaskState.calling else .sending) = .calling := by
      cases isCall
      · exact .inl rfl
      · exact .inr rfl
    refine hsched.paired_of_block (hv.queued.block (prepared_same v t isCall) (by simpa using hrun)
      hlink' (.inr ⟨hkind, e, rfl⟩) ?_) hprep hnot hlink'
    cases isCall <;> simp [View.prepared]
  | wakes hw hns hnc =>
    rename_i r l
    have hmem : r ∈ (v.prepared t isCall).waiting (.endpoint e) := by
      rw [hw]
      exact List.mem_cons_self
    have hwake : ∀ w : View, SameBut r (w.dequeue (.endpoint e) r)
        ((w.dequeue (.endpoint e) r).switchTo r) := fun w => SameBut.switchTo _ r
    cases isCall with
    | false =>
      have hsent : ((v.prepared t false).noted (.received t r false)).Paired :=
        hprep.change (SameBut.received _ t r false) hnot rfl (fun s => by simp [canAnswer])
          (by simp)
      have hexpects : (v.prepared t false).expectsReply t = false := by simp [View.prepared]
      have hwoken := hsent.change ((SameBut.dequeue _ (.endpoint e) r).trans (hwake _))
        (hsent.not_awaited_of_linked hmem) rfl (fun _ => rfl) (by simp)
      rw [hexpects]
      unfold transfer
      split
      · next hx => cases hexpects.symm.trans hx
      · exact hwoken
    | true =>
      have hsent := hprep.receive (b := r) hnot (.inl (by simp [View.prepared])) hlink'
      have hexpects : (v.prepared t true).expectsReply t = true := by simp [View.prepared]
      have hwoken := hsent.change ((SameBut.dequeue _ (.endpoint e) r).trans (hwake _))
        (hsent.not_awaited_of_linked hmem) rfl (fun _ => rfl) (by simp)
      rw [hexpects]
      unfold transfer
      split
      · exact hwoken
      · next hx => exact absurd hexpects hx

theorem Receives.paired {e : Word} (hv : v.Consistent) (h : v.Paired) (hc : v.current = some t)
    (hr : v.Receives t e v') : v'.Paired := by
  obtain ⟨hrun, hlink, -⟩ := hv.current_free hc
  cases hr with
  | notified => exact h
  | blocks hq hsched =>
    exact hsched.paired_of_block (hv.queued.blockReceiver hrun hlink _) h
      (h.not_awaited_of_current hv hc) hlink
  | takes hw hns =>
    rename_i s l
    have hmem : s ∈ v.waiting (.endpoint e) := by rw [hw]; exact List.mem_cons_self
    have hnot := h.not_awaited_of_linked hmem
    have hpopped : (v.dequeue (.endpoint e) s).Paired :=
      h.change (SameBut.dequeue v _ s) hnot rfl (fun _ => rfl) id
    unfold take
    cases hx : v.expectsReply s with
    | true =>
      refine hpopped.receive hnot ?_ (hv.queued.dequeue_unlinked hmem)
      -- a caller that was suspended on the queue still waits for its answer
      rcases hv.queued.linked _ s hmem with hs | hs | hs | hs
      · cases ((hv.queued.flagged s).1 hs).symm.trans hx
      · exact absurd hs hns
      · exact .inl hs
      · exact .inr ⟨hs, hv.linked_ne hmem⟩
    | false =>
      refine hpopped.change (t := s) ((SameBut.received _ s t false).trans
        (SameBut.makeRunnable _ (hv.queued.not_run_of_linked hmem))) hnot rfl ?_ ?_
      · exact fun x => by simp [canAnswer]
      · simp

theorem reply_history (v : View) (t c : Word) : (v.reply t c).history =
    .madeRunnable c :: .replied t c (v.expectsReply t) :: v.history := by
  simp [View.reply]

theorem reply_replyTo {s c : Word} (h : ¬ (c = s ∧ v.expectsReply t = true)) :
    (v.reply t c).replyTo s = v.replyTo s := by
  cases hx : v.expectsReply t with
  | false => simp [View.reply, transfer, hx]
  | true =>
    have hsc : s ≠ c := fun e => h ⟨e.symm, hx⟩
    simp [View.reply, transfer, hx, hsc]

/-- A thread replies to the client that it can answer. -/
theorem Paired.reply {c : Word} (h : v.Paired) (hv : v.Consistent) (hs : v.state c = .calling)
    (hcan : canAnswer t v.history = some c) : (v.reply t c).Paired where
  awaits s d hd := by
    have hpending := (h.awaits t c hcan).pending
    obtain ⟨hst, hover, hd'⟩ : t ≠ s ∧ ¬ (c = s ∧ v.expectsReply t = true) ∧
        canAnswer s v.history = some d := by
      rw [reply_history] at hd
      simp only [canAnswer] at hd
      split at hd
      · cases hd
      · next hne => exact ⟨fun e => hne (.inl e), fun e => hne (.inr e), hd⟩
    have hdc : d ≠ c := by
      rintro rfl
      exact hst (Option.some.inj (hpending.symm.trans (h.awaits s d hd').pending))
    have hrun : c ∉ v.runQueue := hv.queued.not_run_of_state (by rw [hs]; nofun)
    exact (h.awaits s d hd').change (((SameBut.replied v c t _).trans
      (SameBut.transfer _ c t c)).trans (SameBut.makeRunnable _ (by simpa using hrun))) hdc
      (reply_replyTo hover)
  answered := by
    rw [reply_history, answered_madeRunnable, answered_replied]
    exact ⟨(h.awaits t c hcan).pending, h.answered⟩

end View

/-- What an entry must not do: reply without having received a call since the
thread's last reply, or resume a thread whose call may still be answered. -/
theorem Act.paired {v v' : View} {m : Move} (ha : Act v m v') (hv : v.Consistent) (h : v.Paired)
    (hm : m.Safe v) (hreply : ∀ t c, m = .reply t c → canAnswer t v.history = some c)
    (hresume : ∀ u, m = .resume u → ∀ s, canAnswer s v.history ≠ some u) : v'.Paired := by
  have hkill : ∀ {t : Word}, v.current = some t → (v.setState t .dead).Paired := fun hc =>
    h.change (SameBut.setState v _ .dead) (h.not_awaited_of_current hv hc) rfl (fun _ => rfl) id
  cases ha with
  | stays => exact h
  | exits hc hsched => exact hsched.paired (hv.kill hc) (hkill hc)
  | yields hsched => exact hsched.paired hv.queued h
  | sends hc hs => exact hs.paired hv h hc
  | receives hc hr => exact hr.paired hv h hc
  | replies hc hto hs => exact h.reply hv hs (hreply _ _ rfl)
  | repliesAndReceives hc hto hs hr =>
    exact hr.paired (hv.reply hc hs hm) (h.reply hv hs (hreply _ _ rfl))
      ((View.transfer_current _ _).trans hc)
  | wakes hq hs =>
    rename_i r q
    exact h.change ((SameBut.dequeue v q r).trans (SameBut.switchTo _ r))
      (h.not_awaited_of_linked hq) rfl (fun _ => rfl) (by simp)
  | waits hc hsched =>
    obtain ⟨hrun, hlink, -⟩ := hv.current_free hc
    exact hsched.paired_of_block (hv.queued.blockReceiver hrun hlink _) h
      (h.not_awaited_of_current hv hc) hlink
  | waitsKilled hc hdies hsched =>
    rename_i t n w
    obtain ⟨hws, hwc⟩ := hdies.keeps (t := t) (hv.current_free hc).1
    have hdead : w.state t = .dead := hws.trans (Function.update_self ..)
    have hw := (hdies.ready_of_stopped (hv.kill hc) hc (by simp) (by simp)).queued
    have hpaired := hdies.paired (hv.kill hc) (hkill hc)
    have hlink := hw.unlinked_of_state (.inr (.inr hdead))
    have hrun := hw.not_run_of_state (t := t) (by rw [hdead]; nofun)
    exact hsched.paired_of_block (hw.blockReceiver hrun hlink _) hpaired
      (hpaired.not_awaited_of_state (.inr (.inr hdead))) hlink
  | resumes hs =>
    rename_i u
    exact h.change (SameBut.makeRunnable v hm.2.1) (hresume u rfl) rfl (fun _ => rfl) (by simp)
  | suspends =>
    rename_i u
    refine ⟨fun s c hs => ?_, h.answered⟩
    have hwait := h.awaits s c hs
    refine ⟨hwait.replyTo, ?_, hwait.unlinked, hwait.pending⟩
    by_cases hcu : c = u
    · subst hcu
      exact .inr ⟨Function.update_self .., fun hc => h.not_awaited_of_current hv hc s hs⟩
    · rw [(SameBut.suspend v u).state c hcu]
      exact hwait.state

/-! ## Every run -/

/-- The entry resumes no thread that runs or is on a list, nor one whose call may
still be answered, and replies only for a thread that has received a call since
it last replied. -/
structure ReplySafe (k : Kernel) (e : Entry) : Prop where
  resume : ∀ u, e.Makes k (.resume u) → k.currentTcb ≠ some u ∧ ¬ InRunQueue k u ∧
    (∀ q, ¬ InQueue k q u) ∧ ∀ s, canAnswer s k.history ≠ some u
  reply : ∀ t c, e.Makes k (.reply t c) → k.currentTcb = some t →
    canAnswer t k.history ≠ none

variable {k : Kernel} {v w : View} {m : Move} {e : Entry}

/-- The client that a safe reply goes to. -/
theorem ReplySafe.answers (h : Represents k v) (hp : v.Paired) (hs : ReplySafe k e) {t c : Word}
    (hm : e.Makes k (.reply t c)) (ha : Act v (.reply t c) w) :
    canAnswer t v.history = some c := by
  obtain ⟨hc, hto, -⟩ := ha.replied
  obtain ⟨d, hd⟩ := Option.ne_none_iff_exists'.mp (hs.reply t c hm (h.current.trans hc))
  rw [h.history] at hd
  cases hto.symm.trans (hp.awaits t d hd).replyTo
  exact hd

theorem ReplySafe.safe (h : Represents k v) (hp : v.Paired) (hs : ReplySafe k e)
    (hm : e.Makes k m) (ha : Act v m w) : m.Safe v := by
  cases m with
  | plain => trivial
  | killedWait t => trivial
  | suspend u => trivial
  | resume u =>
    obtain ⟨hc, hrun, hlink, -⟩ := hs.resume u hm
    exact ⟨h.current ▸ hc, fun hmem => hrun (h.inRunQueue_iff.mpr hmem), h.unlinked_iff.mp hlink⟩
  | reply t c => exact (hp.awaits t c (hs.answers h hp hm ha)).unlinked

/-- Every call is answered once and only by its receiver, in the runs whose
entries are safe. -/
theorem answered_by_receiver {P : Platform} {k : Kernel}
    (h : (kernelSystem P).ReachedBy ReplySafe k) : AnsweredByReceiver k.history := by
  have hrun : ∃ v, Represents k v ∧ v.Consistent ∧ v.Paired := by
    refine reachedBy_consistent ?_ ?_ ?_ h
    · exact fun k e v m w hrep _ hp hok hm ha => hok.safe hrep hp hm ha
    · intro k _
      refine ⟨nofun, fun s c b h' hs => ?_⟩
      cases List.suffix_nil.mp hs
    · intro k e v m w v' hrep hv hp hok hm ha hready hl
      refine hl.paired hready (ha.paired hv hp (hok.safe hrep hp hm ha) ?_ ?_)
      · rintro t c rfl
        exact hok.answers hrep hp hm ha
      · rintro u rfl s
        rw [← hrep.history]
        exact (hok.resume u hm).2.2.2 s
  obtain ⟨v, hrep, -, hp⟩ := hrun
  rw [hrep.history]
  exact hp.answered

/-- The boot thread holds the worker in slot 5 and two endpoints. -/
def replyKernel : Kernel :=
  exampleKernel [workerTcb] [(5, tcbCap workerTcb), (6, endpointCap exampleEndpoint),
    (7, endpointCap (exampleEndpoint + 0x1000#64))]

theorem replyKernel_booted : Booted replyKernel := exampleKernel_booted _ _

/-- The worker waits on the first endpoint, the boot thread calls it. -/
def callWorker : List Frame := [yieldFrame, recvFrame 6, callFrame 2 6 emptyTag]

theorem resumeWorker_safe : ReplySafe replyKernel (.syscall (resumeFrame 5)) := by
  have hslot : lookupCapSlot replyKernel.slots (cspaceRootOf initTcb) (resumeFrame 5).rdi 64#64 =
      .ok (.ok (initSlot 5)) := by decide +kernel
  refine ⟨?_, ?_⟩
  · rintro u ⟨slot, ⟨-, t, ht, hlookup⟩, -, -, rfl⟩
    cases ht
    cases hslot.symm.trans hlookup
    obtain ⟨hrun, hlink⟩ := replyKernel_booted.free (capPtr (replyKernel.slots (initSlot 5)).cap)
    exact ⟨by decide +kernel, hrun, hlink, fun s => nofun⟩
  · rintro t c (hn | ⟨slot, ⟨hn, -⟩, -⟩) <;> cases hn

/-- System calls that neither resume nor reply need no condition. -/
theorem callWorker_safe : ∀ f ∈ callWorker, ∀ k, ReplySafe k (.syscall f) := by
  intro f hf k
  have hlabel : Method.ofLabel? f.tag.label ≠ some .tcbResume := by
    revert f
    decide +kernel
  have hnumber : f.number ≠ some .reply ∧ f.number ≠ some .replyrecv := by
    revert f
    decide +kernel
  refine ⟨?_, ?_⟩
  · rintro u ⟨slot, -, -, hl, -⟩
    exact absurd hl hlabel
  · rintro t c (hn | ⟨slot, ⟨hn, -⟩, -⟩)
    · exact absurd hn hnumber.1
    · exact absurd hn hnumber.2

/-- The worker receives the call of the boot thread and replies to it. -/
theorem answered_by_receiver_worker : ∃ k,
    (kernelSystem examplePlatform).ReachedBy ReplySafe k ∧
      .replied workerTcb initTcb false ∈ k.history ∧ AnsweredByReceiver k.history := by
  have hrun : (do
      let k₁ ← runSyscalls examplePlatform [resumeFrame 5] replyKernel
      let k₂ ← runSyscalls examplePlatform callWorker k₁
      let k₃ ← runSyscalls examplePlatform [replyFrame] k₂
      return ((k₂.currentTcb, canAnswer workerTcb k₂.history),
        decide (.replied workerTcb initTcb false ∈ k₃.history))) =
      (.ok ((some workerTcb, some initTcb), true) : Result _) := by decide +kernel
  simp only [bind_eq_ok, pure_eq_ok, Prod.mk.injEq, decide_eq_true_eq] at hrun
  obtain ⟨k₁, h₁, k₂, h₂, k₃, h₃, ⟨hcurrent, hcan⟩, hreplied⟩ := hrun
  have hreply : ReplySafe k₂ (.syscall replyFrame) := by
    refine ⟨?_, ?_⟩
    · rintro u ⟨slot, ⟨hn, -⟩, -⟩
      cases hn
    · intro t c _ ht
      cases hcurrent.symm.trans ht
      rw [hcan]
      rintro ⟨⟩
  simp only [runSyscalls, bind_eq_ok, Except.ok.injEq, exists_eq_right] at h₁ h₃
  have hk₁ : (kernelSystem examplePlatform).ReachedBy ReplySafe k₁ :=
    .step (.start replyKernel_booted) resumeWorker_safe (syscallEntry_step h₁ (by decide))
  have hk₂ := runSyscalls_reached hk₁ callWorker_safe (by decide +kernel) h₂
  have hk₃ : (kernelSystem examplePlatform).ReachedBy ReplySafe k₃ :=
    .step hk₂ hreply (syscallEntry_step h₃ (by decide))
  exact ⟨k₃, hk₃, hreplied, answered_by_receiver hk₃⟩

/-- The worker replies, the boot thread calls the second endpoint, where nobody
receives, and the worker replies again: into the new call. -/
theorem second_reply_into_later_call :
    ¬ ∀ k, (kernelSystem examplePlatform).Reached k → AnsweredByReceiver k.history := by
  intro h
  obtain ⟨k, hrun, hread⟩ := runSyscalls_reads
    (show (runSyscalls examplePlatform (resumeFrame 5 :: callWorker ++
        [replyFrame, yieldFrame, callFrame 2 7 emptyTag, replyFrame]) replyKernel).map
      (fun k => (k.history.take 2, pendingServer initTcb (k.history.drop 2))) =
        .ok ([.madeRunnable initTcb, .replied workerTcb initTcb false], none) by decide +kernel)
  obtain ⟨htake, hpending⟩ := Prod.ext_iff.mp hread
  have hk : (kernelSystem examplePlatform).Reached k :=
    runSyscalls_reached (.start replyKernel_booted) (fun _ _ _ => trivial) (by decide +kernel) hrun
  have hsuffix : .replied workerTcb initTcb false :: k.history.drop 2 <:+ k.history := by
    refine ⟨[.madeRunnable initTcb], ?_⟩
    have happend := List.take_append_drop 2 k.history
    rwa [show k.history.take 2 = _ from htake] at happend
  cases hpending.symm.trans (h k hk _ _ _ _ hsuffix)

end Tern
