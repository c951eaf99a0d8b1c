import Tern.View

/-! What the entries of the kernel do to the abstract scheduler, one constructor
of `Act` for each behaviour, and the invariant that they keep: threads on wait
queues wait or are suspended, threads on the run queue are runnable, the current
thread is on no list. A thread's place is changed one thread at a time;
`SameBut t` says that all other threads are as before, so that only `t` itself
is left to look at. -/

namespace Tern

/-- The message of the thread's last call has not been received. -/
def unreceived (t : Word) : List Event → Bool
  | [] => false
  | .called c :: h => if c = t then true else unreceived t h
  | .received s _ _ :: h => if s = t then false else unreceived t h
  | .replied _ _ _ :: h => unreceived t h
  | .madeRunnable _ :: h => unreceived t h

/-- Who received the thread's last call, as long as nobody has replied to it. -/
def pendingServer (c : Word) : List Event → Option Word
  | [] => none
  | .called t :: h => if t = c then none else pendingServer c h
  | .received s r expects :: h => if s = c ∧ expects then some r else pendingServer c h
  | .replied _ t _ :: h => if t = c then none else pendingServer c h
  | .madeRunnable _ :: h => pendingServer c h

namespace View

variable (v : View)

/-- `if (sender->expects_reply) receiver->reply_to = sender`. -/
def transfer (s r : Word) : View := if v.expectsReply s then v.setReplyTo r s else v

/-- What `send` and `call` do to the caller before they look at the endpoint. -/
def prepared (t : Word) : Bool → View
  | true => ((v.setExpects t true).setState t .calling).noted (.called t)
  | false => v.setExpects t false

/-- `endpoint_send`. -/
inductive SendsTo (t e : Word) (isCall : Bool) : View → Prop
  | blocks {v' : View} :
      (∀ r l, v.waiting (.endpoint e) = r :: l → v.state r = .sending ∨ v.state r = .calling) →
      ((v.enqueue (.endpoint e) t).setState t (if isCall then .calling else .sending)).Schedules v' →
      SendsTo t e isCall v'
  | wakes {r : Word} {l : List Word} : v.waiting (.endpoint e) = r :: l →
      v.state r ≠ .sending → v.state r ≠ .calling →
      SendsTo t e isCall ((((v.dequeue (.endpoint e) r).noted
        (.received t r (v.expectsReply t))).transfer t r).switchTo r)

/-- `receive_message_from_blocked_sender`. -/
def take (t e s : Word) : View :=
  let w := (v.dequeue (.endpoint e) s).noted (.received s t (v.expectsReply s))
  if v.expectsReply s then w.setReplyTo t s else w.makeRunnable s

/-- `invoke_endpoint_recv` and `invoke_endpoint_nbrecv`. -/
inductive Receives (t e : Word) : View → Prop
  | notified : Receives t e v
  | blocks {v' : View} : (∀ s l, v.waiting (.endpoint e) = s :: l → v.state s = .receiving) →
      ((v.enqueue (.endpoint e) t).setState t .receiving).Schedules v' → Receives t e v'
  | takes {s : Word} {l : List Word} : v.waiting (.endpoint e) = s :: l →
      v.state s ≠ .receiving → Receives t e (v.take t e s)

/-- `invoke_reply`. -/
def reply (t c : Word) : View :=
  ((v.noted (.replied t c (v.expectsReply t))).transfer t c).makeRunnable c

end View

/-- What an entry does between the entry itself and `return_from_kernel_code`. -/
inductive Act (v : View) : Move → View → Prop
  | stays : Act v .plain v
  | exits {t : Word} {v' : View} : v.current = some t → (v.setState t .dead).Schedules v' →
      Act v .plain v'
  | yields {v' : View} : v.Schedules v' → Act v .plain v'
  | sends {t e : Word} {isCall : Bool} {v' : View} : v.current = some t →
      (v.prepared t isCall).SendsTo t e isCall v' → Act v .plain v'
  | receives {t e : Word} {v' : View} : v.current = some t → v.Receives t e v' → Act v .plain v'
  | replies {t c : Word} : v.current = some t → v.replyTo t = some c → v.state c = .calling →
      Act v (.reply t c) (v.reply t c)
  | repliesAndReceives {t c e : Word} {v' : View} : v.current = some t →
      v.replyTo t = some c → v.state c = .calling → (v.reply t c).Receives t e v' →
      Act v (.reply t c) v'
  | wakes {r : Word} {q : Queue} : r ∈ v.waiting q →
      v.state r = .receiving ∨ v.state r = .suspended →
      Act v .plain ((v.dequeue q r).switchTo r)
  | waits {t n : Word} {v' : View} : v.current = some t →
      ((v.enqueue (.notification n) t).setState t .receiving).Schedules v' → Act v .plain v'
  | waitsKilled {t n : Word} {w v' : View} : v.current = some t →
      (v.setState t .dead).Schedules w →
      ((w.enqueue (.notification n) t).setState t .receiving).Schedules v' →
      Act v (.killedWait t) v'
  | resumes {u : Word} : v.state u ≠ .dead → Act v (.resume u) (v.makeRunnable u)
  | suspends {u : Word} : Act v (.suspend u) (v.suspend u)

/-! ## The invariant -/

namespace View

variable (v : View)

/-- The thread is on no wait queue. -/
def Unlinked (t : Word) : Prop := ∀ q, t ∉ v.waiting q

/-- The thread's `expects_reply` is what its state says, while it waits to send. -/
def Flagged (t : Word) : Prop :=
  (v.state t = .sending → v.expectsReply t = false) ∧
    (v.state t = .calling → v.expectsReply t = true)

/-- The lists hold what they should, at any time inside the kernel. -/
structure Queued : Prop where
  run_nodup : v.runQueue.Nodup
  run_state : ∀ t ∈ v.runQueue, v.state t = .runnable
  wait_nodup : ∀ q, (v.waiting q).Nodup
  wait_unique : ∀ t q r, t ∈ v.waiting q → t ∈ v.waiting r → q = r
  linked : ∀ q, ∀ t ∈ v.waiting q, v.state t = .sending ∨ v.state t = .receiving ∨
    v.state t = .calling ∨ v.state t = .suspended
  notification : ∀ n, ∀ t ∈ v.waiting (.notification n),
    v.state t = .receiving ∨ v.state t = .suspended
  receiving : ∀ t, v.state t = .receiving → ∃ q, t ∈ v.waiting q
  flagged : ∀ t, v.Flagged t
  running : ∀ t, v.state t = .running → v.current = some t

/-- The kernel will return to the current thread, which may run. -/
structure ReturnsToCurrent : Prop where
  returnTo : v.returnTo = v.current
  state : ∀ t, v.current = some t → v.state t = .running ∨ v.state t = .suspended
  unlinked : ∀ t, v.current = some t → v.Unlinked t

/-- Between two entries. -/
structure Consistent : Prop where
  queued : v.Queued
  returns : v.ReturnsToCurrent

/-- Before `return_from_kernel_code`: back to the current thread, to nothing, or
to another thread, which is runnable and on no list. -/
structure Ready : Prop where
  queued : v.Queued
  returns : v.ReturnsToCurrent ∨ (v.returnTo = none ∧ ¬ v.Runs) ∨
    ∃ r, v.returnTo = some r ∧ v.current ≠ some r ∧ v.state r = .runnable ∧ r ∉ v.runQueue

end View

/-- Everything about threads other than `t` is as before. -/
structure SameBut (t : Word) (v v' : View) : Prop where
  state : ∀ x, x ≠ t → v'.state x = v.state x
  expects : ∀ x, x ≠ t → v'.expectsReply x = v.expectsReply x
  unreceived : ∀ x, x ≠ t → unreceived x v'.history = unreceived x v.history
  pending : ∀ x, x ≠ t → pendingServer x v'.history = pendingServer x v.history
  made : ∀ x, x ≠ t → (.madeRunnable x ∈ v'.history ↔ .madeRunnable x ∈ v.history)
  current : v'.current = v.current
  run : ∀ x, x ≠ t → (x ∈ v'.runQueue ↔ x ∈ v.runQueue)
  run_nodup : v.runQueue.Nodup → v'.runQueue.Nodup
  waiting : ∀ q x, x ≠ t → (x ∈ v'.waiting q ↔ x ∈ v.waiting q)
  wait_nodup : ∀ q, (v.waiting q).Nodup → (v'.waiting q).Nodup

namespace SameBut

variable {t : Word} {v v' v'' : View}

theorem refl (t : Word) (v : View) : SameBut t v v :=
  ⟨fun _ _ => rfl, fun _ _ => rfl, fun _ _ => rfl, fun _ _ => rfl, fun _ _ => Iff.rfl, rfl,
    fun _ _ => Iff.rfl, id, fun _ _ _ => Iff.rfl, fun _ => id⟩

theorem trans (h : SameBut t v v') (h' : SameBut t v' v'') : SameBut t v v'' where
  state x hx := (h'.state x hx).trans (h.state x hx)
  expects x hx := (h'.expects x hx).trans (h.expects x hx)
  unreceived x hx := (h'.unreceived x hx).trans (h.unreceived x hx)
  pending x hx := (h'.pending x hx).trans (h.pending x hx)
  made x hx := (h'.made x hx).trans (h.made x hx)
  current := h'.current.trans h.current
  run x hx := (h'.run x hx).trans (h.run x hx)
  run_nodup hn := h'.run_nodup (h.run_nodup hn)
  waiting q x hx := (h'.waiting q x hx).trans (h.waiting q x hx)
  wait_nodup q hn := h'.wait_nodup q (h.wait_nodup q hn)

theorem setState (v : View) (t : Word) (s : TaskState) : SameBut t v (v.setState t s) :=
  { refl t v with state := fun _ hx => Function.update_of_ne hx _ _ }

theorem setExpects (v : View) (t : Word) (b : Bool) : SameBut t v (v.setExpects t b) :=
  { refl t v with expects := fun _ hx => Function.update_of_ne hx _ _ }

theorem setReplyTo (v : View) (t a c : Word) : SameBut t v (v.setReplyTo a c) :=
  { refl t v with }

theorem transfer (v : View) (t s r : Word) : SameBut t v (v.transfer s r) := by
  unfold View.transfer
  split
  · exact setReplyTo v t r s
  · exact refl t v

theorem returnTo (v : View) (t : Word) (r : Option Word) : SameBut t v { v with returnTo := r } :=
  { refl t v with }

theorem called (v : View) (t : Word) : SameBut t v (v.noted (.called t)) :=
  { refl t v with
    unreceived := fun x hx => by simp [View.noted, Tern.unreceived, Ne.symm hx]
    pending := fun x hx => by simp [View.noted, pendingServer, Ne.symm hx]
    made := fun x _ => by simp [View.noted] }

theorem received (v : View) (t r : Word) (b : Bool) :
    SameBut t v (v.noted (.received t r b)) :=
  { refl t v with
    unreceived := fun x hx => by simp [View.noted, Tern.unreceived, Ne.symm hx]
    pending := fun x hx => by simp [View.noted, pendingServer, Ne.symm hx]
    made := fun x _ => by simp [View.noted] }

theorem replied (v : View) (t s : Word) (b : Bool) : SameBut t v (v.noted (.replied s t b)) :=
  { refl t v with
    unreceived := fun _ _ => rfl
    pending := fun x hx => by simp [View.noted, pendingServer, Ne.symm hx]
    made := fun x _ => by simp [View.noted] }

theorem madeRunnable (v : View) (t : Word) : SameBut t v (v.noted (.madeRunnable t)) :=
  { refl t v with
    unreceived := fun _ _ => rfl
    pending := fun _ _ => rfl
    made := fun x hx => by simp [View.noted, hx] }

theorem enqueue (v : View) {t : Word} (ht : v.Unlinked t) (q : Queue) :
    SameBut t v (v.enqueue q t) :=
  { refl t v with
    waiting := fun p x hx => by
      by_cases hp : p = q
      · subst hp; simp [View.enqueue, hx]
      · simp [View.enqueue, hp]
    wait_nodup := fun p hn => by
      by_cases hp : p = q
      · subst hp; simpa [View.enqueue] using ⟨ht p, hn⟩
      · simpa [View.enqueue, hp] using hn }

theorem dequeue (v : View) (q : Queue) (t : Word) : SameBut t v (v.dequeue q t) :=
  { refl t v with
    waiting := fun p x hx => by
      by_cases hp : p = q
      · subst hp; simp [View.dequeue, List.mem_erase_of_ne hx]
      · simp [View.dequeue, hp]
    wait_nodup := fun p hn => by
      by_cases hp : p = q
      · subst hp; simpa [View.dequeue] using hn.erase t
      · simpa [View.dequeue, hp] using hn }

theorem pushRun (v : View) {t : Word} (ht : t ∉ v.runQueue) :
    SameBut t v { v with runQueue := t :: v.runQueue } :=
  { refl t v with
    run := fun x hx => by simp [hx]
    run_nodup := fun hn => List.nodup_cons.mpr ⟨ht, hn⟩ }

theorem eraseRun (v : View) (t : Word) : SameBut t v { v with runQueue := v.runQueue.erase t } :=
  { refl t v with
    run := fun _ hx => List.mem_erase_of_ne hx
    run_nodup := fun hn => hn.erase t }

theorem makeRunnable (v : View) {t : Word} (ht : t ∉ v.runQueue) :
    SameBut t v (v.makeRunnable t) :=
  ((setState v t .runnable).trans (pushRun (v.setState t .runnable) ht)).trans (madeRunnable _ t)

theorem suspend (v : View) (t : Word) : SameBut t v (v.suspend t) :=
  (setState v t .suspended).trans (eraseRun (v.setState t .suspended) t)

theorem switchTo (v : View) (t : Word) : SameBut t v (v.switchTo t) :=
  ((setState v t .runnable).trans (returnTo (v.setState t .runnable) t (some t))).trans
    (madeRunnable _ t)

theorem scheduleTo (v : View) (t : Word) : SameBut t v (v.scheduleTo t) :=
  (eraseRun v t).trans (switchTo _ t)

end SameBut

namespace View

variable {v v' : View} {t : Word}

theorem Queued.not_run_of_state (h : v.Queued) (ht : v.state t ≠ .runnable) : t ∉ v.runQueue :=
  fun hm => ht (h.run_state t hm)

theorem Queued.not_run_of_linked (h : v.Queued) {q : Queue} (hq : t ∈ v.waiting q) :
    t ∉ v.runQueue := by
  apply h.not_run_of_state
  rcases h.linked q t hq with hs | hs | hs | hs <;> rw [hs] <;> nofun

/-- Threads that run or could run are on no wait queue, nor are dead ones. -/
theorem Queued.unlinked_of_state (h : v.Queued)
    (ht : v.state t = .runnable ∨ v.state t = .running ∨ v.state t = .dead) : v.Unlinked t := by
  intro q hq
  rcases h.linked q t hq with hs | hs | hs | hs <;> rw [hs] at ht <;>
    rcases ht with ht | ht | ht <;> cases ht

theorem flagged_congr (hf : SameBut t v v') {x : Word} (hx : x ≠ t) :
    v'.Flagged x ↔ v.Flagged x := by
  simp only [Flagged, hf.state x hx, hf.expects x hx]

theorem flagged_of_state (hs : v.state t ≠ .sending ∧ v.state t ≠ .calling) : v.Flagged t :=
  ⟨fun h => absurd h hs.1, fun h => absurd h hs.2⟩

/-- The thread `t` has been put where it is on no wait queue. -/
theorem Queued.unlink (h : v.Queued) (hf : SameBut t v v') (hlink : v'.Unlinked t)
    (hstate : v'.state t ≠ .receiving) (hflag : v'.Flagged t)
    (hrun : t ∈ v'.runQueue → v'.state t = .runnable)
    (hrunning : v'.state t = .running → v.current = some t) : v'.Queued where
  run_nodup := hf.run_nodup h.run_nodup
  run_state x hx := by
    by_cases hxt : x = t
    · subst hxt; exact hrun hx
    · rw [hf.state x hxt]
      exact h.run_state x ((hf.run x hxt).mp hx)
  wait_nodup q := hf.wait_nodup q (h.wait_nodup q)
  wait_unique x q r hq hr := by
    have hxt : x ≠ t := fun e => hlink q (e ▸ hq)
    exact h.wait_unique x q r ((hf.waiting q x hxt).mp hq) ((hf.waiting r x hxt).mp hr)
  linked q x hx := by
    have hxt : x ≠ t := fun e => hlink q (e ▸ hx)
    rw [hf.state x hxt]
    exact h.linked q x ((hf.waiting q x hxt).mp hx)
  notification n x hx := by
    have hxt : x ≠ t := fun e => hlink _ (e ▸ hx)
    rw [hf.state x hxt]
    exact h.notification n x ((hf.waiting _ x hxt).mp hx)
  receiving x hx := by
    have hxt : x ≠ t := fun e => hstate (e ▸ hx)
    rw [hf.state x hxt] at hx
    obtain ⟨q, hq⟩ := h.receiving x hx
    exact ⟨q, (hf.waiting q x hxt).mpr hq⟩
  flagged x := by
    by_cases hxt : x = t
    · subst hxt; exact hflag
    · exact (flagged_congr hf hxt).mpr (h.flagged x)
  running x hx := by
    rw [hf.current]
    by_cases hxt : x = t
    · subst hxt; exact hrunning hx
    · rw [hf.state x hxt] at hx
      exact h.running x hx

/-- The thread `t` has been made runnable, and is on no wait queue. -/
theorem Queued.release (h : v.Queued) (hf : SameBut t v v') (hlink : v'.Unlinked t)
    (hs : v'.state t = .runnable) : v'.Queued :=
  h.unlink hf hlink (by rw [hs]; nofun) (flagged_of_state (by rw [hs]; exact ⟨nofun, nofun⟩))
    (fun _ => hs) (by rw [hs]; nofun)

/-- The thread `t` has been put, or left, on the wait queue `q`. -/
theorem Queued.link (h : v.Queued) (hf : SameBut t v v') {q : Queue} (hq : t ∈ v'.waiting q)
    (hunique : ∀ r, t ∈ v'.waiting r → r = q) (hrun : t ∉ v'.runQueue) (hflag : v'.Flagged t)
    (hstate : v'.state t = .receiving ∨ v'.state t = .suspended ∨
      ((v'.state t = .sending ∨ v'.state t = .calling) ∧ ∃ e, q = .endpoint e)) :
    v'.Queued where
  run_nodup := hf.run_nodup h.run_nodup
  run_state x hx := by
    have hxt : x ≠ t := fun e => hrun (e ▸ hx)
    rw [hf.state x hxt]
    exact h.run_state x ((hf.run x hxt).mp hx)
  wait_nodup p := hf.wait_nodup p (h.wait_nodup p)
  wait_unique x p r hp hr := by
    by_cases hxt : x = t
    · subst hxt
      rw [hunique p hp, hunique r hr]
    · exact h.wait_unique x p r ((hf.waiting p x hxt).mp hp) ((hf.waiting r x hxt).mp hr)
  linked p x hx := by
    by_cases hxt : x = t
    · subst hxt
      rcases hstate with hs | hs | ⟨hs | hs, -⟩ <;> simp [hs]
    · rw [hf.state x hxt]
      exact h.linked p x ((hf.waiting p x hxt).mp hx)
  notification n x hx := by
    by_cases hxt : x = t
    · subst hxt
      rcases hstate with hs | hs | ⟨-, e, he⟩
      · exact .inl hs
      · exact .inr hs
      · cases (hunique _ hx).trans he
    · rw [hf.state x hxt]
      exact h.notification n x ((hf.waiting _ x hxt).mp hx)
  receiving x hx := by
    by_cases hxt : x = t
    · exact ⟨q, hxt ▸ hq⟩
    · rw [hf.state x hxt] at hx
      obtain ⟨r, hr⟩ := h.receiving x hx
      exact ⟨r, (hf.waiting r x hxt).mpr hr⟩
  flagged x := by
    by_cases hxt : x = t
    · subst hxt; exact hflag
    · exact (flagged_congr hf hxt).mpr (h.flagged x)
  running x hx := by
    have hxt : x ≠ t := by
      rintro rfl
      rcases hstate with hs | hs | ⟨hs | hs, -⟩ <;> rw [hs] at hx <;> cases hx
    rw [hf.state x hxt] at hx
    rw [hf.current]
    exact h.running x hx

/-- A thread blocks: it is put on a queue, in the state in which it waits there. -/
theorem Queued.block (h : v.Queued) (hf : SameBut t v v') {q : Queue} {s : TaskState}
    (hrun : t ∉ v'.runQueue) (hlink : v'.Unlinked t)
    (hs : s = .receiving ∨ ((s = .sending ∨ s = .calling) ∧ ∃ e, q = .endpoint e))
    (hflag : (s = .sending → v'.expectsReply t = false) ∧
      (s = .calling → v'.expectsReply t = true)) :
    ((v'.enqueue q t).setState t s).Queued := by
  have hstate : ((v'.enqueue q t).setState t s).state t = s := Function.update_self ..
  refine h.link (q := q) ((hf.trans (SameBut.enqueue _ hlink q)).trans (SameBut.setState _ t s))
    ?_ ?_ hrun ?_ ?_
  · simp [setState, enqueue]
  · intro r hr
    by_contra hne
    simp only [setState, enqueue, Function.update_of_ne hne] at hr
    exact hlink r hr
  · rw [Flagged, hstate]
    exact hflag
  · rw [hstate]
    exact hs.imp_right .inr

theorem Queued.blockReceiver (h : v.Queued) (hrun : t ∉ v.runQueue) (hlink : v.Unlinked t)
    (q : Queue) : ((v.enqueue q t).setState t .receiving).Queued :=
  h.block (SameBut.refl t v) hrun hlink (.inl rfl) ⟨nofun, nofun⟩

/-- Taken off its wait queue, a thread is on no other. -/
theorem Queued.dequeue_unlinked (h : v.Queued) {q : Queue} (hq : t ∈ v.waiting q) :
    (v.dequeue q t).Unlinked t := by
  intro r hr
  by_cases hrq : r = q
  · subst hrq
    simp only [dequeue, Function.update_self] at hr
    exact (h.wait_nodup r).not_mem_erase hr
  · simp only [dequeue, Function.update_of_ne hrq] at hr
    exact hrq (h.wait_unique t r q hr hq)

/-- A thread is taken off its wait queue and made runnable, on the run queue or
as the one to return to. -/
theorem Queued.wake (h : v.Queued) {q : Queue} (hq : t ∈ v.waiting q)
    (hf : SameBut t (v.dequeue q t) v') (hwait : v'.waiting = (v.dequeue q t).waiting)
    (hs : v'.state t = .runnable) : v'.Queued := by
  refine h.release ((SameBut.dequeue v q t).trans hf) ?_ hs
  intro r
  rw [hwait]
  exact h.dequeue_unlinked hq r

/-! ## Scheduling and leaving -/

/-- `schedule` gives the processor to a thread of the run queue, leaves it with
the current one, or to nobody. -/
theorem Schedules.ready (hs : v.Schedules v') (h : v.Queued)
    (hcurrent : ∀ c, v.current = some c → v.state c ≠ .runnable)
    (hreturn : v.Runs → v.ReturnsToCurrent) : v'.Ready := by
  cases hs with
  | first hq =>
    rename_i t l
    have hmem : t ∈ v.runQueue := by rw [hq]; exact List.mem_cons_self
    have hrunnable := h.run_state t hmem
    have hs' : (v.scheduleTo t).state t = .runnable := Function.update_self ..
    constructor
    · exact h.release (SameBut.scheduleTo v t) (h.unlinked_of_state (.inl hrunnable)) hs'
    · refine .inr (.inr ⟨t, rfl, fun e => hcurrent t e hrunnable, hs', ?_⟩)
      exact h.run_nodup.not_mem_erase
  | stays hq hruns => exact ⟨h, .inl (hreturn hruns)⟩
  | idles hq hruns =>
    exact ⟨⟨h.run_nodup, h.run_state, h.wait_nodup, h.wait_unique, h.linked, h.notification,
      h.receiving, h.flagged, h.running⟩, .inr (.inl ⟨rfl, hruns⟩)⟩

/-- The current thread has just stopped running. -/
theorem Schedules.ready_of_stopped (hs : v.Schedules v') (h : v.Queued)
    (hc : v.current = some t) (hrunning : v.state t ≠ .running) (hrunnable : v.state t ≠ .runnable) :
    v'.Ready := by
  refine hs.ready h ?_ ?_
  · intro c hc'
    cases hc.symm.trans hc'
    exact hrunnable
  · rintro ⟨c, hc', hstate⟩
    cases hc.symm.trans hc'
    exact absurd hstate hrunning

/-- The next thread becomes the current one. -/
theorem Queued.dispatch (h : v.Queued) (hret : v.returnTo = some t)
    (hnone : ∀ x, v.state x ≠ .running) (hs : v.state t = .runnable) (hrun : t ∉ v.runQueue) :
    View.Consistent { v.setState t .running with current := some t } := by
  have hunlinked := h.unlinked_of_state (.inl hs)
  have hset : (v.setState t .running).state t = .running := Function.update_self ..
  have hstate : ∀ x, x ≠ t → (v.setState t .running).state x = v.state x :=
    fun x hx => Function.update_of_ne hx _ _
  have hlinked : ∀ {x : Word} {q : Queue}, x ∈ v.waiting q → x ≠ t := by
    rintro x q hx rfl
    exact hunlinked q hx
  refine ⟨⟨h.run_nodup, ?_, h.wait_nodup, h.wait_unique, ?_, ?_, ?_, ?_, ?_⟩, hret, ?_, ?_⟩
  · intro x hx
    exact (hstate x fun e => hrun (e ▸ hx)).trans (h.run_state x hx)
  · intro q x hx
    rw [show View.state _ x = v.state x from hstate x (hlinked hx)]
    exact h.linked q x hx
  · intro n x hx
    rw [show View.state _ x = v.state x from hstate x (hlinked hx)]
    exact h.notification n x hx
  · intro x hx
    have hxt : x ≠ t := by
      rintro rfl
      cases hset.symm.trans hx
    exact h.receiving x ((hstate x hxt).symm.trans hx)
  · intro x
    by_cases hxt : x = t
    · subst hxt
      exact flagged_of_state (by rw [hset]; exact ⟨nofun, nofun⟩)
    · exact (flagged_congr (SameBut.setState v t .running) hxt).mpr (h.flagged x)
  · intro x hx
    by_cases hxt : x = t
    · rw [hxt]
    · exact absurd ((hstate x hxt).symm.trans hx) (hnone x)
  · rintro x ⟨⟩
    exact .inl hset
  · rintro x ⟨⟩
    exact hunlinked

/-- The thread to return to, when it is not the current one. -/
theorem Ready.next (h : v.Ready) (hreturn : v.returnTo = some t) (hne : v.current ≠ some t) :
    v.state t = .runnable ∧ t ∉ v.runQueue := by
  rcases h.returns with hr | ⟨hr, -⟩ | ⟨r, hr, -, hs, hrun⟩
  · exact absurd (hr.returnTo.symm.trans hreturn) hne
  · cases hr.symm.trans hreturn
  · cases hr.symm.trans hreturn
    exact ⟨hs, hrun⟩

/-- Leaving the kernel restores the invariant between entries. -/
theorem Leaves.consistent (hl : v.Leaves v') (h : v.Ready) : v'.Consistent := by
  have hrunning : ∀ x, v.state x = .running → v.Runs := fun x hx => ⟨x, h.queued.running x hx, hx⟩
  cases hl with
  | stays he =>
    refine ⟨h.queued, ?_⟩
    rcases h.returns with hr | ⟨hr, -⟩ | ⟨r, hr, hne, -⟩
    · exact hr
    · refine ⟨he, ?_, ?_⟩ <;> intro c hc <;> cases hr.symm.trans (he.trans hc)
    · exact absurd (he.symm.trans hr) hne
  | switches hret hc hne hstate =>
    rename_i t c
    obtain ⟨hs, hrun⟩ := h.next hret (by rw [hc]; simpa using hne.symm)
    have hcs : (v.makeRunnable c).state c = .runnable := Function.update_self ..
    have hf := SameBut.makeRunnable v (h.queued.not_run_of_state (by rw [hstate]; nofun))
    have hq : (v.makeRunnable c).Queued :=
      h.queued.release hf (h.queued.unlinked_of_state (.inr (.inl hstate))) hcs
    refine hq.dispatch hret ?_ ((hf.state t hne).trans hs) fun hm => hrun ((hf.run t hne).mp hm)
    intro x hx
    by_cases hxc : x = c
    · rw [hxc, hcs] at hx
      cases hx
    · rw [hf.state x hxc] at hx
      exact hxc (Option.some.inj ((h.queued.running x hx).symm.trans hc))
  | leavesBehind hret hne hnot =>
    obtain ⟨hs, hrun⟩ := h.next hret hne
    exact h.queued.dispatch hret (fun x hx => hnot (hrunning x hx)) hs hrun
  | idles hret =>
    have hnot : ¬ v.Runs := by
      rintro ⟨c, hc, hstate⟩
      rcases h.returns with hr | ⟨-, hr⟩ | ⟨r, hr, -⟩
      · cases (hr.returnTo.symm.trans hret).symm.trans hc
      · exact hr ⟨c, hc, hstate⟩
      · cases hr.symm.trans hret
    have hq := h.queued
    exact ⟨⟨hq.run_nodup, hq.run_state, hq.wait_nodup, hq.wait_unique, hq.linked, hq.notification,
      hq.receiving, hq.flagged, fun x hx => absurd (hrunning x hx) hnot⟩, hret, nofun, nofun⟩

/-! ## Every entry -/

@[simp] theorem transfer_state (s r : Word) : (v.transfer s r).state = v.state := by
  unfold transfer
  split <;> rfl

@[simp] theorem transfer_waiting (s r : Word) : (v.transfer s r).waiting = v.waiting := by
  unfold transfer
  split <;> rfl

@[simp] theorem transfer_runQueue (s r : Word) : (v.transfer s r).runQueue = v.runQueue := by
  unfold transfer
  split <;> rfl

@[simp] theorem transfer_current (s r : Word) : (v.transfer s r).current = v.current := by
  unfold transfer
  split <;> rfl

@[simp] theorem transfer_returnTo (s r : Word) : (v.transfer s r).returnTo = v.returnTo := by
  unfold transfer
  split <;> rfl

@[simp] theorem transfer_history (s r : Word) : (v.transfer s r).history = v.history := by
  unfold transfer
  split <;> rfl

theorem prepared_same (v : View) (t : Word) (isCall : Bool) : SameBut t v (v.prepared t isCall) := by
  cases isCall
  · exact SameBut.setExpects v t false
  · exact ((SameBut.setExpects v t true).trans (SameBut.setState _ t _)).trans (SameBut.called _ t)

@[simp] theorem prepared_waiting (isCall : Bool) : (v.prepared t isCall).waiting = v.waiting := by
  cases isCall <;> rfl

@[simp] theorem prepared_runQueue (isCall : Bool) : (v.prepared t isCall).runQueue = v.runQueue := by
  cases isCall <;> rfl

/-- The current thread is on no list. -/
theorem Consistent.current_free (h : v.Consistent) (hc : v.current = some t) :
    t ∉ v.runQueue ∧ v.Unlinked t ∧ (v.state t = .running ∨ v.state t = .suspended) := by
  have hs := h.returns.state t hc
  refine ⟨h.queued.not_run_of_state ?_, h.returns.unlinked t hc, hs⟩
  rcases hs with hs | hs <;> rw [hs] <;> nofun

/-- No waiting thread is the current one. -/
theorem Consistent.linked_ne (h : v.Consistent) {r : Word} {q : Queue} (hq : r ∈ v.waiting q) :
    v.current ≠ some r :=
  fun hc => h.returns.unlinked r hc q hq

/-- The kernel will return to a thread that was just woken. -/
theorem Ready.of_woken {w : View} {r : Word} (hw : w.Queued) (hreturn : w.returnTo = some r)
    (hcurrent : w.current ≠ some r) (hs : w.state r = .runnable) (hrun : r ∉ w.runQueue) :
    w.Ready :=
  ⟨hw, .inr (.inr ⟨r, hreturn, hcurrent, hs, hrun⟩)⟩

/-- The sender's own fields are set, its message is about to be received. -/
theorem Consistent.sent (h : v.Consistent) (hc : v.current = some t) (isCall : Bool) (r : Word)
    (b : Bool) : ((v.prepared t isCall).noted (.received t r b)).Queued := by
  obtain ⟨hrun, hlink, hstate⟩ := h.current_free hc
  refine h.queued.unlink ((prepared_same v t isCall).trans (SameBut.received _ t r b)) ?_ ?_ ?_ ?_
    fun _ => hc
  · intro q
    simpa using hlink q
  · cases isCall
    · rcases hstate with hs | hs <;> simp [prepared, hs]
    · simp [prepared]
  · cases isCall
    · rcases hstate with hs | hs <;> simp [Flagged, prepared, hs]
    · simp [Flagged, prepared]
  · exact fun hm => absurd (by simpa using hm) hrun

theorem SendsTo.ready {e : Word} {isCall : Bool} (h : v.Consistent) (hc : v.current = some t)
    (hs : (v.prepared t isCall).SendsTo t e isCall v') : v'.Ready := by
  obtain ⟨hrun, hlink, hstate⟩ := h.current_free hc
  have hprep := prepared_same v t isCall
  cases hs with
  | blocks hq hsched =>
    have hkind : (if isCall then TaskState.calling else .sending) = .sending ∨
        (if isCall then TaskState.calling else .sending) = .calling := by
      cases isCall
      · exact .inl rfl
      · exact .inr rfl
    refine hsched.ready_of_stopped (t := t) (h.queued.block hprep ?_ ?_ (.inr ⟨hkind, e, rfl⟩) ?_)
      (hprep.current.trans hc) ?_ ?_
    · rwa [prepared_runQueue]
    · intro q
      rw [prepared_waiting]
      exact hlink q
    · cases isCall <;> simp [prepared]
    · simp only [setState, Function.update_self]
      rcases hkind with hk | hk <;> rw [hk] <;> nofun
    · simp only [setState, Function.update_self]
      rcases hkind with hk | hk <;> rw [hk] <;> nofun
  | wakes hw hns hnc =>
    rename_i r l
    have hmem : r ∈ v.waiting (.endpoint e) := by
      rw [← prepared_waiting (t := t) isCall, hw]
      exact List.mem_cons_self
    have hrunr := h.queued.not_run_of_linked hmem
    -- first the sender's own fields, then the receiver's place
    generalize (v.prepared t isCall).expectsReply t = b
    have hsent := h.sent hc isCall r b
    refine Ready.of_woken (r := r) ?_ rfl ?_ (Function.update_self ..) (by simpa using hrunr)
    · refine hsent.wake (q := .endpoint e) (by simpa using hmem)
        ((SameBut.transfer _ r t r).trans (SameBut.switchTo _ r)) ?_ (Function.update_self ..)
      exact transfer_waiting t r
    · simpa [hprep.current] using h.linked_ne hmem

theorem Receives.ready {e : Word} (h : v.Consistent) (hc : v.current = some t)
    (hr : v.Receives t e v') : v'.Ready := by
  obtain ⟨hrun, hlink, hstate⟩ := h.current_free hc
  cases hr with
  | notified => exact ⟨h.queued, .inl h.returns⟩
  | blocks hq hsched =>
    exact hsched.ready_of_stopped (h.queued.blockReceiver hrun hlink _) hc (by simp) (by simp)
  | takes hw hns =>
    rename_i s l
    have hmem : s ∈ v.waiting (.endpoint e) := by rw [hw]; exact List.mem_cons_self
    have hrunr := h.queued.not_run_of_linked hmem
    have hgone := h.queued.dequeue_unlinked hmem
    have hne : t ≠ s := by
      rintro rfl
      exact h.linked_ne hmem hc
    have hreturns : ∀ w : View, w.current = v.current → w.returnTo = v.returnTo →
        w.state t = v.state t → w.waiting = (v.dequeue (.endpoint e) s).waiting →
        w.ReturnsToCurrent := by
      intro w hwc hwr hws hww
      refine ⟨hwr.trans (h.returns.returnTo.trans hwc.symm), ?_, ?_⟩
      · intro d hd
        cases hc.symm.trans (hwc.symm.trans hd)
        rw [hws]
        exact hstate
      · intro d hd q hq
        cases hc.symm.trans (hwc.symm.trans hd)
        rw [hww] at hq
        exact hlink q (((SameBut.dequeue v _ s).waiting q t hne).mp hq)
    unfold take
    cases hx : v.expectsReply s with
    | true =>
      -- the caller is on no list until it is answered
      refine ⟨h.queued.unlink (t := s) ?_ hgone hns ?_ ?_ ?_, .inl (hreturns _ rfl rfl rfl rfl)⟩
      · exact ((SameBut.dequeue v _ s).trans (SameBut.received _ s t true)).trans
          (SameBut.setReplyTo _ s t s)
      · exact h.queued.flagged s
      · exact fun hm => absurd hm hrunr
      · intro hs
        rcases h.queued.linked _ s hmem with hs' | hs' | hs' | hs' <;> cases hs'.symm.trans hs
    | false =>
      refine ⟨h.queued.wake hmem ?_ rfl (Function.update_self ..),
        .inl (hreturns _ rfl rfl (Function.update_of_ne hne _ _) rfl)⟩
      exact (SameBut.received _ s t false).trans (SameBut.makeRunnable _ hrunr)

/-- A reply to a caller that is on no wait queue. -/
theorem Consistent.reply {c : Word} (h : v.Consistent) (hc : v.current = some t)
    (hs : v.state c = .calling) (hlink : v.Unlinked c) : (v.reply t c).Consistent := by
  have hne : t ≠ c := by
    rintro rfl
    rcases h.returns.state t hc with hs' | hs' <;> cases hs'.symm.trans hs
  have hrun : c ∉ v.runQueue := h.queued.not_run_of_state (by rw [hs]; nofun)
  have hs' : (v.reply t c).state c = .runnable := Function.update_self ..
  have hf : SameBut c v (v.reply t c) :=
    ((SameBut.replied v c t _).trans (SameBut.transfer _ c t c)).trans
      (SameBut.makeRunnable _ (by simpa using hrun))
  have hwait : (v.reply t c).waiting = v.waiting := by
    funext q
    simp [View.reply]
  refine ⟨h.queued.release hf (fun q => hwait ▸ hlink q) hs', ?_, ?_, ?_⟩
  · simpa [View.reply] using h.returns.returnTo
  · intro d hd
    cases hc.symm.trans (hf.current.symm.trans hd)
    rw [hf.state t hne]
    exact h.returns.state t hc
  · intro d hd q
    rw [hwait]
    exact h.returns.unlinked d (hf.current.symm.trans hd) q

end View

/-- The condition that an entry must meet for the lists to stay consistent. -/
def Move.Safe (v : View) : Move → Prop
  | .resume u => v.current ≠ some u ∧ u ∉ v.runQueue ∧ v.Unlinked u
  | .reply _ c => v.Unlinked c
  | _ => True

/-- Suspending a thread leaves it on its wait queue. -/
theorem View.Queued.suspend {v : View} (h : v.Queued) (u : Word) : (v.suspend u).Queued := by
  have hs : (v.suspend u).state u = .suspended := Function.update_self ..
  have hrun : u ∉ (v.suspend u).runQueue := h.run_nodup.not_mem_erase
  have hflag : (v.suspend u).Flagged u := flagged_of_state (by rw [hs]; exact ⟨nofun, nofun⟩)
  by_cases hlink : v.Unlinked u
  · exact h.unlink (SameBut.suspend v u) hlink (by rw [hs]; nofun) hflag
      (fun hm => absurd hm hrun) (by rw [hs]; nofun)
  · obtain ⟨q, hq⟩ : ∃ q, u ∈ v.waiting q := by
      by_contra hnone
      exact hlink fun q hq => hnone ⟨q, hq⟩
    exact h.link (SameBut.suspend v u) hq (fun r hr => h.wait_unique u r q hr hq) hrun hflag
      (.inr (.inl hs))

/-- A thread that dies leaves the lists in order. -/
theorem View.Consistent.kill {v : View} {t : Word} (h : v.Consistent) (hc : v.current = some t) :
    (v.setState t .dead).Queued := by
  obtain ⟨hrun, hlink, -⟩ := h.current_free hc
  have hs : (v.setState t .dead).state t = .dead := Function.update_self ..
  exact h.queued.unlink (SameBut.setState v t .dead) hlink (by rw [hs]; nofun)
    (flagged_of_state (by rw [hs]; exact ⟨nofun, nofun⟩)) (fun hm => absurd hm hrun)
    (by rw [hs]; nofun)

/-- `schedule` changes only the thread that it picks. -/
theorem View.Schedules.keeps {v v' : View} {t : Word} (hs : v.Schedules v') (ht : t ∉ v.runQueue) :
    v'.state t = v.state t ∧ v'.current = v.current := by
  cases hs with
  | first hq =>
    rename_i x l
    have hne : t ≠ x := by
      rintro rfl
      exact ht (by rw [hq]; exact List.mem_cons_self)
    exact ⟨Function.update_of_ne hne _ _, rfl⟩
  | stays => exact ⟨rfl, rfl⟩
  | idles => exact ⟨rfl, rfl⟩

/-- A safe entry leaves the lists in order. -/
theorem Act.ready {v v' : View} {m : Move} (ha : Act v m v') (h : v.Consistent)
    (hm : m.Safe v) : v'.Ready := by
  cases ha with
  | stays => exact ⟨h.queued, .inl h.returns⟩
  | exits hc hsched =>
    exact hsched.ready_of_stopped (h.kill hc) hc (by simp) (by simp)
  | yields hsched =>
    refine hsched.ready h.queued (fun c hc => ?_) fun _ => h.returns
    rcases h.returns.state c hc with hs | hs <;> rw [hs] <;> nofun
  | sends hc hs => exact hs.ready h hc
  | receives hc hr => exact hr.ready h hc
  | replies hc hreply hs =>
    have hcons := h.reply hc hs hm
    exact ⟨hcons.queued, .inl hcons.returns⟩
  | repliesAndReceives hc hreply hs hr =>
    exact hr.ready (h.reply hc hs hm) ((View.transfer_current _ _).trans hc)
  | wakes hq hs =>
    rename_i r q
    exact .of_woken (h.queued.wake hq (SameBut.switchTo _ r) rfl (Function.update_self ..)) rfl
      (h.linked_ne hq) (Function.update_self ..) (h.queued.not_run_of_linked hq)
  | waits hc hsched =>
    obtain ⟨hrun, hlink, -⟩ := h.current_free hc
    exact hsched.ready_of_stopped (h.queued.blockReceiver hrun hlink _) hc (by simp) (by simp)
  | waitsKilled hc hkill hsched =>
    rename_i t n w
    -- the killed thread is still the current one, and is queued all the same
    obtain ⟨hws, hwc⟩ := hkill.keeps (t := t) (h.current_free hc).1
    have hdead : w.state t = .dead := hws.trans (Function.update_self ..)
    have hw := (hkill.ready_of_stopped (h.kill hc) hc (by simp) (by simp)).queued
    have hwrun : t ∉ w.runQueue := hw.not_run_of_state (by rw [hdead]; nofun)
    have hwlink := hw.unlinked_of_state (.inr (.inr hdead))
    exact hsched.ready_of_stopped (hw.blockReceiver hwrun hwlink _) (hwc.trans hc) (by simp)
      (by simp)
  | resumes hs =>
    rename_i u
    obtain ⟨hne, hrun, hlink⟩ := hm
    have hu : (v.makeRunnable u).state u = .runnable := Function.update_self ..
    refine ⟨h.queued.release (SameBut.makeRunnable v hrun) hlink hu,
      .inl ⟨h.returns.returnTo, fun d hd => ?_, h.returns.unlinked⟩⟩
    rw [(SameBut.makeRunnable v hrun).state d (fun e => hne (e ▸ hd))]
    exact h.returns.state d hd
  | suspends =>
    rename_i u
    refine ⟨h.queued.suspend u, .inl ⟨h.returns.returnTo, fun d hd => ?_, h.returns.unlinked⟩⟩
    by_cases hdu : d = u
    · exact .inr (hdu ▸ Function.update_self ..)
    · rw [(SameBut.suspend v u).state d hdu]
      exact h.returns.state d hd

/-- One entry, from between two entries to between two entries. -/
theorem Act.consistent {v w v' : View} {m : Move} (ha : Act v m w) (hl : w.Leaves v')
    (h : v.Consistent) (hm : m.Safe v) : v'.Consistent :=
  hl.consistent (ha.ready h hm)

end Tern
