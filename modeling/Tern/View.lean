import Tern.Entries
import Tern.Lists

/-! The abstract scheduler: what state every thread is in, which threads are on
the run queue and on the wait queues of endpoints and notifications, as lists.
`Represents k v` says that the linked lists of `k` hold the lists of `v`; each
function on threads of the kernel is shown to do to `k` what the function of the
same name does to `v`. -/

namespace Tern

open Lib

/-- The objects that threads wait on. -/
inductive Queue
  | endpoint (e : Word)
  | notification (n : Word)
  deriving DecidableEq

def Queue.head : Queue → Node
  | .endpoint e => .endpoint e
  | .notification n => .notification n

structure View where
  state : Word → TaskState
  expectsReply : Word → Bool
  replyTo : Word → Option Word
  runQueue : List Word
  waiting : Queue → List Word
  current : Option Word
  returnTo : Option Word
  history : List Event

namespace View

variable (v : View)

@[simps] def setState (t : Word) (s : TaskState) : View := { v with state := Function.update v.state t s }

@[simps] def setExpects (t : Word) (b : Bool) : View :=
  { v with expectsReply := Function.update v.expectsReply t b }

@[simps] def setReplyTo (t c : Word) : View :=
  { v with replyTo := Function.update v.replyTo t (some c) }

@[simps] def noted (e : Event) : View := { v with history := e :: v.history }

@[simps] def enqueue (q : Queue) (t : Word) : View :=
  { v with waiting := Function.update v.waiting q (t :: v.waiting q) }

@[simps] def dequeue (q : Queue) (t : Word) : View :=
  { v with waiting := Function.update v.waiting q ((v.waiting q).erase t) }

/-- `schedule_tcb`. -/
@[simps!] def makeRunnable (t : Word) : View :=
  ({ v.setState t .runnable with runQueue := t :: v.runQueue }).noted (.madeRunnable t)

/-- `suspend_tcb`. -/
@[simps!] def suspend (t : Word) : View :=
  { v.setState t .suspended with runQueue := v.runQueue.erase t }

/-- `switch_tcb`. -/
@[simps!] def switchTo (t : Word) : View :=
  ({ v.setState t .runnable with returnTo := some t }).noted (.madeRunnable t)

/-- The current thread wants to run on. -/
def Runs : Prop := ∃ t, v.current = some t ∧ v.state t = .running

/-- `schedule`, when the first thread of the run queue is `t`. -/
@[simps!] def scheduleTo (t : Word) : View := ({ v with runQueue := v.runQueue.erase t }).switchTo t

/-- `schedule`. -/
inductive Schedules : View → Prop
  | first {t : Word} {l : List Word} : v.runQueue = t :: l → Schedules (v.scheduleTo t)
  | stays : v.runQueue = [] → v.Runs → Schedules v
  | idles : v.runQueue = [] → ¬ v.Runs → Schedules { v with returnTo := none }

/-- `return_from_kernel_code`. -/
inductive Leaves : View → Prop
  | stays : v.returnTo = v.current → Leaves v
  | switches {t c : Word} : v.returnTo = some t → v.current = some c → t ≠ c →
      v.state c = .running →
      Leaves { (v.makeRunnable c).setState t .running with current := some t }
  | leavesBehind {t : Word} : v.returnTo = some t → v.current ≠ some t → ¬ v.Runs →
      Leaves { v.setState t .running with current := some t }
  | idles : v.returnTo = none → Leaves { v with current := none }

/-- The list nodes that a list head has to hold. -/
def members : Node → List Node
  | .runnableTcbs => v.runQueue.map .run
  | .endpoint e => (v.waiting (.endpoint e)).map .sendReceive
  | .notification n => (v.waiting (.notification n)).map .sendReceive
  | .run _ | .sendReceive _ => []

end View

def Node.IsHead : Node → Prop
  | .run _ | .sendReceive _ => False
  | _ => True

theorem Queue.isHead (q : Queue) : q.head.IsHead := by cases q <;> trivial

structure Represents (k : Kernel) (v : View) : Prop where
  state : ∀ t, (k.tcbs t).state = v.state t
  expectsReply : ∀ t, (k.tcbs t).expectsReply = v.expectsReply t
  replyTo : ∀ t, (k.tcbs t).replyTo = v.replyTo t
  current : k.currentTcb = v.current
  returnTo : k.returnToTcb = v.returnTo
  history : k.history = v.history
  rings : Rings k.nodes.toLinks Node.IsHead v.members
  recorded : Ledger.Stacked v.members (ledger k.nodes.ops)

/-! ## Lists of nodes -/

namespace View

variable {v : View} {q : Queue} {t : Word}

theorem members_head : v.members q.head = (v.waiting q).map .sendReceive := by cases q <;> rfl

theorem members_runQueue (l : List Word) :
    View.members { v with runQueue := l } =
      Function.update v.members .runnableTcbs (l.map .run) := by
  funext x
  cases x <;> rfl

theorem members_waiting (l : List Word) :
    View.members { v with waiting := Function.update v.waiting q l } =
      Function.update v.members q.head (l.map .sendReceive) := by
  funext x
  cases q <;> cases x <;> simp only [members, Queue.head, Function.update_apply, reduceCtorEq,
    if_false, Node.endpoint.injEq, Node.notification.injEq, Queue.endpoint.injEq,
    Queue.notification.injEq]
  all_goals split <;> rfl

theorem run_injective : Function.Injective Node.run := fun _ _ e => Node.run.inj e

theorem sendReceive_injective : Function.Injective Node.sendReceive :=
  fun _ _ e => Node.sendReceive.inj e

theorem run_mem_members {h : Node} (hm : .run t ∈ v.members h) :
    h = .runnableTcbs ∧ t ∈ v.runQueue := by
  cases h <;> simp [members] at hm
  exact ⟨rfl, hm⟩

theorem sendReceive_mem_members {h : Node} (hm : .sendReceive t ∈ v.members h) :
    ∃ q, h = q.head ∧ t ∈ v.waiting q := by
  cases h <;> simp [members] at hm
  · exact ⟨.endpoint _, rfl, hm⟩
  · exact ⟨.notification _, rfl, hm⟩

theorem free_run (ht : t ∉ v.runQueue) : Rings.Free Node.IsHead v.members (.run t) :=
  ⟨id, fun _ _ hm => ht (run_mem_members hm).2⟩

theorem free_sendReceive (ht : ∀ q, t ∉ v.waiting q) :
    Rings.Free Node.IsHead v.members (.sendReceive t) := by
  refine ⟨id, fun h _ hm => ?_⟩
  obtain ⟨q, -, hq⟩ := sendReceive_mem_members hm
  exact ht q hq

end View

namespace Represents

variable {k k' : Kernel} {v : View} {t : Word}

/-- What the head of the run queue says about it. -/
theorem runQueue_empty (h : Represents k v) :
    isListEmpty k.nodes .runnableTcbs = true ↔ v.runQueue = [] := by
  simp [isListEmpty, h.rings.next_head_self (show Node.runnableTcbs.IsHead from trivial),
    View.members]

theorem waiting_empty (h : Represents k v) (q : Queue) :
    isListEmpty k.nodes q.head = true ↔ v.waiting q = [] := by
  simp [isListEmpty, h.rings.next_head_self q.isHead, View.members_head]

/-- The wait queues of `v` are duplicate free and disjoint. -/
theorem waiting_nodup (h : Represents k v) (q : Queue) : (v.waiting q).Nodup := by
  have hn := h.rings.nodup q.head q.isHead
  rw [View.members_head] at hn
  exact hn.of_map _

theorem waiting_unique (h : Represents k v) {q r : Queue} (hq : t ∈ v.waiting q)
    (hr : t ∈ v.waiting r) : q = r := by
  have hm : ∀ {p : Queue}, t ∈ v.waiting p → .sendReceive t ∈ v.members p.head := by
    intro p hp
    rw [View.members_head]
    exact List.mem_map_of_mem hp
  have he := h.rings.apart q.head r.head _ q.isHead r.isHead (hm hq) (hm hr)
  cases q <;> cases r <;> cases he <;> rfl

theorem runQueue_nodup (h : Represents k v) : v.runQueue.Nodup :=
  (h.rings.nodup .runnableTcbs trivial).of_map _

/-! ## Single updates -/

/-- A change of one thread shows in the fields of that thread. -/
theorem modifyTcb (h : Represents k v) (t : Word) (f : Tcb → Tcb) :
    Represents (k.modifyTcb t f) { v with
      state := Function.update v.state t (f (k.tcbs t)).state
      expectsReply := Function.update v.expectsReply t (f (k.tcbs t)).expectsReply
      replyTo := Function.update v.replyTo t (f (k.tcbs t)).replyTo } where
  state x := by
    simp only [Kernel.modifyTcb_tcbs, Function.update_apply]
    split
    · rfl
    · exact h.state x
  expectsReply x := by
    simp only [Kernel.modifyTcb_tcbs, Function.update_apply]
    split
    · rfl
    · exact h.expectsReply x
  replyTo x := by
    simp only [Kernel.modifyTcb_tcbs, Function.update_apply]
    split
    · rfl
    · exact h.replyTo x
  current := h.current
  returnTo := h.returnTo
  history := h.history
  rings := h.rings
  recorded := h.recorded

theorem setState (h : Represents k v) (t : Word) (s : TaskState) :
    Represents (k.setState t s) (v.setState t s) := by
  have hset := h.modifyTcb t fun c => { c with state := s }
  simp only [h.expectsReply, h.replyTo, Function.update_eq_self] at hset
  exact hset

theorem setExpects (h : Represents k v) (t : Word) (b : Bool) :
    Represents (setExpectsReply k t b) (v.setExpects t b) := by
  have hset := h.modifyTcb t fun c => { c with expectsReply := b }
  simp only [h.state, h.replyTo, Function.update_eq_self] at hset
  exact hset

theorem setReplyTo (h : Represents k v) (t c : Word) :
    Represents (k.modifyTcb t fun x => { x with replyTo := some c }) (v.setReplyTo t c) := by
  have hset := h.modifyTcb t fun x => { x with replyTo := some c }
  simp only [h.state, h.expectsReply, Function.update_eq_self] at hset
  exact hset

theorem noted (h : Represents k v) (e : Event) : Represents (k.noted e) (v.noted e) :=
  { h with history := congrArg (e :: ·) h.history }

theorem setReturnTo (h : Represents k v) (r : Option Word) :
    Represents { k with returnToTcb := r } { v with returnTo := r } :=
  { h with returnTo := rfl }

theorem listed (h : Represents k v) : Listed k.nodes Node.IsHead v.members where
  rings := h.rings
  heads a ha := by cases a <;> first | rfl | exact absurd trivial ha
  recorded := h.recorded

/-- New links that hold new lists. -/
theorem relink (h : Represents k v) {nodes : Lists Node} {rq : List Word}
    {wq : Queue → List Word}
    (hL : Listed nodes Node.IsHead (View.members { v with runQueue := rq, waiting := wq })) :
    Represents (k.withNodes nodes) { v with runQueue := rq, waiting := wq } :=
  { h with rings := hL.rings, recorded := hL.recorded }

end Represents

theorem SameView.represents {k k' : Kernel} (hs : SameView k k') {v : View} (h : Represents k v) :
    Represents k' v where
  state t := (hs.state t).trans (h.state t)
  expectsReply t := (hs.expectsReply t).trans (h.expectsReply t)
  replyTo t := (hs.replyTo t).trans (h.replyTo t)
  current := hs.current.trans h.current
  returnTo := hs.returnTo.trans h.returnTo
  history := hs.history.trans h.history
  rings := hs.nodes ▸ h.rings
  recorded := hs.nodes ▸ h.recorded

namespace Represents

variable {k k' : Kernel} {v : View} {t : Word}

/-! ## The run queue -/

theorem scheduleTcb (h : Represents k v) (ht : t ∉ v.runQueue)
    (hk : scheduleTcb k t = .ok k') : Represents k' (v.makeRunnable t) := by
  simp only [Tern.scheduleTcb, bind_eq_ok, assert_eq_ok, pure_eq_ok] at hk
  obtain ⟨-, -, nodes, happend, rfl⟩ := hk
  have hpush := h.listed.append (show Node.runnableTcbs.IsHead from trivial) (View.free_run ht)
    happend
  have hmem : View.members { v.setState t .runnable with runQueue := t :: v.runQueue } =
      Function.update v.members .runnableTcbs (.run t :: v.members .runnableTcbs) :=
    View.members_runQueue (v := v.setState t .runnable) (t :: v.runQueue)
  rw [← hmem] at hpush
  exact ((h.setState t .runnable).relink hpush).noted _

theorem suspendTcb (h : Represents k v) (hk : suspendTcb k t = .ok k') :
    Represents k' (v.suspend t) := by
  simp only [Tern.suspendTcb, bind_eq_ok, pure_eq_ok] at hk
  obtain ⟨nodes, hremove, rfl⟩ := hk
  have hmem : View.members { v.setState t .suspended with runQueue := v.runQueue.erase t } =
      Function.update v.members .runnableTcbs ((v.runQueue.erase t).map .run) :=
    View.members_runQueue (v := v.setState t .suspended) (v.runQueue.erase t)
  refine (h.setState t .suspended).relink (hmem ▸ ?_)
  by_cases ht : t ∈ v.runQueue
  · have herase : (v.members .runnableTcbs).erase (.run t) = (v.runQueue.erase t).map .run :=
      (List.map_erase View.run_injective _).symm
    exact herase ▸ h.listed.remove (show Node.runnableTcbs.IsHead from trivial)
      (show .run t ∈ v.members .runnableTcbs from List.mem_map_of_mem ht) hremove
  · -- removing a thread on no list changes nothing
    have hsame : Function.update v.members .runnableTcbs (v.runQueue.map .run) = v.members :=
      Function.update_eq_self .runnableTcbs v.members
    rw [List.erase_of_not_mem ht, hsame]
    exact h.listed.remove_free (View.free_run ht) hremove

theorem switchTcb (h : Represents k v) (t : Word) : Represents (switchTcb k t) (v.switchTo t) := by
  exact ((h.setState t .runnable).setReturnTo (some t)).noted _

theorem pickNextTcb (h : Represents k v) {next : Option Word}
    (hk : pickNextTcb k = .ok (next, k')) :
    (next = none ∧ v.runQueue = [] ∧ k' = k) ∨
    ∃ t l, next = some t ∧ v.runQueue = t :: l ∧
      Represents k' { v with runQueue := v.runQueue.erase t } := by
  simp only [Tern.pickNextTcb] at hk
  split at hk
  · next he =>
    cases hk
    exact .inl ⟨rfl, h.runQueue_empty.mp he, rfl⟩
  · next he =>
    simp only [bind_eq_ok, pure_eq_ok, Prod.mk.injEq] at hk
    obtain ⟨⟨node, nodes⟩, hpop, t, ht, rfl, rfl⟩ := hk
    have hhead : Node.runnableTcbs.IsHead := trivial
    obtain ⟨m, hm, hlisted⟩ := h.listed.pop hhead (by rintro rfl; cases ht) hpop
    cases hq : v.runQueue with
    | nil =>
      rw [View.members, hq] at hm
      cases hm
    | cons x l =>
      rw [View.members, hq, List.map_cons, List.cons.injEq] at hm
      obtain ⟨rfl, rfl⟩ := hm
      obtain rfl : x = t := Except.ok.inj ht
      refine .inr ⟨x, l, rfl, rfl, ?_⟩
      rw [← View.members_runQueue] at hlisted
      rw [List.erase_cons_head]
      exact h.relink hlisted

theorem currentRuns_iff (h : Represents k v) : currentRuns k = true ↔ v.Runs := by
  unfold currentRuns View.Runs
  rw [h.current]
  cases v.current with
  | none => simp
  | some t => simp [h.state]

theorem schedule (h : Represents k v) (hk : schedule k = .ok k') :
    ∃ v', v.Schedules v' ∧ Represents k' v' := by
  simp only [Tern.schedule, bind_eq_ok] at hk
  obtain ⟨⟨next, k₁⟩, hpick, hk⟩ := hk
  rcases h.pickNextTcb hpick with ⟨rfl, hq, rfl⟩ | ⟨t, l, rfl, hq, hrep⟩
  · simp only at hk
    split at hk
    · next hr =>
      cases hk
      exact ⟨v, .stays hq (h.currentRuns_iff.mp hr), h⟩
    · next hr =>
      cases hk
      exact ⟨_, .idles hq (fun hv => hr (h.currentRuns_iff.mpr hv)), { h with returnTo := rfl }⟩
  · cases hk
    exact ⟨_, .first hq, hrep.switchTcb t⟩

theorem killTcb (h : Represents k v) (hk : killTcb k t = .ok k') :
    Represents k' (v.setState t .dead) := by
  simp only [Tern.killTcb, bind_eq_ok, pure_eq_ok] at hk
  obtain ⟨-, -, rfl⟩ := hk
  exact h.setState t .dead

/-! ## Leaving the kernel -/

theorem switchTcbActual (h : Represents k v) (hrun : ∀ c ∈ v.runQueue, v.state c ≠ .running)
    {dm : DirectMap} (hreturn : v.returnTo = some t)
    (hk : switchTcbActual dm k t = .ok k') : ∃ v', v.Leaves v' ∧ Represents k' v' := by
  simp only [Tern.switchTcbActual, bind_eq_ok, assert_eq_ok, pure_eq_ok, bne_iff_ne, ne_eq,
    h.current] at hk
  obtain ⟨-, hne, k₁, hsave, k₂, hresched, -, -, rfl⟩ := hk
  have h₁ := (saveCurrent_quiet hsave).view.represents h
  have hlast : ∀ {w : View}, Represents k₂ w → Represents
      (({ k₂ with
        currentTcb := some t, vmRoot := tcbVmRoot dm k₂ t, tlsBase := (k₂.tcbs t).tlsBase
        }.setState t .running).modifyTcb t fun c =>
          { c with savedState := ensureFrameValidForUsermode c.savedState })
      { w.setState t .running with current := some t } := by
    intro w hw
    have hframe := fun k => SameView.modifyTcb k t
      (fun c => { c with savedState := ensureFrameValidForUsermode c.savedState })
      (fun _ => rfl) (fun _ => rfl) (fun _ => rfl)
    have hset := hw.setState t .running
    exact (hframe _).represents ⟨hset.state, hset.expectsReply, hset.replyTo, rfl, hset.returnTo,
      hset.history, hset.rings, hset.recorded⟩
  unfold rescheduleCurrent at hresched
  rw [h₁.current] at hresched
  cases hc : v.current with
  | none =>
    rw [hc] at hresched
    cases hresched
    refine ⟨_, .leavesBehind hreturn (by simp [hc]) ?_, hlast h₁⟩
    rintro ⟨c, hc', -⟩
    simp [hc] at hc'
  | some c =>
    rw [hc] at hresched hne
    simp only [h₁.state, beq_iff_eq] at hresched
    split at hresched
    · next hs =>
      have hnot : c ∉ v.runQueue := fun hm => hrun c hm hs
      exact ⟨_, .switches hreturn hc (fun e => hne (by rw [e])) hs,
        hlast (h₁.scheduleTcb hnot hresched)⟩
    · next hs =>
      cases hresched
      refine ⟨_, .leavesBehind hreturn (by rw [hc]; exact hne) ?_, hlast h₁⟩
      rintro ⟨d, hd, hs'⟩
      cases hc.symm.trans hd
      exact hs hs'

theorem returnFromKernelCode (h : Represents k v)
    (hrun : ∀ c ∈ v.runQueue, v.state c ≠ .running) {dm : DirectMap}
    (hk : returnFromKernelCode dm k = .ok k') : ∃ v', v.Leaves v' ∧ Represents k' v' := by
  unfold Tern.returnFromKernelCode at hk
  rw [h.returnTo, h.current] at hk
  split at hk
  · next he =>
    cases hk
    exact ⟨v, .stays he, h⟩
  · next he =>
    split at hk
    · next t ht => exact h.switchTcbActual hrun ht hk
    · next hn =>
      simp only [bind_eq_ok, pure_eq_ok] at hk
      obtain ⟨k₁, hsave, rfl⟩ := hk
      have h₁ := (saveCurrent_quiet hsave).view.represents h
      exact ⟨_, .idles hn, { h₁ with current := rfl }⟩

/-! ## The wait queues -/

theorem enqueue (h : Represents k v) {q : Queue} (ht : ∀ q, t ∉ v.waiting q) {nodes : Lists Node}
    (hk : appendToList k.nodes (.sendReceive t) q.head = .ok nodes) :
    Represents (k.withNodes nodes) (v.enqueue q t) := by
  have hpush := h.listed.append q.isHead (View.free_sendReceive ht) hk
  have hcons : .sendReceive t :: v.members q.head = (t :: v.waiting q).map .sendReceive := by
    rw [View.members_head, List.map_cons]
  rw [hcons, ← View.members_waiting] at hpush
  exact h.relink hpush

theorem members_erase (v : View) (q : Queue) (t : Word) :
    Function.update v.members q.head ((v.members q.head).erase (.sendReceive t)) =
      (v.dequeue q t).members := by
  rw [View.members_head, ← List.map_erase View.sendReceive_injective]
  exact (View.members_waiting _).symm

theorem dequeue (h : Represents k v) {q : Queue} (ht : t ∈ v.waiting q) {nodes : Lists Node}
    (hk : removeFromList k.nodes (.sendReceive t) = .ok nodes) :
    Represents (k.withNodes nodes) (v.dequeue q t) := by
  have hmem : .sendReceive t ∈ v.members q.head := by
    rw [View.members_head]
    exact List.mem_map_of_mem ht
  have hremove := h.listed.remove q.isHead hmem hk
  rw [members_erase] at hremove
  exact h.relink hremove

/-- The first node of a wait queue is that of its first thread. -/
theorem first_waiting (h : Represents k v) {q : Queue} {node : Node}
    (hfirst : k.nodes.next q.head = some node) (ht : node.tcbOfSendReceive = .ok t) :
    node = .sendReceive t ∧ ∃ l, v.waiting q = t :: l := by
  have hhead := h.rings.next_head q.isHead
  rw [View.members_head] at hhead
  cases hfirst.symm.trans hhead
  cases hq : v.waiting q with
  | nil =>
    rw [hq] at ht
    cases q <;> cases ht
  | cons x l =>
    rw [hq] at ht
    cases ht
    exact ⟨rfl, l, rfl⟩

/-- Taking the first thread off a wait queue. -/
theorem pop_waiting (h : Represents k v) {q : Queue} {node : Node} {nodes : Lists Node}
    (hpop : popFromList k.nodes q.head = .ok (node, nodes))
    (ht : node.tcbOfSendReceive = .ok t) :
    (∃ l, v.waiting q = t :: l) ∧ Represents (k.withNodes nodes) (v.dequeue q t) := by
  obtain ⟨rfl, l, hl⟩ := h.first_waiting (popFromList_eq_ok.mp hpop).1 ht
  have hne : .sendReceive t ≠ q.head := by cases q <;> rintro ⟨⟩
  obtain ⟨m, hm, hlisted⟩ := h.listed.pop q.isHead hne hpop
  have hmem := members_erase v q t
  rw [hm, List.erase_cons_head] at hmem
  rw [hmem] at hlisted
  exact ⟨⟨l, hl⟩, h.relink hlisted⟩

end Represents

end Tern
