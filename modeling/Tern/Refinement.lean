import Tern.Scheduling

/-! The kernel refines the abstract scheduler. Each function of the kernel that
moves threads does to the lists what its counterpart does to the view; every
other one leaves the view as it is. So a kernel entry is one `Act` followed by
one `Leaves`, and what these preserve holds in every run. -/

namespace Tern

open Lib Cdt

variable {k k' : Kernel} {v : View} {t : Word} {tag tag' : MessageTag}

namespace Represents

/-! ## Messages -/

theorem transferMessage (h : Represents k v) {s r badge : Word}
    (hk : transferMessage k s r badge tag = .ok (tag', k')) :
    Represents k' (v.transfer s r) := by
  simp only [Tern.transferMessage, bind_eq_ok, pure_eq_ok, Prod.mk.injEq] at hk
  obtain ⟨buf, -, sbuf, -, ⟨tag₁, k₁⟩, hcap, k₂, hset, -, rfl⟩ := hk
  have h₁ : Represents k₁ v := by
    refine (SameView.trans ?_ (transferCap_quiet hcap).view).represents h
    exact .of_eq rfl rfl rfl rfl rfl
  refine (setIpcResult_quiet hset).view.represents ?_
  unfold Tern.setReplyTo View.transfer
  rw [h₁.expectsReply]
  split
  · exact h₁.setReplyTo r s
  · exact h₁

theorem sendMessageDirectly (h : Represents k v) (hc : v.current = some t) {r badge : Word}
    {resumeNow : Bool} (hr : resumeNow = false → r ∉ v.runQueue)
    (hk : sendMessageDirectly k r badge tag resumeNow = .ok k') :
    Represents k' (if resumeNow then (v.transfer t r).switchTo r
      else (v.transfer t r).makeRunnable r) := by
  simp only [Tern.sendMessageDirectly, thisTcb, bind_eq_ok, assert_eq_ok, deref_eq_ok,
    h.current, hc, Option.some.injEq] at hk
  obtain ⟨-, -, this, rfl, -, -, ⟨tag₁, k₁⟩, htransfer, hk⟩ := hk
  have h₁ := h.transferMessage htransfer
  cases resumeNow with
  | true =>
    cases hk
    exact h₁.switchTcb r
  | false =>
    refine h₁.scheduleTcb ?_ hk
    rw [View.transfer_runQueue]
    exact hr rfl

/-! ## Endpoints -/

/-- What the two functions that look at an endpoint find out. -/
theorem first_state (h : Represents k v) {e : Word} {state : TaskState}
    (hk : firstState k e = .ok state) :
    ∃ s l, v.waiting (.endpoint e) = s :: l ∧ v.state s = state := by
  simp only [firstState, bind_eq_ok, deref_eq_ok, pure_eq_ok] at hk
  obtain ⟨first, hfirst, s, hs, rfl⟩ := hk
  obtain ⟨-, l, hl⟩ := h.first_waiting (q := .endpoint e) hfirst hs
  exact ⟨s, l, hl, (h.state s).symm⟩

/-- Both functions block on an empty endpoint, and else ask the state of the
thread that is first there. -/
theorem blocks_on_first (h : Represents k v) {e : Word} {b : Bool} {p : TaskState → Bool}
    (hk : (do
      if isListEmpty k.nodes (.endpoint e) then return true
      let state ← firstState k e
      return p state) = .ok b) :
    (b = true ∧ ∀ r l, v.waiting (.endpoint e) = r :: l → p (v.state r) = true) ∨
    (b = false ∧ ∃ r l, v.waiting (.endpoint e) = r :: l ∧ p (v.state r) = false) := by
  split at hk
  · next he =>
    cases hk
    have hnil := (h.waiting_empty (.endpoint e)).mp he
    exact .inl ⟨rfl, fun r l hw => by rw [hnil] at hw; cases hw⟩
  · next he =>
    simp only [bind_eq_ok, pure_eq_ok] at hk
    obtain ⟨state, hstate, rfl⟩ := hk
    obtain ⟨s, l, hl, rfl⟩ := h.first_state hstate
    cases hp : p (v.state s) with
    | true =>
      refine .inl ⟨rfl, fun r l' hw => ?_⟩
      cases hl.symm.trans hw
      exact hp
    | false => exact .inr ⟨rfl, s, l, hl, hp⟩

theorem sendWillBlock (h : Represents k v) {e : Word} {b : Bool}
    (hk : sendWillBlock k e = .ok b) :
    (b = true ∧ ∀ r l, v.waiting (.endpoint e) = r :: l →
      v.state r = .sending ∨ v.state r = .calling) ∨
    (b = false ∧ ∃ r l, v.waiting (.endpoint e) = r :: l ∧
      v.state r ≠ .sending ∧ v.state r ≠ .calling) := by
  simpa using h.blocks_on_first (p := fun state => state == .sending || state == .calling) hk

theorem recvWillBlock (h : Represents k v) {e : Word} {b : Bool}
    (hk : recvWillBlock k e = .ok b) :
    (b = true ∧ ∀ s l, v.waiting (.endpoint e) = s :: l → v.state s = .receiving) ∨
    (b = false ∧ ∃ s l, v.waiting (.endpoint e) = s :: l ∧ v.state s ≠ .receiving) := by
  simpa using h.blocks_on_first (p := fun state => state == .receiving) hk

theorem endpointSend (h : Represents k v) (hc : v.current = some t) (hlink : v.Unlinked t)
    {e badge : Word} {isCall : Bool} (hk : endpointSend k e badge tag isCall = .ok k') :
    ∃ v', v.SendsTo t e isCall v' ∧ Represents k' v' := by
  simp only [Tern.endpointSend, bind_eq_ok] at hk
  obtain ⟨b, hb, hk⟩ := hk
  rcases h.sendWillBlock hb with ⟨rfl, hq⟩ | ⟨rfl, r, l, hl, hns, hnc⟩
  · simp only [if_true, queueMessageOnEndpoint, thisTcb, bind_eq_ok, deref_eq_ok, h.current, hc,
      Option.some.injEq] at hk
    obtain ⟨this, rfl, info, -, -, -, nodes, happend, hk⟩ := hk
    have hwait := (h.enqueue (q := .endpoint e) hlink happend).setState t
      (if isCall then .calling else .sending)
    have hbadge := SameView.modifyTcb ((k.withNodes nodes).setState t
      (if isCall then .calling else .sending)) t (fun c => { c with endpointBadge := badge })
      (fun _ => rfl) (fun _ => rfl) (fun _ => rfl)
    obtain ⟨v', hs, hv'⟩ := (hbadge.represents hwait).schedule hk
    exact ⟨v', .blocks hq hs, hv'⟩
  · simp only [Bool.false_eq_true, if_false, sendMessageToBlockedReceiver, thisTcb, bind_eq_ok,
      deref_eq_ok, h.current, hc, Option.some.injEq, h.expectsReply] at hk
    obtain ⟨this, rfl, ⟨node, nodes⟩, hpop, r', hr', hk⟩ := hk
    obtain ⟨⟨l', hl'⟩, hpopped⟩ := h.pop_waiting (q := .endpoint e) hpop hr'
    cases hl.symm.trans hl'
    have hsend := (hpopped.noted (.received t r (v.expectsReply t))).sendMessageDirectly hc (by rintro ⟨⟩) hk
    exact ⟨_, .wakes hl hns hnc, hsend⟩

theorem receiveMessageFromBlockedSender (h : Represents k v) (hc : v.current = some t)
    {e s : Word} {l : List Word} (hl : v.waiting (.endpoint e) = s :: l) (hs : s ∉ v.runQueue)
    (hk : receiveMessageFromBlockedSender k e = .ok (tag, k')) :
    Represents k' (v.take t e s) := by
  simp only [Tern.receiveMessageFromBlockedSender, thisTcb, bind_eq_ok, deref_eq_ok, h.current, hc,
    Option.some.injEq, pure_eq_ok, Prod.mk.injEq] at hk
  obtain ⟨this, rfl, ⟨node, nodes⟩, hpop, s', hs', tag₁, -, ⟨tag₂, k₁⟩, htransfer, k₂, hsettle,
    -, rfl⟩ := hk
  obtain ⟨⟨l', hl'⟩, hpopped⟩ := h.pop_waiting (q := .endpoint e) hpop hs'
  cases hl.symm.trans hl'
  rw [h.expectsReply] at htransfer
  have h₁ := (hpopped.noted (.received s t (v.expectsReply s))).transferMessage htransfer
  have hexpects : (k₁.tcbs s).expectsReply = v.expectsReply s := by
    rw [h₁.expectsReply, View.transfer]
    split <;> rfl
  unfold settleSender at hsettle
  unfold View.take
  unfold View.transfer at h₁
  change Represents k₁ (if v.expectsReply s then _ else _) at h₁
  rw [hexpects] at hsettle
  split at hsettle
  · next hx =>
    cases hsettle
    rw [if_pos hx] at h₁ ⊢
    have h₂ := h₁.setReplyTo t s
    simpa only [View.setReplyTo, Function.update_idem, Function.update_self] using h₂
  · next hx =>
    rw [if_neg hx] at h₁ ⊢
    exact h₁.scheduleTcb hs hsettle

theorem endpointRecv (h : Represents k v) (hq : v.Queued) (hc : v.current = some t)
    (hlink : v.Unlinked t) {e : Word} (hk : endpointRecv k e = .ok (tag, k')) :
    ∃ v', v.Receives t e v' ∧ Represents k' v' := by
  simp only [Tern.endpointRecv, bind_eq_ok] at hk
  obtain ⟨b, hb, hk⟩ := hk
  rcases h.recvWillBlock hb with ⟨rfl, hall⟩ | ⟨rfl, s, l, hl, hs⟩
  · simp only [if_true, queueReceiverOnEndpoint, thisTcb, bind_eq_ok, deref_eq_ok, h.current, hc,
      Option.some.injEq, pure_eq_ok, Prod.mk.injEq] at hk
    obtain ⟨this, rfl, nodes, happend, k₁, hk, -, rfl⟩ := hk
    have hwait := (h.enqueue (q := .endpoint e) hlink happend).setState t .receiving
    obtain ⟨v', hs, hv'⟩ := hwait.schedule hk
    exact ⟨v', .blocks hall hs, hv'⟩
  · have hrun := hq.not_run_of_linked (q := .endpoint e) (by rw [hl]; exact List.mem_cons_self)
    exact ⟨_, .takes hl hs, h.receiveMessageFromBlockedSender hc hl hrun hk⟩

theorem endpointNbrecv (h : Represents k v) (hq : v.Queued) (hc : v.current = some t)
    {e : Word} (hk : endpointNbrecv k e = .ok (tag, k')) :
    ∃ v', v.Receives t e v' ∧ Represents k' v' := by
  simp only [Tern.endpointNbrecv, bind_eq_ok] at hk
  obtain ⟨b, hb, hk⟩ := hk
  rcases h.recvWillBlock hb with ⟨rfl, -⟩ | ⟨rfl, s, l, hl, hs⟩
  · cases hk
    exact ⟨v, .notified, h⟩
  · have hrun := hq.not_run_of_linked (q := .endpoint e) (by rw [hl]; exact List.mem_cons_self)
    exact ⟨_, .takes hl hs, h.receiveMessageFromBlockedSender hc hl hrun hk⟩

/-- A receive, of a message or of a pending notification. -/
theorem receipt (h : Represents k v) (hv : v.Consistent) (hc : v.current = some t)
    (hk : Receipt k k') : ∃ e v', v.Receives t e v' ∧ Represents k' v' := by
  cases hk with
  | same hs => exact ⟨0#64, v, .notified, hs.represents h⟩
  | recv hk => exact ⟨_, h.endpointRecv hv.queued hc (hv.current_free hc).2.1 hk⟩
  | nbrecv hk => exact ⟨_, h.endpointNbrecv hv.queued hc hk⟩

theorem prepared (h : Represents k v) (s : Word) (isCall : Bool) :
    Represents (k.prepared s isCall) (v.prepared s isCall) := by
  cases isCall with
  | false => exact h.setExpects s false
  | true => exact ((h.setExpects s true).setState s .calling).noted _

theorem invokeReply (h : Represents k v) (hq : v.Queued) (hc : v.current = some t)
    (hk : invokeReply k tag = .ok k') :
    ∃ c, v.replyTo t = some c ∧ v.state c = .calling ∧ Represents k' (v.reply t c) := by
  obtain ⟨s, c, hs, hto, hcalling, hsend⟩ := invokeReply_client hk
  cases hc.symm.trans (h.current.symm.trans hs)
  rw [h.replyTo] at hto
  rw [h.state] at hcalling
  rw [h.expectsReply] at hsend
  have hrun : c ∉ v.runQueue := hq.not_run_of_state (by rw [hcalling]; nofun)
  exact ⟨c, hto, hcalling, (h.noted _).sendMessageDirectly hc (fun _ => hrun) hsend⟩

/-! ## Notifications -/

theorem signalWaitingReceiver (h : Represents k v) {n r badge : Word}
    (hk : signalWaitingReceiver k n r badge = .ok k') : Represents k' (v.switchTo r) := by
  simp only [Tern.signalWaitingReceiver, bind_eq_ok, pure_eq_ok] at hk
  obtain ⟨k₁, hset, buffer, -, rfl⟩ := hk
  refine Represents.switchTcb ?_ r
  refine ((setIpcResult_quiet hset).view.trans ?_).represents h
  exact .of_eq rfl rfl rfl rfl rfl

/-- A signal wakes one thread that waits, or nobody. -/
theorem notificationSignal (h : Represents k v) (hq : v.Queued) {n badge : Word}
    (hk : notificationSignal k n badge = .ok k') : ∃ w, Act v .plain w ∧ Represents k' w := by
  have hset : ∀ {k₁ : Kernel}, SameView k k₁ → Represents k₁ v := fun hs => hs.represents h
  simp only [Tern.notificationSignal] at hk
  split at hk
  · split at hk
    · next r hr =>
      -- the bound thread waits on some queue, it need not be an endpoint's
      simp only [boundReceiver, Option.filter_eq_some_iff, beq_iff_eq] at hr
      have hs : v.state r = .receiving := (h.state r).symm.trans hr.2
      obtain ⟨q, hmem⟩ := hq.receiving r hs
      simp only [signalBoundReceiverWaitingOnSomethingElse, bind_eq_ok] at hk
      obtain ⟨nodes, hremove, hk⟩ := hk
      refine ⟨_, .wakes hmem (.inl hs), signalWaitingReceiver ?_ hk⟩
      refine dequeue (hset ?_) hmem hremove
      exact .of_eq rfl rfl rfl rfl rfl
    · cases hk
      exact ⟨v, .stays, hset (.of_eq rfl rfl rfl rfl rfl)⟩
  · simp only [bind_eq_ok, deref_eq_ok] at hk
    obtain ⟨first, hfirst, r, hr, nodes, hremove, hk⟩ := hk
    obtain ⟨rfl, l, hl⟩ := h.first_waiting (q := .notification n) hfirst hr
    have hmem : r ∈ v.waiting (.notification n) := by rw [hl]; exact List.mem_cons_self
    refine ⟨_, .wakes hmem (hq.notification n r hmem), signalWaitingReceiver ?_ hk⟩
    refine dequeue (hset ?_) hmem hremove
    exact .of_eq rfl rfl rfl rfl rfl

/-- A wait that finds no word queues the thread, also the one it has just killed. -/
theorem queueReceiverOnNotification (h : Represents k v) (hc : v.current = some t)
    (hlink : v.Unlinked t) {n : Word} (hk : queueReceiverOnNotification k n = .ok (tag, k')) :
    ∃ v', ((v.enqueue (.notification n) t).setState t .receiving).Schedules v' ∧
      Represents k' v' := by
  simp only [Tern.queueReceiverOnNotification, thisTcb, bind_eq_ok, deref_eq_ok, h.current, hc,
    Option.some.injEq, pure_eq_ok, Prod.mk.injEq] at hk
  obtain ⟨this, rfl, nodes, happend, k₁, hk, -, rfl⟩ := hk
  exact ((h.enqueue (q := .notification n) hlink happend).setState t .receiving).schedule hk

/-! ## Entries -/

/-- What the functions do to the kernel's lists, the act does to those of the view. -/
theorem body (h : Represents k v) (hv : v.Consistent) {m : Move} (hb : Body k m k')
    (hsafe : ∀ w, Act v m w → m.Safe v) : ∃ w, Act v m w ∧ Represents k' w := by
  have hcurrent : ∀ {t : Word}, k.currentTcb = some t → v.current = some t ∧ v.Unlinked t := by
    intro t ht
    have hc := h.current.symm.trans ht
    exact ⟨hc, (hv.current_free hc).2.1⟩
  cases hb with
  | stays => exact ⟨v, .stays, h⟩
  | exits ht hdead hsched =>
    obtain ⟨w, hw, hrep⟩ := (h.killTcb hdead).schedule hsched
    exact ⟨w, .exits (hcurrent ht).1 hw, hrep⟩
  | yields hsched =>
    obtain ⟨w, hw, hrep⟩ := h.schedule hsched
    exact ⟨w, .yields hw, hrep⟩
  | sends ht hk =>
    rename_i t e badge tag isCall
    obtain ⟨hc, hlink⟩ := hcurrent ht
    obtain ⟨w, hw, hrep⟩ := (h.prepared t isCall).endpointSend
      ((View.prepared_same v t isCall).current.trans hc) (by simpa [View.Unlinked] using hlink) hk
    exact ⟨w, .sends hc hw, hrep⟩
  | receives ht hk =>
    obtain ⟨hc, -⟩ := hcurrent ht
    obtain ⟨e, w, hw, hrep⟩ := h.receipt hv hc hk
    exact ⟨w, .receives hc hw, hrep⟩
  | replies ht hto hs hreply hk =>
    rename_i t c tag k₁
    obtain ⟨hc, -⟩ := hcurrent ht
    obtain ⟨d, hto', hs', hrep⟩ := h.invokeReply hv.queued hc hreply
    cases hto.symm.trans ((h.replyTo t).trans hto')
    have hcons := hv.reply hc hs' (hsafe _ (.replies hc hto' hs'))
    obtain ⟨e, w, hw, hrep'⟩ := hrep.receipt hcons ((View.transfer_current _ _).trans hc) hk
    exact ⟨w, .repliesAndReceives hc hto' hs' hw, hrep'⟩
  | signals hk => exact h.notificationSignal hv.queued hk
  | waits ht hk =>
    obtain ⟨hc, hlink⟩ := hcurrent ht
    obtain ⟨w, hw, hrep⟩ := h.queueReceiverOnNotification hc hlink hk
    exact ⟨w, .waits hc hw, hrep⟩
  | waitsKilled ht hdead hsched hk =>
    obtain ⟨hc, hlink⟩ := hcurrent ht
    obtain ⟨w, hw, hrep⟩ := (h.killTcb hdead).schedule hsched
    obtain ⟨hwait, hcur⟩ : w.waiting = v.waiting ∧ w.current = v.current := by
      cases hw <;> exact ⟨rfl, rfl⟩
    obtain ⟨w', hw', hrep'⟩ := hrep.queueReceiverOnNotification (hcur.trans hc)
      (fun q => by rw [hwait]; exact hlink q) hk
    exact ⟨w', .waitsKilled hc hw hw', hrep'⟩
  | resumes hk =>
    rename_i u
    have halive : v.state u ≠ .dead := by
      simp only [Tern.scheduleTcb, bind_eq_ok, assert_eq_ok, bne_iff_ne, h.state] at hk
      exact hk.choose_spec.1
    have hfree := hsafe _ (.resumes halive)
    exact ⟨_, .resumes halive, h.scheduleTcb hfree.2.1 hk⟩
  | suspends hk => exact ⟨_, .suspends, h.suspendTcb hk⟩

end Represents

variable {P : Platform}

/-- One kernel entry is one act of the abstract scheduler, from which it leaves. -/
theorem KernelStep.acts {e : Entry} (hs : KernelStep P k e k') (h : Represents k v)
    (hv : v.Consistent)
    (hretype : ∀ f obj, e = .syscall f → ¬ Invokes k f .untypedRetype obj)
    (hsafe : ∀ m w, e.Makes k m → Act v m w → m.Safe v) :
    ∃ m w v', e.Makes k m ∧ Act v m w ∧ w.Leaves v' ∧ Represents k' v' := by
  obtain ⟨k₁, ⟨m, k₀, k₂, hm, hbefore, hb, hafter⟩, hreturn⟩ := hs.handled hretype
  obtain ⟨w, hact, hrep⟩ := (hbefore.represents h).body hv hb (fun w => hsafe m w hm)
  have hready := hact.ready hv (hsafe m w hm hact)
  obtain ⟨v', hl, hrep'⟩ := (hafter.represents hrep).returnFromKernelCode
    (fun c hc => by rw [hready.queued.run_state c hc]; nofun) hreturn
  exact ⟨m, w, v', hm, hact, hl, hrep'⟩

/-! ## Runs -/

/-- At boot nothing waits. -/
def bootView (k : Kernel) : View where
  state t := (k.tcbs t).state
  expectsReply _ := false
  replyTo _ := none
  runQueue := []
  waiting _ := []
  current := k.currentTcb
  returnTo := k.returnToTcb
  history := []

theorem Booted.represents (h : Booted k) : Represents k (bootView k) where
  state _ := rfl
  expectsReply t := (h.fresh t).1
  replyTo t := (h.fresh t).2
  current := rfl
  returnTo := rfl
  history := h.history
  rings :=
    { ring := fun x hx => by
        cases x with
        | runnableTcbs => exact h.run
        | endpoint e => exact h.endpoint e
        | notification n => exact h.notification n
        | run t => exact hx.elim
        | sendReceive t => exact hx.elim
      member := fun x a _ ha => by cases x <;> cases ha
      apart := fun x y a _ _ ha => by cases x <;> cases ha
      nodup := fun x _ => by cases x <;> exact List.nodup_nil
      idle := fun a ha _ => by
        cases a with
        | run t => exact (h.idle t).1
        | sendReceive t => exact (h.idle t).2
        | runnableTcbs => exact absurd trivial ha
        | endpoint e => exact absurd trivial ha
        | notification n => exact absurd trivial ha }
  recorded := by
    have hmembers : (bootView k).members = fun _ => [] := by
      funext x
      cases x <;> rfl
    rw [h.lists, hmembers]
    exact .new

theorem Booted.state (h : Booted k) (t : Word) :
    (k.tcbs t).state = .running ∧ k.currentTcb = some t ∨ (k.tcbs t).state = .runnable := by
  obtain ⟨c, hc, -, hs⟩ := h.current
  by_cases ht : k.currentTcb = some t
  · cases hc.symm.trans ht
    exact .inl ⟨hs, hc⟩
  · exact .inr (h.others t ht)

theorem Booted.consistent (h : Booted k) : (bootView k).Consistent where
  queued :=
    { run_nodup := List.nodup_nil
      run_state := nofun
      wait_nodup := fun _ => List.nodup_nil
      wait_unique := nofun
      linked := fun _ => nofun
      notification := fun _ => nofun
      receiving := fun t hs => by
        rcases h.state t with ⟨hs', -⟩ | hs' <;> cases hs'.symm.trans hs
      flagged := fun t => by
        refine View.flagged_of_state ?_
        change (k.tcbs t).state ≠ .sending ∧ (k.tcbs t).state ≠ .calling
        rcases h.state t with ⟨hs, -⟩ | hs <;> rw [hs] <;> exact ⟨nofun, nofun⟩
      running := fun t hs => by
        rcases h.state t with ⟨-, hc⟩ | hs'
        · exact hc
        · cases hs'.symm.trans hs }
  returns := by
    obtain ⟨c, hc, hr, hs⟩ := h.current
    refine ⟨hr.trans hc.symm, fun t ht => .inl ?_, fun _ _ _ => nofun⟩
    cases hc.symm.trans ht
    exact hs

/-- The thread is linked, through `send_receive_node`, in this queue. -/
def InQueue (k : Kernel) (q : Queue) (t : Word) : Prop :=
  Relation.TransGen k.nodes.Step q.head (.sendReceive t)

/-- The thread is linked in `runnable_tcbs`. -/
def InRunQueue (k : Kernel) (t : Word) : Prop :=
  Relation.TransGen k.nodes.Step .runnableTcbs (.run t)

theorem Represents.inQueue_iff (h : Represents k v) (q : Queue) :
    InQueue k q t ↔ t ∈ v.waiting q := by
  have hm := h.rings.mem_iff_reach q.isHead (show ¬ (Node.sendReceive t).IsHead from id)
  rw [View.members_head, List.mem_map_of_injective View.sendReceive_injective] at hm
  exact hm.symm

theorem Represents.inRunQueue_iff (h : Represents k v) : InRunQueue k t ↔ t ∈ v.runQueue := by
  have hm := h.rings.mem_iff_reach (show Node.runnableTcbs.IsHead from trivial)
    (show ¬ (Node.run t).IsHead from id)
  exact hm.symm.trans (List.mem_map_of_injective View.run_injective)

theorem Represents.unlinked_iff (h : Represents k v) : (∀ q, ¬ InQueue k q t) ↔ v.Unlinked t :=
  forall_congr' fun q => not_congr (h.inQueue_iff q)

/-- At boot no list holds anything. -/
theorem Booted.free (h : Booted k) (t : Word) : ¬ InRunQueue k t ∧ ∀ q, ¬ InQueue k q t :=
  ⟨fun hr => List.not_mem_nil (h.represents.inRunQueue_iff.mp hr),
    fun q hq => List.not_mem_nil ((h.represents.inQueue_iff q).mp hq)⟩

/-- The entry resumes a thread only if it does not run and is on no list, and
replies only to a caller whose message has been taken off the endpoint's queue. -/
structure ListSafe (k : Kernel) (e : Entry) : Prop where
  resume : ∀ u, e.Makes k (.resume u) →
    k.currentTcb ≠ some u ∧ ¬ InRunQueue k u ∧ ∀ q, ¬ InQueue k q u
  reply : ∀ t c, e.Makes k (.reply t c) → k.currentTcb = some t →
    (k.tcbs t).replyTo = some c → (k.tcbs c).state = .calling → ∀ q, ¬ InQueue k q c

/-- Besides, the entry invokes no method that may write to the lists as to something else. -/
structure QueueingSafe (k : Kernel) (e : Entry) : Prop extends ListSafe k e where
  confined : e.Confined k

/-- The first call after boot may resume any other thread. -/
theorem Booted.resume_safe (h : Booted k) {f : Frame} {slot : Word}
    (hnumber : f.number = some .call) (hcurrent : k.currentTcb = some t)
    (hslot : lookupCapSlot k.slots (cspaceRootOf t) f.rdi 64#64 = .ok (.ok slot))
    (hne : t ≠ capPtr (k.slots slot).cap) : ListSafe k (.syscall f) := by
  refine ⟨?_, ?_⟩
  · rintro u ⟨slot', ⟨-, t', ht, hlookup⟩, -, -, rfl⟩
    cases hcurrent.symm.trans ht
    cases hslot.symm.trans hlookup
    exact ⟨fun he => hne (Option.some.inj (hcurrent.symm.trans he)), h.free _⟩
  · rintro t c (hn | ⟨slot, ⟨hn, -⟩, -⟩) <;> cases hnumber.symm.trans hn

/-- Whom an entry replies to. -/
theorem Act.replied {c : Word} {w : View} (ha : Act v (.reply t c) w) :
    v.current = some t ∧ v.replyTo t = some c ∧ v.state c = .calling := by
  cases ha with
  | replies hc hto hs => exact ⟨hc, hto, hs⟩
  | repliesAndReceives hc hto hs => exact ⟨hc, hto, hs⟩

/-- The condition on the kernel's lists is the one on the lists of the view. -/
theorem ListSafe.safe (h : Represents k v) {e : Entry} (hs : ListSafe k e) {m : Move} {w : View}
    (hm : e.Makes k m) (ha : Act v m w) : m.Safe v := by
  cases m with
  | plain => trivial
  | killedWait t => trivial
  | suspend u => trivial
  | resume u =>
    obtain ⟨hc, hrun, hlink⟩ := hs.resume u hm
    exact ⟨h.current ▸ hc, fun hmem => hrun (h.inRunQueue_iff.mpr hmem), h.unlinked_iff.mp hlink⟩
  | reply t c =>
    obtain ⟨hc, hto, hstate⟩ := ha.replied
    refine h.unlinked_iff.mp (hs.reply t c hm (h.current.trans hc) ?_ ?_)
    · exact (h.replyTo t).trans hto
    · exact (h.state c).trans hstate

/-- In every run whose entries are safe the lists stay consistent, and so does
whatever else acts and leaves preserve. -/
theorem reachedBy_consistent {ok : Kernel → Entry → Prop} {J : View → Prop}
    (hsafe : ∀ k e v m w, Represents k v → v.Consistent → J v → ok k e → e.Makes k m →
      Act v m w → m.Safe v)
    (hstart : ∀ k, Booted k → J (bootView k))
    (hstep : ∀ k e v m w v', Represents k v → v.Consistent → J v → ok k e → e.Makes k m →
      Act v m w → w.Ready → w.Leaves v' → J v')
    (hk : (kernelSystem P).ReachedBy ok k) : ∃ v, Represents k v ∧ v.Consistent ∧ J v := by
  refine hk.invariant (I := fun k => ∃ v, Represents k v ∧ v.Consistent ∧ J v) ?_ ?_
  · intro k (h : Booted k)
    exact ⟨_, h.represents, h.consistent, hstart k h⟩
  · rintro k e k' ⟨v, h, hv, hJ⟩ hok ⟨hs, hretype⟩
    have hsafe' := fun m w => hsafe k e v m w h hv hJ hok
    obtain ⟨m, w, v', hm, hact, hl, h'⟩ := hs.acts h hv hretype hsafe'
    have hready := hact.ready hv (hsafe' m w hm hact)
    exact ⟨v', h', hl.consistent hready, hstep k e v m w v' h hv hJ hok hm hact hready hl⟩

end Tern
