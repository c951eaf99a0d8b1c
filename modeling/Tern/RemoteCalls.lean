import Tern.Completion
import Tern.Rendezvous

/-! Remote calls: a thread calls a server that waits on an endpoint, and the server answers with
`reply_recv`. Both entries are followed state by state; what lies between them is the code of the
server. -/

namespace Tern

open Lib

variable {P : Platform} {fuel : Nat} {k k' k₁ : Kernel} {v : View} {c s e cb sb badge slot : Word}
  {f g : Frame} {tag : MessageTag}

/-! ## Words from one thread to another -/

/-- What a message without capabilities leaves, when its receiver does not run. -/
structure Messaged (k k' : Kernel) (s r badge sb rb : Word) (tag : MessageTag) : Prop where
  slots : k'.slots = k.slots
  notifications : k'.notifications = k.notifications
  buffers : k'.buffers = messageBuffers k.buffers sb rb badge tag.length.toNat
  current : k'.currentTcb = k.currentTcb
  returnTo : k'.returnToTcb = k.returnToTcb
  receiver : k'.tcbs r = { k.tcbs r with
    replyTo := if (k.tcbs s).expectsReply then some s else (k.tcbs r).replyTo
    savedState := { (k.tcbs r).savedState with rax := tag.toWord } }
  others : ∀ x, x ≠ r → k'.tcbs x = k.tcbs x

/-- Without words it does not matter where they are read from. -/
theorem messageBuffers_zero (buffers : Word → IpcBuffer) (sb sb' rb badge : Word) :
    messageBuffers buffers sb rb badge 0 = messageBuffers buffers sb' rb badge 0 := by
  have hcopy : ∀ src dst : IpcBuffer, copyMessage src dst 0 = dst := fun _ _ => rfl
  simp only [messageBuffers, hcopy]

theorem exchange_words {r rb : Word} (hs : (k.tcbs s).ipcBuffer = some sb)
    (hr : (k.tcbs r).ipcBuffer = some rb) (badge : Word) (htag : tag.extraCaps = 0) :
    exchange k s r badge tag =
      .ok (tag, k.slots, messageBuffers k.buffers sb rb badge tag.length.toNat) := by
  have hgrant : ∀ (buffers : Word → IpcBuffer) (x : Word),
      grantCap k.slots buffers s r x rb tag = .ok (tag, k.slots) := fun buffers x => by
    simp only [grantCap, transferCap, htag, if_true]
    rfl
  by_cases hempty : tag.length = 0 ∧ tag.extraCaps = 0
  · have hzero : tag.length.toNat = 0 := by rw [hempty.1]; rfl
    simp only [exchange, hr, senderBuffer, if_pos hempty, deref, hgrant, hzero, bind, Except.bind,
      pure, Except.pure]
    rw [messageBuffers_zero k.buffers 0#64 sb]
  · simp only [exchange, hr, senderBuffer, if_neg hempty, hs, deref, hgrant, bind, Except.bind,
      pure, Except.pure]

theorem transferMessage_words {r rb : Word} (haway : k.currentTcb ≠ some r)
    (hs : (k.tcbs s).ipcBuffer = some sb) (hr : (k.tcbs r).ipcBuffer = some rb) (badge : Word)
    (htag : tag.extraCaps = 0) : ∃ k', transferMessage k s r badge tag = .ok (tag, k') ∧
      Messaged k k' s r badge sb rb tag := by
  obtain ⟨x, hx⟩ : ∃ x : MessageTag × Slots × (Word → IpcBuffer),
    x = (tag, k.slots, messageBuffers k.buffers sb rb badge tag.length.toNat) := ⟨_, rfl⟩
  obtain ⟨k₁, hk₁⟩ : ∃ k₁, k₁ = setReplyTo (k.exchanged x) s r := ⟨_, rfl⟩
  obtain ⟨hcurrent, hreturn, -, hslots, hbuffers⟩ := setReplyTo_rest (k.exchanged x) s r
  have hself := setReplyTo_self (k.exchanged x) s r
  have hother : ∀ y, y ≠ r → k₁.tcbs y = k.tcbs y := fun y hy => hk₁ ▸ setReplyTo_ne _ hy
  have hnotes : k₁.notifications = k.notifications := by
    rw [hk₁, setReplyTo]
    split <;> rfl
  rw [← hk₁] at hcurrent hreturn hslots hbuffers hself
  have hset := setIpcResult_saved (k := k₁) (t := r) (by rw [hcurrent]; exact haway) tag
  refine ⟨k₁.modifyTcb r fun c =>
    { c with savedState := { (k₁.tcbs r).savedState with rax := tag.toWord } }, ?_, ?_⟩
  · rw [transferMessage_eq, exchange_words hs hr badge htag, ← hx]
    have htag' : x.1 = tag := by rw [hx]
    simp only [bind, Except.bind, htag', ← hk₁, hset]
  · refine ⟨?_, hnotes, ?_, hcurrent, hreturn, ?_, fun y hy => ?_⟩
    · exact hslots.trans (by rw [hx]; rfl)
    · exact hbuffers.trans (by rw [hx]; rfl)
    · rw [Kernel.modifyTcb_tcbs, if_pos rfl, hself]
      rfl
    · rw [Kernel.modifyTcb_tcbs, if_neg hy, hother y hy]

/-! ## The call -/

/-- The server `s` is the first of those that wait on the endpoint `e`, all to receive. -/
structure Serves (k : Kernel) (v : View) (s e : Word) : Prop where
  represents : Represents k v
  consistent : v.Consistent
  first : ∃ l, v.waiting (.endpoint e) = s :: l
  receiving : ∀ t ∈ v.waiting (.endpoint e), v.state t = .receiving
  quiet : NothingPending k s

/-- The kernel leaves a thread that has stopped running for another one. -/
theorem Represents.leave_stopped {t : Word} (h : Represents k v) (dm : DirectMap)
    (hrun : ∀ x ∈ v.runQueue, v.state x ≠ .running) (hcurrent : k.currentTcb = some c)
    (hreturn : k.returnToTcb = some t) (hne : c ≠ t) (hstopped : (k.tcbs c).state ≠ .running)
    (halive : (k.tcbs c).state ≠ .dead) (hframe : (k.tcbs c).currentUserFrame = some f)
    (hs : (k.tcbs t).state = .runnable) :
    ∃ k', Tern.returnFromKernelCode dm k = .ok k' ∧ Left k k' c t f ∧
      Represents k' { v.setState t .running with current := some t } := by
  obtain ⟨k', hk', hleft, -⟩ := h.leave dm hcurrent hreturn hne halive hframe hs
  obtain ⟨v', hleaves, hrep⟩ := h.returnFromKernelCode hrun hk'
  have hret := h.returnTo.symm.trans hreturn
  have hc := h.current.symm.trans hcurrent
  refine ⟨k', hk', hleft, ?_⟩
  cases hleaves with
  | stays he => exact absurd (Option.some.inj (hc.symm.trans (he.symm.trans hret))) hne
  | switches _ hc' _ hs' =>
    cases hc.symm.trans hc'
    exact absurd ((h.state c).trans hs') hstopped
  | leavesBehind hr =>
    cases hret.symm.trans hr
    exact hrep
  | idles hr => cases hret.symm.trans hr

/-- The call has reached the server, which the kernel will go on with. -/
def View.reached (v : View) (c s e : Word) : View :=
  { v with
    state := Function.update (Function.update v.state c .calling) s .runnable
    expectsReply := Function.update v.expectsReply c true
    replyTo := Function.update v.replyTo s (some c)
    waiting := (v.dequeue (.endpoint e) s).waiting
    returnTo := some s
    history := .madeRunnable s :: .received c s true :: .called c :: v.history }

theorem View.reached_eq (v : View) (c s e : Word) :
    ((((v.prepared c true).dequeue (.endpoint e) s).noted
      (.received c s ((v.prepared c true).expectsReply c))).transfer c s).switchTo s =
        v.reached c s e := by
  have hexpects : (v.prepared c true).expectsReply c = true := Function.update_self ..
  rw [hexpects, View.transfer, if_pos (by exact hexpects)]
  rfl

/-- The server runs. -/
def View.called (v : View) (c s e : Word) : View :=
  { (v.reached c s e).setState s .running with current := some s }

/-- The server runs with the message of its caller, which is blocked. -/
structure Called (k k' : Kernel) (v : View) (c s e cb sb badge : Word) (f : Frame) : Prop where
  represents : Represents k' (v.called c s e)
  slots : k'.slots = k.slots
  notifications : k'.notifications = k.notifications
  buffers : k'.buffers = messageBuffers k.buffers cb sb badge f.tag.length.toNat
  caller : k'.tcbs c = { k.tcbs c with
    expectsReply := true
    state := .calling
    currentUserFrame := some f
    savedState := f }
  server : k'.tcbs s = { k.tcbs s with
    state := .running
    replyTo := some c
    savedState := ensureFrameValidForUsermode
      { (k.tcbs s).savedState with rax := f.tag.toWord } }
  others : ∀ x, x ≠ c → x ≠ s → k'.tcbs x = k.tcbs x

/-- A call finds the server: it runs at once, with the words, the badge and the tag. -/
theorem Serves.call_enters (h : Serves k v s e) (P : Platform) (fuel : Nat)
    (hc : k.currentTcb = some c)
    (hcb : (k.tcbs c).ipcBuffer = some cb) (hsb : (k.tcbs s).ipcBuffer = some sb)
    (hf : OnObject k.slots .endpoint c f .call slot e) (htag : f.tag.extraCaps = 0) :
    ∃ k', syscallEntry P fuel k f = .ok k' ∧
      Called k k' v c s e cb sb (k.slots slot).cap.badge f := by
  obtain ⟨l, hwait⟩ := h.first
  have hv := h.consistent
  have hmem : s ∈ v.waiting (.endpoint e) := hwait ▸ List.mem_cons_self
  have hvc : v.current = some c := h.represents.current.symm.trans hc
  have hne : c ≠ s := fun he => hv.linked_ne hmem (he ▸ hvc)
  obtain ⟨hrunc, hlink, -⟩ := hv.current_free hvc
  have hop := @opSyscallOn_send (k.withFrame c f) c P fuel slot f.tag true hc hf.type
  rw [if_pos rfl] at hop
  rw [syscallEntry_on P fuel hf.user hf.number hc hf.found rfl, hop, finish_noreturn,
    show capPtr ((k.withFrame c f).slots slot).cap = e from hf.object,
    show ((k.withFrame c f).slots slot).cap.badge = (k.slots slot).cap.badge from rfl]
  obtain ⟨k₀, hk₀⟩ : ∃ k₀, k₀ = (k.withFrame c f).prepared c true := ⟨_, rfl⟩
  have hrep₀ : Represents k₀ (v.prepared c true) :=
    hk₀ ▸ (h.represents.withFrame c f).prepared c true
  have hself₀ : k₀.tcbs c = { k.tcbs c with
      expectsReply := true, state := .calling, currentUserFrame := some f } := by
    rw [hk₀, Kernel.prepared_self, Kernel.withFrame_self]
    rfl
  have hother₀ : ∀ x, x ≠ c → k₀.tcbs x = k.tcbs x := by
    intro x hx
    rw [hk₀, Kernel.prepared_ne _ _ hx, Kernel.withFrame_ne _ _ hx]
  have hbase₀ : SameBase k k₀ := by
    rw [hk₀]
    exact ⟨rfl, rfl, rfl, rfl⟩
  have hcurrent₀ : k₀.currentTcb = some c := by
    rw [hk₀]
    exact hc
  have hwait₀ : (v.prepared c true).waiting (.endpoint e) = s :: l := hwait
  have hstate₀ : (k₀.tcbs s).state = .receiving := by
    rw [hother₀ s hne.symm, h.represents.state, h.receiving s hmem]
  obtain ⟨k₁, w, hrep₁, hbase₁, htcbs₁, hcurrent₁, hsend⟩ := endpointSend_wakes hrep₀ hcurrent₀
    hwait₀ hstate₀ (k.slots slot).cap.badge f.tag true
  have hc₁ : k₁.currentTcb = some c := hcurrent₁.trans hcurrent₀
  have hcb₁ : (k₁.tcbs c).ipcBuffer = some cb := by rw [htcbs₁, hself₀]; exact hcb
  have hsb₁ : (k₁.tcbs s).ipcBuffer = some sb := by rw [htcbs₁, hother₀ s hne.symm]; exact hsb
  have haway : k₁.currentTcb ≠ some s := fun he => hne (Option.some.inj (hc₁.symm.trans he))
  obtain ⟨k₂, htransfer, hmsg⟩ :=
    transferMessage_words haway hcb₁ hsb₁ (k.slots slot).cap.badge htag
  have hsent : endpointSend k₀ e (k.slots slot).cap.badge f.tag true = .ok (switchTcb k₂ s) := by
    rw [hsend, sendMessageDirectly_eq hc₁ _ _ (by rw [hcb₁]; rfl) (by rw [hsb₁]; rfl), htransfer]
    rfl
  have hrep₂ : Represents (switchTcb k₂ s) (v.reached c s e) := by
    obtain ⟨v', hsends, hrep⟩ := hrep₀.endpointSend hvc hlink hsent
    cases hsends with
    | blocks hfirst =>
      have hs : (v.prepared c true).state s = .receiving := by rw [← hrep₀.state, hstate₀]
      rcases hfirst s l hwait₀ with he | he <;> cases hs.symm.trans he
    | wakes hw =>
      cases hwait₀.symm.trans hw
      rw [View.reached_eq] at hrep
      exact hrep
  have hs₂ : (switchTcb k₂ s).tcbs s = { k₂.tcbs s with state := .runnable } := by
    simp [switchTcb, Kernel.noted, Kernel.setState, Kernel.modifyTcb]
  have hother₂ : ∀ x, x ≠ s → (switchTcb k₂ s).tcbs x = k₀.tcbs x := by
    intro x hx
    rw [← htcbs₁, ← hmsg.others x hx]
    simp [switchTcb, Kernel.noted, Kernel.setState, Kernel.modifyTcb, hx]
  have hc₂ : (switchTcb k₂ s).tcbs c = k₀.tcbs c := hother₂ c hne
  have hstopped : ((switchTcb k₂ s).tcbs c).state = .calling := by rw [hc₂, hself₀]
  have hqueue : ∀ x ∈ v.runQueue, (v.reached c s e).state x ≠ .running := by
    intro x hx
    have hxc : x ≠ c := fun he => hrunc (he ▸ hx)
    show Function.update (Function.update v.state c .calling) s .runnable x ≠ .running
    rw [Function.update_apply]
    split
    · decide
    · rw [Function.update_of_ne hxc, hv.queued.run_state x hx]
      decide
  obtain ⟨k₃, hk₃, hleft, hrep₃⟩ := hrep₂.leave_stopped (f := f) P.dm hqueue
    (hmsg.current.trans hc₁) rfl hne (by rw [hstopped]; decide) (by rw [hstopped]; decide)
    (by rw [hc₂, hself₀]) (by rw [hs₂])
  have hbase₂ := hbase₀.trans hbase₁
  refine ⟨k₃, ?_, hrep₃, ?_, ?_, ?_, ?_, ?_, fun x hxc hxs => ?_⟩
  · rw [← hk₀, hsent]
    exact hk₃
  · rw [hleft.slots]
    exact hmsg.slots.trans hbase₂.slots
  · rw [hleft.notifications]
    exact hmsg.notifications.trans hbase₂.notifications
  · rw [hleft.buffers]
    exact hmsg.buffers.trans (by rw [hbase₂.buffers])
  · rw [hleft.old, hc₂, hself₀]
    rfl
  · have hexpects : (k₁.tcbs c).expectsReply = true := by rw [htcbs₁, hself₀]
    rw [hleft.new, hs₂, hmsg.receiver, if_pos hexpects, htcbs₁, hother₀ s hne.symm]
  · rw [hleft.others x hxc hxs, hother₂ x hxs, hother₀ x hxc]

/-! ## The answer -/

/-- The server `s` runs and owes an answer to `c`; whoever waits on the endpoint receives. -/
structure Owes (k : Kernel) (v : View) (s c e : Word) : Prop where
  represents : Represents k v
  current : v.current = some s
  replyTo : v.replyTo s = some c
  calling : v.state c = .calling
  running : v.state s = .running
  unlinked : v.Unlinked s
  run : ∀ t ∈ v.runQueue, v.state t = .runnable
  receiving : ∀ t ∈ v.waiting (.endpoint e), v.state t = .receiving
  quiet : NothingPending k s

/-- The caller runs with the answer, and the server waits again. -/
structure Answered (k k' : Kernel) (v : View) (s c e sb cb : Word) (g : Frame) : Prop where
  lists : ∃ v', Represents k' v' ∧ v'.waiting = (v.enqueue (.endpoint e) s).waiting ∧
    v'.runQueue = v.runQueue
  current : k'.currentTcb = some c
  returnTo : k'.returnToTcb = some c
  slots : k'.slots = k.slots
  notifications : k'.notifications = k.notifications
  buffers : k'.buffers = messageBuffers k.buffers sb cb 0#64 g.tag.length.toNat
  server : k'.tcbs s = { k.tcbs s with
    state := .receiving
    currentUserFrame := some g
    savedState := g }
  caller : k'.tcbs c = { k.tcbs c with
    state := .running
    replyTo := if (k.tcbs s).expectsReply then some s else (k.tcbs c).replyTo
    savedState := ensureFrameValidForUsermode
      { (k.tcbs c).savedState with rax := g.tag.toWord } }
  others : ∀ x, x ≠ c → x ≠ s → k'.tcbs x = k.tcbs x

theorem invokeEndpointRecv_quiet (hs : k.currentTcb = some s)
    (htype : (k.slots slot).cap.type = .endpoint) (hquiet : NothingPending k s) :
    invokeEndpointRecv k slot = endpointRecv k (capPtr (k.slots slot).cap) := by
  have hop : opSyscallOn examplePlatform 0 k slot msgOk (some .recv) = _ :=
    opSyscallOn_recv examplePlatform 0 hs htype hquiet
  simpa [opSyscallOn, htype] using hop

/-- A receive with only receivers before it blocks. -/
theorem Represents.endpointRecv_blocks (h : Represents k v) (hs : k.currentTcb = some s)
    (hlink : v.Unlinked s) (hreceiving : ∀ t ∈ v.waiting (.endpoint e), v.state t = .receiving) :
    ∃ nodes, Represents ((k.withNodes nodes).setState s .receiving)
        ((v.enqueue (.endpoint e) s).setState s .receiving) ∧
      Tern.endpointRecv k e =
        (Tern.schedule ((k.withNodes nodes).setState s .receiving) >>= fun k =>
          .ok (.noreturn, k)) := by
  obtain ⟨nodes, happend, hrep⟩ := h.append_waiting (.endpoint e) hlink
  have happend' : appendToList k.nodes (.sendReceive s) (.endpoint e) = .ok nodes := happend
  have hblock : Tern.recvWillBlock k e = .ok true := by
    obtain ⟨b, hb⟩ : ∃ b, Tern.recvWillBlock k e = .ok b := h.blocks_ok e _
    rcases h.recvWillBlock hb with ⟨rfl, -⟩ | ⟨-, t, l, hl, ht⟩
    · exact hb
    · exact absurd (hreceiving t (hl ▸ List.mem_cons_self)) ht
  refine ⟨nodes, hrep.setState s .receiving, ?_⟩
  simp only [Tern.endpointRecv, hblock, if_true, Tern.queueReceiverOnEndpoint, thisTcb, hs, deref,
    happend', bind, Except.bind]
  rfl

/-- The lists once the answer is made, its maker still running. -/
def View.replied (v : View) (s c : Word) (expects : Bool) : View :=
  ((v.noted (.replied s c expects)).transfer s c).makeRunnable c

theorem View.replied_lists (v : View) (s c : Word) (expects : Bool) :
    (v.replied s c expects).runQueue = c :: v.runQueue ∧
      (v.replied s c expects).waiting = v.waiting ∧
      (v.replied s c expects).state = Function.update v.state c .runnable := by
  unfold View.replied View.transfer
  split <;> exact ⟨rfl, rfl, rfl⟩

/-- The caller is the first of the run queue, with the answer. -/
structure Replied (k k' : Kernel) (v : View) (s c sb cb : Word) (g : Frame) : Prop where
  represents : Represents k' (v.replied s c (k.tcbs s).expectsReply)
  current : k'.currentTcb = some s
  slots : k'.slots = k.slots
  notifications : k'.notifications = k.notifications
  buffers : k'.buffers = messageBuffers k.buffers sb cb 0#64 g.tag.length.toNat
  server : k'.tcbs s = { k.tcbs s with currentUserFrame := some g }
  caller : k'.tcbs c = { k.tcbs c with
    state := .runnable
    replyTo := if (k.tcbs s).expectsReply then some s else (k.tcbs c).replyTo
    savedState := { (k.tcbs c).savedState with rax := g.tag.toWord } }
  others : ∀ x, x ≠ c → x ≠ s → k'.tcbs x = k.tcbs x

theorem Owes.ne (h : Owes k v s c e) : s ≠ c := by
  rintro rfl
  cases h.running.symm.trans h.calling

/-- The first half of `reply_recv`. -/
theorem Owes.replies (h : Owes k v s c e) (hcb : (k.tcbs c).ipcBuffer = some cb)
    (hsb : (k.tcbs s).ipcBuffer = some sb) (htag : g.tag.extraCaps = 0) :
    ∃ k', invokeReply (k.withFrame s g) g.tag = .ok k' ∧ Replied k k' v s c sb cb g := by
  have hs : k.currentTcb = some s := h.represents.current.trans h.current
  have hne := h.ne
  have hrunc : c ∉ v.runQueue := fun hm => by cases (h.run c hm).symm.trans h.calling
  obtain ⟨kf, hkf⟩ : ∃ kf, kf = (k.withFrame s g).noted (.replied s c (k.tcbs s).expectsReply) :=
    ⟨_, rfl⟩
  have hrepf : Represents kf (v.noted (.replied s c (k.tcbs s).expectsReply)) :=
    hkf ▸ (h.represents.withFrame s g).noted _
  have hselff : kf.tcbs s = { k.tcbs s with currentUserFrame := some g } := by
    rw [hkf]
    exact Kernel.withFrame_self k s g
  have hotherf : ∀ x, x ≠ s → kf.tcbs x = k.tcbs x := by
    intro x hx
    rw [hkf]
    exact Kernel.withFrame_ne k g hx
  have hcf : kf.currentTcb = some s := by rw [hkf]; exact hs
  have hsbf : (kf.tcbs s).ipcBuffer = some sb := by rw [hselff]; exact hsb
  have hcbf : (kf.tcbs c).ipcBuffer = some cb := by rw [hotherf c hne.symm]; exact hcb
  have haway : kf.currentTcb ≠ some c := fun he => hne (Option.some.inj (hcf.symm.trans he))
  obtain ⟨k₁, htransfer, hmsg⟩ := transferMessage_words haway hsbf hcbf 0#64 htag
  have hrep₁ := hrepf.transferMessage htransfer
  have hc₁ : k₁.tcbs c = { k.tcbs c with
      replyTo := if (k.tcbs s).expectsReply then some s else (k.tcbs c).replyTo
      savedState := { (k.tcbs c).savedState with rax := g.tag.toWord } } := by
    rw [hmsg.receiver, hselff, hotherf c hne.symm]
  have halive : (k₁.tcbs c).state ≠ .dead := by
    rw [hc₁]
    show (k.tcbs c).state ≠ .dead
    rw [h.represents.state, h.calling]
    decide
  obtain ⟨nodes, hsched⟩ := hrep₁.scheduleTcb_ok halive
  obtain ⟨k₂, hk₂⟩ : ∃ k₂, k₂ =
    ((k₁.setState c .runnable).withNodes nodes).noted (.madeRunnable c) := ⟨_, rfl⟩
  rw [← hk₂] at hsched
  have hrun : c ∉ ((v.noted (.replied s c (k.tcbs s).expectsReply)).transfer s c).runQueue := by
    unfold View.transfer
    split <;> exact hrunc
  refine ⟨k₂, ?_, hrep₁.scheduleTcb hrun hsched, ?_, ?_, ?_, ?_, ?_, ?_, fun x hxc hxs => ?_⟩
  · have hs' : (k.withFrame s g).currentTcb = some s := hs
    have hto : ((k.withFrame s g).tcbs s).replyTo = some c := by
      rw [Kernel.withFrame_self]
      exact (h.represents.replyTo s).trans h.replyTo
    have hcalling : ((k.withFrame s g).tcbs c).state = .calling := by
      rw [Kernel.withFrame_ne k g hne.symm, h.represents.state, h.calling]
    have hexpects : ((k.withFrame s g).tcbs s).expectsReply = (k.tcbs s).expectsReply := by
      rw [Kernel.withFrame_self]
    have hsome : (kf.tcbs c).ipcBuffer.isSome = true ∧ (kf.tcbs s).ipcBuffer.isSome = true := by
      rw [hcbf, hsbf]
      exact ⟨rfl, rfl⟩
    simp only [invokeReply, thisTcb, hs', deref, hto, hcalling, hexpects, ne_eq, not_true_eq_false,
      if_false, bind, Except.bind]
    rw [← hkf]
    simp only [sendMessageDirectly, hsome, thisTcb, hcf, deref, assert, if_true, htransfer,
      Bool.false_eq_true, if_false, hsched, bind, Except.bind]
  · rw [hk₂]
    exact hmsg.current.trans hcf
  · rw [hk₂]
    exact hmsg.slots.trans (by rw [hkf]; rfl)
  · rw [hk₂]
    exact hmsg.notifications.trans (by rw [hkf]; rfl)
  · rw [hk₂]
    exact hmsg.buffers.trans (by rw [hkf]; rfl)
  · rw [← hselff, ← hmsg.others s hne, hk₂]
    simp [Kernel.setState, Kernel.withNodes, Kernel.noted, Kernel.modifyTcb, hne]
  · rw [hk₂]
    simp [Kernel.setState, Kernel.withNodes, Kernel.noted, Kernel.modifyTcb, hc₁]
  · rw [← hotherf x hxs, ← hmsg.others x hxc, hk₂]
    simp [Kernel.setState, Kernel.withNodes, Kernel.noted, Kernel.modifyTcb, hxc]

/-- An answer finds its caller: it runs at once, and the server waits again. -/
theorem Owes.answers (h : Owes k v s c e) (P : Platform) (fuel : Nat)
    (hcb : (k.tcbs c).ipcBuffer = some cb)
    (hsb : (k.tcbs s).ipcBuffer = some sb)
    (hg : OnObject k.slots .endpoint s g .replyrecv slot e) (htag : g.tag.extraCaps = 0) :
    ∃ k', syscallEntry P fuel k g = .ok k' ∧ Answered k k' v s c e sb cb g := by
  have hs : k.currentTcb = some s := h.represents.current.trans h.current
  have hne := h.ne
  obtain ⟨k₂, hreply, hr⟩ := h.replies hcb hsb htag
  obtain ⟨hrunq, hwaiting, hstates⟩ := v.replied_lists s c (k.tcbs s).expectsReply
  have hquiet : NothingPending k₂ s := by
    intro n hn
    rw [hr.server] at hn
    rw [hr.notifications]
    exact h.quiet n hn
  have hreceiving : ∀ t ∈ (v.replied s c (k.tcbs s).expectsReply).waiting (.endpoint e),
      (v.replied s c (k.tcbs s).expectsReply).state t = .receiving := by
    intro t ht
    have hst := h.receiving t (hwaiting ▸ ht)
    have htc : t ≠ c := fun he => by cases (he ▸ hst).symm.trans h.calling
    rw [hstates, Function.update_of_ne htc, hst]
  have hlink : (v.replied s c (k.tcbs s).expectsReply).Unlinked s :=
    fun q hm => h.unlinked q (hwaiting ▸ hm)
  obtain ⟨nodes, hrep, hrecv⟩ := hr.represents.endpointRecv_blocks hr.current hlink hreceiving
  obtain ⟨k₃, hk₃⟩ : ∃ k₃, k₃ = (k₂.withNodes nodes).setState s .receiving := ⟨_, rfl⟩
  rw [← hk₃] at hrep hrecv
  have hself : k₃.tcbs s = { k.tcbs s with state := .receiving, currentUserFrame := some g } := by
    rw [hk₃]
    simp [Kernel.setState, Kernel.withNodes, Kernel.modifyTcb, hr.server]
  have hother : ∀ x, x ≠ s → k₃.tcbs x = k₂.tcbs x := by
    intro x hx
    rw [hk₃]
    simp [Kernel.setState, Kernel.withNodes, Kernel.modifyTcb, hx]
  have hrun : ∀ t ∈ (((v.replied s c (k.tcbs s).expectsReply).enqueue (.endpoint e) s).setState s
      .receiving).runQueue, (((v.replied s c (k.tcbs s).expectsReply).enqueue
        (.endpoint e) s).setState s .receiving).state t = .runnable := by
    intro t ht
    have ht' : t ∈ c :: v.runQueue := hrunq ▸ ht
    have hts : t ≠ s := by
      rintro rfl
      rcases List.mem_cons.mp ht' with he | hm
      · exact hne he
      · cases (h.run t hm).symm.trans h.running
    simp only [View.setState_state, View.enqueue_state, Function.update_of_ne hts, hstates,
      Function.update_apply]
    split
    · rfl
    · next htc => exact h.run t ((List.mem_cons.mp ht').resolve_left htc)
  have hwaits : (k₃.tcbs s).state = .receiving := by rw [hself]
  obtain ⟨k', v', hk', hleft, hrep', hwait', hq', -⟩ := hrep.block hrun P.dm (f := g) (t := c)
    (l := v.runQueue) (by rw [hk₃]; exact hr.current) hrunq hne (by rw [hwaits]; decide)
    (by rw [hwaits]; decide) (by rw [hself])
  refine ⟨k', ?_, ⟨v', hrep', ?_, hq'⟩, hleft.current, hleft.returnTo, ?_, ?_, ?_, ?_, ?_,
    fun x hxc hxs => ?_⟩
  · have hrecv' : invokeEndpointRecv k₂ slot =
        (schedule k₃ >>= fun k => .ok (.noreturn, k)) := by
      rw [invokeEndpointRecv_quiet hr.current (by rw [hr.slots]; exact hg.type) hquiet, hr.slots,
        hg.object, hrecv]
    have hop : opSyscallOn P fuel (k.withFrame s g) slot g.tag (some .replyrecv) =
        (schedule k₃ >>= fun k => .ok (.noreturn, k)) := by
      have htype : ((k.withFrame s g).slots slot).cap.type = .endpoint := hg.type
      simp only [opSyscallOn, htype, ne_eq, not_true_eq_false, if_false, invokeReplyRecv, hreply,
        bind, Except.bind]
      exact hrecv'
    rw [syscallEntry_on P fuel hg.user hg.number hs hg.found rfl, hop, finish_noreturn, hk']
  · rw [hwait']
    show Function.update (v.replied s c (k.tcbs s).expectsReply).waiting (.endpoint e) _ = _
    rw [hwaiting]
    rfl
  · rw [hleft.slots, hk₃]
    exact hr.slots
  · rw [hleft.notifications, hk₃]
    exact hr.notifications
  · rw [hleft.buffers, hk₃]
    exact hr.buffers
  · rw [hleft.old, hwaits, hself]
    rfl
  · rw [hleft.new, hother c hne.symm, hr.caller]
  · rw [hleft.others x hxs hxc, hother x hxs, hr.others x hxc hxs]

/-! ## There and back -/

/-- What the server's own code leaves as it is: it may write to its buffer, and call on other
objects. -/
structure OwnWork (k k' : Kernel) (s cb : Word) : Prop where
  view : SameView k k'
  self : k'.tcbs s = { k.tcbs s with currentUserFrame := (k'.tcbs s).currentUserFrame }
  others : ∀ x, x ≠ s → k'.tcbs x = k.tcbs x
  quiet : NothingPending k s → NothingPending k' s
  buffer : k'.buffers cb = k.buffers cb

/-- A current thread that keeps its place keeps the lists in order. -/
theorem View.Consistent.of_current {v' : View} (h : v.Consistent) (hc : v.current = some c)
    (hrun : v'.runQueue = v.runQueue) (hwait : v'.waiting = v.waiting)
    (hcurrent : v'.current = some c) (hreturn : v'.returnTo = some c)
    (hself : v'.state c = .running) (hstate : ∀ t, t ≠ c → v'.state t = v.state t)
    (hexpects : ∀ t, t ≠ c → v'.expectsReply t = v.expectsReply t) : v'.Consistent := by
  obtain ⟨hfree, hlink, -⟩ := h.current_free hc
  have hlinked : ∀ q, ∀ t ∈ v.waiting q, v'.state t = v.state t :=
    fun q t ht => hstate t fun he => hlink q (he ▸ ht)
  refine ⟨⟨?_, fun t ht => ?_, ?_, ?_, ?_, ?_, fun t ht => ?_, fun t => ?_, fun t ht => ?_⟩,
    hreturn.trans hcurrent.symm, ?_, ?_⟩
  · exact hrun ▸ h.queued.run_nodup
  · have ht' : t ∈ v.runQueue := hrun ▸ ht
    rw [hstate t fun he => hfree (he ▸ ht')]
    exact h.queued.run_state t ht'
  · exact hwait ▸ h.queued.wait_nodup
  · exact hwait ▸ h.queued.wait_unique
  · intro q t ht
    rw [hwait] at ht
    rw [hlinked q t ht]
    exact h.queued.linked q t ht
  · intro n t ht
    rw [hwait] at ht
    rw [hlinked _ t ht]
    exact h.queued.notification n t ht
  · have htc : t ≠ c := fun he => by cases (he ▸ ht).symm.trans hself
    rw [hwait]
    exact h.queued.receiving t ((hstate t htc).symm.trans ht)
  · rcases eq_or_ne t c with rfl | htc
    · exact View.flagged_of_state (by rw [hself]; decide)
    · unfold View.Flagged
      rw [hstate t htc, hexpects t htc]
      exact h.queued.flagged t
  · by_cases htc : t = c
    · rw [htc, hcurrent]
    · have hc' := hc.symm.trans (h.queued.running t ((hstate t htc).symm.trans ht))
      exact absurd (Option.some.inj hc').symm htc
  · intro t ht
    cases hcurrent.symm.trans ht
    exact .inl hself
  · intro t ht q
    cases hcurrent.symm.trans ht
    rw [hwait]
    exact hlink q

/-- The caller goes on with its answer, the server waits where it did, and all else but the
server's own work is as before. -/
structure Completed (k k₂ k' : Kernel) (v : View) (c s e sb cb : Word) (f g : Frame) : Prop where
  serves : ∃ v', Serves k' v' s e ∧ v'.runQueue = v.runQueue ∧ v'.waiting = v.waiting
  current : k'.currentTcb = some c
  slots : k'.slots = k₂.slots
  notifications : k'.notifications = k₂.notifications
  buffers : k'.buffers = messageBuffers k₂.buffers sb cb 0#64 g.tag.length.toNat
  caller : k'.tcbs c = { k.tcbs c with
    expectsReply := true
    state := .running
    replyTo := if (k.tcbs s).expectsReply then some s else (k.tcbs c).replyTo
    currentUserFrame := some f
    savedState := ensureFrameValidForUsermode { f with rax := g.tag.toWord } }
  server : k'.tcbs s = { k.tcbs s with
    replyTo := some c
    currentUserFrame := some g
    savedState := g }
  others : ∀ x, x ≠ c → x ≠ s → k'.tcbs x = k.tcbs x

/-- With the call received and nothing else disturbed, the server can answer. -/
theorem Called.owes (h : Called k k₁ v c s e cb sb badge f) (hs : Serves k v s e)
    (hc : k.currentTcb = some c) {k₂ : Kernel} (hwork : OwnWork k₁ k₂ s cb) :
    Owes k₂ (v.called c s e) s c e := by
  obtain ⟨l, hwait⟩ := hs.first
  have hv := hs.consistent
  have hmem : s ∈ v.waiting (.endpoint e) := hwait ▸ List.mem_cons_self
  have hvc : v.current = some c := hs.represents.current.symm.trans hc
  have hne : c ≠ s := fun he => hv.linked_ne hmem (he ▸ hvc)
  obtain ⟨hfree, hlink, -⟩ := hv.current_free hvc
  have hnodup : (s :: l).Nodup := hwait ▸ hv.queued.wait_nodup (.endpoint e)
  have hnot : s ∉ l := (List.nodup_cons.mp hnodup).1
  have herase : (v.called c s e).waiting (.endpoint e) = l := by
    show Function.update v.waiting _ _ _ = l
    rw [Function.update_self, hwait, List.erase_cons_head]
  have hstate : ∀ t, t ≠ c → t ≠ s → (v.called c s e).state t = v.state t := by
    intro t htc hts
    show Function.update (Function.update _ _ _) s _ t = _
    rw [Function.update_of_ne hts]
    show Function.update (Function.update _ c _) s _ t = _
    rw [Function.update_of_ne hts, Function.update_of_ne htc]
  refine ⟨hwork.view.represents h.represents, rfl, ?_, ?_, ?_, ?_, ?_, ?_, ?_⟩
  · exact Function.update_self ..
  · show Function.update (Function.update (Function.update _ c _) s _) s _ c = _
    rw [Function.update_of_ne hne, Function.update_of_ne hne, Function.update_self]
  · exact Function.update_self ..
  · intro q hm
    by_cases hq : q = .endpoint e
    · rw [hq, herase] at hm
      exact hnot hm
    · have hm' : s ∈ v.waiting q := by
        rwa [show (v.called c s e).waiting q = v.waiting q from Function.update_of_ne hq _ _] at hm
      exact hq (hv.queued.wait_unique s q _ hm' hmem)
  · intro t ht
    have ht' : t ∈ v.runQueue := ht
    have hts : t ≠ s := fun he => hv.queued.not_run_of_linked hmem (he ▸ ht')
    rw [hstate t (fun he => hfree (he ▸ ht')) hts]
    exact hv.queued.run_state t ht'
  · intro t ht
    rw [herase] at ht
    have hm : t ∈ v.waiting (.endpoint e) := hwait ▸ List.mem_cons_of_mem s ht
    rw [hstate t (fun he => hlink _ (he ▸ hm)) (fun he => hnot (he ▸ ht))]
    exact hs.receiving t hm
  · refine hwork.quiet fun n hn => ?_
    rw [h.server] at hn
    rw [h.notifications]
    exact hs.quiet n hn

/-- A call, the server's own work and its answer. -/
theorem Serves.round (h : Serves k v s e) (P : Platform) (fuel : Nat)
    (hc : k.currentTcb = some c)
    (hcb : (k.tcbs c).ipcBuffer = some cb) (hsb : (k.tcbs s).ipcBuffer = some sb)
    (hcalled : Called k k₁ v c s e cb sb badge f) {k₂ : Kernel} (hwork : OwnWork k₁ k₂ s cb)
    (hg : OnObject k₂.slots .endpoint s g .replyrecv slot e) (htag : g.tag.extraCaps = 0) :
    ∃ k', syscallEntry P fuel k₂ g = .ok k' ∧ Completed k k₂ k' v c s e sb cb f g := by
  have howes := hcalled.owes h hc hwork
  have hne := howes.ne
  obtain ⟨l, hwait⟩ := h.first
  have hvc : v.current = some c := h.represents.current.symm.trans hc
  have hself : k₂.tcbs s = { k.tcbs s with
      state := .running
      replyTo := some c
      currentUserFrame := (k₂.tcbs s).currentUserFrame
      savedState := ensureFrameValidForUsermode
        { (k.tcbs s).savedState with rax := f.tag.toWord } } := by
    conv_lhs => rw [hwork.self, hcalled.server]
  have hcaller : k₂.tcbs c = _ := (hwork.others c hne.symm).trans hcalled.caller
  obtain ⟨k', hk', ha⟩ := howes.answers P fuel (by rw [hcaller]; exact hcb)
    (by rw [hself]; exact hsb) hg htag
  have hserver' : k'.tcbs s = { k.tcbs s with
      replyTo := some c, currentUserFrame := some g, savedState := g } := by
    have hstate : (k.tcbs s).state = .receiving :=
      (h.represents.state s).trans (h.receiving s (hwait ▸ List.mem_cons_self))
    rw [ha.server, hself, ← hstate]
  have hcaller' : k'.tcbs c = { k.tcbs c with
      expectsReply := true
      state := .running
      replyTo := if (k.tcbs s).expectsReply then some s else (k.tcbs c).replyTo
      currentUserFrame := some f
      savedState := ensureFrameValidForUsermode { f with rax := g.tag.toWord } } := by
    have hexpects : (k₂.tcbs s).expectsReply = (k.tcbs s).expectsReply := by rw [hself]
    rw [ha.caller, hcaller, hexpects]
  have hothers' : ∀ x, x ≠ c → x ≠ s → k'.tcbs x = k.tcbs x := fun x hxc hxs =>
    (ha.others x hxc hxs).trans ((hwork.others x hxs).trans (hcalled.others x hxc hxs))
  obtain ⟨v', hrep, hwait', hrun'⟩ := ha.lists
  have hwaiting : v'.waiting = v.waiting := by
    rw [hwait']
    show Function.update (Function.update v.waiting _ _) _
      (s :: Function.update v.waiting _ _ _) = _
    rw [Function.update_self, Function.update_idem, hwait, List.erase_cons_head, ← hwait,
      Function.update_eq_self]
  have hstates : ∀ t, t ≠ c → v'.state t = v.state t := by
    intro t htc
    rw [← hrep.state, ← h.represents.state]
    by_cases hts : t = s
    · rw [hts, hserver']
    · rw [hothers' t htc hts]
  have hexpects : ∀ t, t ≠ c → v'.expectsReply t = v.expectsReply t := by
    intro t htc
    rw [← hrep.expectsReply, ← h.represents.expectsReply]
    by_cases hts : t = s
    · rw [hts, hserver']
    · rw [hothers' t htc hts]
  have hlink := (h.consistent.current_free hvc).2.1
  have hv' := h.consistent.of_current hvc hrun' hwaiting (hrep.current.symm.trans ha.current)
    (hrep.returnTo.symm.trans ha.returnTo) (by rw [← hrep.state, hcaller']) hstates hexpects
  refine ⟨k', hk', ⟨v', ⟨hrep, hv', ⟨l, hwaiting ▸ hwait⟩, fun t ht => ?_, ?_⟩, hrun', hwaiting⟩,
    ha.current, ha.slots, ha.notifications, ha.buffers, hcaller', hserver', hothers'⟩
  · rw [hwaiting] at ht
    rw [hstates t fun he => hlink _ (he ▸ ht)]
    exact h.receiving t ht
  · intro n hn
    rw [hserver'] at hn
    rw [ha.notifications]
    exact howes.quiet n (by rw [hself]; exact hn)

/-! ## Servers -/

/-- A thread that receives on an endpoint without a queue serves it. -/
theorem Turn.serves {recv : Frame} (ht : Turn k s c)
    (he : isListEmpty k.nodes (.endpoint e) = true)
    (hr : OnObject k.slots .endpoint s recv .recv slot e) (hquiet : NothingPending k s)
    (P : Platform) (fuel : Nat) :
    ∃ k₁ v₁, syscallEntry P fuel k recv = .ok k₁ ∧ Serves k₁ v₁ s e ∧
      Waits k k₁ s c (.endpoint e) ∧ (k₁.tcbs s).ipcBuffer = (k.tcbs s).ipcBuffer := by
  obtain ⟨k₁, hk₁, hwaits, hself⟩ := recv_waits P fuel ht he hr hquiet
  obtain ⟨v, hrep, hv⟩ := ht.lists
  have hinvokes : ∀ m obj, ¬ Invokes k recv m obj := by
    rintro m obj ⟨slot', ⟨hn, -⟩, -⟩
    cases hr.number.symm.trans hn
  have hsafe : ∀ m w, (Entry.syscall recv).Makes k m → Act v m w → m.Safe v := by
    intro m w hm _
    cases m with
    | plain => trivial
    | killedWait t => trivial
    | suspend u => trivial
    | resume u => exact absurd hm (hinvokes _ _)
    | reply t a => rcases hm with hn | ⟨slot', ⟨hn, -⟩, -⟩ <;> cases hr.number.symm.trans hn
  have hstep : KernelStep P k (.syscall recv) k₁ := .syscall fuel k.buffers recv k₁ hk₁
  have hretype : ∀ f obj, Entry.syscall recv = .syscall f → ¬ Invokes k f .untypedRetype obj := by
    intro f obj hf
    cases hf
    exact hinvokes _ obj
  obtain ⟨m, w, v₁, hm, hact, hl, hrep₁⟩ := hstep.acts hrep hv hretype hsafe
  have hv₁ := hact.consistent hl hv (hsafe m w hm hact)
  obtain ⟨v₂, hrep₂, hwait₂, -⟩ := hwaits.lists
  have hmem : ∀ t, t ∈ v₁.waiting (.endpoint e) ↔ t = s := by
    intro t
    rw [← hrep₁.inQueue_iff, hrep₂.inQueue_iff, hwait₂, List.mem_singleton]
  have hwait : v₁.waiting (.endpoint e) = [s] := by
    refine List.perm_singleton.mp ((List.perm_ext_iff_of_nodup (hv₁.queued.wait_nodup _)
      (List.nodup_singleton s)).mpr fun t => ?_)
    rw [hmem, List.mem_singleton]
  refine ⟨k₁, v₁, hk₁, ⟨hrep₁, hv₁, ⟨[], hwait⟩, fun t ht' => ?_, fun n hn => ?_⟩, hwaits,
    by rw [hself]⟩
  · rw [(hmem t).mp ht', ← hrep₁.state, hself]
  · rw [hself] at hn
    rw [hwaits.notifications]
    exact hquiet n hn

end Tern
