import Tern.Containment
import Tern.Contexts
import Tern.Deliveries
import Tern.Turns

/-! Kernel entries come to their end. On lists that are in order no entry fails on its
way out of the kernel, and messages, signals and waits between threads with IPC buffers
fail nowhere. -/

namespace Tern

open Lib

variable {P : Platform} {k k' : Kernel} {v : View} {t : Word} {tag : MessageTag}

/-! ## The way out -/

theorem saveCurrent_ok (h : ∀ t, k.currentTcb = some t → (k.tcbs t).currentUserFrame.isSome) :
    ∃ k', saveCurrent k = .ok k' := by
  unfold saveCurrent
  split
  · next t ht =>
    split
    · obtain ⟨f, hf⟩ := Option.isSome_iff_exists.mp (h t ht)
      exact ⟨_, by rw [saveTcbState, hf]⟩
    · exact ⟨k, rfl⟩
  · exact ⟨k, rfl⟩

theorem Represents.rescheduleCurrent_ok (h : Represents k v) :
    ∃ k', rescheduleCurrent k = .ok k' := by
  unfold rescheduleCurrent
  split
  · split
    · next hs =>
      obtain ⟨nodes, hk⟩ := h.scheduleTcb_ok (t := _) (by rw [beq_iff_eq.mp hs]; decide)
      exact ⟨_, hk⟩
    · exact ⟨k, rfl⟩
  · exact ⟨k, rfl⟩

/-- None of the assertions of `switch_tcb_actual` and `save_tcb_state` fails. -/
theorem Represents.returnFromKernelCode_ok (h : Represents k v) (hv : v.Ready) (dm : DirectMap)
    (hframe : ∀ t, k.currentTcb = some t → (k.tcbs t).currentUserFrame.isSome) :
    ∃ k', Tern.returnFromKernelCode dm k = .ok k' := by
  unfold Tern.returnFromKernelCode
  obtain ⟨k₁, hsave⟩ := saveCurrent_ok hframe
  have hrep := (saveCurrent_quiet hsave).view.represents h
  obtain ⟨k₂, hresched⟩ := hrep.rescheduleCurrent_ok
  have hsaved := (saveCurrent_saved hsave).reschedule hresched
  split
  · exact ⟨k, rfl⟩
  · next hne =>
    split
    · next r hr =>
      have hret := h.returnTo.symm.trans hr
      rcases hv.returns with hback | ⟨hnone, -⟩ | ⟨r', hr', hcurrent, hrunnable, -⟩
      · exact absurd (h.returnTo.trans (hback.returnTo.trans h.current.symm)) hne
      · rw [hnone] at hret
        cases hret
      · cases hret.symm.trans hr'
        rw [← h.current] at hcurrent
        have hs : (k₂.tcbs r).state = .runnable := by
          rw [hsaved.others r hcurrent, h.state, hrunnable]
        refine ⟨k₂.entering dm r, ?_⟩
        have hne : (k.currentTcb != some r) = true := bne_iff_ne.mpr hcurrent
        have hrunning : ((k₂.tcbs r).state == .runnable) = true := beq_iff_eq.mpr hs
        simp only [Tern.switchTcbActual, hne, hsave, hresched, hrunning, assert, if_true, bind, Except.bind,
          pure, Except.pure]
        rfl
    · exact ⟨{ k₁ with currentTcb := none }, by rw [hsave]; rfl⟩

/-- A thread that enters the kernel does so from user mode. -/
def FromUser (k : Kernel) (e : Entry) : Prop := k.currentTcb.isSome → e.frame.cs = userCs

theorem Entry.handle_handled {fuel : Nat} {e : Entry}
    (hretype : ∀ f obj, e = .syscall f → ¬ Invokes k f .untypedRetype obj)
    (hk : e.handle P fuel k = .ok k') : Handled k e k' := by
  have hsaved : ∀ (f : Frame), Handled (saveFrameOnTcb k f) e k' → Handled k e k' := by
    rintro f ⟨m, k₀, k₂, hm, hbefore, hb, hafter⟩
    refine ⟨m, k₀, k₂, (Entry.makes_save k k.buffers f e m).mp hm, ?_, hb, hafter⟩
    exact (saveFrameOnTcb_quiet k f).view.trans hbefore
  cases e with
  | syscall f =>
    refine hsaved f (doSyscall_handled (fun obj hinv => ?_) hk)
    obtain ⟨tcbs, hsave⟩ := saveFrameOnTcb_eq k f
    rw [hsave] at hinv
    exact hretype f obj rfl hinv
  | interrupt f => exact hsaved f (handleInterrupt_handled hk)

/-- An entry that is handled leaves the kernel, whatever it did: a system call, a method,
an interrupt. -/
theorem Represents.leaves_kernel (h : Represents k v) (hv : v.Consistent) {fuel : Nat} {e : Entry}
    (hsafe : ListSafe k e) (huser : FromUser k e)
    (hretype : ∀ f obj, e = .syscall f → ¬ Invokes k f .untypedRetype obj)
    (hk : e.handle P fuel k = .ok k') : ∃ k'', e.enter P fuel k = .ok k'' := by
  obtain ⟨m, k₀, k₂, hm, hbefore, hb, hafter⟩ := Entry.handle_handled hretype hk
  obtain ⟨w, hact, hrep⟩ := (hbefore.represents h).body hv hb fun w => hsafe.safe h hm
  have hready := hact.ready hv (hsafe.safe h hm hact)
  have hkept := Entry.handle_contexts hretype hk
  obtain ⟨k'', hreturn⟩ := (hafter.represents hrep).returnFromKernelCode_ok hready P.dm
    fun t ht => by
      rw [hkept.current] at ht
      have hlive := hkept.live t ht (huser (by rw [ht]; rfl))
      cases hf : (k'.tcbs t).currentUserFrame with
      | none =>
        rw [hf] at hlive
        cases hlive
      | some f => rfl
  exact ⟨k'', by simp only [Entry.enter, hk]; exact hreturn⟩

/-! ## Messages -/

/-- What the functions below rely on besides the lists: threads that may be party to a message
have a buffer, the current one has entered the kernel, and no capability goes with a message
that waits. -/
structure Supplied (k : Kernel) (v : View) : Prop where
  current : ∀ t, v.current = some t →
    (k.tcbs t).ipcBuffer.isSome ∧ (k.tcbs t).currentUserFrame.isSome
  waiting : ∀ q, ∀ t ∈ v.waiting q,
    (k.tcbs t).ipcBuffer.isSome ∧ (k.tcbs t).savedState.tag.extraCaps = 0
  calling : ∀ t, v.state t = .calling → (k.tcbs t).ipcBuffer.isSome

namespace Represents

variable {s r e badge : Word}

theorem firstState_ok (h : Represents k v) {l : List Word} (hl : v.waiting (.endpoint e) = s :: l) :
    firstState k e = .ok (v.state s) := by
  have hnext : k.nodes.next (.endpoint e) = some (.sendReceive s) := h.next_waiting hl
  simp only [firstState, hnext, deref, Node.tcbOfSendReceive, ← h.state, bind, Except.bind, pure,
    Except.pure]

/-- Both functions that look at an endpoint find out whether to block. -/
theorem blocks_ok (h : Represents k v) (e : Word) (p : TaskState → Bool) :
    ∃ b, (do
      if isListEmpty k.nodes (.endpoint e) then return true
      let state ← firstState k e
      return p state) = (.ok b : Result Bool) := by
  split
  · exact ⟨true, rfl⟩
  · next hne =>
    cases hl : v.waiting (.endpoint e) with
    | nil => exact absurd ((h.waiting_empty (.endpoint e)).mpr hl) hne
    | cons s l =>
      rw [h.firstState_ok hl]
      exact ⟨_, rfl⟩

end Represents

/-! ## Whole entries -/

/-- System calls on endpoints and notifications and interrupts, with what each relies on. -/
inductive Communicates (k : Kernel) : Entry → Prop
  | yields {f : Frame} {t : Word} : f.number = some .yield → k.currentTcb = some t →
      Communicates k (.syscall f)
  | sends {f : Frame} {slot : Word} : Asks k f .send slot → (k.slots slot).cap.type = .endpoint →
      f.tag.extraCaps = 0 → Communicates k (.syscall f)
  | calls {f : Frame} {slot : Word} : Asks k f .call slot → (k.slots slot).cap.type = .endpoint →
      f.tag.extraCaps = 0 → Communicates k (.syscall f)
  | receives {f : Frame} {slot : Word} : Asks k f .recv slot ∨ Asks k f .nbrecv slot →
      (k.slots slot).cap.type = .endpoint → Communicates k (.syscall f)
  | replies {f : Frame} {t c : Word} : f.number = some .reply → k.currentTcb = some t →
      (k.tcbs t).replyTo = some c → (k.tcbs c).state = .calling → f.tag.extraCaps = 0 →
      Communicates k (.syscall f)
  | repliesAndReceives {f : Frame} {slot t c : Word} : Asks k f .replyrecv slot →
      (k.slots slot).cap.type = .endpoint → k.currentTcb = some t → (k.tcbs t).replyTo = some c →
      (k.tcbs c).state = .calling → f.tag.extraCaps = 0 → Communicates k (.syscall f)
  | signals {f : Frame} {slot : Word} : Asks k f .send slot →
      (k.slots slot).cap.type = .notification → Communicates k (.syscall f)
  | waits {f : Frame} {slot t : Word} : Asks k f .recv slot →
      (k.slots slot).cap.type = .notification → k.currentTcb = some t →
      ¬ BoundToOther k (capPtr (k.slots slot).cap) t → Communicates k (.syscall f)
  | interrupts {f : Frame} : 32#64 ≤ f.intNo ∧ f.intNo ≤ 48#64 ∨ f.intNo = 255#64 →
      Communicates k (.interrupt f)

namespace Represents

variable {f : Frame} {fuel : Nat} {slot : Word}

end Represents

theorem Supplied.of_tcbs (h : Supplied k v) (htcbs : k'.tcbs = k.tcbs) : Supplied k' v := by
  constructor
  · rw [htcbs]
    exact h.current
  · rw [htcbs]
    exact h.waiting
  · rw [htcbs]
    exact h.calling

/-- The thread that makes the system call. -/
theorem Communicates.current {f : Frame} (h : Communicates k (.syscall f)) :
    ∃ t, k.currentTcb = some t := by
  cases h with
  | yields _ ht => exact ⟨_, ht⟩
  | sends hasks => exact hasks.2.imp fun _ h => h.1
  | calls hasks => exact hasks.2.imp fun _ h => h.1
  | receives hasks => exact hasks.elim (fun h => h.2.imp fun _ h => h.1) fun h => h.2.imp fun _ h => h.1
  | replies _ ht => exact ⟨_, ht⟩
  | repliesAndReceives _ _ ht => exact ⟨_, ht⟩
  | signals hasks => exact hasks.2.imp fun _ h => h.1
  | waits _ _ ht => exact ⟨_, ht⟩

theorem Asks.unique {f : Frame} {n n' : SyscallNumber} {slot slot' : Word} (h : Asks k f n slot)
    (h' : Asks k f n' slot') : n' = n ∧ slot' = slot := by
  obtain ⟨hn, t, ht, hslot⟩ := h
  obtain ⟨hn', t', ht', hslot'⟩ := h'
  cases hn.symm.trans hn'
  cases ht.symm.trans ht'
  cases hslot.symm.trans hslot'
  exact ⟨rfl, rfl⟩

theorem ListSafe.saved {e : Entry} (h : ListSafe k e) (buffers : Word → IpcBuffer) (f : Frame) :
    ListSafe (saveFrameOnTcb { k with buffers } f) e := by
  have hmakes := Entry.makes_save k buffers f e
  have hview := (saveFrameOnTcb_quiet { k with buffers } f).view
  have hnodes : (saveFrameOnTcb { k with buffers } f).nodes = k.nodes := hview.nodes
  refine ⟨fun u hu => ?_, fun t c hm ht hto hcalling q hq => ?_⟩
  · obtain ⟨hcurrent, hrun, hqueue⟩ := h.resume u ((hmakes _).mp hu)
    refine ⟨fun hc => hcurrent (hview.current.symm.trans hc), fun hr => hrun ?_, fun q hq => hqueue q ?_⟩
    · unfold InRunQueue at hr ⊢
      rwa [hnodes] at hr
    · unfold InQueue at hq ⊢
      rwa [hnodes] at hq
  · refine h.reply t c ((hmakes _).mp hm) (hview.current.symm.trans ht) ((hview.replyTo t).symm.trans hto)
      ((hview.state c).symm.trans hcalling) q ?_
    unfold InQueue at hq ⊢
    rwa [hnodes] at hq

/-- In every run whose entries keep the lists in order: such an entry that has been handled
also leaves the kernel, as no assertion on the way out fails. -/
theorem handled_entries_leave {fuel : Nat} {e : Entry}
    (hk : (kernelSystem P).ReachedBy QueueingSafe k) (hsafe : QueueingSafe k e)
    (huser : FromUser k e) (hhandle : e.handle P fuel k = .ok k') :
    ∃ k'', e.enter P fuel k = .ok k'' := by
  obtain ⟨v, hrep, hv⟩ := lists_in_order (hk.mono fun _ _ h => h.toListSafe)
  have hretype : ∀ f obj, e = .syscall f → ¬ Invokes k f .untypedRetype obj := by
    intro f obj hf hm
    cases hsafe.confined f .untypedRetype obj hf hm
  exact hrep.leaves_kernel hv hsafe.toListSafe huser hretype hhandle

/-- The boot thread sends to an endpoint on which nobody waits. -/
theorem firstSend_safe : ListSafe blockedSendKernel (.syscall (sendFrame 6)) := by
  refine ⟨?_, ?_⟩
  · rintro u ⟨slot, ⟨hn, -⟩, -⟩
    cases hn
  · rintro t c (hn | ⟨slot, ⟨hn, -⟩, -⟩) <;> cases hn

theorem handled_entries_leave_send : ∃ k'',
    (Entry.syscall (sendFrame 6)).enter examplePlatform 0 blockedSendKernel = .ok k'' := by
  have hhandles : ((Entry.syscall (sendFrame 6)).handle examplePlatform 0 blockedSendKernel).map
      (fun _ => ()) = .ok () := by decide +kernel
  obtain ⟨k', hk', -⟩ := result_reads hhandles
  exact handled_entries_leave (.start (exampleKernel_booted _ _))
    ⟨firstSend_safe, frame_invokesOnly (by decide)⟩ (fun _ => rfl) hk'

end Tern
