import Tern.Refinement
import Tern.Updates

/-! The account of a notification: what was signalled on it, what was delivered
from it through `sender_badge`, and what is pending in its word. -/

namespace Tern

open Lib

variable {P : Platform} {k k' : Kernel} {n t : Word} {tag tag' : MessageTag}

/-- The OR of the badges signalled on `n`. -/
def signalledOn (n : Word) : List Signal → Word
  | [] => 0#64
  | .signalled m badge :: l => if m = n then badge ||| signalledOn n l else signalledOn n l
  | .delivered _ _ _ :: l => signalledOn n l

/-- The OR of the words delivered from `n`. -/
def deliveredFrom (n : Word) : List Signal → Word
  | [] => 0#64
  | .signalled _ _ :: l => deliveredFrom n l
  | .delivered m _ word :: l => if m = n then word ||| deliveredFrom n l else deliveredFrom n l

/-- What was signalled has been delivered or is pending. -/
def Conserved (k : Kernel) (n : Word) : Prop :=
  deliveredFrom n k.signals ||| (k.notifications n).word = signalledOn n k.signals

/-! ## What each function does to the account -/

theorem Message.signals (h : Message k k') : SameSignals k k' := by
  cases h with
  | update h => cases h <;> exact .of_eq rfl rfl
  | copy => exact .of_eq rfl rfl

theorem Messages.signals (h : Messages k k') : SameSignals k k' := by
  induction h with
  | refl => exact .refl k
  | tail _ hstep ih => exact ih.trans hstep.signals

theorem Updates.signals (h : Updates k k') : SameSignals k k' :=
  Messages.signals (Updates.messages h)

theorem SameSignals.conserved_iff (h : SameSignals k k') : Conserved k' n ↔ Conserved k n := by
  rw [Conserved, Conserved, h.signals, h.word]

theorem Kernel.setWord_word (k : Kernel) (n w m : Word) :
    ((k.setWord n w).notifications m).word = if m = n then w else (k.notifications m).word := by
  simp only [Kernel.setWord, Function.update_apply]
  split <;> rfl

/-- A badge joins the word, and the log. -/
theorem Conserved.signal (h : Conserved k n) (m badge : Word) :
    Conserved ((k.setWord m ((k.notifications m).word ||| badge)).logged (.signalled m badge)) n := by
  have hword := k.setWord_word m ((k.notifications m).word ||| badge) n
  show deliveredFrom n k.signals ||| ((k.setWord m _).notifications n).word =
    signalledOn n (.signalled m badge :: k.signals)
  rw [hword, signalledOn]
  split
  · next hnm =>
    subst hnm
    rw [if_pos rfl, ← BitVec.or_assoc, h, BitVec.or_comm]
  · next hnm =>
    rw [if_neg (Ne.symm hnm)]
    exact h

/-- The whole word is delivered. -/
theorem Conserved.deliver (h : Conserved k n) (m t : Word) :
    Conserved ((k.setWord m 0#64).logged (.delivered m t (k.notifications m).word)) n := by
  have hword := k.setWord_word m 0#64 n
  show deliveredFrom n (.delivered m t (k.notifications m).word :: k.signals) |||
    ((k.setWord m 0#64).notifications n).word = signalledOn n k.signals
  rw [hword, deliveredFrom]
  split
  · next hnm =>
    subst hnm
    rw [if_pos rfl, BitVec.or_zero, BitVec.or_comm]
    exact h
  · next hnm =>
    rw [if_neg (Ne.symm hnm)]
    exact h

theorem signalWaitingReceiver_signals {r badge m : Word}
    (hk : signalWaitingReceiver k m r badge = .ok k') :
    SameSignals (k.logged (.delivered m r badge)) k' := by
  simp only [signalWaitingReceiver, bind_eq_ok, pure_eq_ok] at hk
  obtain ⟨k₁, hset, buffer, -, rfl⟩ := hk
  have hsame := (setIpcResult_quiet hset).signals
  exact ⟨hsame.word, congrArg (Signal.delivered m r badge :: ·) hsame.signals⟩

theorem notificationSignal_conserves {m badge : Word} (h : Conserved k n)
    (hk : notificationSignal k m badge = .ok k') : Conserved k' n := by
  obtain ⟨k₁, hk₁⟩ : ∃ k₁, k₁ = (k.setWord m ((k.notifications m).word ||| badge)).logged
    (.signalled m badge) := ⟨_, rfl⟩
  have h₁ : Conserved k₁ n := hk₁ ▸ h.signal m badge
  have hword : (k₁.notifications m).word = (k.notifications m).word ||| badge := by
    rw [hk₁]
    exact (k.setWord_word m _ m).trans (if_pos rfl)
  -- the word goes to zero before the receiver is told, in one step as far as the account goes
  have hdeliver : ∀ (k₂ : Kernel) {r : Word}, SameSignals (k₁.setWord m 0#64) k₂ →
      signalWaitingReceiver k₂ m r ((k.notifications m).word ||| badge) = .ok k' →
      Conserved k' n := by
    intro k₂ r hsame hk
    have hlogged : SameSignals
        ((k₁.setWord m 0#64).logged (.delivered m r (k₁.notifications m).word))
        (k₂.logged (.delivered m r ((k.notifications m).word ||| badge))) :=
      ⟨hsame.word, by rw [hword]; exact congrArg (Signal.delivered m r _ :: ·) hsame.signals⟩
    exact (hlogged.trans (signalWaitingReceiver_signals hk)).conserved_iff.mpr (h₁.deliver m r)
  simp only [notificationSignal, ← hk₁] at hk
  split at hk
  · split at hk
    · simp only [signalBoundReceiverWaitingOnSomethingElse, bind_eq_ok] at hk
      obtain ⟨nodes, -, hk⟩ := hk
      exact hdeliver ((k₁.setWord m 0#64).withNodes nodes) (.of_eq rfl rfl) hk
    · cases hk
      exact h₁
  · simp only [bind_eq_ok] at hk
    obtain ⟨first, -, r, -, nodes, -, hk⟩ := hk
    exact hdeliver ((k₁.setWord m 0#64).withNodes nodes) (.of_eq rfl rfl) hk

theorem handleRecvWithPendingNotification_conserves (h : Conserved k n)
    (hk : handleRecvWithPendingNotification k = .ok (some k')) : Conserved k' n := by
  simp only [handleRecvWithPendingNotification, bind_eq_ok] at hk
  obtain ⟨this, -, hk⟩ := hk
  split at hk
  · cases hk
  · next m hm =>
    split at hk
    · cases hk
    · simp only [bind_eq_ok, pure_eq_ok, Option.some.injEq] at hk
      obtain ⟨buffer, -, rfl⟩ := hk
      exact h.deliver m this

/-- A wait takes the word, if there is one, and logs nothing. -/
theorem invokeNotificationRecv_signals {cap : Word}
    (hk : invokeNotificationRecv k cap = .ok (tag, k')) :
    SameSignals (k.setWord (capPtr (k.slots cap).cap) 0#64) k' := by
  simp only [invokeNotificationRecv, bind_eq_ok] at hk
  obtain ⟨-, -, this, -, k₁, hkill, hk⟩ := hk
  have hsame := Updates.signals (killIfBoundToOther_updates hkill)
  split at hk
  · next hzero =>
    have hqueue := Updates.signals (queueReceiverOnNotification_updates hk)
    refine ⟨fun m => ?_, hqueue.signals.trans hsame.signals⟩
    rw [Kernel.setWord_word]
    split
    · next hm => rw [hm, hqueue.word, hzero]
    · rw [hqueue.word, hsame.word]
  · cases hk
    refine ⟨fun m => ?_, hsame.signals⟩
    rw [Kernel.setWord_word, Kernel.setWord_word, hsame.word]

theorem invokeMethod_signals {fuel : Nat} {slot : Word} {mr cap : Nat → Word} {m : Method}
    {r : Reply} (hm : m ≠ .untypedRetype)
    (hk : invokeMethod P fuel k slot mr cap m = .ok (r, k')) : SameSignals k k' := by
  rcases eq_or_ne m .tcbResume with rfl | hresume
  · simp only [invokeMethod, tcbResume, bind_eq_ok, pure_eq_ok, Prod.mk.injEq] at hk
    obtain ⟨k₁, hk, -, rfl⟩ := hk
    exact scheduleTcb_signals hk
  · rcases eq_or_ne m .tcbSuspend with rfl | hsuspend
    · simp only [invokeMethod, tcbSuspend, bind_eq_ok, pure_eq_ok, Prod.mk.injEq] at hk
      obtain ⟨k₁, hk, -, rfl⟩ := hk
      exact suspendTcb_signals hk
    · exact (invokeMethod_quiet hk ⟨hresume, hsuspend, hm⟩).signals

theorem handleIrq_conserves {irq : Word} (h : Conserved k n) (hk : handleIrq P k irq = .ok k') :
    Conserved k' n := by
  unfold handleIrq at hk
  dsimp only at hk
  split at hk
  · cases hk
    exact h
  · split at hk
    · cases hk
      exact h
    · refine notificationSignal_conserves ?_ hk
      exact (SameSignals.of_eq rfl rfl).conserved_iff.mpr h

/-! ## What each entry does to the account -/

/-- A wait on `n` leaves its word empty. -/
theorem doSyscall_waits {fuel : Nat} {f : Frame} (hw : WaitsOn k f n)
    (hk : doSyscall P fuel k f.rdi f.rsi (f.rax.setWidth 32) = .ok k') :
    SameSignals (k.setWord n 0#64) k' := by
  obtain ⟨slot, ⟨hnumber, t, ht, hslot⟩, htype, rfl⟩ := hw
  have hrecv : SyscallNumber.ofInt? (f.rax.setWidth 32) = some .recv := hnumber
  simp only [doSyscall, opSyscall, hrecv, Option.bind_some, opSyscallPlain, thisTcb, ht, deref,
    bind_eq_ok, Except.ok.injEq, exists_eq_left'] at hk
  obtain ⟨⟨tag, k₁⟩, ⟨found, hfound, hwait⟩, hresult⟩ := hk
  cases hslot.symm.trans hfound
  simp only [opSyscallOn, htype, if_true] at hwait
  have htakes := invokeNotificationRecv_signals hwait
  split at hresult
  · cases hresult
    exact htakes
  · simp only [bind_eq_ok] at hresult
    obtain ⟨this, -, hset⟩ := hresult
    exact htakes.trans (setIpcResult_quiet hset).signals

/-- Every other system call keeps the account of `n` balanced. -/
theorem doSyscall_conserves {fuel : Nat} {f : Frame} (hw : ¬ WaitsOn k f n)
    (hretype : ∀ obj, ¬ Invokes k f .untypedRetype obj) (h : Conserved k n)
    (hk : doSyscall P fuel k f.rdi f.rsi (f.rax.setWidth 32) = .ok k') : Conserved k' n := by
  rcases doSyscall_steps hk with hmessages | ⟨slot, number, k₂, hasks, hcall, hresult⟩
  · exact (Messages.signals hmessages).conserved_iff.mpr h
  refine (Updates.signals hresult).conserved_iff.mpr ?_
  cases hcall with
  | messages hmessages => exact (Messages.signals hmessages).conserved_iff.mpr h
  | receives hmessages hpending =>
    have h₁ := (Messages.signals hmessages).conserved_iff.mpr h
    exact handleRecvWithPendingNotification_conserves h₁ hpending
  | signals _ hsignal => exact notificationSignal_conserves h hsignal
  | waits htype hwait =>
    have hne : n ≠ capPtr (k.slots slot).cap := fun hn => hw ⟨slot, hasks, htype, hn⟩
    refine (invokeNotificationRecv_signals hwait).conserved_iff.mpr ?_
    have hword := k.setWord_word (capPtr (k.slots slot).cap) 0#64 n
    rw [if_neg hne] at hword
    show deliveredFrom n k.signals ||| ((k.setWord _ 0#64).notifications n).word = _
    rw [hword]
    exact h
  | method hdispatch hanswer =>
    refine (Updates.signals hanswer).conserved_iff.mpr ?_
    rcases dispatchMethod_cases hdispatch with ⟨rfl, -⟩ | ⟨m, mr, cap, hadmitted, hinvoke⟩
    · exact h
    · refine (invokeMethod_signals ?_ hinvoke).conserved_iff.mpr h
      rintro rfl
      exact hretype _ ⟨slot, hasks, hadmitted.type, hadmitted.label, rfl⟩

/-! ## Runs -/

/-- The entry does not wait on `n`, or all that is pending there was delivered
before. -/
def TakesDelivered (n : Word) (k : Kernel) (e : Entry) : Prop :=
  ∀ f, e = .syscall f → WaitsOn k f n →
    deliveredFrom n k.signals ||| (k.notifications n).word = deliveredFrom n k.signals

/-- An entry keeps the account balanced exactly when it takes nothing that was
not delivered. -/
theorem KernelStep.conserved_iff {e : Entry} (hs : KernelStep P k e k')
    (hretype : ∀ f obj, e = .syscall f → ¬ Invokes k f .untypedRetype obj)
    (h : Conserved k n) : Conserved k' n ↔ TakesDelivered n k e := by
  cases hs with
  | syscall fuel buffers f _ hk =>
    simp only [syscallEntry, bind_eq_ok] at hk
    obtain ⟨k₁, hcall, hreturn⟩ := hk
    obtain ⟨tcbs, hsave⟩ := saveFrameOnTcb_eq { k with buffers } f
    rw [hsave] at hcall
    rw [(returnFromKernelCode_signals hreturn).conserved_iff]
    rcases Classical.em (WaitsOn k f n) with hw | hw
    · rw [(doSyscall_waits (k := { k with buffers, tcbs }) hw hcall).conserved_iff]
      have hword := k.setWord_word n 0#64 n
      rw [if_pos rfl] at hword
      show deliveredFrom n k.signals ||| ((k.setWord n 0#64).notifications n).word =
        signalledOn n k.signals ↔ _
      rw [hword, BitVec.or_zero, ← show _ = signalledOn n k.signals from h]
      constructor
      · rintro he g ⟨⟩ -
        exact he.symm
      · intro htakes
        exact (htakes f rfl hw).symm
    · refine iff_of_true ?_ ?_
      · exact doSyscall_conserves (k := { k with buffers, tcbs }) hw (hretype f · rfl) h hcall
      · rintro g ⟨⟩ hg
        exact absurd hg hw
  | interrupt buffers f _ hk =>
    simp only [interruptEntry, bind_eq_ok] at hk
    obtain ⟨k₁, hhandle, hreturn⟩ := hk
    obtain ⟨tcbs, hsave⟩ := saveFrameOnTcb_eq { k with buffers } f
    rw [hsave] at hhandle
    rw [(returnFromKernelCode_signals hreturn).conserved_iff]
    refine iff_of_true ?_ (by rintro _ ⟨⟩)
    unfold handleInterrupt at hhandle
    split at hhandle
    · exact handleIrq_conserves (k := { k with buffers, tcbs }) h hhandle
    · split at hhandle
      · cases hhandle
        exact h
      · cases hhandle

/-- The runs that start with nothing pending on `n`. -/
def signalSystem (P : Platform) (n : Word) : Transition Kernel Entry :=
  { kernelSystem P with start := fun k => Booted k ∧ (k.notifications n).word = 0#64 }

theorem conserved_of_reached (hk : (signalSystem P n).ReachedBy (TakesDelivered n) k) :
    Conserved k n := by
  refine hk.invariant (I := fun k => Conserved k n) ?_ ?_
  · rintro k ⟨hboot, hword⟩
    rw [Conserved, hword, hboot.signals, BitVec.or_zero]
    rfl
  · rintro k e k' h htakes ⟨hs, hretype⟩
    exact (hs.conserved_iff hretype h).mpr htakes

end Tern
