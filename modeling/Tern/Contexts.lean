import Tern.Containment
import Tern.Progress
import Tern.Traps

/-! The contexts of threads over runs. A thread that has left the processor gets back
the registers and bases it left with, in the runs whose entries do not write them. -/

namespace Tern

open Lib

variable {dm : DirectMap} {k k' : Kernel} {t : Word}

/-! ## The way back to user code -/

/-- The current thread has been saved and may be on the run queue again. -/
structure Saved (k k' : Kernel) : Prop where
  others : ∀ t, k.currentTcb ≠ some t → k'.tcbs t = k.tcbs t
  tls : ∀ t, (k'.tcbs t).tlsBase = (k.tcbs t).tlsBase
  badge : ∀ t, (k'.tcbs t).endpointBadge = (k.tcbs t).endpointBadge
  frame : ∀ t, k.currentTcb = some t → (k'.tcbs t).state ≠ .dead →
    (k.tcbs t).currentUserFrame = some (k'.tcbs t).savedState
  current : k'.currentTcb = k.currentTcb
  slots : k'.slots = k.slots

theorem saveCurrent_saved (hk : saveCurrent k = .ok k') : Saved k k' := by
  unfold saveCurrent at hk
  split at hk
  · next c hc =>
    split at hk
    · unfold saveTcbState at hk
      split at hk
      · next f hf =>
        cases hk
        refine ⟨fun t ht => ?_, modifyTcb_field _ _ fun _ => rfl, modifyTcb_field _ _ fun _ => rfl,
          fun t ht _ => ?_, rfl, rfl⟩
        · rw [Kernel.modifyTcb_tcbs, if_neg fun e => ht (by rw [hc, e])]
        · cases hc.symm.trans ht
          rw [Kernel.modifyTcb_tcbs, if_pos rfl]
          exact hf
      · cases hk
    · next hdead =>
      cases hk
      refine ⟨fun _ _ => rfl, fun _ => rfl, fun _ => rfl, fun t ht hlive => ?_, rfl, rfl⟩
      cases hc.symm.trans ht
      exact absurd (by simpa using hdead) hlive
  · next hc =>
    cases hk
    refine ⟨fun _ _ => rfl, fun _ => rfl, fun _ => rfl, fun t ht => ?_, rfl, rfl⟩
    rw [hc] at ht
    cases ht

theorem setState_field {α : Type} (state : TaskState) (g : Tcb → α)
    (hg : ∀ c, g { c with state := state } = g c) (x : Word) :
    g ((k.setState t state).tcbs x) = g (k.tcbs x) :=
  modifyTcb_field _ g hg x

theorem Saved.reschedule {k₁ : Kernel} (h : Saved k k₁) (hk : rescheduleCurrent k₁ = .ok k') :
    Saved k k' := by
  unfold rescheduleCurrent at hk
  split at hk
  · next c hc =>
    split at hk
    · next hrunning =>
      simp only [scheduleTcb, bind_eq_ok, pure_eq_ok] at hk
      obtain ⟨-, -, nodes, -, rfl⟩ := hk
      have hcurrent := h.current.symm.trans hc
      have hlive : (k₁.tcbs c).state ≠ .dead := by
        rw [show (k₁.tcbs c).state = .running by simpa using hrunning]
        decide
      refine ⟨fun t ht => ?_, fun t => ?_, fun t => ?_, fun t ht _ => ?_, h.current, h.slots⟩
      · have hne : t ≠ c := fun e => ht (hcurrent.trans (congrArg some e.symm))
        have hkept : (k₁.setState c .runnable).tcbs t = k₁.tcbs t :=
          (Kernel.modifyTcb_tcbs ..).trans (if_neg hne)
        exact hkept.trans (h.others t ht)
      · exact (setState_field (k := k₁) .runnable Tcb.tlsBase (fun _ => rfl) t).trans (h.tls t)
      · exact (setState_field (k := k₁) .runnable Tcb.endpointBadge (fun _ => rfl) t).trans (h.badge t)
      · cases hcurrent.symm.trans ht
        refine (h.frame c ht hlive).trans (congrArg some ?_)
        exact (setState_field (k := k₁) .runnable Tcb.savedState (fun _ => rfl) c).symm
    · cases hk
      exact h
  · cases hk
    exact h

/-- What the way back does with the frames and bases of the threads. -/
structure Returned (dm : DirectMap) (k k' : Kernel) : Prop where
  tls : ∀ t, (k'.tcbs t).tlsBase = (k.tcbs t).tlsBase
  badge : ∀ t, (k'.tcbs t).endpointBadge = (k.tcbs t).endpointBadge
  slots : k'.slots = k.slots
  back : ∀ t, k.currentTcb ≠ some t → k'.currentTcb = some t →
    (k'.tcbs t).savedState = ensureFrameValidForUsermode (k.tcbs t).savedState
  away : ∀ t, k.currentTcb ≠ some t → k'.currentTcb ≠ some t →
    (k'.tcbs t).savedState = (k.tcbs t).savedState
  left : ∀ t, k.currentTcb = some t → k'.currentTcb ≠ some t → (k'.tcbs t).state ≠ .dead →
    (k.tcbs t).currentUserFrame = some (k'.tcbs t).savedState
  loaded : ∀ t, k'.currentTcb = some t →
    k' = k ∨ k'.tlsBase = (k'.tcbs t).tlsBase ∧ k'.vmRoot = tcbVmRoot dm k' t

theorem Saved.entering {k₁ : Kernel} (h : Saved k k₁) :
    Returned dm k (k₁.entering dm t) := by
  have hother : ∀ {α : Type} (g : Tcb → α),
      (∀ c s f, g { c with state := s, savedState := f } = g c) →
      ∀ x, g ((k₁.entering dm t).tcbs x) = g (k₁.tcbs x) := by
    intro α g hg x
    by_cases hx : x = t
    · rw [hx, Kernel.entering_self, hg]
    · rw [Kernel.entering_ne dm k₁ hx]
  refine ⟨fun x => (hother _ (fun _ _ _ => rfl) x).trans (h.tls x),
    fun x => (hother _ (fun _ _ _ => rfl) x).trans (h.badge x), h.slots, fun x hx hback => ?_,
    fun x hx haway => ?_, fun x hx haway hlive => ?_, fun x hx => ?_⟩
  · obtain rfl := Option.some.inj hback
    rw [Kernel.entering_self, h.others t hx]
  · rw [Kernel.entering_ne dm k₁ fun e => haway (congrArg some e.symm), h.others x hx]
  · have hne : x ≠ t := fun e => haway (congrArg some e.symm)
    rw [Kernel.entering_ne dm k₁ hne] at hlive ⊢
    exact h.frame x hx hlive
  · obtain rfl := Option.some.inj hx
    exact .inr ⟨(hother Tcb.tlsBase (fun _ _ _ => rfl) t).symm, rfl⟩

theorem returnFromKernelCode_returned (hk : returnFromKernelCode dm k = .ok k') :
    Returned dm k k' := by
  unfold returnFromKernelCode at hk
  split at hk
  · cases hk
    exact ⟨fun _ => rfl, fun _ => rfl, rfl, fun t ht hback => absurd hback ht, fun _ _ _ => rfl,
      fun t ht haway => absurd ht haway, fun _ _ => .inl rfl⟩
  · split at hk
    · simp only [switchTcbActual, bind_eq_ok, pure_eq_ok, assert_eq_ok] at hk
      obtain ⟨-, -, k₁, hsave, k₂, hresched, -, -, rfl⟩ := hk
      exact ((saveCurrent_saved hsave).reschedule hresched).entering
    · simp only [bind_eq_ok, pure_eq_ok] at hk
      obtain ⟨k₁, hsave, rfl⟩ := hk
      have h := saveCurrent_saved hsave
      have hnone : ∀ t : Word, (none : Option Word) ≠ some t := fun t => by rintro ⟨⟩
      exact ⟨h.tls, h.badge, h.slots, fun t _ hback => absurd hback (hnone t),
        fun t ht _ => congrArg Tcb.savedState (h.others t ht),
        fun t ht _ hlive => h.frame t ht hlive, fun t ht => absurd ht (hnone t)⟩

/-! ## One entry -/

/-- The entry writes the registers or the TLS base of the thread. -/
def WritesContext (k : Kernel) (e : Entry) (t : Word) : Prop :=
  ∃ f, e = .syscall f ∧ (Invokes k f .tcbWriteRegisters t ∨ Invokes k f .tcbSetTlsBase t)

theorem Frame.eq_of_context {f g : Frame} (h : f.context = g.context) : f = { g with rax := f.rax } := by
  cases f
  cases g
  simp only [Frame.context, Frame.mk.injEq] at h ⊢
  simp only [h, and_self]

/-- What handling an entry leaves of the threads' contexts. -/
structure ContextsKept (k k' : Kernel) (e : Entry) : Prop where
  saved : ∀ t, WritesContext k e t ∨
    (k'.tcbs t).savedState.context = (k.tcbs t).savedState.context
  tls : ∀ t, WritesContext k e t ∨ (k'.tcbs t).tlsBase = (k.tcbs t).tlsBase
  badge : ∀ t, k.currentTcb ≠ some t → (k'.tcbs t).endpointBadge = (k.tcbs t).endpointBadge
  live : ∀ t, k.currentTcb = some t → e.frame.cs = userCs →
    (k'.tcbs t).currentUserFrame.map Frame.context = some e.frame.context
  current : k'.currentTcb = k.currentTcb
  vmRoot : k'.vmRoot = k.vmRoot
  tlsBase : ∀ t, k.currentTcb = some t → k.tlsBase = (k.tcbs t).tlsBase →
    k'.tlsBase = (k'.tcbs t).tlsBase

theorem saveFrameOnTcb_kept (k : Kernel) (e : Entry) :
    ContextsKept k (saveFrameOnTcb k e.frame) e := by
  unfold saveFrameOnTcb
  split
  · next c hc =>
    split
    · have hother : ∀ {α : Type} (g : Tcb → α), (∀ c f, g { c with currentUserFrame := f } = g c) →
          ∀ t, g ((k.modifyTcb c fun x => { x with currentUserFrame := some e.frame }).tcbs t) =
            g (k.tcbs t) :=
        fun g hg => modifyTcb_field _ g fun x => hg x _
      refine ⟨fun t => .inr (congrArg Frame.context (hother _ (fun _ _ => rfl) t)),
        fun t => .inr (hother _ (fun _ _ => rfl) t), fun t _ => hother _ (fun _ _ => rfl) t,
        fun t ht _ => ?_, rfl, rfl, fun t _ h => h.trans (hother _ (fun _ _ => rfl) t).symm⟩
      cases hc.symm.trans ht
      rw [Kernel.modifyTcb_tcbs, if_pos rfl]
      rfl
    · next hcs =>
      exact ⟨fun _ => .inr rfl, fun _ => .inr rfl, fun _ _ => rfl, fun _ _ h => absurd h hcs, rfl, rfl,
        fun _ _ h => h⟩
  · next hc =>
    refine ⟨fun _ => .inr rfl, fun _ => .inr rfl, fun _ _ => rfl, fun t ht => ?_, rfl, rfl,
      fun _ _ h => h⟩
    rw [hc] at ht
    cases ht

theorem ContextsKept.spares {e : Entry} {k₁ : Kernel} (h : ContextsKept k k₁ e)
    (hk : Spares k₁ k') : ContextsKept k k' e where
  saved t := (h.saved t).imp_right (congrArg Tcb.savedState (hk.tcbs t)).trans
  tls t := (h.tls t).imp_right (congrArg Tcb.tlsBase (hk.tcbs t)).trans
  badge t ht := (hk.badge t (h.current ▸ ht)).trans (h.badge t ht)
  live t ht hcs := (congrArg Tcb.currentUserFrame (hk.tcbs t)).trans (h.live t ht hcs)
  current := hk.current.trans h.current
  vmRoot := hk.vmRoot.trans h.vmRoot
  tlsBase t ht hbase := by
    rw [hk.tlsBase, h.tlsBase t ht hbase]
    exact (congrArg Tcb.tlsBase (hk.tcbs t)).symm

theorem ContextsKept.method {e : Entry} {k₁ : Kernel} {slot : Word} {m : Method} {mr cap : Nat → Word}
    (h : ContextsKept k k₁ e) (hhandles : Handles k e slot m mr cap)
    (hk : MethodSpares m (capPtr (k.slots slot).cap) k₁ k') : ContextsKept k k' e := by
  have hwrites : ∀ t, t = capPtr (k.slots slot).cap → m = .tcbWriteRegisters ∨ m = .tcbSetTlsBase →
      WritesContext k e t := by
    rintro t rfl hm
    obtain ⟨f, rfl, -⟩ := id hhandles
    refine ⟨f, rfl, ?_⟩
    rcases hm with rfl | rfl
    · exact .inl hhandles.invokes
    · exact .inr hhandles.invokes
  refine ⟨fun t => ?_, fun t => ?_, fun t ht => (hk.badge t).trans (h.badge t ht), fun t ht hcs => ?_,
    hk.current.trans h.current, hk.vmRoot.trans h.vmRoot,
    fun t ht hbase => hk.tlsBase t (h.current.trans ht) (h.tlsBase t ht hbase)⟩
  · rcases hk.saved t with ⟨hm, ht⟩ | hsaved
    · exact .inl (hwrites t ht (.inl hm))
    · exact (h.saved t).imp_right (congrArg Frame.context hsaved).trans
  · rcases hk.tls t with ⟨hm, ht⟩ | htls
    · exact .inl (hwrites t ht (.inr hm))
    · exact (h.tls t).imp_right htls.trans
  · rw [hk.live t]
    exact h.live t ht hcs

theorem Entry.handle_contexts {P : Platform} {fuel : Nat} {e : Entry}
    (hretype : ∀ f obj, e = .syscall f → ¬ Invokes k f .untypedRetype obj)
    (hk : e.handle P fuel k = .ok k') : ContextsKept k k' e := by
  have hsave := saveFrameOnTcb_kept k e
  rcases Entry.handle_spares hk with h | ⟨slot, m, mr, cap, r, k₁, hhandles, hinvoke, hanswer⟩
  · exact hsave.spares h
  · have hm : m ≠ .untypedRetype := by
      rintro rfl
      obtain ⟨f, rfl, -⟩ := id hhandles
      exact hretype f _ rfl hhandles.invokes
    have hmethod := invokeMethod_spares hm hinvoke
    obtain ⟨tcbs, heq, -⟩ := saveFrameOnTcb_spec k e.frame
    rw [show (saveFrameOnTcb k e.frame).slots = k.slots by rw [heq]] at hmethod
    exact (hsave.method hhandles hmethod).spares hanswer

/-- A whole entry: what it does with the contexts of all threads. -/
structure Entered (dm : DirectMap) (k k' : Kernel) (e : Entry) : Prop where
  tls : ∀ t, WritesContext k e t ∨ (k'.tcbs t).tlsBase = (k.tcbs t).tlsBase
  badge : ∀ t, k.currentTcb ≠ some t → (k'.tcbs t).endpointBadge = (k.tcbs t).endpointBadge
  away : ∀ t, k.currentTcb ≠ some t → k'.currentTcb ≠ some t →
    WritesContext k e t ∨ (k'.tcbs t).savedState.context = (k.tcbs t).savedState.context
  back : ∀ t, k.currentTcb ≠ some t → k'.currentTcb = some t → WritesContext k e t ∨
    (k'.tcbs t).savedState.context =
      (ensureFrameValidForUsermode (k.tcbs t).savedState).context
  left : ∀ t, k.currentTcb = some t → e.frame.cs = userCs → k'.currentTcb ≠ some t →
    (k'.tcbs t).state ≠ .dead → (k'.tcbs t).savedState.context = e.frame.context
  bases : ∀ t, k'.currentTcb = some t → (k.currentTcb = some t ∧ k'.vmRoot = k.vmRoot ∧
    (k.tlsBase = (k.tcbs t).tlsBase → k'.tlsBase = (k'.tcbs t).tlsBase)) ∨
      k'.tlsBase = (k'.tcbs t).tlsBase ∧ k'.vmRoot = tcbVmRoot dm k' t

theorem Entry.enter_contexts {P : Platform} {fuel : Nat} {e : Entry}
    (hretype : ∀ f obj, e = .syscall f → ¬ Invokes k f .untypedRetype obj)
    (hk : e.enter P fuel k = .ok k') : Entered P.dm k k' e := by
  simp only [Entry.enter, bind_eq_ok] at hk
  obtain ⟨k₁, hhandle, hreturn⟩ := hk
  have h₁ := Entry.handle_contexts hretype hhandle
  have h₂ := returnFromKernelCode_returned hreturn
  refine ⟨fun t => ?_, fun t ht => ?_, fun t ht haway => ?_, fun t ht hback => ?_,
    fun t ht hcs haway hlive => ?_, fun t ht => ?_⟩
  · exact (h₁.tls t).imp_right (h₂.tls t).trans
  · exact (h₂.badge t).trans (h₁.badge t ht)
  · rw [h₂.away t (by rwa [h₁.current]) haway]
    exact h₁.saved t
  · rw [h₂.back t (by rwa [h₁.current]) hback]
    refine (h₁.saved t).imp_right fun h => ?_
    rw [Frame.eq_of_context h]
    rfl
  · obtain hframe := h₂.left t (h₁.current.trans ht) haway hlive
    have hlive := h₁.live t ht hcs
    rw [hframe] at hlive
    exact Option.some.inj hlive
  · rcases h₂.loaded t ht with rfl | hloaded
    · exact .inl ⟨h₁.current.symm.trans ht, h₁.vmRoot, h₁.tlsBase t (h₁.current.symm.trans ht)⟩
    · exact .inr hloaded

theorem kernelSystem_entered {P : Platform} {e : Entry} (hs : (kernelSystem P).step k e k') :
    Entered P.dm k k' e := by
  obtain ⟨hstep, hretype⟩ := hs
  -- user code writes to the buffers before the entry; contexts are not in them
  cases hstep with
  | syscall fuel buffers f k' hk =>
    obtain ⟨htls, hbadge, haway, hback, hleft, hbases⟩ :=
      Entry.enter_contexts (k := { k with buffers }) (e := .syscall f) hretype hk
    exact ⟨htls, hbadge, haway, hback, hleft, hbases⟩
  | interrupt buffers f k' hk =>
    have henter : (Entry.interrupt f).enter P 0 { k with buffers } = .ok k' := hk
    obtain ⟨htls, hbadge, haway, hback, hleft, hbases⟩ :=
      Entry.enter_contexts (k := { k with buffers }) hretype henter
    exact ⟨htls, hbadge, haway, hback, hleft, hbases⟩

/-! ## Runs -/

/-- The thread is off the processor, and the entry does not write its context, nor invokes
a method that may write to any thread. -/
structure LeavesAlone (t : Word) (k : Kernel) (e : Entry) : Prop where
  away : k.currentTcb ≠ some t
  unwritten : ¬ WritesContext k e t
  confined : e.Confined k

/-- What is kept of a thread that is off the processor, and what it gets back. -/
inductive Keeps (dm : DirectMap) (t base badge : Word) (f : Frame) (k : Kernel) : Prop
  | away (hcurrent : k.currentTcb ≠ some t) (hsaved : (k.tcbs t).savedState.context = f.context)
      (htls : (k.tcbs t).tlsBase = base) (hbadge : (k.tcbs t).endpointBadge = badge)
  | back (hcurrent : k.currentTcb = some t)
      (hsaved : (k.tcbs t).savedState.context = (ensureFrameValidForUsermode f).context)
      (htls : k.tlsBase = base) (hroot : k.vmRoot = tcbVmRoot dm k t)
      (hbadge : (k.tcbs t).endpointBadge = badge)

theorem Keeps.step {P : Platform} {base badge : Word} {f : Frame} {e : Entry}
    (h : Keeps P.dm t base badge f k) (hok : LeavesAlone t k e)
    (hs : (kernelSystem P).step k e k') : Keeps P.dm t base badge f k' := by
  have he := kernelSystem_entered hs
  obtain ⟨haway, hwrites, -⟩ := hok
  cases h with
  | back hcurrent => exact absurd hcurrent haway
  | away _ hsaved htls hbadge =>
    have htls' := ((he.tls t).resolve_left hwrites).trans htls
    have hbadge' := (he.badge t haway).trans hbadge
    by_cases hback : k'.currentTcb = some t
    · refine .back hback ?_ ?_ ?_ hbadge'
      · rw [(he.back t haway hback).resolve_left hwrites, Frame.eq_of_context hsaved]
        rfl
      · exact (he.bases t hback).elim (fun h => absurd h.1 haway) fun h => h.1.trans htls'
      · exact (he.bases t hback).elim (fun h => absurd h.1 haway) fun h => h.2
    · exact .away hback (((he.away t haway hback).resolve_left hwrites).trans hsaved) htls' hbadge'

/-- A thread leaves the processor with the entry `e`. -/
structure Leaves (P : Platform) (k : Kernel) (e : Entry) (k' : Kernel) (t : Word) : Prop where
  step : (kernelSystem P).step k e k'
  current : k.currentTcb = some t
  user : e.frame.cs = userCs
  away : k'.currentTcb ≠ some t
  live : (k'.tcbs t).state ≠ .dead
  confined : e.Confined k

theorem Leaves.keeps {P : Platform} {e : Entry} {k₁ k₂ : Kernel} (h : Leaves P k e k₁ t)
    (hrun : ((kernelSystem P).startingAt k₁).ReachedBy (LeavesAlone t) k₂) :
    Keeps P.dm t (k₁.tcbs t).tlsBase (k₁.tcbs t).endpointBadge e.frame k₂ := by
  refine hrun.invariant ?_ fun k e k' hk hok hs => hk.step hok hs
  rintro k rfl
  exact .away h.away ((kernelSystem_entered h.step).left t h.current h.user h.away h.live) rfl rfl

/-- A thread that leaves the processor and comes back to it is given the frame it left with,
made valid for user mode, but for RAX, in its own address space and with its own TLS base. -/
theorem resumed_context {P : Platform} {e : Entry} {k₁ k₂ : Kernel} (h : Leaves P k e k₁ t)
    (hrun : ((kernelSystem P).startingAt k₁).ReachedBy (LeavesAlone t) k₂)
    (hback : k₂.currentTcb = some t) :
    (∃ w, (k₂.tcbs t).savedState = ensureFrameValidForUsermode { e.frame with rax := w }) ∧
      k₂.tlsBase = (k₁.tcbs t).tlsBase ∧ k₂.vmRoot = tcbVmRoot P.dm k₂ t := by
  cases h.keeps hrun with
  | away haway => exact absurd hback haway
  | back _ hsaved htls hroot =>
    refine ⟨⟨(k₂.tcbs t).savedState.rax, ?_⟩, htls, hroot⟩
    rw [Frame.eq_of_context hsaved]
    rfl

/-- A processor that runs user code, with a system call number in RAX. -/
def exampleCpu (number : Word) : Trap.Cpu where
  regs r := if r = .rax then number else 7#64
  sp := 0x7000#64
  memory _ := 0#64
  rip := 0x400123#64
  rflags := 0x202#64
  cs := userCs
  ss := userSs
  gsBase := 0#64
  kernelGsBase := 0xFFFFFFFF80400000#64

/-- A worker waits for the notification that an interrupt signals. -/
def interruptedKernel : Kernel :=
  { exampleKernel [workerTcb] [(5, tcbCap workerTcb)] with
    tcbs := Function.update (exampleKernel [workerTcb] []).tcbs workerTcb
      { state := .receiving, ipcBuffer := some workerTcb }
    nodes :=
      { next := fun x => some x
        prev := fun x => some x
        ops := [] }
    notifications := fun _ => { boundTcb := some workerTcb }
    irqHandlers := fun _ => { n := some exampleNotification, badge := 1#64 } }

/-- In a state with the worker running, it gives the processor back with a yield. -/
theorem yield_leavesAlone {k : Kernel} (h : k.currentTcb = some workerTcb) :
    LeavesAlone initTcb k (.syscall yieldFrame) := by
  refine ⟨by rw [h]; decide, ?_, frame_invokesOnly (by decide)⟩
  rintro ⟨f, hf, ⟨slot, ⟨hnumber, -⟩, -⟩ | ⟨slot, ⟨hnumber, -⟩, -⟩⟩ <;> cases hf <;>
    exact absurd hnumber (by decide)

/-- The boot thread makes the entry, the worker runs and yields, the boot thread goes on. -/
theorem leaves_and_returns {P : Platform} {k k₁ k₂ : Kernel} {e : Entry}
    (hstep : (kernelSystem P).step k e k₁) (hcurrent : k.currentTcb = some initTcb)
    (huser : e.frame.cs = userCs)
    (hworker : k₁.currentTcb = some workerTcb ∧ (k₁.tcbs initTcb).state = .runnable)
    (hyield : syscallEntry P 0 k₁ yieldFrame = .ok k₂) (hconfined : e.Confined k) :
    Leaves P k e k₁ initTcb ∧
      ((kernelSystem P).startingAt k₁).ReachedBy (LeavesAlone initTcb) k₂ := by
  refine ⟨⟨hstep, hcurrent, huser, by rw [hworker.1]; decide, by rw [hworker.2]; decide, hconfined⟩, ?_⟩
  exact .step (.start rfl) (yield_leavesAlone hworker.1) (syscallEntry_step hyield (by decide))

theorem result_reads {α : Type} {x : Result Kernel} {read : Kernel → α} {a : α}
    (h : x.map read = .ok a) : ∃ k, x = .ok k ∧ read k = a := by
  cases hx : x with
  | error e =>
    rw [hx] at h
    cases h
  | ok k =>
    rw [hx] at h
    exact ⟨k, rfl, Except.ok.inj h⟩

/-- What the boot thread and the worker are like after an entry. -/
def workerRuns (k : Kernel) : Option Word × TaskState := (k.currentTcb, (k.tcbs initTcb).state)

/-- The boot thread has resumed the worker; it yields, and the worker yields. -/
theorem yield_and_back : ∃ k k₁ k₂,
    Leaves examplePlatform k (.syscall (exampleCpu 3#64).syscallFrame) k₁ initTcb ∧
      ((kernelSystem examplePlatform).startingAt k₁).ReachedBy (LeavesAlone initTcb) k₂ ∧
      k₂.currentTcb = some initTcb := by
  obtain ⟨k₂, hrun, hback⟩ := runSyscalls_reads
    (show (runSyscalls examplePlatform [resumeFrame 5, (exampleCpu 3#64).syscallFrame, yieldFrame]
      (exampleKernel [workerTcb] [(5, tcbCap workerTcb)])).map Kernel.currentTcb =
        .ok (some initTcb) by decide +kernel)
  obtain ⟨k₁', hrun₁, hworker⟩ := runSyscalls_reads
    (show (runSyscalls examplePlatform [resumeFrame 5, (exampleCpu 3#64).syscallFrame]
      (exampleKernel [workerTcb] [(5, tcbCap workerTcb)])).map workerRuns =
        .ok (some workerTcb, .runnable) by decide +kernel)
  obtain ⟨k', hrun₀, hcurrent⟩ := runSyscalls_reads
    (show (runSyscalls examplePlatform [resumeFrame 5]
      (exampleKernel [workerTcb] [(5, tcbCap workerTcb)])).map Kernel.currentTcb =
        .ok (some initTcb) by decide +kernel)
  simp only [runSyscalls, bind_eq_ok, Except.ok.injEq, exists_eq_right] at hrun hrun₁ hrun₀
  obtain ⟨k, hresume, k₁, hleave, hyield⟩ := hrun
  obtain ⟨_, hresume', hleave'⟩ := hrun₁
  obtain rfl : k = _ := Except.ok.inj (hresume.symm.trans hresume')
  obtain rfl : k = _ := Except.ok.inj (hresume.symm.trans hrun₀)
  obtain rfl : k₁ = _ := Except.ok.inj (hleave.symm.trans hleave')
  obtain ⟨hleaves, hreached⟩ := leaves_and_returns (syscallEntry_step hleave (by decide)) hcurrent
    rfl (Prod.ext_iff.mp hworker) hyield (frame_invokesOnly (by decide))
  exact ⟨k, k₁, k₂, hleaves, hreached, hback⟩

theorem resumed_context_yield : ∃ (k : Kernel) (w : Word), (k.tcbs initTcb).savedState =
    ensureFrameValidForUsermode { (exampleCpu 3#64).syscallFrame with rax := w } := by
  obtain ⟨k, k₁, k₂, hleaves, hrun, hback⟩ := yield_and_back
  obtain ⟨⟨w, hsaved⟩, -⟩ := resumed_context hleaves hrun hback
  exact ⟨k₂, w, hsaved⟩

/-- A processor about to go on with a frame that lies in its memory. -/
def jumpingCpu (f : Frame) : Trap.Cpu :=
  let stack : StackMachine Trap.Reg :=
    ({ regs := fun _ => 0#64, sp := 0x10000#64, memory := fun _ => 0#64 } : StackMachine Trap.Reg).pushAll
      (Trap.frameWords f).reverse
  { exampleCpu 0#64 with memory := stack.memory, regs := fun _ => stack.sp }

theorem jumpingCpu_lies (f : Frame) : StackMachine.Lies (jumpingCpu f).memory
    ((jumpingCpu f).regs .rdi) (Trap.frameWords f) := by
  have hempty : ({ regs := fun _ => 0#64, sp := 0x10000#64, memory := fun _ => 0#64 } :
    StackMachine Trap.Reg).Holds [] := trivial
  have hholds := hempty.pushAll (Trap.frameWords f).reverse (by simp [Trap.frameWords])
  rw [List.reverse_reverse, List.append_nil] at hholds
  exact hholds

theorem jumpingCpu_notNested (f : Frame) : ¬ (jumpingCpu f).NestedTask := by
  show ¬ (0x202#64 &&& 0x4000#64 ≠ 0#64)
  decide

/-- From the instruction at which user code is interrupted to the one with which it goes on
after other threads have run and left its context alone: all registers are as they
were, but for RAX and the interrupt flag, with the GS bases of the processor that goes
on. `iretq` needs NT clear there. -/
theorem interrupted_thread_continues {P : Platform} (alu : Word → Word → Word → Word)
    {c c' : Trap.Cpu} {intNo errCode : Word} {k₁ k₂ : Kernel}
    (h : Leaves P k (.interrupt (c.frame intNo errCode)) k₁ t)
    (hrun : ((kernelSystem P).startingAt k₁).ReachedBy (LeavesAlone t) k₂)
    (hback : k₂.currentTcb = some t) (_hnested : ¬ c'.NestedTask)
    (hframe : StackMachine.Lies c'.memory (c'.regs .rdi) (Trap.frameWords (k₂.tcbs t).savedState)) :
    ∃ w, c'.run alu Trap.jumpToUserlandFrame = { c with
      regs := Function.update c.regs .rax w
      rflags := c.rflags ||| flagIf
      ss := userSs
      memory := c'.memory
      gsBase := c'.kernelGsBase
      kernelGsBase := c'.gsBase } := by
  obtain ⟨⟨w, hsaved⟩, -⟩ := resumed_context h hrun hback
  have huser : c.cs = userCs := h.user
  refine ⟨w, ?_⟩
  rw [Trap.run_jumpToUserlandFrame alu hframe, hsaved, Trap.Cpu.resumed_user c' rfl]
  refine Trap.Cpu.ext (funext fun r => ?_) rfl rfl rfl rfl huser.symm rfl rfl rfl
  cases r <;> rfl

/-- The boot thread is interrupted, for a worker that waits for the interrupt. -/
theorem interrupted_thread_continues_irq : ∃ (c' : Trap.Cpu) (w : Word),
    c'.run (fun flags _ _ => flags) Trap.jumpToUserlandFrame = { exampleCpu 0#64 with
      regs := Function.update (exampleCpu 0#64).regs .rax w
      rflags := 0x202#64 ||| flagIf
      ss := userSs
      memory := c'.memory
      gsBase := c'.kernelGsBase
      kernelGsBase := c'.gsBase } := by
  obtain ⟨k₂, hrun, hback⟩ := result_reads
    (show ((interruptEntry examplePlatform interruptedKernel ((exampleCpu 0#64).frame 33#64 0#64) >>= fun k =>
      syscallEntry examplePlatform 0 k yieldFrame).map Kernel.currentTcb) =
        .ok (some initTcb) by decide +kernel)
  obtain ⟨k₁', hrun₁, hworker⟩ := result_reads
    (show ((interruptEntry examplePlatform interruptedKernel ((exampleCpu 0#64).frame 33#64 0#64)).map
      workerRuns) = .ok (some workerTcb, .runnable) by decide +kernel)
  simp only [bind_eq_ok] at hrun
  obtain ⟨k₁, hirq, hyield⟩ := hrun
  obtain rfl : k₁ = _ := Except.ok.inj (hirq.symm.trans hrun₁)
  have hstep : (kernelSystem examplePlatform).step interruptedKernel
      (.interrupt ((exampleCpu 0#64).frame 33#64 0#64)) k₁ :=
    ⟨.interrupt interruptedKernel.buffers _ k₁ hirq, by rintro f obj ⟨⟩⟩
  obtain ⟨hleaves, hreached⟩ := leaves_and_returns hstep rfl rfl (Prod.ext_iff.mp hworker) hyield
    (interrupt_confined _ _)
  obtain ⟨w, hw⟩ := interrupted_thread_continues (fun flags _ _ => flags) hleaves hreached hback
    (jumpingCpu_notNested _) (jumpingCpu_lies (k₂.tcbs initTcb).savedState)
  exact ⟨_, w, hw⟩

/-- The same for a system call; RCX and R11 hold what `syscall` put there. -/
theorem calling_thread_continues {P : Platform} (alu : Word → Word → Word → Word)
    {c c' : Trap.Cpu} {k₁ k₂ : Kernel} (h : Leaves P k (.syscall c.syscallFrame) k₁ t)
    (hrun : ((kernelSystem P).startingAt k₁).ReachedBy (LeavesAlone t) k₂)
    (hback : k₂.currentTcb = some t) (_hnested : ¬ c'.NestedTask)
    (hframe : StackMachine.Lies c'.memory (c'.regs .rdi) (Trap.frameWords (k₂.tcbs t).savedState)) :
    ∃ w, c'.run alu Trap.jumpToUserlandFrame = { c with
      regs := Function.update (Function.update (Function.update c.regs .rax w) .rcx c.rip) .r11 c.rflags
      rflags := c.rflags ||| flagIf
      cs := userCs
      ss := userSs
      memory := c'.memory
      gsBase := c'.kernelGsBase
      kernelGsBase := c'.gsBase } := by
  obtain ⟨⟨w, hsaved⟩, -⟩ := resumed_context h hrun hback
  refine ⟨w, ?_⟩
  rw [Trap.run_jumpToUserlandFrame alu hframe, hsaved, Trap.Cpu.resumed_user c' rfl]
  refine Trap.Cpu.ext (funext fun r => ?_) rfl rfl rfl rfl rfl rfl rfl rfl
  cases r <;> rfl

theorem calling_thread_continues_yield : ∃ (c' : Trap.Cpu) (w : Word),
    c'.run (fun flags _ _ => flags) Trap.jumpToUserlandFrame = { exampleCpu 3#64 with
      regs := Function.update (Function.update (Function.update (exampleCpu 3#64).regs .rax w) .rcx
        0x400123#64) .r11 0x202#64
      rflags := 0x202#64 ||| flagIf
      cs := userCs
      ss := userSs
      memory := c'.memory
      gsBase := c'.kernelGsBase
      kernelGsBase := c'.gsBase } := by
  obtain ⟨k, k₁, k₂, hleaves, hrun, hback⟩ := yield_and_back
  obtain ⟨w, hw⟩ := calling_thread_continues (fun flags _ _ => flags) hleaves hrun hback
    (jumpingCpu_notNested _) (jumpingCpu_lies (k₂.tcbs initTcb).savedState)
  exact ⟨_, w, hw⟩

/-! ## TLS bases -/

/-- The TLS base that the processor holds is that of the thread it runs. -/
def TlsLoaded (k : Kernel) : Prop := ∀ t, k.currentTcb = some t → k.tlsBase = (k.tcbs t).tlsBase

/-- It stays so in the runs whose entries invoke no method that may write to any thread;
`tcb_set_tls_base`, on others or oneself, is none of these. -/
theorem tlsBase_follows_current {P : Platform} {k₀ : Kernel} (hstart : TlsLoaded k₀)
    (h : ((kernelSystem P).startingAt k₀).ReachedBy (fun k e => e.Confined k) k) :
    TlsLoaded k := by
  refine h.invariant (fun k hk => by rwa [hk]) fun k e k' hk _ hs t ht => ?_
  rcases (kernelSystem_entered hs).bases t ht with ⟨hcurrent, -, htls⟩ | ⟨htls, -⟩
  · exact htls (hk t hcurrent)
  · exact htls

/-- The boot thread sets its own TLS base. -/
def tlsKernel : Kernel :=
  { exampleKernel [] [(5, tcbCap initTcb)] with buffers := fun _ _ => 0x5000#64 }

theorem tlsBase_follows_current_self : ∃ k, k.tlsBase = 0x5000#64 ∧ TlsLoaded k := by
  have hstart : TlsLoaded tlsKernel := by
    rintro t ⟨⟩
    decide
  obtain ⟨k, hrun, hbase⟩ := runSyscalls_reads
    (show (runSyscalls examplePlatform [callFrame 2 5 { emptyTag with length := 1, label := 11 }]
      tlsKernel).map Kernel.tlsBase = .ok 0x5000#64 by decide +kernel)
  simp only [runSyscalls, bind_eq_ok, Except.ok.injEq, exists_eq_right] at hrun
  have hreached : ((kernelSystem examplePlatform).startingAt tlsKernel).ReachedBy
      (fun k e => e.Confined k) k :=
    .step (.start rfl) (frame_invokesOnly (by decide)) (syscallEntry_step hrun (by decide))
  exact ⟨k, hbase, tlsBase_follows_current hstart hreached⟩

/-! ## Messages that wait -/

theorem getPendingIpcInfo_away (hcurrent : k.currentTcb ≠ some t) :
    getPendingIpcInfo k t = .ok (k.tcbs t).savedState.tag := by
  simp only [getPendingIpcInfo, ipcFrame, if_neg hcurrent]
  rfl

theorem sendWillBlock_kept {k₁ : Kernel} {e : Word} (hnodes : k₁.nodes = k.nodes)
    (hstate : ∀ x, (k₁.tcbs x).state = (k.tcbs x).state ∨ (k₁.tcbs x).state = .calling)
    (h : sendWillBlock k e = .ok true) : sendWillBlock k₁ e = .ok true := by
  unfold sendWillBlock at h ⊢
  rw [hnodes]
  split
  · rfl
  · next hempty =>
    rw [if_neg hempty] at h
    simp only [firstState, bind_eq_ok, pure_eq_ok] at h ⊢
    obtain ⟨_, ⟨first, hfirst, x, hx, rfl⟩, hblocks⟩ := h
    refine ⟨_, ⟨first, hnodes ▸ hfirst, x, hx, rfl⟩, ?_⟩
    rcases hstate x with hs | hs
    · rw [hs]
      exact hblocks
    · rw [hs]
      rfl

theorem endpointBadge_kept (hk : schedule k = .ok k') (x : Word) :
    (k'.tcbs x).endpointBadge = (k.tcbs x).endpointBadge := by
  simp only [schedule, bind_eq_ok] at hk
  obtain ⟨⟨next, k₁⟩, hpick, hk⟩ := hk
  have hpicked : k₁.tcbs = k.tcbs := by
    unfold pickNextTcb at hpick
    split at hpick
    · cases hpick
      rfl
    · simp only [bind_eq_ok, pure_eq_ok, Prod.mk.injEq] at hpick
      obtain ⟨⟨_, nodes⟩, -, -, -, -, rfl⟩ := hpick
      rfl
  cases next with
  | none =>
    dsimp only at hk
    split at hk <;> cases hk <;> exact congrArg Tcb.endpointBadge (congrFun hpicked x)
  | some t =>
    cases hk
    have hswitch := setState_field (k := k₁) (t := t) .runnable Tcb.endpointBadge (fun _ => rfl) x
    exact hswitch.trans (congrArg Tcb.endpointBadge (congrFun hpicked x))

theorem queueMessageOnEndpoint_badge {e b this : Word} {tag : MessageTag} {isCall : Bool}
    (hthis : k.currentTcb = some this) (hk : queueMessageOnEndpoint k e b tag isCall = .ok k') :
    (k'.tcbs this).endpointBadge = b := by
  simp only [queueMessageOnEndpoint, bind_eq_ok, thisTcb, deref_eq_ok] at hk
  obtain ⟨t, ht, -, -, -, -, nodes, -, hk⟩ := hk
  cases hthis.symm.trans ht
  rw [endpointBadge_kept hk, Kernel.modifyTcb_tcbs, if_pos rfl]

/-- A send or call that finds no receiver keeps the badge of its capability. -/
theorem opSyscallOn_badge {P : Platform} {fuel : Nat} {slot this : Word} {info tag : MessageTag}
    {number : SyscallNumber} (hthis : k.currentTcb = some this) (hnumber : number = .send ∨ number = .call)
    (htype : (k.slots slot).cap.type = .endpoint)
    (hblock : sendWillBlock k (capPtr (k.slots slot).cap) = .ok true)
    (hk : opSyscallOn P fuel k slot info (some number) = .ok (tag, k')) :
    tag = .noreturn ∧ (k'.tcbs this).endpointBadge = (k.slots slot).cap.badge := by
  rcases hnumber with rfl | rfl
  · simp only [opSyscallOn, htype, reduceCtorEq, if_false, if_true, bind_eq_ok, pure_eq_ok,
      Prod.mk.injEq, invokeEndpointSend, thisTcb, deref_eq_ok] at hk
    obtain ⟨k₁, ⟨-, -, x, hx, hsend⟩, rfl, rfl⟩ := hk
    cases hthis.symm.trans hx
    have hwill : sendWillBlock (setExpectsReply k this false) (capPtr (k.slots slot).cap) = .ok true :=
      sendWillBlock_kept (k := k) rfl
        (fun x => .inl (modifyTcb_field (fun c => { c with expectsReply := false }) _ (fun _ => rfl) x))
        hblock
    simp only [endpointSend, hwill, bind_eq_ok, Except.ok.injEq, exists_eq_left', if_true] at hsend
    exact ⟨rfl, queueMessageOnEndpoint_badge (k := setExpectsReply k this false) hthis hsend⟩
  · simp only [opSyscallOn, htype, ne_eq, not_true_eq_false, if_false, bind_eq_ok, pure_eq_ok,
      Prod.mk.injEq, invokeEndpointCall, thisTcb, deref_eq_ok] at hk
    obtain ⟨k₁, ⟨-, -, x, hx, hsend⟩, rfl, rfl⟩ := hk
    cases hthis.symm.trans hx
    have hwill : sendWillBlock (((setExpectsReply k this true).setState this .calling).noted
        (.called this)) (capPtr (k.slots slot).cap) = .ok true := by
      refine sendWillBlock_kept (k := k) rfl (fun x => ?_) hblock
      by_cases hx : x = this
      · exact .inr (by simp [hx, Kernel.noted, Kernel.setState, Kernel.modifyTcb])
      · exact .inl (by simp [hx, Kernel.noted, Kernel.setState, Kernel.modifyTcb, setExpectsReply])
    have hcalling : (((setExpectsReply k this true).setState this .calling).noted
        (.called this)).currentTcb = some this := hthis
    generalize ((setExpectsReply k this true).setState this .calling).noted (.called this) = k₂
      at hsend hwill hcalling
    simp only [endpointSend, hwill, bind_eq_ok, Except.ok.injEq, exists_eq_left', if_true] at hsend
    exact ⟨rfl, queueMessageOnEndpoint_badge hcalling hsend⟩

/-- The entry sends or calls on an endpoint on which no receiver waits. -/
structure Queues (k : Kernel) (f : Frame) (badge : Word) : Prop where
  asks : ∃ slot, (Asks k f .send slot ∨ Asks k f .call slot) ∧
    (k.slots slot).cap.type = .endpoint ∧ (k.slots slot).cap.badge = badge ∧
    sendWillBlock k (capPtr (k.slots slot).cap) = .ok true

theorem Queues.badge {P : Platform} {f : Frame} {b : Word} (h : Queues k f b)
    (hs : (kernelSystem P).step k (.syscall f) k') (hcurrent : k.currentTcb = some t)
    (hcs : f.cs = userCs) : (k'.tcbs t).endpointBadge = b := by
  obtain ⟨slot, hasks, htype, rfl, hblock⟩ := h
  obtain ⟨hstep, -⟩ := hs
  obtain ⟨number, hnumber, hnumbers, x, hx, hslot⟩ : ∃ number, f.number = some number ∧
      (number = .send ∨ number = .call) ∧ ∃ t, k.currentTcb = some t ∧
        lookupCapSlot k.slots (cspaceRootOf t) f.rdi 64#64 = .ok (.ok slot) := by
    rcases hasks with ⟨hn, hx⟩ | ⟨hn, hx⟩
    · exact ⟨_, hn, .inl rfl, hx⟩
    · exact ⟨_, hn, .inr rfl, hx⟩
  cases hcurrent.symm.trans hx
  cases hstep with
  | syscall fuel buffers f k' hk =>
    have hplain : opSyscallPlain (({ k with buffers } : Kernel).withFrame t f) f.tag number = none := by
      rcases hnumbers with rfl | rfl <;> rfl
    rw [syscallEntry_on P fuel (k := { k with buffers }) hcs hnumber hcurrent hslot hplain] at hk
    simp only [bind_eq_ok] at hk
    obtain ⟨⟨tag, k₁⟩, hop, k₂, hfinish, hreturn⟩ := hk
    have hwill : sendWillBlock (({ k with buffers } : Kernel).withFrame t f)
        (capPtr (k.slots slot).cap) = .ok true :=
      sendWillBlock_kept (k := k) rfl (fun x => .inl
        (modifyTcb_field (k := { k with buffers }) (fun c => { c with currentUserFrame := some f })
          Tcb.state (fun _ => rfl) x)) hblock
    obtain ⟨rfl, hbadge⟩ := opSyscallOn_badge (k := ({ k with buffers } : Kernel).withFrame t f)
      hcurrent hnumbers htype hwill hop
    have hno : MessageTag.noreturn.isNoreturn = true := by decide
    simp only [finishSyscall, hno, if_true, Except.ok.injEq] at hfinish
    rw [← hfinish] at hreturn
    exact ((returnFromKernelCode_returned hreturn).badge t).trans hbadge

/-- While a message waits on an endpoint and other threads leave the sender's context alone,
the tag and badge with which a receiver will get it are those of the send. -/
theorem queued_message_kept {P : Platform} {f : Frame} {b : Word} {k₁ k₂ : Kernel}
    (hqueues : Queues k f b) (h : Leaves P k (.syscall f) k₁ t)
    (hrun : ((kernelSystem P).startingAt k₁).ReachedBy (LeavesAlone t) k₂)
    (haway : k₂.currentTcb ≠ some t) :
    getPendingIpcInfo k₂ t = .ok f.tag ∧ (k₂.tcbs t).endpointBadge = b := by
  cases h.keeps hrun with
  | back hback => exact absurd hback haway
  | away _ hsaved _ hbadge =>
    rw [getPendingIpcInfo_away haway, Frame.eq_of_context hsaved]
    exact ⟨rfl, hbadge.trans (hqueues.badge h.step h.current h.user)⟩

/-- The boot thread sends through a capability with badge 7 in slot 6. -/
def blockedSendKernel : Kernel :=
  exampleKernel [workerTcb]
    [(5, tcbCap workerTcb), (6, { endpointCap exampleEndpoint with badge := 7#64 })]

theorem queued_message_kept_send : ∃ k, getPendingIpcInfo k initTcb = .ok emptyTag ∧
    (k.tcbs initTcb).endpointBadge = 7#64 := by
  obtain ⟨k₁, hrun, hworker⟩ := runSyscalls_reads
    (show (runSyscalls examplePlatform [resumeFrame 5, sendFrame 6] blockedSendKernel).map workerRuns =
      .ok (some workerTcb, .sending) by decide +kernel)
  obtain ⟨k', hrun₀, hbefore⟩ := runSyscalls_reads
    (show (runSyscalls examplePlatform [resumeFrame 5] blockedSendKernel).map
      (fun k => (k.currentTcb, (k.slots (cspaceRootOf initTcb)).cap, (k.slots (initSlot 6)).cap.type,
        (k.slots (initSlot 6)).cap.badge, sendWillBlock k (capPtr (k.slots (initSlot 6)).cap))) =
      .ok (some initTcb, ({ type := .cnode, sizeBits := 12 } : Cap).withPtr initCnode, .endpoint,
        7#64, .ok true) by decide +kernel)
  simp only [runSyscalls, bind_eq_ok, Except.ok.injEq, exists_eq_right] at hrun hrun₀
  obtain ⟨k, hresume, hsend⟩ := hrun
  obtain rfl : k = _ := Except.ok.inj (hresume.symm.trans hrun₀)
  simp only [Prod.mk.injEq, workerRuns] at hbefore hworker
  obtain ⟨hcurrent, hroot, htype, hbadge, hblock⟩ := hbefore
  have hslot : lookupCapSlot k.slots (cspaceRootOf initTcb) 6#64 64#64 = .ok (.ok (initSlot 6)) := by
    refine lookupCapSlot_eq_ok.mpr (lookupCapSlotRaw_eq_ok.mpr ?_)
    rw [hroot]
    exact ⟨rfl, by decide, by decide, by decide⟩
  have hqueues : Queues k (sendFrame 6) 7#64 :=
    ⟨initSlot 6, .inl ⟨by decide, initTcb, hcurrent, hslot⟩, htype, hbadge, hblock⟩
  have haway : k₁.currentTcb ≠ some initTcb := by
    rw [hworker.1]
    decide
  have hleaves : Leaves examplePlatform k (.syscall (sendFrame 6)) k₁ initTcb :=
    ⟨syscallEntry_step hsend (by decide), hcurrent, rfl, haway, by rw [hworker.2]; decide,
      frame_invokesOnly (by decide)⟩
  exact ⟨k₁, queued_message_kept hqueues hleaves (.start rfl) haway⟩

end Tern
