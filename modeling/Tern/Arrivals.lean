import Tern.Refinement

/-! In which order lists are served: what is popped from a list is what came last.
First any sequence of calls on lists of any kind, then the run queue and the wait
queues of the kernel, which are such lists. -/

namespace Tern

open Lib Lib.Ledger

/-! ## Lists -/

/-- Sequences of enqueue and dequeue operations on the lists of the heads `H`, and
of removals. What is appended is no head and in no list, what is popped or removed
is an element. -/
def listSystem {α : Type} [DecidableEq α] (H : α → Prop) : Transition (Lists α) (ListOp α) where
  start L := Rings L.toLinks H (fun _ => []) ∧ L.ops = []
  step L op L' := match op with
    | .append new head => H head ∧ ¬ H new ∧ (∀ h, new ∉ (ledger L.ops).arrived h) ∧
        appendToList L new head = .ok L'
    | .pop x head => H head ∧ x ≠ head ∧ popFromList L head = .ok (x, L')
    | .remove entry => (∃ head, H head ∧ entry ∈ (ledger L.ops).arrived head) ∧
        removeFromList L entry = .ok L'

section

variable {α : Type} [DecidableEq α] {H : α → Prop}

/-- The calls keep the lists in order. -/
theorem listSystem_listed {L : Lists α} (h : (listSystem H).Reached L) : ∃ Q, Listed L H Q := by
  refine h.invariant (I := fun L => ∃ Q, Listed L H Q) ?_ ?_
  · rintro L ⟨hrings, hops⟩
    exact ⟨_, hrings, fun _ _ => rfl, hops ▸ .new⟩
  · rintro L op L' ⟨Q, hL⟩ - hstep
    cases op with
    | append new head =>
      obtain ⟨hh, hnew, hfree, happend⟩ := hstep
      exact ⟨_, hL.append hh ⟨hnew, fun g _ hm => hfree g (hL.recorded.mem_arrived.mpr hm)⟩ happend⟩
    | pop x head =>
      obtain ⟨hh, hx, hpop⟩ := hstep
      obtain ⟨m, -, hL'⟩ := hL.pop hh hx hpop
      exact ⟨_, hL'⟩
    | remove entry =>
      obtain ⟨⟨head, hh, hm⟩, hremove⟩ := hstep
      exact ⟨_, hL.remove hh (hL.recorded.mem_arrived.mp hm) hremove⟩

end

/-! ## The kernel -/

/-- The lists of the kernel are those that its calls have made. -/
theorem kernel_listed {P : Platform} {k : Kernel} (h : (kernelSystem P).ReachedBy ListSafe k) :
    ∃ v, Represents k v ∧ v.Consistent := by
  obtain ⟨v, hrep, hv, -⟩ := reachedBy_consistent (J := fun _ => True)
    (fun k e v m w hrep _ _ hok hm ha => hok.safe hrep hm ha) (fun _ _ => trivial)
    (fun _ _ _ _ _ _ _ _ _ _ _ _ _ _ => trivial) h
  exact ⟨v, hrep, hv⟩

/-- For every sequence of enqueue and dequeue operations on lists, and for the run
queue and the wait queues in every run of the kernel that keeps them in order: what
is taken out is taken out in the order it was put in exactly as long as nothing else
is there when it is. -/
theorem served_in_order_iff (P : Platform) :
    (∀ (α : Type) [DecidableEq α] (H : α → Prop) (L : Lists α), (listSystem H).Reached L →
      ∀ head, (ledger L.ops).inOrder head ↔ (ledger L.ops).alone head) ∧
    ∀ k, (kernelSystem P).ReachedBy QueueingSafe k →
      ∀ head, (ledger k.nodes.ops).inOrder head ↔ (ledger k.nodes.ops).alone head := by
  constructor
  · intro α _ H L hL head
    obtain ⟨Q, hQ⟩ := listSystem_listed hL
    exact hQ.recorded.inOrder_iff head
  · intro k hk head
    obtain ⟨v, hrep, -⟩ := kernel_listed (hk.mono fun _ _ h => h.toListSafe)
    exact hrep.recorded.inOrder_iff head

/-! ## Three threads on the run queue -/

/-- The boot thread holds the worker in slot 5 and the helper in slot 6. -/
def crowdKernel : Kernel :=
  exampleKernel [workerTcb, helperTcb] [(5, tcbCap workerTcb), (6, tcbCap helperTcb)]

theorem crowdKernel_booted : Booted crowdKernel := exampleKernel_booted _ _

theorem resumeFirst_safe : QueueingSafe crowdKernel (.syscall (resumeFrame 5)) := by
  have hslot : lookupCapSlot crowdKernel.slots (cspaceRootOf initTcb) (resumeFrame 5).rdi 64#64 =
      .ok (.ok (initSlot 5)) := by decide +kernel
  exact ⟨crowdKernel_booted.resume_safe (by decide) rfl hslot (by decide +kernel),
    frame_invokesOnly (by decide)⟩

theorem yield_safe (k : Kernel) : QueueingSafe k (.syscall yieldFrame) := by
  refine ⟨⟨?_, ?_⟩, frame_invokesOnly (by decide)⟩
  · rintro u ⟨slot, ⟨hn, -⟩, -⟩
    cases hn
  · rintro t c (hn | ⟨slot, ⟨hn, -⟩, -⟩) <;> cases hn

/-- With the worker alone on the run queue, the helper may be resumed. -/
theorem resumeSecond_safe {k : Kernel} (hk : (kernelSystem examplePlatform).ReachedBy ListSafe k)
    (hcurrent : k.currentTcb = some initTcb) (hhelper : (k.tcbs helperTcb).state = .runnable)
    (hslot : lookupCapSlot k.slots (cspaceRootOf initTcb) (resumeFrame 6).rdi 64#64 =
      .ok (.ok (initSlot 6)))
    (hcap : capPtr (k.slots (initSlot 6)).cap = helperTcb)
    (hworker : k.nodes.Ring .runnableTcbs [.run workerTcb]) :
    QueueingSafe k (.syscall (resumeFrame 6)) := by
  obtain ⟨v, hrep, hv⟩ := kernel_listed hk
  have hqueue : v.runQueue.map Node.run = [.run workerTcb] := by
    have hring : k.nodes.Ring .runnableTcbs (v.runQueue.map .run) :=
      hrep.rings.ring .runnableTcbs trivial
    exact hring.unique hworker (by simp) (by simp)
  refine ⟨⟨?_, ?_⟩, frame_invokesOnly (by decide)⟩
  · rintro u ⟨slot, ⟨-, t, ht, hlookup⟩, -, -, rfl⟩
    cases hcurrent.symm.trans ht
    cases hslot.symm.trans hlookup
    rw [hcap]
    refine ⟨by rw [hcurrent]; decide, fun hm => ?_, ?_⟩
    · have hmem := List.mem_map_of_mem (f := Node.run) (hrep.inRunQueue_iff.mp hm)
      rw [hqueue, List.mem_singleton] at hmem
      exact absurd (Node.run.inj hmem) (by decide)
    · exact hrep.unlinked_iff.mpr (hv.queued.unlinked_of_state (.inl ((hrep.state _).symm.trans hhelper)))
  · rintro t c (hn | ⟨slot, ⟨hn, -⟩, -⟩) <;> cases hn
/-- The boot thread resumes the worker and the helper, which came last, and yields. -/
theorem crowd_reached : ∃ k, (kernelSystem examplePlatform).ReachedBy QueueingSafe k ∧
    k.nodes.ops = [.append (.run initTcb) .runnableTcbs, .pop (.run helperTcb) .runnableTcbs,
      .append (.run helperTcb) .runnableTcbs, .append (.run workerTcb) .runnableTcbs] := by
  have hrun : (do
      let k₁ ← syscallEntry examplePlatform 0 crowdKernel (resumeFrame 5)
      let k₂ ← syscallEntry examplePlatform 0 k₁ (resumeFrame 6)
      let k₃ ← syscallEntry examplePlatform 0 k₂ yieldFrame
      let links := [k₁.nodes.next .runnableTcbs, k₁.nodes.next (.run workerTcb),
        k₁.nodes.prev .runnableTcbs, k₁.nodes.prev (.run workerTcb)]
      return (k₁.currentTcb, links, decide ((k₁.tcbs helperTcb).state = .runnable ∧
        (k₁.slots (initSlot 6)).cap = tcbCap helperTcb ∧
        lookupCapSlot k₁.slots (cspaceRootOf initTcb) (resumeFrame 6).rdi 64#64 =
          .ok (.ok (initSlot 6))), k₃.nodes.ops)) =
      (.ok (some initTcb,
        [some (.run workerTcb), some .runnableTcbs, some (.run workerTcb), some .runnableTcbs],
        true, [.append (.run initTcb) .runnableTcbs, .pop (.run helperTcb) .runnableTcbs,
          .append (.run helperTcb) .runnableTcbs, .append (.run workerTcb) .runnableTcbs]) :
        Result _) := by decide +kernel
  simp only [bind_eq_ok, pure_eq_ok, Prod.mk.injEq, List.cons.injEq, and_true,
    decide_eq_true_eq] at hrun
  obtain ⟨k₁, h₁, k₂, h₂, k₃, h₃, hcurrent, hlinks, ⟨hhelper, hcap, hslot⟩, hops⟩ := hrun
  have hk₁ := Lib.Transition.ReachedBy.step (.start crowdKernel_booted) resumeFirst_safe
    (syscallEntry_step h₁ (by decide))
  have hring : k₁.nodes.Ring .runnableTcbs [.run workerTcb] :=
    ⟨⟨hlinks.1, hlinks.2.2.2⟩, hlinks.2.1, hlinks.2.2.1⟩
  have hsecond := resumeSecond_safe (hk₁.mono fun _ _ h => h.toListSafe) hcurrent hhelper hslot
    (by rw [hcap]; decide) hring
  have hk₂ := Lib.Transition.ReachedBy.step hk₁ hsecond (syscallEntry_step h₂ (by decide))
  exact ⟨k₃, .step hk₂ (yield_safe k₂) (syscallEntry_step h₃ (by decide)), hops⟩

/-- The worker is resumed, and the boot thread and the worker yield to each other. -/
theorem turns_reached : ∃ k, (kernelSystem examplePlatform).ReachedBy QueueingSafe k ∧
    k.nodes.ops = [.append (.run workerTcb) .runnableTcbs, .pop (.run initTcb) .runnableTcbs,
      .append (.run initTcb) .runnableTcbs, .pop (.run workerTcb) .runnableTcbs,
      .append (.run workerTcb) .runnableTcbs] := by
  have hrun : (do
      let k₁ ← syscallEntry examplePlatform 0 crowdKernel (resumeFrame 5)
      let k₂ ← syscallEntry examplePlatform 0 k₁ yieldFrame
      let k₃ ← syscallEntry examplePlatform 0 k₂ yieldFrame
      return k₃.nodes.ops) =
      (.ok [.append (.run workerTcb) .runnableTcbs, .pop (.run initTcb) .runnableTcbs,
        .append (.run initTcb) .runnableTcbs, .pop (.run workerTcb) .runnableTcbs,
        .append (.run workerTcb) .runnableTcbs] : Result _) := by decide +kernel
  simp only [bind_eq_ok, pure_eq_ok] at hrun
  obtain ⟨k₁, h₁, k₂, h₂, k₃, h₃, hops⟩ := hrun
  have hk₁ := Lib.Transition.ReachedBy.step (.start crowdKernel_booted) resumeFirst_safe
    (syscallEntry_step h₁ (by decide))
  have hk₂ := Lib.Transition.ReachedBy.step hk₁ (yield_safe k₁) (syscallEntry_step h₂ (by decide))
  exact ⟨k₃, .step hk₂ (yield_safe k₂) (syscallEntry_step h₃ (by decide)), hops⟩

/-- The worker and the boot thread are picked in the order they came, each alone; with the
worker there as well, the helper is picked, which came after it. -/
theorem served_in_order_iff_crowd : ∃ k k',
    (kernelSystem examplePlatform).ReachedBy QueueingSafe k ∧
    (kernelSystem examplePlatform).ReachedBy QueueingSafe k' ∧
    .pop (.run initTcb) .runnableTcbs ∈ k.nodes.ops ∧
    (ledger k.nodes.ops).inOrder .runnableTcbs ∧
    .pop (.run helperTcb) .runnableTcbs ∈ k'.nodes.ops ∧
    ¬ (ledger k'.nodes.ops).inOrder .runnableTcbs := by
  obtain ⟨k, hk, hops⟩ := turns_reached
  obtain ⟨k', hk', hops'⟩ := crowd_reached
  refine ⟨k, k', hk, hk', by simp [hops], ?_, by simp [hops'], ?_⟩
  · refine ((served_in_order_iff examplePlatform).2 k hk _).mpr ?_
    simp [hops, ledger, serve, leave, enter, Ledger.new]
  · rw [(served_in_order_iff examplePlatform).2 k' hk']
    simp [hops', ledger, serve, leave, enter, Ledger.new, workerTcb, helperTcb]

/-! ## The last comes first -/

/-- All lists as at boot. -/
def emptyLists : Lists Node := (exampleKernel [] []).nodes

theorem emptyLists_start : (listSystem Node.IsHead).start emptyLists := by
  have hrings := (exampleKernel_booted [] []).represents.rings
  have hmembers : (bootView (exampleKernel [] [])).members = fun _ => [] := by
    funext x
    cases x <;> rfl
  rw [hmembers] at hrings
  exact ⟨hrings, rfl⟩

/-- The worker is made runnable, -/
def oneRunnable : Lists Node := emptyLists.appended (.run workerTcb) .runnableTcbs .runnableTcbs

/-- then the boot thread, -/
def twoRunnable : Lists Node :=
  oneRunnable.appended (.run initTcb) .runnableTcbs (.run workerTcb)

/-- and the next thread is picked. -/
def bootPicked : Lists Node :=
  { twoRunnable.removed (.run initTcb) .runnableTcbs (.run workerTcb) with
    ops := .pop (.run initTcb) .runnableTcbs :: twoRunnable.ops }

theorem bootPicked_reached : (listSystem Node.IsHead).Reached bootPicked := by
  have hone : (listSystem Node.IsHead).Reached oneRunnable := by
    refine .step (l := .append (.run workerTcb) .runnableTcbs) (.start emptyLists_start) trivial ?_
    exact ⟨trivial, id, fun _ => List.not_mem_nil, appendToList_eq_ok.mpr ⟨_, rfl, rfl⟩⟩
  have htwo : (listSystem Node.IsHead).Reached twoRunnable := by
    refine .step (l := .append (.run initTcb) .runnableTcbs) hone trivial ?_
    refine ⟨trivial, id, fun h => ?_, appendToList_eq_ok.mpr ⟨_, rfl, rfl⟩⟩
    cases h <;> simp [oneRunnable, emptyLists, exampleKernel, Kernel.blank, Lists.appended, ledger,
      enter, Ledger.new, workerTcb, initTcb]
  refine .step (l := .pop (.run initTcb) .runnableTcbs) htwo trivial ⟨trivial, by rintro ⟨⟩, ?_⟩
  exact popFromList_eq_ok.mpr ⟨rfl, _, removeFromList_eq_ok.mpr ⟨_, _, rfl, rfl, rfl⟩, rfl⟩

/-- The boot thread, appended after the worker, is popped before it, and in a run of the
kernel the helper is picked before the worker. -/
theorem last_in_first_out :
    (¬ ∀ L, (listSystem Node.IsHead).Reached L → ∀ head, (ledger L.ops).inOrder head) ∧
    ¬ ∀ k, (kernelSystem examplePlatform).ReachedBy QueueingSafe k →
      ∀ head, (ledger k.nodes.ops).inOrder head := by
  constructor
  · intro h
    have hserved := h bootPicked bootPicked_reached .runnableTcbs
    simp [bootPicked, twoRunnable, oneRunnable, emptyLists, exampleKernel, Kernel.blank,
      Lists.appended, ledger, serve, leave, enter, Ledger.new, workerTcb, initTcb] at hserved
  · intro h
    obtain ⟨k, hk, hops⟩ := crowd_reached
    have hserved := h k hk .runnableTcbs
    simp [hops, ledger, serve, leave, enter, Ledger.new, workerTcb, helperTcb] at hserved

end Tern
