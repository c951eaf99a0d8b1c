import Mathlib.Data.Fintype.Fin
import Mathlib.Data.Fintype.EquivFin
import Tern.Lib.Tickets
import Tern.Lib.Transition

/-! The ticket lock and the reader-writer lock, as an interleaving of their
atomic operations: one step is one fetch-and-add or one load by one thread. -/

namespace Tern

open Lib

/-- `struct spin_lock`. -/
structure SpinLock where
  front : BitVec 32
  back : BitVec 32
  deriving DecidableEq, Repr

/-- `atomic_fetch_add_explicit (&lock->back, 1, ...)`: the old value is the ticket. -/
def SpinLock.fetchBack (l : SpinLock) : SpinLock := { l with back := l.back + 1#32 }

/-- `spin_unlock`. -/
def SpinLock.unlock (l : SpinLock) : SpinLock := { l with front := l.front + 1#32 }

/-! ## The ticket lock -/

/-- Where a CPU is: outside, in the loop of `spin_lock`, or between its return
and `spin_unlock`. -/
inductive SpinPoint
  | outside | spinning | inside
  deriving DecidableEq, Repr

/-- The lock, and for each CPU where it is and its local variable `back`. Nothing
reads `taken` and `granted`, the orders of the fetch-and-adds on `back` and of
the returns of `spin_lock`. -/
structure SpinState (α : Type*) where
  lock : SpinLock
  point : α → SpinPoint
  back : α → BitVec 32
  taken : List α
  granted : List α

variable {α : Type*} [DecidableEq α]

namespace SpinState

def goTo (s : SpinState α) (a : α) (p : SpinPoint) : SpinState α :=
  { s with point := Function.update s.point a p }

/-- The next atomic operation of `a`. -/
def step (s : SpinState α) (a : α) : SpinState α :=
  match s.point a with
  | .outside =>
    { s.goTo a .spinning with
      lock := s.lock.fetchBack
      back := Function.update s.back a s.lock.back
      taken := s.taken ++ [a] }
  | .spinning =>
    if s.lock.front ≠ s.back a then s
    else { s.goTo a .inside with granted := s.granted ++ [a] }
  | .inside => { s.goTo a .outside with lock := s.lock.unlock }

end SpinState

def spinSystem (α : Type*) [DecidableEq α] : Transition (SpinState α) α where
  start s := s.lock.front = s.lock.back ∧ (∀ a, s.point a = .outside) ∧ s.taken = [] ∧
    s.granted = []
  step s a t := t = s.step a

/-- The queue `q` of the CPUs with a ticket: the one inside comes first, the
others spin, and are those whose turn is yet to come. -/
structure SpinQueue (s : SpinState α) (q : List α) : Prop where
  tickets : Tickets s.back s.lock.front s.lock.back q
  member : ∀ a, a ∈ q ↔ s.point a ≠ .outside
  inside : ∀ a, s.point a = .inside → ∃ l, q = a :: l
  order : s.taken = s.granted ++ q.filter fun a => s.point a = .spinning

theorem SpinQueue.start {s : SpinState α} (h : (spinSystem α).start s) : SpinQueue s [] := by
  obtain ⟨hlock, hout, htaken, hgranted⟩ := h
  refine ⟨hlock ▸ .nil _ _, fun a => ?_, fun a ha => ?_, ?_⟩
  · simp [hout a]
  · rw [hout a] at ha
    cases ha
  · rw [htaken, hgranted]
    rfl

/-- Only where `a` is has changed. -/
theorem filter_point {p : SpinPoint} {point : α → SpinPoint} {a : α} {l : List α} (ha : a ∉ l) :
    (l.filter fun b => Function.update point a p b = .spinning) =
      l.filter fun b => point b = .spinning := by
  refine List.filter_congr fun b hb => ?_
  have hne : b ≠ a := by
    rintro rfl
    exact ha hb
  rw [Function.update_of_ne hne]

theorem SpinQueue.step [Fintype α] (hcard : Fintype.card α < 2 ^ 32) {s : SpinState α}
    {q : List α} (h : SpinQueue s q) (a : α) : ∃ q', SpinQueue (s.step a) q' := by
  unfold SpinState.step
  cases hp : s.point a with
  | outside =>
    have hnot : a ∉ q := fun hm => (h.member a).mp hm hp
    refine ⟨q ++ [a], h.tickets.take hnot, fun b => ?_, fun b hb => ?_, ?_⟩
    · rcases eq_or_ne b a with rfl | hne
      · simp [SpinState.goTo]
      · simp [SpinState.goTo, hne, h.member b]
    · rcases eq_or_ne b a with rfl | hne
      · simp [SpinState.goTo] at hb
      · obtain ⟨l, rfl⟩ := h.inside b (by simpa [SpinState.goTo, hne] using hb)
        exact ⟨l ++ [a], rfl⟩
    · simp [SpinState.goTo, List.filter_append, filter_point hnot, h.order]
  | spinning =>
    dsimp only
    split
    · exact ⟨q, h⟩
    · next hcalled =>
      have hmem : a ∈ q := (h.member a).mpr (by simp [hp])
      obtain ⟨l, rfl⟩ := h.tickets.first (h.tickets.length_le.trans hcard.le) hmem
        (not_not.mp hcalled).symm
      obtain ⟨hnot, -⟩ := List.nodup_cons.mp h.tickets.nodup
      refine ⟨a :: l, h.tickets, fun b => ?_, fun b hb => ?_, ?_⟩
      · rcases eq_or_ne b a with rfl | hne
        · simp [SpinState.goTo]
        · simpa [SpinState.goTo, hne] using h.member b
      · rcases eq_or_ne b a with rfl | hne
        · exact ⟨l, rfl⟩
        · exact h.inside b (by simpa [SpinState.goTo, hne] using hb)
      · simp [SpinState.goTo, h.order, hp, filter_point hnot]
  | inside =>
    obtain ⟨l, rfl⟩ := h.inside a hp
    obtain ⟨hnot, -⟩ := List.nodup_cons.mp h.tickets.nodup
    refine ⟨l, h.tickets.leave, fun b => ?_, fun b hb => ?_, ?_⟩
    · rcases eq_or_ne b a with rfl | hne
      · simp [SpinState.goTo, hnot]
      · simpa [SpinState.goTo, hne] using h.member b
    · rcases eq_or_ne b a with rfl | hne
      · simp [SpinState.goTo] at hb
      · obtain ⟨r, hr⟩ := h.inside b (by simpa [SpinState.goTo, hne] using hb)
        exact absurd (List.cons.inj hr).1 hne.symm
    · simp [SpinState.goTo, h.order, hp, filter_point hnot]

/-- The ticket lock excludes and is fair, for any number of CPUs below 2^32 and
wherever its counters start. -/
theorem spin_lock_exclusive [Fintype α] (hcard : Fintype.card α < 2 ^ 32) {s : SpinState α}
    (h : (spinSystem α).Reached s) :
    (∀ a b, s.point a = .inside → s.point b = .inside → a = b) ∧ s.granted <+: s.taken := by
  have hqueue : ∃ q, SpinQueue s q := by
    refine h.invariant (I := fun s => ∃ q, SpinQueue s q) (fun s hs => ⟨[], .start hs⟩) ?_
    rintro s a t ⟨q, hq⟩ - rfl
    exact hq.step hcard a
  obtain ⟨q, hq⟩ := hqueue
  refine ⟨fun a b ha hb => ?_, ⟨_, hq.order.symm⟩⟩
  obtain ⟨l, hl⟩ := hq.inside a ha
  obtain ⟨r, hr⟩ := hq.inside b hb
  exact (List.cons.inj (hl.symm.trans hr)).1

/-- Two CPUs and counters about to wrap around: CPU 0 gets the lock, CPU 1 waits. -/
theorem spin_lock_exclusive_wraps : ∃ s : SpinState (Fin 2), (spinSystem (Fin 2)).Reached s ∧
    s.lock.back = 1#32 ∧ s.point 0 = .inside ∧ s.point 1 = .spinning ∧
    (∀ a b, s.point a = .inside → s.point b = .inside → a = b) ∧ s.granted <+: s.taken := by
  let s : SpinState (Fin 2) :=
    ⟨⟨0xFFFFFFFF#32, 0xFFFFFFFF#32⟩, fun _ => .outside, fun _ => 0#32, [], []⟩
  have hs : (spinSystem (Fin 2)).Reached (((s.step 0).step 1).step 0) :=
    .step (.step (.step (.start ⟨rfl, fun _ => rfl, rfl, rfl⟩) trivial rfl) trivial rfl) trivial rfl
  exact ⟨_, hs, by decide, by decide, by decide, spin_lock_exclusive (by decide) hs⟩

/-! ## The reader-writer lock -/

/-- `struct rw_lock`. -/
structure RwLock where
  gate : SpinLock
  readers : BitVec 32
  deriving DecidableEq, Repr

/-- Where a thread is: outside; in the loop of `spin_lock (&l->gate)`, as a writer
or as a reader; in `read_lock` past the gate, before and after it has counted
itself; between the return of `read_lock` and `read_unlock`; in the loop of
`write_lock` over `readers`; between the return of `write_lock` and
`write_unlock`. -/
inductive RwPoint
  | outside | gate (writer : Bool) | entered | counted | reading | draining | writing
  deriving DecidableEq, Repr

/-- The thread has incremented `readers` and not decremented it. -/
def RwPoint.counts : RwPoint → Bool
  | .counted | .reading => true
  | _ => false

/-- The thread has taken a ticket of the gate and not unlocked it. -/
def RwPoint.atGate : RwPoint → Bool
  | .outside | .reading => false
  | _ => true

/-- The gate is the thread's. -/
def RwPoint.past : RwPoint → Bool
  | .entered | .counted | .draining | .writing => true
  | _ => false

structure RwState (α : Type*) where
  lock : RwLock
  point : α → RwPoint
  back : α → BitVec 32

namespace RwState

def goTo (s : RwState α) (a : α) (p : RwPoint) : RwState α :=
  { s with point := Function.update s.point a p }

/-- The next atomic operation of `a`; from outside it starts `write_lock` or
`read_lock`. -/
def step (s : RwState α) (a : α) (writer : Bool) : RwState α :=
  match s.point a with
  | .outside =>
    { s.goTo a (.gate writer) with
      lock.gate := s.lock.gate.fetchBack
      back := Function.update s.back a s.lock.gate.back }
  | .gate writer =>
    if s.lock.gate.front ≠ s.back a then s
    else s.goTo a (if writer then .draining else .entered)
  | .entered => { s.goTo a .counted with lock.readers := s.lock.readers + 1#32 }
  | .counted => { s.goTo a .reading with lock.gate := s.lock.gate.unlock }
  | .reading => { s.goTo a .outside with lock.readers := s.lock.readers - 1#32 }
  | .draining => if s.lock.readers ≠ 0#32 then s else s.goTo a .writing
  | .writing => { s.goTo a .outside with lock.gate := s.lock.gate.unlock }

/-- How many threads have counted themselves as readers. -/
def readers [Fintype α] (s : RwState α) : Nat :=
  (Finset.univ.filter fun a => (s.point a).counts).card

end RwState

def rwSystem (α : Type*) [DecidableEq α] : Transition (RwState α) (α × Bool) where
  start s := s.lock.gate.front = s.lock.gate.back ∧ s.lock.readers = 0#32 ∧
    ∀ a, s.point a = .outside
  step s l t := t = s.step l.1 l.2

/-- The queue `q` at the gate, the count of readers, and that there is none while
a thread writes. -/
structure RwQueue [Fintype α] (s : RwState α) (q : List α) : Prop where
  tickets : Tickets s.back s.lock.gate.front s.lock.gate.back q
  member : ∀ a, a ∈ q ↔ (s.point a).atGate
  past : ∀ a, (s.point a).past → ∃ l, q = a :: l
  readers : s.lock.readers = BitVec.ofNat 32 s.readers
  writing : ∀ a, s.point a = .writing → s.readers = 0

@[simp] theorem RwState.goTo_self (s : RwState α) (a : α) (p : RwPoint) :
    (s.goTo a p).point a = p :=
  Function.update_self ..

theorem RwState.goTo_ne (s : RwState α) {a b : α} (p : RwPoint) (hb : b ≠ a) :
    (s.goTo a p).point b = s.point b :=
  Function.update_of_ne hb _ _

variable [Fintype α]

/-- Moving one thread changes the count by that thread. -/
theorem RwState.readers_goTo (s : RwState α) (a : α) (p : RwPoint) :
    (s.goTo a p).readers + (s.point a).counts.toNat = s.readers + p.counts.toNat := by
  have hsplit : ∀ f : α → RwPoint, (Finset.univ.filter fun b => (f b).counts).card =
      ((Finset.univ.erase a).filter fun b => (f b).counts).card + (f a).counts.toNat := by
    intro f
    rw [← Finset.insert_erase (Finset.mem_univ a), Finset.filter_insert]
    cases hc : (f a).counts with
    | false => simp
    | true => simp
  have hrest : ((Finset.univ.erase a).filter fun b => ((s.goTo a p).point b).counts) =
      (Finset.univ.erase a).filter fun b => (s.point b).counts := by
    refine Finset.filter_congr fun b hb => ?_
    have hne : b ≠ a := Finset.ne_of_mem_erase hb
    simp [RwState.goTo, hne]
  have hnew := hsplit (s.goTo a p).point
  have hold := hsplit s.point
  rw [hrest, show (s.goTo a p).point a = p from Function.update_self ..] at hnew
  rw [RwState.readers, RwState.readers, hnew, hold]
  omega

omit [DecidableEq α] in
theorem RwState.readers_le (s : RwState α) : s.readers ≤ Fintype.card α :=
  Finset.card_le_univ _

namespace RwQueue

variable {s : RwState α} {q : List α} {a b : α}

theorem start (h : (rwSystem α).start s) : RwQueue s [] := by
  obtain ⟨hlock, hreaders, hout⟩ := h
  have hzero : s.readers = 0 := by simp [RwState.readers, hout, RwPoint.counts]
  refine ⟨hlock ▸ .nil _ _, fun a => ?_, fun a ha => ?_, ?_, fun a _ => hzero⟩
  · simp [hout a, RwPoint.atGate]
  · rw [hout a] at ha
    cases ha
  · rw [hreaders, hzero]

omit [DecidableEq α] in
/-- The gate is one thread's at a time. -/
theorem past_unique (h : RwQueue s q) (ha : (s.point a).past) (hb : (s.point b).past) : b = a := by
  obtain ⟨l, hl⟩ := h.past a ha
  obtain ⟨r, hr⟩ := h.past b hb
  exact (List.cons.inj (hr.symm.trans hl)).1

/-- A thread moves on without touching the gate's counters. -/
theorem stay (h : RwQueue s q) {p : RwPoint} (readers : BitVec 32)
    (hgate : p.atGate = (s.point a).atGate) (hpast : p.past → ∃ l, q = a :: l)
    (hreaders : readers = BitVec.ofNat 32 (s.goTo a p).readers)
    (hwriting : p = .writing ∨ (∃ b, s.point b = .writing) → (s.goTo a p).readers = 0) :
    RwQueue { s.goTo a p with lock.readers := readers } q where
  tickets := h.tickets
  member b := by
    show b ∈ q ↔ ((s.goTo a p).point b).atGate
    rcases eq_or_ne b a with rfl | hne
    · rw [RwState.goTo_self, hgate]
      exact h.member b
    · rw [RwState.goTo_ne s p hne]
      exact h.member b
  past b hb := by
    change ((s.goTo a p).point b).past at hb
    rcases eq_or_ne b a with rfl | hne
    · rw [RwState.goTo_self] at hb
      exact hpast hb
    · rw [RwState.goTo_ne s p hne] at hb
      exact h.past b hb
  readers := hreaders
  writing b hb := by
    change (s.goTo a p).point b = .writing at hb
    refine hwriting ?_
    rcases eq_or_ne b a with rfl | hne
    · exact .inl (by rwa [RwState.goTo_self] at hb)
    · exact .inr ⟨b, by rwa [RwState.goTo_ne s p hne] at hb⟩

/-- The thread that has the gate leaves it. -/
theorem leave (h : RwQueue s q) (ha : (s.point a).past) {p : RwPoint} (hgate : p.atGate = false)
    (hcounts : p.counts = (s.point a).counts) :
    ∃ l, RwQueue { s.goTo a p with lock.gate := s.lock.gate.unlock } l := by
  obtain ⟨l, rfl⟩ := h.past a ha
  obtain ⟨hnot, -⟩ := List.nodup_cons.mp h.tickets.nodup
  have hpast : p.past = false := by cases p <;> first | rfl | cases hgate
  have hcount := s.readers_goTo a p
  rw [hcounts] at hcount
  have hkeep : (s.goTo a p).readers = s.readers := by omega
  have hothers : ∀ b, b ≠ a → (s.point b).past = false := by
    intro b hne
    exact Bool.eq_false_iff.mpr fun hb => hne (h.past_unique ha hb)
  refine ⟨l, h.tickets.leave, fun b => ?_, fun b hb => ?_, ?_, fun b hb => ?_⟩
  · show b ∈ l ↔ ((s.goTo a p).point b).atGate
    rcases eq_or_ne b a with rfl | hne
    · simp [hnot, hgate]
    · have hmem := h.member b
      rw [List.mem_cons, or_iff_right hne] at hmem
      rwa [RwState.goTo_ne s p hne]
  · change ((s.goTo a p).point b).past at hb
    rcases eq_or_ne b a with rfl | hne
    · rw [RwState.goTo_self, hpast] at hb
      cases hb
    · rw [RwState.goTo_ne s p hne, hothers b hne] at hb
      cases hb
  · show s.lock.readers = BitVec.ofNat 32 (s.goTo a p).readers
    rw [hkeep, h.readers]
  · change (s.goTo a p).point b = .writing at hb
    rcases eq_or_ne b a with rfl | hne
    · rw [RwState.goTo_self] at hb
      rw [hb] at hgate hpast
      cases hpast
    · rw [RwState.goTo_ne s p hne] at hb
      have hb' := hothers b hne
      rw [hb] at hb'
      cases hb'

/-- A newcomer queues up. -/
theorem enter (h : RwQueue s q) (hp : s.point a = .outside) (writer : Bool) :
    RwQueue { s.goTo a (.gate writer) with
      lock.gate := s.lock.gate.fetchBack
      back := Function.update s.back a s.lock.gate.back } (q ++ [a]) := by
  have hnot : a ∉ q := fun hm => by
    have hgate := (h.member a).mp hm
    rw [hp] at hgate
    cases hgate
  have hcount := s.readers_goTo a (.gate writer)
  rw [hp] at hcount
  have hkeep : (s.goTo a (.gate writer)).readers = s.readers := hcount
  refine ⟨h.tickets.take hnot, fun b => ?_, fun b hb => ?_, ?_, fun b hb => ?_⟩
  · show b ∈ q ++ [a] ↔ ((s.goTo a (.gate writer)).point b).atGate
    rcases eq_or_ne b a with rfl | hne
    · simp [RwPoint.atGate]
    · simpa [RwState.goTo_ne s _ hne, hne] using h.member b
  · change ((s.goTo a (.gate writer)).point b).past at hb
    rcases eq_or_ne b a with rfl | hne
    · rw [RwState.goTo_self] at hb
      cases hb
    · rw [RwState.goTo_ne s _ hne] at hb
      obtain ⟨l, rfl⟩ := h.past b hb
      exact ⟨l ++ [a], rfl⟩
  · show s.lock.readers = BitVec.ofNat 32 (s.goTo a (.gate writer)).readers
    rw [hkeep, h.readers]
  · show (s.goTo a (.gate writer)).readers = 0
    rw [hkeep]
    change (s.goTo a (.gate writer)).point b = .writing at hb
    rcases eq_or_ne b a with rfl | hne
    · rw [RwState.goTo_self] at hb
      cases hb
    · rw [RwState.goTo_ne s _ hne] at hb
      exact h.writing b hb

theorem step (hcard : Fintype.card α < 2 ^ 31) (h : RwQueue s q) (a : α) (writer : Bool) :
    ∃ q', RwQueue (s.step a writer) q' := by
  unfold RwState.step
  cases hp : s.point a with
  | outside => exact ⟨q ++ [a], h.enter hp writer⟩
  | gate writer =>
    dsimp only
    split
    · exact ⟨q, h⟩
    · next hcalled =>
      have hmem : a ∈ q := (h.member a).mpr (by rw [hp]; rfl)
      have hlength : q.length ≤ 2 ^ 32 := by
        have hle := h.tickets.length_le
        omega
      have hfirst := h.tickets.first hlength hmem (not_not.mp hcalled).symm
      have hcount := s.readers_goTo a (if writer then .draining else .entered)
      rw [hp] at hcount
      have hkeep : (s.goTo a (if writer then .draining else .entered)).readers = s.readers := by
        cases writer <;> exact hcount
      refine ⟨q, h.stay s.lock.readers ?_ (fun _ => hfirst) ?_ ?_⟩
      · rw [hp]
        cases writer <;> rfl
      · rw [hkeep, h.readers]
      · rintro (hw | ⟨b, hb⟩)
        · cases writer <;> cases hw
        · rw [hkeep]
          exact h.writing b hb
  | entered =>
    have hcount := s.readers_goTo a .counted
    rw [hp] at hcount
    have hmore : (s.goTo a .counted).readers = s.readers + 1 := hcount
    have hpast : (s.point a).past := by rw [hp]; rfl
    refine ⟨q, h.stay _ (by rw [hp]; rfl) (fun _ => h.past a hpast) ?_ ?_⟩
    · rw [hmore, h.readers, BitVec.ofNat_add]
    · -- a writer has the gate, and so does `a`
      rintro (hw | ⟨b, hb⟩)
      · cases hw
      · have hba := h.past_unique hpast (b := b) (by rw [hb]; rfl)
        rw [hba, hp] at hb
        cases hb
  | counted => exact h.leave (by rw [hp]; rfl) rfl (by rw [hp]; rfl)
  | reading =>
    have hcount := s.readers_goTo a .outside
    rw [hp] at hcount
    have hless : (s.goTo a .outside).readers + 1 = s.readers := hcount
    refine ⟨q, h.stay _ (by rw [hp]; rfl) nofun ?_ ?_⟩
    · rw [h.readers, ← hless, BitVec.ofNat_add]
      exact BitVec.add_sub_cancel _ _
    · rintro (hw | ⟨b, hb⟩)
      · cases hw
      · have hzero := h.writing b hb
        omega
  | draining =>
    dsimp only
    split
    · exact ⟨q, h⟩
    · next hzero =>
      have hreaders := h.readers
      rw [not_not.mp hzero] at hreaders
      have hnone : s.readers = 0 := by
        have hle := s.readers_le
        have hnat := congrArg BitVec.toNat hreaders
        simp only [BitVec.toNat_ofNat] at hnat
        omega
      have hcount := s.readers_goTo a .writing
      rw [hp] at hcount
      have hkeep : (s.goTo a .writing).readers = s.readers := hcount
      refine ⟨q, h.stay s.lock.readers (by rw [hp]; rfl) ?_ ?_ ?_⟩
      · exact fun _ => h.past a (by rw [hp]; rfl)
      · rw [hkeep, h.readers]
      · intro _
        rw [hkeep, hnone]
  | writing => exact h.leave (by rw [hp]; rfl) rfl (by rw [hp]; rfl)

end RwQueue

/-- A writer excludes writers and readers, and `readers` is the number of readers
that have counted themselves in and not out. -/
theorem rw_lock_exclusive (hcard : Fintype.card α < 2 ^ 31) {s : RwState α}
    (h : (rwSystem α).Reached s) :
    (∀ a b, s.point a = .writing → s.point b = .writing → a = b) ∧
    (∀ a b, s.point a = .writing → s.point b ≠ .reading) ∧
    s.lock.readers.toInt = (Finset.univ.filter fun a => (s.point a).counts).card := by
  have hqueue : ∃ q, RwQueue s q := by
    refine h.invariant (I := fun s => ∃ q, RwQueue s q) (fun s hs => ⟨[], .start hs⟩) ?_
    rintro s ⟨a, writer⟩ t ⟨q, hq⟩ - rfl
    exact hq.step hcard a writer
  obtain ⟨q, hq⟩ := hqueue
  refine ⟨fun a b ha hb => ?_, fun a b ha hb => ?_, ?_⟩
  · exact hq.past_unique (by rw [hb]; rfl) (by rw [ha]; rfl)
  · have hnone := hq.writing a ha
    rw [RwState.readers, Finset.card_eq_zero, Finset.filter_eq_empty_iff] at hnone
    exact hnone (Finset.mem_univ b) (by rw [hb]; rfl)
  · have hle := s.readers_le
    rw [hq.readers, BitVec.toInt_ofNat', ← RwState.readers]
    exact Int.bmod_eq_of_le (by omega) (by omega)

/-- A reader and a writer: the writer has the gate and waits for the reader to leave. -/
theorem rw_lock_exclusive_draining : ∃ s : RwState (Fin 2), (rwSystem (Fin 2)).Reached s ∧
    s.point 0 = .reading ∧ s.point 1 = .draining ∧
    (∀ a b, s.point a = .writing → s.point b = .writing → a = b) ∧
    (∀ a b, s.point a = .writing → s.point b ≠ .reading) ∧
    s.lock.readers.toInt = (Finset.univ.filter fun a => (s.point a).counts).card := by
  let s : RwState (Fin 2) :=
    ⟨⟨⟨0xFFFFFFFF#32, 0xFFFFFFFF#32⟩, 0#32⟩, fun _ => .outside, fun _ => 0#32⟩
  let run : List (Fin 2 × Bool) :=
    [(0, false), (1, true), (0, false), (0, false), (0, false), (1, true), (1, true)]
  have hs : (rwSystem (Fin 2)).Reached (run.foldl (fun s l => s.step l.1 l.2) s) := by
    have hrun : ∀ (l : List (Fin 2 × Bool)) (s : RwState (Fin 2)), (rwSystem (Fin 2)).Reached s →
        (rwSystem (Fin 2)).Reached (l.foldl (fun s l => s.step l.1 l.2) s) := by
      intro l
      induction l with
      | nil => exact fun _ h => h
      | cons x l ih => exact fun s h => ih _ (.step h (l := x) trivial rfl)
    exact hrun run s (.start ⟨rfl, rfl, fun _ => rfl⟩)
  exact ⟨_, hs, by decide, by decide, rw_lock_exclusive (by decide) hs⟩

end Tern
