import Tern.Ipc
import Tern.Thread

/-! Notifications bound to TCBs: two pointers, one in each object.
`tcb_bind_notification` looks at the notification's only, so the two are inverse
to each other exactly as long as no TCB is bound twice. -/

namespace Tern

/-- `t.bound_notification = n` exactly when `n.bound_tcb = t`. -/
def OneToOne (k : Kernel) : Prop :=
  ∀ t n, (k.tcbs t).boundNotification = some n ↔ (k.notifications n).boundTcb = some t

/-- Whom a signal on `n` wakes through the binding consumes the pending word of `n`
when it receives on an endpoint. -/
def WakesConsumer (k : Kernel) : Prop :=
  ∀ n t k', boundReceiver k n = some t →
    handleRecvWithPendingNotification { k with currentTcb := some t } = .ok (some k') →
      (k.notifications n).word ≠ 0#64 ∧ (k'.notifications n).word = 0#64

/-- A call of `tcb_bind_notification`: the slots of its two capabilities. -/
structure BindCall where
  cap : Word
  notification : Word
  deriving DecidableEq, Repr

namespace BindCall

variable (l : BindCall) (k : Kernel)

/-- The object that the first capability is to, and the one of the second. -/
def tcb : Word := capPtr (k.slots l.cap).cap

def bound : Word := capPtr (k.slots l.notification).cap

/-- The dispatcher has found a TCB capability, and capabilities are to objects. -/
structure Valid : Prop where
  type : (k.slots l.cap).cap.type = .tcb
  tcb : l.tcb k ≠ 0#64
  notification : (k.slots l.notification).cap.type = .notification → l.bound k ≠ 0#64

/-- The call is not refused. -/
def Binds : Prop :=
  (k.slots l.notification).cap.type = .notification ∧
    (k.notifications (l.bound k)).boundTcb = none

/-- A call that binds finds the TCB not bound yet. -/
def Unbound : Prop := l.Binds k → (k.tcbs (l.tcb k)).boundNotification = none

def run : Kernel := (tcbBindNotification k l.cap l.notification).2

end BindCall

def bindCalls (k : Kernel) (calls : List BindCall) : Kernel := calls.foldl (fun k l => l.run k) k

/-- Every call of the run meets the condition, in the state it is made in. -/
def EachUnbound (k : Kernel) : List BindCall → Prop
  | [] => True
  | l :: calls => l.Unbound k ∧ EachUnbound (l.run k) calls

/-- Nothing is bound. -/
def NothingBound (k : Kernel) : Prop :=
  (∀ t, (k.tcbs t).boundNotification = none) ∧ ∀ n, (k.notifications n).boundTcb = none

/-- A notification points to a TCB that does not point back. -/
def OneSided (k : Kernel) : Prop :=
  ∃ t n, (k.notifications n).boundTcb = some t ∧ (k.tcbs t).boundNotification ≠ some n

variable {k : Kernel} {l : BindCall} {calls : List BindCall}

theorem NothingBound.oneToOne (h : NothingBound k) : OneToOne k := by
  intro t n
  rw [h.1, h.2]
  exact ⟨nofun, nofun⟩

theorem OneSided.not_oneToOne (h : OneSided k) : ¬OneToOne k := by
  obtain ⟨t, n, hn, ht⟩ := h
  exact fun hone => ht ((hone t n).mpr hn)

theorem OneToOne.wakesConsumer (h : OneToOne k) : WakesConsumer k := by
  intro n t k' hwake hrecv
  obtain ⟨hbound, -⟩ := Option.filter_eq_some_iff.mp hwake
  have ht := (h t n).mpr hbound
  simp only [handleRecvWithPendingNotification, thisTcb, bind_eq_ok, deref_eq_ok] at hrecv
  obtain ⟨this, hthis, hrecv⟩ := hrecv
  cases hthis
  simp only [ht] at hrecv
  split at hrecv
  · simp at hrecv
  · next hword =>
    simp only [bind_eq_ok, deref_eq_ok, pure_eq_ok, Option.some.injEq] at hrecv
    obtain ⟨buffer, -, rfl⟩ := hrecv
    exact ⟨hword, by simp [Kernel.setWord]⟩

/-- What a call does to the slots and to the two pointers. -/
theorem BindCall.run_cases (hl : l.Valid k) :
    (¬l.Binds k ∧ l.run k = k) ∨
      (l.Binds k ∧ (l.run k).slots = k.slots ∧
        (∀ t, ((l.run k).tcbs t).boundNotification =
          if t = l.tcb k then some (l.bound k) else (k.tcbs t).boundNotification) ∧
        ∀ n, ((l.run k).notifications n).boundTcb =
          if n = l.bound k then some (l.tcb k) else (k.notifications n).boundTcb) := by
  unfold BindCall.run tcbBindNotification
  by_cases htype : (k.slots l.notification).cap.type = .notification
  · rw [if_neg (not_not.mpr htype)]
    dsimp only
    cases hbound : (k.notifications (l.bound k)).boundTcb with
    | some t =>
      refine .inl ⟨fun h => ?_, ?_⟩
      · rw [h.2] at hbound
        cases hbound
      · have hsome : (k.notifications (capPtr (k.slots l.notification).cap)).boundTcb.isSome := by
          show (k.notifications (l.bound k)).boundTcb.isSome
          rw [hbound]
          rfl
        rw [if_pos hsome]
    | none =>
      refine .inr ⟨⟨htype, hbound⟩, ?_⟩
      have hnone : ¬(k.notifications (capPtr (k.slots l.notification).cap)).boundTcb.isSome := by
        show ¬(k.notifications (l.bound k)).boundTcb.isSome
        rw [hbound]
        decide
      rw [if_neg hnone]
      refine ⟨rfl, fun t => ?_, fun n => ?_⟩
      · show (Function.update k.tcbs (l.tcb k) _ t).boundNotification = _
        rw [Function.update_apply]
        split
        · exact if_neg (hl.notification htype)
        · rfl
      · show (Function.update k.notifications (l.bound k) _ n).boundTcb = _
        rw [Function.update_apply]
        split
        · exact if_neg hl.tcb
        · rfl
  · exact .inl ⟨fun h => htype h.1, by rw [if_pos htype]⟩

/-- A call that meets the condition keeps the pointers inverse. -/
theorem OneToOne.run (h : OneToOne k) (hl : l.Valid k) (hunbound : l.Unbound k) :
    OneToOne (l.run k) := by
  rcases BindCall.run_cases hl with ⟨-, heq⟩ | ⟨hbinds, -, htcbs, hnotifications⟩
  · rwa [heq]
  · have htcb := hunbound hbinds
    obtain ⟨-, hnone⟩ := hbinds
    intro t n
    rw [htcbs, hnotifications]
    have hback := h t n
    split <;> split
    · next ht hn => simp [ht, hn]
    · next ht hn =>
      subst ht
      rw [htcb] at hback
      rw [← hback]
      simp [Ne.symm hn]
    · next ht hn =>
      subst hn
      rw [hnone] at hback
      rw [hback]
      simp [Ne.symm ht]
    · exact hback

/-- A call that does not meet it leaves a pointer without an answer. -/
theorem OneToOne.run_oneSided (h : OneToOne k) (hl : l.Valid k) (hbound : ¬l.Unbound k) :
    OneSided (l.run k) := by
  obtain ⟨hbinds, hsome⟩ := Classical.not_imp.mp hbound
  obtain ⟨n, hn⟩ := Option.ne_none_iff_exists'.mp hsome
  rcases BindCall.run_cases hl with ⟨hno, -⟩ | ⟨-, -, htcbs, hnotifications⟩
  · exact absurd hbinds hno
  · have hback := (h _ n).mp hn
    have hne : n ≠ l.bound k := by
      rintro rfl
      rw [hbinds.2] at hback
      cases hback
    refine ⟨l.tcb k, n, ?_, ?_⟩
    · rw [hnotifications, if_neg hne, hback]
    · rw [htcbs, if_pos rfl]
      exact fun heq => hne (Option.some.inj heq).symm

/-- A notification is bound once and for all, and a TCB is never given back a
notification that it had. -/
theorem OneSided.run (h : OneSided k) (hl : l.Valid k) : OneSided (l.run k) := by
  obtain ⟨t, n, hn, ht⟩ := h
  rcases BindCall.run_cases hl with ⟨-, heq⟩ | ⟨hbinds, -, htcbs, hnotifications⟩
  · rw [heq]
    exact ⟨t, n, hn, ht⟩
  · have hne : n ≠ l.bound k := by
      rintro rfl
      rw [hbinds.2] at hn
      cases hn
    refine ⟨t, n, by rw [hnotifications, if_neg hne, hn], ?_⟩
    rw [htcbs]
    split
    · exact fun heq => hne (Option.some.inj heq).symm
    · exact ht

theorem BindCall.Valid.run {l' : BindCall} (h : l'.Valid k) (hl : l.Valid k) :
    l'.Valid (l.run k) := by
  have hslots : (l.run k).slots = k.slots := by
    rcases BindCall.run_cases hl with ⟨-, heq⟩ | ⟨-, hslots, -⟩
    · rw [heq]
    · exact hslots
  constructor
  · rw [hslots]
    exact h.type
  · rw [BindCall.tcb, hslots]
    exact h.tcb
  · rw [BindCall.bound, hslots]
    exact h.notification

theorem OneSided.bindCalls (h : OneSided k) (hcalls : ∀ l ∈ calls, l.Valid k) :
    OneSided (bindCalls k calls) := by
  induction calls generalizing k with
  | nil => exact h
  | cons l calls ih =>
    have hl := hcalls l List.mem_cons_self
    exact ih (h.run hl) fun l' hl' => (hcalls l' (List.mem_cons_of_mem l hl')).run hl

theorem OneToOne.bindCalls_iff (h : OneToOne k) (hcalls : ∀ l ∈ calls, l.Valid k) :
    OneToOne (bindCalls k calls) ↔ EachUnbound k calls := by
  induction calls generalizing k with
  | nil => exact ⟨fun _ => trivial, fun _ => h⟩
  | cons l calls ih =>
    have hl := hcalls l List.mem_cons_self
    have hrest : ∀ l' ∈ calls, l'.Valid (l.run k) :=
      fun l' hl' => (hcalls l' (List.mem_cons_of_mem l hl')).run hl
    by_cases hunbound : l.Unbound k
    · exact (ih (h.run hl hunbound) hrest).trans ⟨fun hcalls => ⟨hunbound, hcalls⟩, And.right⟩
    · have hbroken := ((h.run_oneSided hl hunbound).bindCalls hrest).not_oneToOne
      exact ⟨fun hone => absurd hone hbroken, fun hcalls => absurd hcalls.1 hunbound⟩

/-- After any sequence of calls the two pointers are inverse to each other, and a
signal wakes whoever consumes it, if and only if no call bound a TCB that was
bound already. -/
theorem tcb_bind_one_to_one_iff (hfresh : NothingBound k) (hcalls : ∀ l ∈ calls, l.Valid k) :
    (OneToOne (bindCalls k calls) ∧ WakesConsumer (bindCalls k calls)) ↔ EachUnbound k calls := by
  rw [← hfresh.oneToOne.bindCalls_iff hcalls]
  exact ⟨And.left, fun hone => ⟨hone, hone.wakesConsumer⟩⟩

/-- A TCB in slot 0 and notifications in slots 1 and 2. -/
def bindKernel : Kernel :=
  { Kernel.blank with slots := fun a =>
      if a = 0#64 then { cap := ({ type := .tcb } : Cap).withPtr 0x1000#64 }
      else if a = 1#64 then { cap := ({ type := .notification } : Cap).withPtr 0x2000#64 }
      else if a = 2#64 then { cap := ({ type := .notification } : Cap).withPtr 0x3000#64 }
      else {} }

theorem bindKernel_nothingBound : NothingBound bindKernel := ⟨fun _ => rfl, fun _ => rfl⟩

theorem bindKernel_valid (notification : Word) (h : notification = 1#64 ∨ notification = 2#64) :
    BindCall.Valid ⟨0#64, notification⟩ bindKernel := by
  rcases h with rfl | rfl
  · exact ⟨rfl, by decide, fun _ => by decide⟩
  · exact ⟨rfl, by decide, fun _ => by decide⟩

/-- Binding a bound notification again is refused. -/
theorem tcb_bind_one_to_one_iff_refused :
    (OneToOne (bindCalls bindKernel [⟨0, 1⟩, ⟨0, 1⟩]) ∧
      WakesConsumer (bindCalls bindKernel [⟨0, 1⟩, ⟨0, 1⟩])) ↔
        EachUnbound bindKernel [⟨0, 1⟩, ⟨0, 1⟩] := by
  refine tcb_bind_one_to_one_iff bindKernel_nothingBound fun l hl => ?_
  obtain rfl : l = ⟨0, 1⟩ := by simpa using hl
  exact bindKernel_valid 1 (.inl rfl)

/-- A TCB bound to a second notification: the first one still points to it, and a
signal on the first one wakes it, whose receives consume the second one. -/
theorem tcb_bind_twice : ∃ k calls, NothingBound k ∧ (∀ l ∈ calls, BindCall.Valid l k) ∧
    ((bindCalls k calls).notifications 0x2000#64).boundTcb = some 0x1000#64 ∧
    ((bindCalls k calls).tcbs 0x1000#64).boundNotification = some 0x3000#64 ∧
    ¬OneToOne (bindCalls k calls) := by
  have hfirst : ((bindCalls bindKernel [⟨0, 1⟩, ⟨0, 2⟩]).notifications 0x2000#64).boundTcb =
      some 0x1000#64 := by decide +kernel
  have hsecond : ((bindCalls bindKernel [⟨0, 1⟩, ⟨0, 2⟩]).tcbs 0x1000#64).boundNotification =
      some 0x3000#64 := by decide +kernel
  refine ⟨bindKernel, [⟨0, 1⟩, ⟨0, 2⟩], bindKernel_nothingBound, fun l hl => ?_, hfirst, hsecond,
    OneSided.not_oneToOne ⟨_, _, hfirst, by rw [hsecond]; decide⟩⟩
  have hl : l = ⟨0, 1⟩ ∨ l = ⟨0, 2⟩ := by simpa using hl
  rcases hl with rfl | rfl
  · exact bindKernel_valid 1 (.inl rfl)
  · exact bindKernel_valid 2 (.inr rfl)

end Tern
