import Tern.Updates
import Tern.Lib.Transition

/-! Interrupt lines in service. The flag of a handler and the mask bit of its
line are kept in step by `handle_irq` and `irq_handler_ack`;
`irq_handler_set_notification` unmasks the line and leaves the flag. -/

namespace Tern

open Lib

variable {P : Platform} {k k' : Kernel} {h : Word}

/-! ## What a signal leaves alone -/

structure SameInterrupts (k k' : Kernel) : Prop where
  slots : k'.slots = k.slots
  handlers : k'.irqHandlers = k.irqHandlers
  masked : k'.irqMasked = k.irqMasked

namespace SameInterrupts

theorem trans {k'' : Kernel} (h : SameInterrupts k k') (h' : SameInterrupts k' k'') :
    SameInterrupts k k'' :=
  ⟨h'.slots.trans h.slots, h'.handlers.trans h.handlers, h'.masked.trans h.masked⟩

theorem of_updates (h : Updates k k') : SameInterrupts k k' := by
  induction h with
  | refl => exact ⟨rfl, rfl, rfl⟩
  | tail _ hstep ih =>
    apply ih.trans
    cases hstep <;> exact ⟨rfl, rfl, rfl⟩

theorem of_signalWaitingReceiver {n r b : Word} (hk : signalWaitingReceiver k n r b = .ok k') :
    SameInterrupts k k' := by
  simp only [signalWaitingReceiver, bind_eq_ok, pure_eq_ok] at hk
  obtain ⟨k₁, hset, buffer, -, rfl⟩ := hk
  have hresult := of_updates (setIpcResult_updates hset)
  have hswitch := of_updates
    (switchTcb_updates ((k₁.setBufferWord buffer senderBadge b).logged (.delivered n r b)) r)
  exact ⟨hswitch.slots.trans hresult.slots, hswitch.handlers.trans hresult.handlers,
    hswitch.masked.trans hresult.masked⟩

theorem of_notificationSignal {n b : Word} (hk : notificationSignal k n b = .ok k') :
    SameInterrupts k k' := by
  unfold notificationSignal at hk
  dsimp only at hk
  split at hk
  · split at hk
    · simp only [signalBoundReceiverWaitingOnSomethingElse, bind_eq_ok] at hk
      obtain ⟨nodes, -, hk⟩ := hk
      have hwake := of_signalWaitingReceiver hk
      exact ⟨hwake.slots, hwake.handlers, hwake.masked⟩
    · cases hk
      exact ⟨rfl, rfl, rfl⟩
  · simp only [bind_eq_ok] at hk
    obtain ⟨first, -, t, -, nodes, -, hk⟩ := hk
    have hwake := of_signalWaitingReceiver hk
    exact ⟨hwake.slots, hwake.handlers, hwake.masked⟩

end SameInterrupts

/-! ## The calls -/

inductive IrqCall
  | get (irq root index : Word) (depth : BitVec 8)
  | handle (irq : Word)
  | ack (obj : Word)
  | clear (obj : Word)
  | setNotification (obj notification : Word)
  deriving DecidableEq, Repr

/-- A call on the slot of a handler, as the dispatcher makes it. -/
def IsHandler (k : Kernel) (obj : Word) : Prop := (k.slots obj).cap.type = .irqHandler

/-- Handlers are handed out by `irq_control_get`, and at first none is. -/
def irqSystem (P : Platform) : Transition Kernel IrqCall where
  start k := (∀ h, k.irqHandlers h = {}) ∧ ∀ obj, ¬IsHandler k obj
  step k l k' :=
    match l with
    | .get irq root index depth => ∃ r, irqControlGet P k irq root index depth = .ok (r, k')
    | .handle irq => handleIrq P k irq = .ok k'
    | .ack obj => IsHandler k obj ∧ k' = (irqHandlerAck k obj).2
    | .clear obj => IsHandler k obj ∧ k' = (irqHandlerClear k obj).2
    | .setNotification obj notification =>
      IsHandler k obj ∧ k' = (irqHandlerSetNotification k obj notification).2

/-- A handler in service has its line masked. -/
def InServiceMasked (k : Kernel) : Prop :=
  ∀ h, (k.irqHandlers h).inService = true → k.irqMasked (k.irqHandlers h).irq = true

/-- A line of a handler in service is unmasked only together with the end of the
service. -/
def UnmaskedByEnd (k k' : Kernel) : Prop :=
  ∀ h, (k.irqHandlers h).inService = true → k'.irqMasked (k.irqHandlers h).irq = false →
    (k'.irqHandlers h).inService = false

/-- A notification is set on a handler that is not in service only. -/
def IrqCall.Idle (k : Kernel) : IrqCall → Prop
  | .setNotification obj _ => (k.irqHandlers (capPtr (k.slots obj).cap)).inService = false
  | _ => True

/-! ## Lines -/

/-- The handler is the one of its line in the array. -/
def Numbered (P : Platform) (k : Kernel) (h : Word) : Prop :=
  ∃ i : Word, i < 16#64 ∧ h = irqHandlerAt P i ∧ (k.irqHandlers h).irq = i.setWidth 32

theorem irqHandlerAt_inj {i j : Word} (hi : i < 16#64) (hj : j < 16#64)
    (hat : irqHandlerAt P i = irqHandlerAt P j) : i = j := by
  rw [irqHandlerAt, irqHandlerAt, BitVec.add_right_inj] at hat
  have hsmall : ∀ x : Word, x < 16#64 → (24#64 * x).toNat = 24 * x.toNat := by
    intro x hx
    rw [BitVec.lt_def] at hx
    have hx : x.toNat < 16 := hx
    exact (BitVec.toNat_mul 24#64 x).trans (Nat.mod_eq_of_lt (show 24 * x.toNat < 2 ^ 64 by omega))
  have hnat := congrArg BitVec.toNat hat
  rw [hsmall i hi, hsmall j hj] at hnat
  exact BitVec.eq_of_toNat_eq (Nat.eq_of_mul_eq_mul_left (by decide) hnat)

theorem Numbered.eq {h' : Word} (hh : Numbered P k h) (hh' : Numbered P k h')
    (hirq : (k.irqHandlers h).irq = (k.irqHandlers h').irq) : h = h' := by
  obtain ⟨i, hi, rfl, hline⟩ := hh
  obtain ⟨j, hj, rfl, hline'⟩ := hh'
  rw [hline, hline'] at hirq
  have hnat := congrArg BitVec.toNat hirq
  rw [BitVec.toNat_setWidth, BitVec.toNat_setWidth] at hnat
  rw [BitVec.lt_def] at hi hj
  have hi : i.toNat < 16 := hi
  have hj : j.toNat < 16 := hj
  rw [BitVec.eq_of_toNat_eq (show i.toNat = j.toNat by omega)]

/-- Every handler that a capability is to, that has a notification or that is in
service is the one of its line. -/
structure Lines (P : Platform) (k : Kernel) : Prop where
  cap : ∀ obj, IsHandler k obj → Numbered P k (capPtr (k.slots obj).cap)
  armed : ∀ h, (k.irqHandlers h).n ≠ none → Numbered P k h
  service : ∀ h, (k.irqHandlers h).inService = true → Numbered P k h

/-- A write of handler `d` to its place in the array, perhaps with a new capability
to it. -/
theorem Lines.set (hk : Lines P k) {d : IrqHandlerData}
    (hd : ∃ i : Word, i < 16#64 ∧ h = irqHandlerAt P i ∧ d.irq = i.setWidth 32)
    (hhandlers : k'.irqHandlers = Function.update k.irqHandlers h d)
    (hcap : ∀ obj, IsHandler k' obj → capPtr (k'.slots obj).cap = h ∨
      IsHandler k obj ∧ capPtr (k'.slots obj).cap = capPtr (k.slots obj).cap) : Lines P k' := by
  have hself : k'.irqHandlers h = d := by rw [hhandlers, Function.update_self]
  have hother : ∀ h', h' ≠ h → k'.irqHandlers h' = k.irqHandlers h' := by
    intro h' hne
    rw [hhandlers, Function.update_of_ne hne]
  have hnumbered : ∀ h', (h' = h ∨ Numbered P k h') → Numbered P k' h' := by
    intro h' hh'
    by_cases heq : h' = h
    · subst heq
      rw [Numbered, hself]
      exact hd
    · rw [Numbered, hother h' heq]
      exact hh'.resolve_left heq
  constructor
  · intro obj hobj
    rcases hcap obj hobj with hptr | ⟨hobj', hptr⟩
    · exact hnumbered _ (.inl hptr)
    · rw [hptr]
      exact hnumbered _ (.inr (hk.cap obj hobj'))
  · intro h' hn
    by_cases heq : h' = h
    · exact hnumbered h' (.inl heq)
    · rw [hother h' heq] at hn
      exact hnumbered h' (.inr (hk.armed h' hn))
  · intro h' hs
    by_cases heq : h' = h
    · exact hnumbered h' (.inl heq)
    · rw [hother h' heq] at hs
      exact hnumbered h' (.inr (hk.service h' hs))

/-- A write that leaves the line of the handler and all capabilities. -/
theorem Lines.setSame (hk : Lines P k) (hh : Numbered P k h) {d : IrqHandlerData}
    (hhandlers : k'.irqHandlers = Function.update k.irqHandlers h d)
    (hirq : d.irq = (k.irqHandlers h).irq) (hslots : k'.slots = k.slots) : Lines P k' := by
  obtain ⟨i, hi, hat, hline⟩ := hh
  apply hk.set ⟨i, hi, hat, hirq.trans hline⟩ hhandlers
  intro obj hobj
  rw [IsHandler, hslots] at hobj
  rw [hslots]
  exact .inr ⟨hobj, rfl⟩

/-- A handler that `handle_irq` finds with nothing to do, or takes into service. -/
theorem handleIrq_cases {irq : Word} (hk : handleIrq P k irq = .ok k') :
    k' = k ∨ ((k.irqHandlers (irqHandlerAt P irq)).n ≠ none ∧ k'.slots = k.slots ∧
      k'.irqHandlers = Function.update k.irqHandlers (irqHandlerAt P irq)
        { k.irqHandlers (irqHandlerAt P irq) with inService := true } ∧
      k'.irqMasked = Function.update k.irqMasked (k.irqHandlers (irqHandlerAt P irq)).irq true) := by
  unfold handleIrq at hk
  dsimp only at hk
  split at hk
  · cases hk
    exact .inl rfl
  · next n hn =>
    split at hk
    · cases hk
      exact .inl rfl
    · have hsame := SameInterrupts.of_notificationSignal hk
      rw [hn]
      exact .inr ⟨nofun, hsame.slots, hsame.handlers, hsame.masked⟩

/-- Every call keeps the lines apart, and the line of a handler in service. -/
theorem Lines.step (hk : Lines P k) {l : IrqCall} (hstep : (irqSystem P).step k l k') :
    Lines P k' ∧ ∀ h, (k.irqHandlers h).inService = true →
      (k'.irqHandlers h).irq = (k.irqHandlers h).irq := by
  have hline : ∀ {h₀ : Word} {d : IrqHandlerData},
      k'.irqHandlers = Function.update k.irqHandlers h₀ d → d.irq = (k.irqHandlers h₀).irq →
        ∀ h, (k'.irqHandlers h).irq = (k.irqHandlers h).irq := by
    intro h₀ d hhandlers hirq h
    rw [hhandlers, Function.update_apply]
    split
    · next heq => rw [heq, hirq]
    · rfl
  cases l with
  | get irq root index depth =>
    obtain ⟨r, hget⟩ := hstep
    rcases irqControlGet_cases hget with ⟨-, rfl⟩ | ⟨dest, -, -, hlt, hsafe, -, rfl⟩
    · exact ⟨hk, fun _ _ => rfl⟩
    constructor
    · apply hk.set ⟨irq, hlt, rfl, rfl⟩ rfl
      intro obj hobj
      change (((k.slots.setCap dest _) obj).cap).type = .irqHandler at hobj
      show capPtr ((k.slots.setCap dest _) obj).cap = _ ∨ _ ∧ capPtr ((k.slots.setCap dest _) obj).cap = _
      rw [Slots.setCap_cap] at hobj ⊢
      split at hobj
      · next heq =>
        rw [if_pos heq]
        exact .inl (capPtr_withPtr _ _ hsafe)
      · next hne =>
        rw [if_neg hne]
        exact .inr ⟨hobj, rfl⟩
    · intro h hs
      show (Function.update k.irqHandlers _ _ h).irq = _
      rw [Function.update_apply]
      split
      · next heq =>
        obtain ⟨i, hi, hat, hline⟩ := hk.service h hs
        rw [hline, irqHandlerAt_inj hi hlt (hat.symm.trans heq)]
      · rfl
  | handle irq =>
    rcases handleIrq_cases hstep with rfl | ⟨hn, hslots, hhandlers, -⟩
    · exact ⟨hk, fun _ _ => rfl⟩
    · exact ⟨hk.setSame (hk.armed _ hn) hhandlers rfl hslots, fun h _ => hline hhandlers rfl h⟩
  | ack obj =>
    obtain ⟨hobj, rfl⟩ := hstep
    exact ⟨hk.setSame (hk.cap obj hobj) rfl rfl rfl, fun h _ => hline rfl rfl h⟩
  | clear obj =>
    obtain ⟨hobj, rfl⟩ := hstep
    exact ⟨hk.setSame (hk.cap obj hobj) rfl rfl rfl, fun h _ => hline rfl rfl h⟩
  | setNotification obj notification =>
    obtain ⟨hobj, rfl⟩ := hstep
    exact ⟨hk.setSame (hk.cap obj hobj) rfl rfl rfl, fun h _ => hline rfl rfl h⟩

theorem irq_lines (ok : Kernel → IrqCall → Prop) (hk : (irqSystem P).ReachedBy ok k) :
    Lines P k := by
  apply hk.invariant (I := Lines P)
  · rintro k ⟨hzero, hnone⟩
    constructor
    · exact fun obj hobj => absurd hobj (hnone obj)
    · intro h hn
      rw [hzero] at hn
      exact absurd rfl hn
    · intro h hs
      rw [hzero] at hs
      cases hs
  · exact fun k l k' hk _ hstep => (hk.step hstep).1

/-! ## Masks -/

/-- Unmasking the line of a handler that is not in service any more leaves the
lines of the others. -/
theorem InServiceMasked.unmask (hm : InServiceMasked k) (hlines : Lines P k)
    (hh : Numbered P k h) {d : IrqHandlerData}
    (hhandlers : k'.irqHandlers = Function.update k.irqHandlers h d) (hd : d.inService = false)
    (hmasked : k'.irqMasked = Function.update k.irqMasked (k.irqHandlers h).irq false) :
    InServiceMasked k' := by
  intro h' hs
  rw [hhandlers] at hs ⊢
  by_cases heq : h' = h
  · rw [heq, Function.update_self, hd] at hs
    cases hs
  · rw [Function.update_of_ne heq] at hs ⊢
    have hline : (k.irqHandlers h').irq ≠ (k.irqHandlers h).irq :=
      fun hirq => heq ((hlines.service h' hs).eq hh hirq)
    rw [hmasked, Function.update_of_ne hline]
    exact hm h' hs

theorem InServiceMasked.step (hm : InServiceMasked k) (hlines : Lines P k) {l : IrqCall}
    (hstep : (irqSystem P).step k l k') (hidle : l.Idle k) : InServiceMasked k' := by
  cases l with
  | get irq root index depth =>
    have hirq := (hlines.step hstep).2
    obtain ⟨r, hget⟩ := hstep
    rcases irqControlGet_cases hget with ⟨-, rfl⟩ | ⟨dest, -, -, -, -, -, rfl⟩
    · exact hm
    · intro h hs
      have hservice : (k.irqHandlers h).inService = true := by
        change (Function.update k.irqHandlers _ _ h).inService = true at hs
        rw [Function.update_apply] at hs
        split at hs
        · next heq => rw [heq]; exact hs
        · exact hs
      rw [hirq h hservice]
      exact hm h hservice
  | handle irq =>
    rcases handleIrq_cases hstep with rfl | ⟨hn, -, hhandlers, hmasked⟩
    · exact hm
    · intro h hs
      rw [hhandlers] at hs ⊢
      rw [hmasked]
      by_cases heq : h = irqHandlerAt P irq
      · rw [heq, Function.update_self]
        exact Function.update_self ..
      · rw [Function.update_of_ne heq] at hs ⊢
        rw [Function.update_apply]
        split
        · rfl
        · exact hm h hs
  | ack obj =>
    obtain ⟨hobj, rfl⟩ := hstep
    exact hm.unmask hlines (hlines.cap obj hobj) rfl rfl rfl
  | clear obj =>
    obtain ⟨hobj, rfl⟩ := hstep
    intro h hs
    change (Function.update k.irqHandlers _ _ h).inService = true at hs
    show k.irqMasked (Function.update k.irqHandlers _ _ h).irq = true
    rw [Function.update_apply] at hs ⊢
    split at hs
    · next heq =>
      rw [if_pos heq]
      exact hm _ hs
    · next hne =>
      rw [if_neg hne]
      exact hm h hs
  | setNotification obj notification =>
    obtain ⟨hobj, rfl⟩ := hstep
    have hhandlers : (irqHandlerSetNotification k obj notification).2.irqHandlers =
        Function.update k.irqHandlers (capPtr (k.slots obj).cap)
          { k.irqHandlers (capPtr (k.slots obj).cap) with
            n := pointer (capPtr (k.slots notification).cap)
            badge := (k.slots notification).cap.badge } := rfl
    apply hm.unmask hlines (hlines.cap obj hobj) hhandlers hidle
    show Function.update k.irqMasked (Function.update k.irqHandlers _ _ _).irq false = _
    rw [Function.update_self]

/-- Setting a notification in service unmasks the line in service. -/
theorem InServiceMasked.not_setNotification {obj notification : Word}
    (hs : (k.irqHandlers (capPtr (k.slots obj).cap)).inService = true) :
    ¬InServiceMasked (irqHandlerSetNotification k obj notification).2 := by
  intro hm
  have hself : ((irqHandlerSetNotification k obj notification).2.irqHandlers
      (capPtr (k.slots obj).cap)).irq = (k.irqHandlers (capPtr (k.slots obj).cap)).irq ∧
      ((irqHandlerSetNotification k obj notification).2.irqHandlers
        (capPtr (k.slots obj).cap)).inService = true := by
    show (Function.update k.irqHandlers _ _ _).irq = _ ∧
      (Function.update k.irqHandlers _ _ _).inService = true
    rw [Function.update_self]
    exact ⟨rfl, hs⟩
  have hmask := hm _ hself.2
  rw [hself.1] at hmask
  have hclear : (irqHandlerSetNotification k obj notification).2.irqMasked
      (k.irqHandlers (capPtr (k.slots obj).cap)).irq = false := by
    rw [← hself.1]
    exact Function.update_self ..
  rw [hclear] at hmask
  cases hmask

/-- As long as notifications are set on handlers that are not in service only, a
line in service is masked; and one call keeps it so, and unmasks a line in service
only by ending the service, if and only if it meets that condition. -/
theorem irq_in_service_masked_iff (hk : (irqSystem P).ReachedBy (fun k l => l.Idle k) k) :
    InServiceMasked k ∧ ∀ l k', (irqSystem P).step k l k' →
      ((InServiceMasked k' ∧ UnmaskedByEnd k k') ↔ l.Idle k) := by
  have hmasked : InServiceMasked k := by
    have hboth : Lines P k ∧ InServiceMasked k := by
      apply hk.invariant (I := fun k => Lines P k ∧ InServiceMasked k)
      · rintro k hstart
        have hlines := irq_lines (fun _ _ => True) (.start hstart)
        exact ⟨hlines, fun h hs => by rw [hstart.1] at hs; cases hs⟩
      · rintro k l k' ⟨hlines, hm⟩ hidle hstep
        exact ⟨(hlines.step hstep).1, hm.step hlines hstep hidle⟩
    exact hboth.2
  refine ⟨hmasked, fun l k' hstep => ⟨fun ⟨hm', _⟩ => ?_, fun hidle => ?_⟩⟩
  · cases l with
    | setNotification obj notification =>
      obtain ⟨hobj, rfl⟩ := hstep
      apply Bool.eq_false_iff.mpr
      intro hs
      exact InServiceMasked.not_setNotification hs hm'
    | get | handle | ack | clear => exact trivial
  · have hm' := hmasked.step (irq_lines _ hk) hstep hidle
    refine ⟨hm', fun h hs hclear => ?_⟩
    apply Bool.eq_false_iff.mpr
    intro hs'
    have hset := hm' h hs'
    rw [((irq_lines _ hk).step hstep).2 h hs, hclear] at hset
    cases hset

/-- A notification with badge 5 in slot 6. -/
def irqKernel : Kernel :=
  exampleKernel [] [(6, ({ type := .notification, badge := 5 } : Cap).withPtr exampleNotification)]

theorem irqKernel_start : (irqSystem examplePlatform).start irqKernel := by
  constructor
  · exact fun _ => rfl
  · intro obj
    simp only [IsHandler, irqKernel, exampleKernel]
    split
    · rintro ⟨⟩
    · rw [List.find?_singleton]
      split <;> rintro ⟨⟩

/-- Line 4 is handed out in slot 7, given the notification, and interrupts. -/
theorem irq_in_service : ∃ k,
    (irqSystem examplePlatform).ReachedBy (fun k l => l.Idle k) k ∧ IsHandler k (initSlot 7) ∧
    (k.irqHandlers (capPtr (k.slots (initSlot 7)).cap)).inService = true := by
  have hrun : (do
      let got ← irqControlGet examplePlatform irqKernel 4 (cspaceRootOf initTcb) 7 64
      let k' := (irqHandlerSetNotification got.2 (initSlot 7) (initSlot 6)).2
      let k'' ← handleIrq examplePlatform k' 4
      return decide ((got.2.slots (initSlot 7)).cap.type = CapType.irqHandler ∧
        (got.2.irqHandlers (capPtr (got.2.slots (initSlot 7)).cap)).inService = false ∧
        (k''.slots (initSlot 7)).cap.type = CapType.irqHandler ∧
        (k''.irqHandlers (capPtr (k''.slots (initSlot 7)).cap)).inService = true)) = .ok true := by
    decide +kernel
  simp only [bind_eq_ok, pure_eq_ok, decide_eq_true_eq] at hrun
  obtain ⟨⟨r, k⟩, hget, k'', hhandle, hobj, hidle, hobj'', hs⟩ := hrun
  have hfirst : (irqSystem examplePlatform).ReachedBy (fun k l => l.Idle k) k :=
    .step (l := IrqCall.get 4 (cspaceRootOf initTcb) 7 64) (.start irqKernel_start) trivial ⟨r, hget⟩
  have hset : (irqSystem examplePlatform).ReachedBy (fun k l => l.Idle k)
      (irqHandlerSetNotification k (initSlot 7) (initSlot 6)).2 :=
    .step (l := IrqCall.setNotification (initSlot 7) (initSlot 6)) hfirst hidle ⟨hobj, rfl⟩
  exact ⟨k'', .step (l := IrqCall.handle 4) hset trivial hhandle, hobj'', hs⟩

theorem irq_in_service_masked_iff_line : ∃ k,
    (k.irqHandlers (capPtr (k.slots (initSlot 7)).cap)).inService = true ∧ InServiceMasked k ∧
    ∀ l k', (irqSystem examplePlatform).step k l k' →
      ((InServiceMasked k' ∧ UnmaskedByEnd k k') ↔ l.Idle k) := by
  obtain ⟨k, hk, -, hs⟩ := irq_in_service
  exact ⟨k, hs, irq_in_service_masked_iff hk⟩

/-- Setting the notification once more, before the acknowledgement, unmasks the
line that is in service. -/
theorem irq_set_notification_unmasks : ∃ k, (irqSystem examplePlatform).Reached k ∧
    ¬InServiceMasked k := by
  obtain ⟨k, hk, hobj, hs⟩ := irq_in_service
  have hset : (irqSystem examplePlatform).Reached
      (irqHandlerSetNotification k (initSlot 7) (initSlot 6)).2 :=
    .step (l := IrqCall.setNotification (initSlot 7) (initSlot 6)) hk.reached trivial ⟨hobj, rfl⟩
  exact ⟨_, hset, InServiceMasked.not_setNotification hs⟩

end Tern
