import Tern.Syscall

/-! Which capability arguments are type checked. The dispatcher checks the
invoked capability only; each handler is left to check its own further
capability arguments. The lookups through a CNode argument and
`tcb_bind_notification` do; seven handlers use the pointer of whatever they are
given. -/

namespace Tern

open Cdt

/-- The capability argument whose pointer the handler uses, with the type of
object it takes it for. -/
def Method.capUse : Method → Option (Nat × CapType)
  | .pdptMap | .pdMap | .ptMap | .pageMap | .hugePageMap => some (0, .x86Pml4)
  | .tcbBindNotification | .irqHandlerSetNotification => some (0, .notification)
  | .tcbConfigure => some (2, .x86Page)
  | .cnodeCopy | .cnodeMint | .untypedRetype | .ioPortControlIssue | .irqControlGet =>
    some (0, .cnode)
  | _ => none

/-- The arguments hold capabilities of the types they are used as. -/
def ArgsTyped (k : Kernel) (cap : Nat → Word) (m : Method) : Prop :=
  ∀ i type, m.capUse = some (i, type) → (k.slots (cap i)).cap.type = type

/-- An invocation that completes without error had its arguments typed. -/
def TypeChecked (P : Platform) (fuel : Nat) (k : Kernel) (slot : Word) (info : MessageTag) :
    Prop :=
  ∀ m mr cap r k', Admitted k slot info m mr cap →
    dispatchMethod P fuel k slot info = .ok (r, k') → r.isOk = true → ArgsTyped k cap m

/-- The handlers that use an argument's pointer without looking at its type. -/
def Method.unchecked : Method → Bool
  | .pdptMap | .pdMap | .ptMap | .pageMap | .hugePageMap | .irqHandlerSetNotification
  | .tcbConfigure => true
  | _ => false

/-- What the handlers of the unchecked methods do look at: for a mapping, that
the tables above the entry are present and the entry is not. -/
def accepts (dm : DirectMap) (k : Kernel) (mr cap : Nat → Word) : Method → Prop
  | .pdptMap =>
    ¬ present k.memory (getPml4e dm (capPtr (k.slots (cap 0)).cap) (maskLow (mr 0) 39))
  | .pdMap =>
    let root := capPtr (k.slots (cap 0)).cap
    let vaddr := maskLow (mr 0) 30
    present k.memory (getPml4e dm root vaddr) ∧ ¬ present k.memory (getPdpte dm k.memory root vaddr)
  | .ptMap =>
    let root := capPtr (k.slots (cap 0)).cap
    let vaddr := maskLow (mr 0) 21
    present k.memory (getPml4e dm root vaddr) ∧ present k.memory (getPdpte dm k.memory root vaddr) ∧
      ¬ present k.memory (getPde dm k.memory root vaddr)
  | .pageMap =>
    let root := capPtr (k.slots (cap 0)).cap
    present k.memory (getPml4e dm root (mr 0)) ∧ present k.memory (getPdpte dm k.memory root (mr 0)) ∧
      present k.memory (getPde dm k.memory root (mr 0)) ∧
      ¬ present k.memory (getPte dm k.memory root (mr 0))
  | .hugePageMap =>
    let root := capPtr (k.slots (cap 0)).cap
    present k.memory (getPml4e dm root (mr 0)) ∧ present k.memory (getPdpte dm k.memory root (mr 0)) ∧
      ¬ present k.memory (getPde dm k.memory root (mr 0))
  | _ => True

/-! ## The handlers that check -/

theorem withSlot_root {s t : Slots} {root index : Word} {depth : BitVec 8}
    {f : Word → Result (Reply × Slots)} {r : Reply}
    (h : withSlot s root index depth f = .ok (r, t)) (hr : r.isOk = true) :
    (s root).cap.type = .cnode ∧ ∃ slot, f slot = .ok (r, t) := by
  rcases withSlot_cases h with ⟨-, he⟩ | ⟨slot, hslot, hf⟩
  · rw [lookupCapSlot_error he] at hr
    cases hr
  · rw [lookupCapSlot_eq_ok, lookupCapSlotRaw_eq_ok] at hslot
    exact ⟨hslot.2.1, slot, hf⟩

theorem untypedRetype_root {dm : DirectMap} {s t : Slots}
    {slot type sizeBits root nodeIndex nodeOffset numObjects : Word} {nodeDepth : BitVec 8}
    {r : Reply}
    (h : untypedRetype dm s slot type sizeBits root nodeIndex nodeDepth nodeOffset numObjects =
      .ok (r, t)) (hr : r.isOk = true) : (s root).cap.type = .cnode := by
  simp only [untypedRetype, bind_eq_ok] at h
  obtain ⟨ty, -, size, -, h⟩ := h
  split at h
  · cases h
    cases hr
  · exact (withSlot_root h hr).1

/-- The handlers of the other methods check what they use. -/
theorem checked_args {P : Platform} {fuel : Nat} {k k' : Kernel} {slot : Word}
    {mr cap : Nat → Word} {m : Method} {r : Reply} (hm : m.unchecked = false)
    (h : invokeMethod P fuel k slot mr cap m = .ok (r, k')) (hr : r.isOk = true) :
    ArgsTyped k cap m := by
  intro i type huse
  cases m <;> simp only [Method.capUse, Option.some.injEq, Prod.mk.injEq, reduceCtorEq,
    Method.unchecked, Bool.true_eq_false] at huse hm
  all_goals obtain ⟨rfl, rfl⟩ := huse
  case cnodeCopy =>
    obtain ⟨s, hs, -⟩ := onSlots_eq_ok.mp h
    obtain ⟨-, dst, hdst⟩ := withSlot_root hs hr
    exact (withSlot_root hdst hr).1
  case cnodeMint =>
    obtain ⟨s, hs, -⟩ := onSlots_eq_ok.mp h
    obtain ⟨-, dst, hdst⟩ := withSlot_root hs hr
    exact (withSlot_root hdst hr).1
  case tcbBindNotification =>
    by_contra htype
    simp only [invokeMethod, tcbBindNotification, if_pos htype, Except.ok.injEq,
      Prod.mk.injEq] at h
    rw [← h.1] at hr
    cases hr
  case untypedRetype =>
    simp only [invokeMethod, retype, bind_eq_ok] at h
    obtain ⟨⟨r', s⟩, hs, h⟩ := h
    cases hr' : r'.isOk with
    | true => exact untypedRetype_root hs hr'
    | false =>
      simp only [hr', Bool.not_false, if_true, pure_eq_ok, Prod.mk.injEq] at h
      rw [← h.1, hr'] at hr
      cases hr
  case ioPortControlIssue =>
    obtain ⟨s, hs, -⟩ := onSlots_eq_ok.mp h
    exact (withSlot_root hs hr).1
  case irqControlGet =>
    rcases irqControlGet_cases h with ⟨hno, -⟩ | ⟨dest, hfound, -⟩
    · rw [hno] at hr
      cases hr
    · rw [lookupCapSlot_eq_ok, lookupCapSlotRaw_eq_ok] at hfound
      exact hfound.2.1

/-! ## The handlers that do not -/

theorem mapEntry_isOk {k : Kernel} {above : List (Word × Word)} {entry value : Word} :
    (mapEntry k above entry value).1.isOk = true ↔
      (∀ e ∈ above, present k.memory e.1 = true) ∧ ¬ present k.memory entry = true := by
  unfold mapEntry
  cases hfind : above.find? fun e => !present k.memory e.1 with
  | some e =>
    have hmissing := List.find?_some hfind
    refine iff_of_false (by simp [tableMissing, Reply.failedLookup, Reply.isOk]) fun h => ?_
    rw [h.1 e (List.mem_of_find?_eq_some hfind)] at hmissing
    cases hmissing
  | none =>
    have hall : ∀ e ∈ above, present k.memory e.1 = true := by
      simpa using List.find?_eq_none.mp hfind
    by_cases hp : present k.memory entry = true
    · simp [hp, alreadyMapped, Reply.deleteFirst, Reply.isOk]
    · simpa [hp, Reply.ok, Reply.isOk] using hall

theorem completes {y : Result (Reply × Kernel)} {p : Prop} (x : Reply × Kernel) (h : y = .ok x)
    (hx : x.1.isOk = true ↔ p) : ∃ r k', y = .ok (r, k') ∧ (r.isOk = true ↔ p) :=
  ⟨x.1, x.2, h, hx⟩

/-- An unchecked method that gets past the dispatcher completes without error
exactly if its handler accepts the state of the page tables. -/
theorem unchecked_completes (P : Platform) (fuel : Nat) (k : Kernel) (slot : Word)
    (mr cap : Nat → Word) {m : Method} (hm : m.unchecked = true) :
    ∃ r k', invokeMethod P fuel k slot mr cap m = .ok (r, k') ∧
      (r.isOk = true ↔ accepts P.dm k mr cap m) := by
  cases m <;> simp only [Method.unchecked, Bool.false_eq_true] at hm
  case tcbConfigure =>
    exact completes (tcbConfigure k slot (cap 0) (cap 1) (cap 2)) rfl
      (by simp [accepts, tcbConfigure, Reply.ok, Reply.isOk])
  case irqHandlerSetNotification =>
    exact completes (irqHandlerSetNotification k slot (cap 0)) rfl
      (by simp [accepts, irqHandlerSetNotification, Reply.ok, Reply.isOk])
  case pdptMap =>
    refine completes (pdptMap P.dm k slot (cap 0) (mr 0)) rfl ?_
    rw [pdptMap, mapEntry_isOk]
    simp [accepts, present, copyKernelHalf_self]
  case pdMap =>
    refine completes (pdMap P.dm k slot (cap 0) (mr 0)) rfl ?_
    rw [pdMap, mapEntry_isOk]
    simp [accepts]
  case ptMap =>
    refine completes (ptMap P.dm k slot (cap 0) (mr 0)) rfl ?_
    rw [ptMap, mapEntry_isOk]
    simp [accepts, and_assoc]
  case pageMap =>
    refine completes (pageMap P.dm k slot (cap 0) (mr 0) (mr 1)) rfl ?_
    rw [pageMap, mapEntry_isOk]
    simp [accepts, and_assoc]
  case hugePageMap =>
    refine completes (hugePageMap P.dm k slot (cap 0) (mr 0) (mr 1)) rfl ?_
    rw [hugePageMap, mapEntry_isOk]
    simp [accepts, and_assoc]

/-! ## Which invocations are type checked -/

/-- An invocation is type checked exactly if it is not one of an unchecked
method that passes the dispatcher's checks, finds the page tables as it needs
them, and brings a capability of another type. -/
theorem typeChecked_iff (P : Platform) (fuel : Nat) (k : Kernel) (slot : Word)
    (info : MessageTag) :
    TypeChecked P fuel k slot info ↔
      ∀ m mr cap, Admitted k slot info m mr cap → m.unchecked = true →
        accepts P.dm k mr cap m → ArgsTyped k cap m := by
  constructor
  · intro h m mr cap hadm hm hacc
    obtain ⟨r, k', hinv, hok⟩ := unchecked_completes P fuel k slot mr cap hm
    exact h m mr cap r k' hadm ((dispatchMethod_of_admitted hadm).trans hinv) (hok.mpr hacc)
  · intro h m mr cap r k' hadm hd hr
    rw [dispatchMethod_of_admitted hadm] at hd
    cases hm : m.unchecked with
    | false => exact checked_args hm hd hr
    | true =>
      obtain ⟨r', k'', hinv, hok⟩ := unchecked_completes P fuel k slot mr cap hm
      rw [hinv] at hd
      cases hd
      exact h m mr cap hadm hm (hok.mp hr)

/-- The boot thread with a page directory pointer table in slot 7 and an
endpoint in slot 8; its message names slot 8 as the address space. -/
def mapKernel : Kernel :=
  { exampleKernel [] [(7, { type := .x86Pdpt, ptr := 0x10 }), (8, { type := .endpoint, ptr := 0x20 })]
    with buffers := fun _ i => if i = capsOrBadges 0 then 8#64 else 0#64 }

/-- `x86_64_pdpt_map` with two message words and one capability. -/
def mapTag : MessageTag := { length := 2, capsUnwrapped := 0, extraCaps := 1, label := 24 }

theorem mapKernel_caps : lookupCaps mapKernel initTcb 1 =
    .ok (.ok (Function.update (fun _ => 0#64) 0 (initSlot 8))) := by
  have hslot : lookupCapSlot mapKernel.slots (cspaceRootOf initTcb) 8#64 64#64 =
      .ok (.ok (initSlot 8)) := by decide +kernel
  have hcap : getCap mapKernel 0 = .ok 8#64 := rfl
  simp [lookupCaps, hcap, hslot, bind, Except.bind, pure, Except.pure]

/-- `x86_64_pdpt_map` into an endpoint, taken for a PML4, completes. -/
theorem pdpt_maps_into_endpoint : ¬ TypeChecked examplePlatform 0 mapKernel (initSlot 7) mapTag := by
  intro h
  have hadm : Admitted mapKernel (initSlot 7) mapTag .pdptMap _ _ :=
    ⟨rfl, rfl, by decide +kernel, by decide, by decide, initTcb, rfl, mapKernel_caps⟩
  obtain ⟨r, k', hinv, hok⟩ := unchecked_completes examplePlatform 0 mapKernel (initSlot 7)
    (mapKernel.buffers (initTcb + 0x1000#64)) (Function.update (fun _ => 0#64) 0 (initSlot 8))
    (show Method.pdptMap.unchecked = true from rfl)
  have haccepts : accepts examplePlatform.dm mapKernel (mapKernel.buffers (initTcb + 0x1000#64))
      (Function.update (fun _ => 0#64) 0 (initSlot 8)) .pdptMap := by
    simp [accepts, present, mapKernel, exampleKernel, Kernel.blank]
  have htyped := h _ _ _ _ _ hadm ((dispatchMethod_of_admitted hadm).trans hinv)
    (hok.mpr haccepts) 0 .x86Pml4 rfl
  revert htyped
  decide +kernel

end Tern
