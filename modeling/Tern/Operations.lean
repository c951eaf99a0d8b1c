import Tern.WellLinked

/-! Runs of operations on capability slots, from boot, where no slot is
linked. `CapOp` are the five primitives on any slots, `CapMethod` the methods
that invoke them through CNode lookups. `LinkSafe` is the condition under which
a primitive keeps the derivation list well formed. -/

namespace Tern

open Lib Cdt

inductive CapOp
  | copy (dest src mask : Word)
  | mint (dest src badge mask : Word)
  | delete (c : Word)
  | revoke (c : Word)
  | retype (slot type sizeBits root nodeIndex : Word) (nodeDepth : BitVec 8)
      (nodeOffset numObjects : Word)

/-- One operation that returns. Retyping is invoked on untyped capabilities
only, as `dispatch_method` checks. -/
inductive CapStep (dm : DirectMap) (s : Slots) : CapOp → Reply → Slots → Prop
  | copy {dest src mask : Word} {r : Reply} {t : Slots} (h : copyCap s dest src mask = (r, t)) :
      CapStep dm s (.copy dest src mask) r t
  | mint {dest src badge mask : Word} {r : Reply} {t : Slots}
      (h : mintCap s dest src badge mask = (r, t)) : CapStep dm s (.mint dest src badge mask) r t
  | delete {c : Word} {t : Slots} (h : Deletes s c t) : CapStep dm s (.delete c) .ok t
  | revoke {c : Word} {t : Slots} (h : Revokes s c t) : CapStep dm s (.revoke c) .ok t
  | retype {slot type sizeBits root nodeIndex nodeOffset numObjects : Word}
      {nodeDepth : BitVec 8} {r : Reply} {t : Slots} (hslot : (s slot).cap.type = .untyped)
      (h : untypedRetype dm s slot type sizeBits root nodeIndex nodeDepth nodeOffset numObjects =
        .ok (r, t)) :
      CapStep dm s (.retype slot type sizeBits root nodeIndex nodeDepth nodeOffset numObjects) r t

/-- At boot every slot is unlinked. -/
def Boot (s : Slots) : Prop := ∀ a, s.links.Unlinked a

def capSystem (dm : DirectMap) : Transition Slots CapOp where
  start := Boot
  step s op t := ∃ r, CapStep dm s op r t

/-- A copy links no empty slot: it is refused, or its source holds something. -/
def CopySafe (s : Slots) (dest src : Word) : Prop :=
  (s dest).cap.type ≠ .null ∨ (s src).cap.type ≠ .null

/-- A retype that goes through finds safe targets. -/
def RetypeSafe (dm : DirectMap) (s : Slots) (slot typeArg sizeBits dest numObjects : Word) :
    Prop :=
  ∀ type objSize t, CapType.ofWord? typeArg = some type →
    RetypesTo dm s slot type sizeBits objSize dest numObjects t →
    FreshTargets s slot type (destSlot dest) (objPtr dm objSize (usableMemory s slot objSize))
      objSize numObjects.toNat

def LinkSafe (dm : DirectMap) (s : Slots) : CapOp → Prop
  | .copy dest src _ => CopySafe s dest src
  | .retype slot type sizeBits root nodeIndex _ nodeOffset numObjects =>
    RetypeSafe dm s slot type sizeBits (retypeDest s root nodeIndex nodeOffset) numObjects
  | _ => True

theorem Boot.wellLinked {s : Slots} (hs : Boot s) : WellLinked s :=
  ⟨.of_unlinked hs, fun a _ => hs a⟩

theorem untypedRetype_wellLinked {dm : DirectMap} {s t : Slots}
    {slot typeArg sizeBits root nodeIndex nodeOffset numObjects : Word} {nodeDepth : BitVec 8}
    {r : Reply} (hs : WellLinked s) (hslot : (s slot).cap.type = .untyped)
    (h : untypedRetype dm s slot typeArg sizeBits root nodeIndex nodeDepth nodeOffset numObjects =
      .ok (r, t))
    (hsafe : RetypeSafe dm s slot typeArg sizeBits (retypeDest s root nodeIndex nodeOffset)
      numObjects) : WellLinked t := by
  rcases untypedRetype_cases h with ⟨-, rfl⟩ | ⟨type, objSize, -, htype, hto⟩
  · exact hs
  · exact hs.retype (by simp [hslot]) hto (hsafe type objSize t htype hto)

theorem CapStep.wellLinked {dm : DirectMap} {s t : Slots} {op : CapOp} {r : Reply}
    (h : CapStep dm s op r t) (hs : WellLinked s) (hsafe : LinkSafe dm s op) : WellLinked t := by
  cases h with
  | @copy dest src mask r t h =>
    have hcopy := hs.copy mask hsafe
    rwa [h] at hcopy
  | @mint dest src badge mask r t h =>
    have hmint := hs.mint dest src badge mask
    rwa [h] at hmint
  | delete h => exact WellLinked.revoke_delete.2 _ _ _ h hs
  | revoke h => exact WellLinked.revoke_delete.1 _ _ _ h hs
  | retype hslot h => exact untypedRetype_wellLinked hs hslot h hsafe

/-- Runs of safe operations keep the derivation list well formed. -/
theorem capSystem_wellLinked {dm : DirectMap} {s : Slots}
    (h : (capSystem dm).ReachedBy (LinkSafe dm) s) : WellLinked s :=
  h.invariant (fun _ => Boot.wellLinked) fun _ _ _ hs hsafe ⟨_, hstep⟩ => hstep.wellLinked hs hsafe

/-! ## The methods -/

inductive CapMethod
  | cnodeCopy (obj dstOffset : Word) (dstDepth : BitVec 8) (root srcOffset : Word)
      (srcDepth : BitVec 8) (rights : Word)
  | cnodeMint (obj dstOffset : Word) (dstDepth : BitVec 8) (root srcOffset : Word)
      (srcDepth : BitVec 8) (rights badge : Word)
  | cnodeDelete (obj offset : Word) (depth : BitVec 8)
  | cnodeRevoke (obj offset : Word) (depth : BitVec 8)
  | untypedRetype (slot type sizeBits root nodeIndex : Word) (nodeDepth : BitVec 8)
      (nodeOffset numObjects : Word)
  | tcbConfigure (slot cspaceRoot vspaceRoot bufferFrame : Word)

/-- One method that returns, with whatever fuel it takes. -/
inductive MethodStep (dm : DirectMap) (s : Slots) : CapMethod → Slots → Prop
  | cnodeCopy {obj dstOffset root srcOffset rights : Word} {dstDepth srcDepth : BitVec 8}
      {r : Reply} {t : Slots}
      (h : cnodeCopy s obj dstOffset dstDepth root srcOffset srcDepth rights = .ok (r, t)) :
      MethodStep dm s (.cnodeCopy obj dstOffset dstDepth root srcOffset srcDepth rights) t
  | cnodeMint {obj dstOffset root srcOffset rights badge : Word} {dstDepth srcDepth : BitVec 8}
      {r : Reply} {t : Slots}
      (h : cnodeMint s obj dstOffset dstDepth root srcOffset srcDepth rights badge = .ok (r, t)) :
      MethodStep dm s (.cnodeMint obj dstOffset dstDepth root srcOffset srcDepth rights badge) t
  | cnodeDelete {obj offset : Word} {depth : BitVec 8} {fuel : Nat} {r : Reply} {t : Slots}
      (h : cnodeDelete fuel s obj offset depth = .ok (r, t)) :
      MethodStep dm s (.cnodeDelete obj offset depth) t
  | cnodeRevoke {obj offset : Word} {depth : BitVec 8} {fuel : Nat} {r : Reply} {t : Slots}
      (h : cnodeRevoke fuel s obj offset depth = .ok (r, t)) :
      MethodStep dm s (.cnodeRevoke obj offset depth) t
  | untypedRetype {slot type sizeBits root nodeIndex nodeOffset numObjects : Word}
      {nodeDepth : BitVec 8} {r : Reply} {t : Slots} (hslot : (s slot).cap.type = .untyped)
      (h : untypedRetype dm s slot type sizeBits root nodeIndex nodeDepth nodeOffset numObjects =
        .ok (r, t)) :
      MethodStep dm s
        (.untypedRetype slot type sizeBits root nodeIndex nodeDepth nodeOffset numObjects) t
  | tcbConfigure {slot cspaceRoot vspaceRoot bufferFrame : Word} :
      MethodStep dm s (.tcbConfigure slot cspaceRoot vspaceRoot bufferFrame)
        (configureSlots s slot cspaceRoot vspaceRoot bufferFrame)

def methodSystem (dm : DirectMap) : Transition Slots CapMethod where
  start := Boot
  step := MethodStep dm

/-- The condition on a method: its copies, in the states they run in, link no
empty slot, and its retype finds safe targets. -/
def MethodSafe (dm : DirectMap) (s : Slots) : CapMethod → Prop
  | .cnodeCopy obj dstOffset dstDepth root srcOffset srcDepth _ =>
    ∀ dst src, lookupCapSlot s obj dstOffset (dstDepth.setWidth 64) = .ok (.ok dst) →
      lookupCapSlot s root srcOffset (srcDepth.setWidth 64) = .ok (.ok src) → CopySafe s dst src
  | .untypedRetype slot type sizeBits root nodeIndex _ nodeOffset numObjects =>
    RetypeSafe dm s slot type sizeBits (retypeDest s root nodeIndex nodeOffset) numObjects
  | .tcbConfigure slot cspaceRoot vspaceRoot bufferFrame =>
    let tcb := capPtr (s slot).cap
    let s₁ := (copyCap s (cspaceRootOf tcb) cspaceRoot capRightsAll).2
    let s₂ := (copyCap s₁ (vspaceRootOf tcb) vspaceRoot capRightsAll).2
    CopySafe s (cspaceRootOf tcb) cspaceRoot ∧ CopySafe s₁ (vspaceRootOf tcb) vspaceRoot ∧
      CopySafe s₂ (ipcBufferFrameOf tcb) bufferFrame
  | _ => True

theorem finished_eq_ok {α : Type} {x : Option α} {a : α} : finished x = .ok a ↔ x = some a := by
  cases x <;> simp [finished]

theorem MethodStep.wellLinked {dm : DirectMap} {s t : Slots} {m : CapMethod}
    (h : MethodStep dm s m t) (hs : WellLinked s) (hsafe : MethodSafe dm s m) :
    WellLinked t := by
  cases h with
  | @cnodeCopy obj dstOffset root srcOffset rights dstDepth srcDepth r t h =>
    rcases withSlot_cases h with ⟨rfl, -⟩ | ⟨dst, hdst, h⟩
    · exact hs
    · rcases withSlot_cases h with ⟨rfl, -⟩ | ⟨src, hsrc, h⟩
      · exact hs
      · rw [pure_eq_ok] at h
        have hcopy := hs.copy rights (hsafe dst src hdst hsrc)
        rwa [h] at hcopy
  | @cnodeMint obj dstOffset root srcOffset rights badge dstDepth srcDepth r t h =>
    rcases withSlot_cases h with ⟨rfl, -⟩ | ⟨dst, -, h⟩
    · exact hs
    · rcases withSlot_cases h with ⟨rfl, -⟩ | ⟨src, -, h⟩
      · exact hs
      · rw [pure_eq_ok] at h
        have hmint := hs.mint dst src badge rights
        rwa [h] at hmint
  | cnodeDelete h =>
    rcases withSlot_cases h with ⟨rfl, -⟩ | ⟨c, -, h⟩
    · exact hs
    · simp only [bind_eq_ok, finished_eq_ok, pure_eq_ok, Prod.mk.injEq] at h
      obtain ⟨u, hu, -, rfl⟩ := h
      exact WellLinked.revoke_delete.2 s c u ⟨_, hu⟩ hs
  | cnodeRevoke h =>
    rcases withSlot_cases h with ⟨rfl, -⟩ | ⟨c, -, h⟩
    · exact hs
    · simp only [bind_eq_ok, finished_eq_ok, pure_eq_ok, Prod.mk.injEq] at h
      obtain ⟨u, hu, -, rfl⟩ := h
      exact WellLinked.revoke_delete.1 s c u ⟨_, hu⟩ hs
  | untypedRetype hslot h => exact untypedRetype_wellLinked hs hslot h hsafe
  | tcbConfigure =>
    obtain ⟨h₁, h₂, h₃⟩ := hsafe
    exact ((hs.copy _ h₁).copy _ h₂).copy _ h₃

/-- What the links of all slots are meant to satisfy. -/
structure ListsSound (s : Slots) : Prop where
  next_iff_prev : ∀ a b, (s a).next = some b ↔ (s b).prev = some a
  acyclic : ∀ a, ¬ Relation.TransGen s.links.Step a a
  no_self : ∀ a, (s a).next ≠ some a ∧ (s a).prev ≠ some a
  null_unlinked : ∀ a, (s a).cap.type = .null → (s a).next = none ∧ (s a).prev = none

theorem WellLinked.listsSound {s : Slots} (hs : WellLinked s) : ListsSound s :=
  ⟨hs.wf.next_iff_prev, hs.wf.acyclic, fun a => ⟨hs.wf.next_ne_self a, hs.wf.prev_ne_self a⟩,
    hs.null_unlinked⟩

/-- In every run whose methods are safe, the links form disjoint acyclic doubly
linked lists without empty slots. -/
theorem methods_keep_lists_sound (dm : DirectMap) {s : Slots}
    (h : (methodSystem dm).ReachedBy (MethodSafe dm) s) : ListsSound s :=
  (h.invariant (I := WellLinked) (fun _ => Boot.wellLinked)
    fun _ _ _ hs hsafe (hstep : MethodStep dm _ _ _) => hstep.wellLinked hs hsafe).listsSound

/-! ## A machine that has just booted -/

/-- Boot capabilities: the root CNode in slot 2, and in slot 6 an untyped of
2^16 bytes at physical address 1 MiB. -/
def bootSlots : Slots := fun a =>
  { cap :=
      if a = initSlot 2 then Cap.withPtr { type := .cnode, sizeBits := 12 } initCnode
      else if a = initSlot 6 then Cap.withPtr { type := .untyped, sizeBits := 16 } 0x100000#64
      else {} }

theorem bootSlots_boot : Boot bootSlots := fun _ => ⟨rfl, rfl⟩

theorem bootSlots_lookup {i : Nat} (hi : BitVec.ofNat 64 i < 4096#64) :
    lookupCapSlot bootSlots (initSlot 2) (BitVec.ofNat 64 i) 64#64 = .ok (.ok (initSlot i)) :=
  lookupCapSlot_eq_ok.mpr (lookupCapSlotRaw_eq_ok.mpr ⟨rfl, by decide, hi, by
    rw [initSlot, show capPtr (bootSlots (initSlot 2)).cap = initCnode by decide]⟩)

theorem bootSlots_copy {i j : Nat} (hi : BitVec.ofNat 64 i < 4096#64)
    (hj : BitVec.ofNat 64 j < 4096#64) (rights : Word) :
    cnodeCopy bootSlots (initSlot 2) (BitVec.ofNat 64 i) 64#8 (initSlot 2) (BitVec.ofNat 64 j)
      64#8 rights = .ok (copyCap bootSlots (initSlot i) (initSlot j) rights) := by
  rw [cnodeCopy, withSlot_of_lookup (bootSlots_lookup hi), withSlot_of_lookup (bootSlots_lookup hj)]
  rfl

/-- The slots after an operation that returned. -/
def resultSlots : Result (Reply × Slots) → Slots
  | .ok (_, t) => t
  | .error _ => fun _ => {}

def resultReply : Result (Reply × Slots) → Reply
  | .ok (r, _) => r
  | .error _ => .illegalOperation

theorem result_eq {x : Result (Reply × Slots)} (h : x.isOk = true) :
    x = .ok (resultReply x, resultSlots x) := by
  cases x with
  | error e => cases h
  | ok a => rfl

/-- Retype one object from slot `i` into slot `j` of the root CNode. -/
def makeOne (s : Slots) (type sizeBits : Word) (i j : Nat) : Result (Reply × Slots) :=
  untypedRetype lowMap s (initSlot i) type sizeBits (initSlot 2) 2#64 64#8 (BitVec.ofNat 64 j) 1#64

theorem makeOne_step {s : Slots} {type sizeBits : Word} {i j : Nat}
    (hslot : (s (initSlot i)).cap.type = .untyped)
    (h : (makeOne s type sizeBits i j).isOk = true) :
    CapStep lowMap s
      (.retype (initSlot i) type sizeBits (initSlot 2) 2#64 64#8 (BitVec.ofNat 64 j) 1#64)
      (resultReply (makeOne s type sizeBits i j)) (resultSlots (makeOne s type sizeBits i j)) :=
  .retype hslot (result_eq h)

theorem methods_keep_lists_sound_copy :
    ListsSound (copyCap bootSlots (initSlot 7) (initSlot 6) capRightsAll).2 :=
  methods_keep_lists_sound lowMap <| .step (.start bootSlots_boot)
    (l := .cnodeCopy (initSlot 2) 7#64 64#8 (initSlot 2) 6#64 64#8 capRightsAll)
    (fun dst src hdst hsrc => by
      cases hdst.symm.trans (bootSlots_lookup (i := 7) (by decide))
      cases hsrc.symm.trans (bootSlots_lookup (i := 6) (by decide))
      exact .inr (by decide))
    (.cnodeCopy (bootSlots_copy (i := 7) (j := 6) (by decide) (by decide) _))

/-- Copying an empty slot links two empty slots. -/
theorem copy_of_empty_slot_links_it :
    ¬ ∀ s, (methodSystem lowMap).Reached s → ListsSound s := by
  intro h
  have hreached : (methodSystem lowMap).Reached
      (copyCap bootSlots (initSlot 8) (initSlot 7) capRightsAll).2 :=
    .step (.start bootSlots_boot)
      (l := .cnodeCopy (initSlot 2) 8#64 64#8 (initSlot 2) 7#64 64#8 capRightsAll) trivial
      (.cnodeCopy (bootSlots_copy (i := 8) (j := 7) (by decide) (by decide) _))
  have hnull := (h _ hreached).null_unlinked (initSlot 7) (by decide)
  exact absurd hnull.1 (by decide)

end Tern
