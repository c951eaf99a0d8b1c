import Tern.Occupancy

/-! A method that fails changes nothing but the error words in the caller's
message registers. `x86_64_pdpt_map` copies the kernel half of the address
space before it looks whether it can map anything. -/

namespace Tern

open Cdt

/-- The entries that `x86_64_pdpt_map` copies are already where it copies them to. -/
def KernelHalfPresent (dm : DirectMap) (k : Kernel) (vspace vaddr : Word) : Prop :=
  ∀ i < 256,
    k.memory (getPml4e dm (capPtr (k.slots vspace).cap) (maskLow vaddr 39) + kernelEntry i) =
      k.memory (getPml4e dm k.vmRoot 0#64 + kernelEntry i)

/-! ## Failures -/

section

variable {P : Platform} {fuel : Nat} {k k' : Kernel} {slot : Word} {mr cap : Nat → Word}
  {m : Method} {r : Reply}

theorem mapEntry_failed {above : List (Word × Word)} {entry value : Word}
    (h : (r, k') = mapEntry k above entry value) (hr : r.isOk = false) : k' = k := by
  unfold mapEntry at h
  split at h
  · cases h
    rfl
  · split at h <;> cases h
    · rfl
    · cases hr

theorem ioPortIn_failed {width : Nat} {port : Word}
    (h : (r, k') = ioPortIn P width k slot port) (hr : r.isOk = false) : k' = k := by
  unfold ioPortIn at h
  split at h <;> cases h
  · rfl
  · cases hr

theorem ioPortOut_failed {width : Nat} {port value : Word}
    (h : (r, k') = ioPortOut width k slot port value) (hr : r.isOk = false) : k' = k := by
  unfold ioPortOut at h
  split at h <;> cases h
  · rfl
  · cases hr

/-- A method on slots that fails, fails in a lookup or before its first write. -/
theorem onSlots_failed {x : Result (Reply × Slots)} (h : onSlots k x = .ok (r, k'))
    (hx : x = .ok (r, k'.slots) → k'.slots = k.slots) : k' = k := by
  have hslots := hx (onSlots_slots h)
  obtain ⟨slots, -, rfl⟩ := onSlots_eq_ok.mp h
  exact congrArg (fun slots => { k with slots }) hslots

theorem withSlot_failed {s t : Slots} {root index : Word} {depth : BitVec 8}
    {f : Word → Result (Reply × Slots)} (h : withSlot s root index depth f = .ok (r, t))
    (hf : ∀ dest, f dest = .ok (r, t) → t = s) : t = s := by
  rcases withSlot_cases h with ⟨hsame, -⟩ | ⟨dest, -, h⟩
  · exact hsame
  · exact hf dest h

theorem copyCap_failed {s t : Slots} {dest src mask : Word} (h : copyCap s dest src mask = (r, t))
    (hr : r.isOk = false) : t = s := by
  rcases copyCap_cases s dest src mask with ⟨r', hcopy, -, -⟩ | ⟨-, -, hcopy⟩ <;>
    cases hcopy.symm.trans h
  · rfl
  · cases hr

theorem mintCap_failed {s t : Slots} {dest src badge mask : Word}
    (h : mintCap s dest src badge mask = (r, t)) (hr : r.isOk = false) : t = s := by
  rcases mintCap_cases s dest src badge mask with ⟨r', hmint, -⟩ | ⟨-, -, -, hmint⟩ <;>
    cases hmint.symm.trans h
  · rfl
  · cases hr

theorem irqControlGet_failed {irq root index : Word} {depth : BitVec 8}
    (h : irqControlGet P k irq root index depth = .ok (r, k')) (hr : r.isOk = false) : k' = k := by
  rcases irqControlGet_cases h with ⟨-, rfl⟩ | ⟨dest, -, -, -, -, rfl, -⟩
  · rfl
  · cases hr

theorem retype_failed {dm : DirectMap} {root nodeIndex nodeOffset numObjects type sizeBits : Word}
    {nodeDepth : BitVec 8}
    (h : retype dm k slot type sizeBits root nodeIndex nodeDepth nodeOffset numObjects =
      .ok (r, k')) (hr : r.isOk = false) : k' = k := by
  simp only [retype, bind_eq_ok] at h
  obtain ⟨⟨r', t⟩, -, h⟩ := h
  dsimp only at h
  split at h
  · cases h
    rfl
  · rename_i hok
    simp only [bind_eq_ok, pure_eq_ok, Prod.mk.injEq] at h
    obtain ⟨_, -, _, -, rfl, -⟩ := h
    simp [hr] at hok

/-- The methods that check before they write. -/
theorem invokeMethod_failed (h : invokeMethod P fuel k slot mr cap m = .ok (r, k'))
    (hm : m ≠ .pdptMap) (hr : r.isOk = false) : k' = k := by
  cases m <;> simp only [invokeMethod] at h
  case pdptMap => exact absurd rfl hm
  case cnodeCopy =>
    refine onSlots_failed h fun h => withSlot_failed h fun dst h => withSlot_failed h fun src h => ?_
    exact copyCap_failed (Except.ok.inj h) hr
  case cnodeMint =>
    refine onSlots_failed h fun h => withSlot_failed h fun dst h => withSlot_failed h fun src h => ?_
    exact mintCap_failed (Except.ok.inj h) hr
  case cnodeDelete | cnodeRevoke =>
    refine onSlots_failed h fun h => withSlot_failed h fun cte h => ?_
    simp only [bind_eq_ok, pure_eq_ok, Prod.mk.injEq] at h
    obtain ⟨_, -, rfl, -⟩ := h
    cases hr
  case cnodeDebugGet =>
    refine onSlots_failed h fun h => withSlot_failed h fun cte h => ?_
    exact (congrArg Prod.snd (Except.ok.inj h)).symm
  case ioPortControlIssue =>
    refine onSlots_failed h fun h => withSlot_failed h fun dest h => ?_
    cases congrArg Prod.fst (Except.ok.inj h)
    cases hr
  case tcbResume | tcbSuspend =>
    simp only [tcbResume, tcbSuspend, bind_eq_ok, pure_eq_ok, Prod.mk.injEq] at h
    obtain ⟨_, -, rfl, -⟩ := h
    cases hr
  case tcbBindNotification =>
    simp only [Except.ok.injEq, tcbBindNotification] at h
    split at h
    · cases h
      rfl
    · split at h <;> cases h
      · rfl
      · cases hr
  case ioPortIn8 | ioPortIn16 | ioPortIn32 => exact ioPortIn_failed (Except.ok.inj h).symm hr
  case ioPortOut8 | ioPortOut16 | ioPortOut32 => exact ioPortOut_failed (Except.ok.inj h).symm hr
  case pdMap | ptMap | pageMap | hugePageMap => exact mapEntry_failed (Except.ok.inj h).symm hr
  case irqControlGet => exact irqControlGet_failed h hr
  case untypedRetype => exact retype_failed h hr
  case cnodeDebugPrint | tcbSetName | tcbConfigure | tcbReadRegisters | tcbWriteRegisters |
      tcbSetTlsBase | tcbSetDebug | irqHandlerAck | irqHandlerClear | irqHandlerSetNotification =>
    cases h
    cases hr

/-- When `x86_64_pdpt_map` fails, it has changed the memory at most. -/
theorem pdptMap_failed {dm : DirectMap} {vspace vaddr : Word}
    (h : (r, k') = pdptMap dm k slot vspace vaddr) (hr : r.isOk = false) :
    k' = { k with memory := k'.memory } ∧
      (k'.memory = k.memory ↔ KernelHalfPresent dm k vspace vaddr) := by
  unfold pdptMap at h
  dsimp only at h
  rw [KernelHalfPresent, ← copyKernelHalf_eq_self_iff]
  -- the copy itself is never evaluated
  generalize copyKernelHalf k.memory _ _ = memory at h ⊢
  obtain rfl := mapEntry_failed h hr
  exact ⟨rfl, Iff.rfl⟩

end

/-- Nothing has changed but the first `words` message registers of the caller. -/
structure Unchanged (words : Nat) (k k' : Kernel) : Prop where
  state : k' = { k with buffers := k'.buffers }
  registers : ∀ p i, k'.buffers p i ≠ k.buffers p i → thisBuffer k = .ok p ∧ i < words

theorem setMrs_unchanged {l : List Word} {k k' : Kernel} {i : Nat}
    (h : setMrs k i l = .ok k') : Unchanged (i + l.length) k k' := by
  induction l generalizing k i with
  | nil =>
    cases h
    exact ⟨rfl, fun _ _ hne => absurd rfl hne⟩
  | cons w l ih =>
    simp only [setMrs, setMr, bind_eq_ok, pure_eq_ok] at h
    obtain ⟨_, ⟨p, hp, rfl⟩, h⟩ := h
    obtain ⟨hstate, hregisters⟩ := ih h
    have hlength : i + 1 + l.length = i + (w :: l).length := by
      rw [List.length_cons]
      omega
    refine ⟨hstate, fun q j hne => ?_⟩
    by_cases hrest : k'.buffers q j = (k.setBufferWord p i w).buffers q j
    · rw [hrest] at hne
      by_cases hq : q = p
      · subst hq
        by_cases hj : j = i
        · exact ⟨hp, by rw [hj, ← hlength]; omega⟩
        · simp [Kernel.setBufferWord, hj] at hne
      · simp [Kernel.setBufferWord, hq] at hne
    · obtain ⟨hq, hj⟩ := hregisters q j hrest
      exact ⟨hq, hlength ▸ hj⟩

theorem Unchanged.of_eq {words : Nat} {k k' k'' : Kernel} (h : Unchanged words k' k'')
    (heq : k' = k) : Unchanged words k k'' := heq ▸ h

/-- A method invocation that fails leaves all but the error words of the caller
unchanged exactly if it is no `x86_64_pdpt_map`, or one that finds the kernel
half in place. -/
theorem failed_method_unchanged_iff {P : Platform} {fuel : Nat} {k k₁ k' : Kernel} {slot : Word}
    {info tag : MessageTag} {r : Reply} (h : dispatchMethod P fuel k slot info = .ok (r, k₁))
    (hr : r.label ≠ .noError) (hanswer : answer k₁ r = .ok (tag, k')) :
    Unchanged r.mrs.length k k' ↔ ∀ mr cap, Admitted k slot info .pdptMap mr cap →
      KernelHalfPresent P.dm k (cap 0) (mr 0) := by
  have hfail : r.isOk = false := by simpa [Reply.isOk] using hr
  simp only [answer, bind_eq_ok, pure_eq_ok, Prod.mk.injEq] at hanswer
  obtain ⟨k₂, hset, -, rfl⟩ := hanswer
  have hwords := setMrs_unchanged hset
  rw [Nat.zero_add] at hwords
  have hhandler : k₁ = { k with memory := k₁.memory } ∧
      (k₁.memory = k.memory ↔ ∀ mr cap, Admitted k slot info .pdptMap mr cap →
        KernelHalfPresent P.dm k (cap 0) (mr 0)) := by
    by_cases hpdpt : ∃ mr cap, Admitted k slot info .pdptMap mr cap
    · obtain ⟨mr, cap, hadmitted⟩ := hpdpt
      rw [dispatchMethod_of_admitted hadmitted] at h
      obtain ⟨hstate, hiff⟩ := pdptMap_failed (Except.ok.inj h).symm hfail
      refine ⟨hstate, fun hsame mr' cap' hadmitted' => ?_, fun hall => ?_⟩
      · obtain ⟨rfl, rfl⟩ := hadmitted.unique hadmitted'
        exact hiff.mp hsame
      · exact hiff.mpr (hall mr cap hadmitted)
    · have hnone : ∀ mr cap, ¬ Admitted k slot info .pdptMap mr cap :=
        fun mr cap ha => hpdpt ⟨mr, cap, ha⟩
      have hsame : k₁ = k := by
        rcases dispatchMethod_cases h with ⟨hsame, -⟩ | ⟨m, mr, cap, hadmitted, hinvoke⟩
        · exact hsame
        · refine invokeMethod_failed hinvoke ?_ hfail
          rintro rfl
          exact hnone mr cap hadmitted
      rw [hsame]
      exact ⟨rfl, fun _ mr cap ha => absurd ha (hnone mr cap), fun _ => rfl⟩
  rw [← hhandler.2]
  constructor
  · intro hunchanged
    have hmemory := congrArg Kernel.memory hunchanged.state
    have hmemory' := congrArg Kernel.memory hwords.state
    exact hmemory'.symm.trans hmemory
  · intro hmemory
    refine hwords.of_eq ?_
    rw [hhandler.1, hmemory]

/-- The boot thread holds the ports 0x3F8 to 0x3FF in slot 5. -/
def portKernel : Kernel := exampleKernel [] [(5, newX86IoPortCap 0x3F8#16 0x3FF#16)]

/-- It reads port 0, which its capability does not allow. -/
theorem failed_method_unchanged_iff_port : ∃ k₁ tag k',
    dispatchMethod examplePlatform 0 portKernel (initSlot 5)
      { emptyTag with length := 1, label := 17 } = .ok (.rangeError 0x3F8#64 0x3FF#64, k₁) ∧
    answer k₁ (.rangeError 0x3F8#64 0x3FF#64) = .ok (tag, k') ∧ Unchanged 2 portKernel k' := by
  have hport : dispatchMethod examplePlatform 0 portKernel (initSlot 5)
      { emptyTag with length := 1, label := 17 } =
        .ok (.rangeError 0x3F8#64 0x3FF#64, portKernel) := by rfl
  refine ⟨portKernel, _, _, hport, rfl, ?_⟩
  refine (failed_method_unchanged_iff hport (by decide) rfl).mpr fun mr cap ha => ?_
  cases ha.label

/-- The boot thread holds a PDPT in slot 5 and in slot 6 a PML4 whose first entry
is present; the kernel half of the current PML4 is not empty. -/
def mappedKernel : Kernel :=
  { exampleKernel [] [(5, ({ type := .x86Pdpt } : Cap).withPtr 0xFFFF800000200000#64),
      (6, ({ type := .x86Pml4 } : Cap).withPtr 0xFFFF800000300000#64)] with
    buffers := fun _ i => if i = capsOrBadges 0 then 6#64 else 0#64
    memory := fun a =>
      if a = 0xFFFF800000300000#64 then ptePresent
      else if a = 0xFFFF800000400800#64 then ptePresent else 0#64
    vmRoot := 0x400000#64 }

/-- Mapping the PDPT at address 0 fails, but entry 256 has been written. -/
theorem failed_map_changes_tables :
    ¬ ∀ (P : Platform) (fuel : Nat) (k k₁ k' : Kernel) (slot : Word) (info tag : MessageTag)
      (r : Reply), dispatchMethod P fuel k slot info = .ok (r, k₁) → r.label ≠ .noError →
      answer k₁ r = .ok (tag, k') → Unchanged r.mrs.length k k' := by
  intro h
  have hrun : (dispatchMethod examplePlatform 0 mappedKernel (initSlot 5)
      { emptyTag with length := 2, extraCaps := 1, label := 24 }).map
        (fun x => (x.1, x.2.memory 0xFFFF800000300800#64)) = .ok (.deleteFirst, ptePresent) := by
    decide +kernel
  cases hmap : dispatchMethod examplePlatform 0 mappedKernel (initSlot 5)
      { emptyTag with length := 2, extraCaps := 1, label := 24 } with
  | error e =>
    rw [hmap] at hrun
    cases hrun
  | ok x =>
    obtain ⟨r, k₁⟩ := x
    rw [hmap] at hrun
    obtain ⟨rfl, hmemory⟩ := Prod.mk.inj (Except.ok.inj hrun)
    have hunchanged := h _ _ _ _ k₁ _ _ _ _ hmap (by decide) rfl
    have hsame := congrArg Kernel.memory hunchanged.state
    dsimp only at hsame hmemory
    rw [hsame] at hmemory
    exact absurd hmemory (by decide)

end Tern
