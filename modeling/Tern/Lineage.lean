import Tern.Updates
import Tern.Provenance

/-! Authority along derivations. `Within c d` says that `d` carries no more
authority than `c`; copies and mints stay within their source. Kernel runs are
traced with the capabilities that each slot's content was obtained from. -/

namespace Tern

open Cdt Relation

/-- `d` carries no more authority than `c`. -/
structure Within (c d : Cap) : Prop where
  type : d.type = c.type
  ptr : capPtr d = capPtr c
  rights : capRights d &&& capRights c = capRights d
  badge : c.type = .endpoint ∨ c.type = .notification → c.badge ≠ 0#64 → d.badge = c.badge

/-- The capability in a slot goes on: it is the same, or an untyped whose
watermark has moved. -/
def Continues (c d : Cap) : Prop := d = c ∨ (c.type = .untyped ∧ SameButBadge c d)

namespace Within

variable {b c d : Cap}

theorem refl (c : Cap) : Within c c := ⟨rfl, rfl, BitVec.and_self, fun _ _ => rfl⟩

theorem trans (h : Within b c) (h' : Within c d) : Within b d where
  type := h'.type.trans h.type
  ptr := h'.ptr.trans h.ptr
  rights := by rw [← h'.rights, BitVec.and_assoc, h.rights]
  badge hb hne := by
    have hc := h.badge hb hne
    exact (h'.badge (h.type.symm ▸ hb) (hc ▸ hne)).trans hc

/-- A mask, however wide, only takes rights away. -/
theorem masked (c : Cap) (mask : Word) :
    capRights { c with rights := (capRights c &&& mask).setWidth 5 } &&& capRights c =
      capRights { c with rights := (capRights c &&& mask).setWidth 5 } := by
  apply BitVec.eq_of_getLsbD_eq
  intro i hi
  simp only [capRights, BitVec.getLsbD_and, BitVec.getLsbD_setWidth]
  cases c.rights.getLsbD i <;> simp [hi]

theorem copied (c : Cap) (mask : Word) : Within c (copied c mask) :=
  ⟨rfl, rfl, masked c mask, fun _ _ => rfl⟩

/-- Minting changes the badge, but only badge 0. -/
theorem minted {c : Cap} (hc : c.badge = 0#64) (badge mask : Word) :
    Within c (minted c badge mask) :=
  ⟨rfl, rfl, masked c mask, fun _ hne => absurd hc hne⟩

theorem continues (h : Within b c) (h' : Continues c d) : Within b d := by
  rcases h' with rfl | ⟨hc, hsame⟩
  · exact h
  · obtain ⟨htype, hptr, -, -⟩ := hsame.fields
    have hrights : d.rights = c.rights := by
      have := congrArg Cap.rights hsame
      exact this
    refine ⟨htype.trans h.type, ?_, ?_, fun hb _ => ?_⟩
    · rw [capPtr, hptr]
      exact h.ptr
    · rw [capRights, hrights]
      exact h.rights
    · rw [← h.type, hc] at hb
      rcases hb with hb | hb <;> cases hb

end Within

/-! ## Tracing -/

/-- Capability slots, and for each the capabilities that what it holds was
obtained from. -/
structure Lineage where
  slots : Slots
  obtained : Word → Cap → Prop

/-- A successful copy or mint filled `x` from `src`. -/
def CopiedFrom (r : Reply) : CapOp → Word → Word → Prop
  | .copy dest source _, x, src => r.isOk = true ∧ x = dest ∧ src = source
  | .mint dest source _ _, x, src => r.isOk = true ∧ x = dest ∧ src = source
  | _, _, _ => False

/-- What a slot holds was obtained from itself, from all that its source was
obtained from if it was copied, and from all that it was obtained from before
if it goes on. -/
def obtainedAfter (s t : Slots) (copied : Word → Word → Prop) (obtained : Word → Cap → Prop)
    (x : Word) (c : Cap) : Prop :=
  c = (t x).cap ∨ (∃ src, copied x src ∧ obtained src c) ∨
    ((∀ src, ¬ copied x src) ∧ Continues (s x).cap (t x).cap ∧ obtained x c)

/-- The writes to capability slots: one of the five operations, or a new
capability for I/O ports or an interrupt. -/
inductive LineageStep (dm : DirectMap) (L : Lineage) : Lineage → Prop
  | op {op : CapOp} {r : Reply} {t : Slots} (h : CapStep dm L.slots op r t) :
      LineageStep dm L ⟨t, obtainedAfter L.slots t (CopiedFrom r op) L.obtained⟩
  | install (dest : Word) (c : Cap) (hc : c.type = .x86IoPort ∨ c.type = .irqHandler) :
      LineageStep dm L ⟨L.slots.setCap dest c,
        obtainedAfter L.slots (L.slots.setCap dest c) (fun _ _ => False) L.obtained⟩

/-- Every slot's content is within all that it was obtained from. -/
def Lineage.Sound (L : Lineage) : Prop := ∀ x c, L.obtained x c → Within c (L.slots x).cap

theorem Lineage.Sound.after {L : Lineage} {t : Slots} {copied : Word → Word → Prop}
    (hL : L.Sound) (hcopied : ∀ x src, copied x src → Within (L.slots src).cap (t x).cap) :
    (Lineage.mk t (obtainedAfter L.slots t copied L.obtained)).Sound := by
  rintro x c (rfl | ⟨src, hsrc, hc⟩ | ⟨-, hcont, hc⟩)
  · exact .refl _
  · exact (hL src c hc).trans (hcopied x src hsrc)
  · exact (hL x c hc).continues hcont

theorem CapStep.copied_within {dm : DirectMap} {s t : Slots} {op : CapOp} {r : Reply}
    (h : CapStep dm s op r t) {x src : Word} (hx : CopiedFrom r op x src) :
    Within (s src).cap (t x).cap := by
  cases h with
  | @copy dest source mask r t h =>
    obtain ⟨hr, rfl, rfl⟩ := hx
    rcases copyCap_cases s x src mask with ⟨r', hcopy, hlabel, -⟩ | ⟨-, -, hcopy⟩ <;>
      cases hcopy.symm.trans h
    · exact absurd (by simpa [Reply.isOk] using hr) hlabel
    · simpa using Within.copied (s src).cap mask
  | @mint dest source badge mask r t h =>
    obtain ⟨hr, rfl, rfl⟩ := hx
    rcases mintCap_cases s x src badge mask with ⟨r', hmint, hlabel⟩ | ⟨-, -, hzero, hmint⟩ <;>
      cases hmint.symm.trans h
    · exact absurd (by simpa [Reply.isOk] using hr) hlabel
    · simpa using Within.minted hzero badge mask
  | delete | revoke | retype => exact hx.elim

theorem LineageStep.sound {dm : DirectMap} {L L' : Lineage} (h : LineageStep dm L L')
    (hL : L.Sound) : L'.Sound := by
  cases h with
  | op h => exact hL.after fun x src hx => h.copied_within hx
  | install dest c hc => exact hL.after fun _ _ hx => hx.elim

/-- The kernel, traced. -/
structure TracedKernel where
  kernel : Kernel
  obtained : Word → Cap → Prop

def TracedKernel.lineage (K : TracedKernel) : Lineage := ⟨K.kernel.slots, K.obtained⟩

/-- All kernel entries, methods and retypes included, from any state. -/
def lineageSystem (P : Platform) : Lib.Transition TracedKernel Entry where
  start K := ∀ x c, K.obtained x c ↔ c = (K.kernel.slots x).cap
  step K e K' := KernelStep P K.kernel e K'.kernel ∧
    ReflTransGen (LineageStep P.dm) K.lineage K'.lineage

/-- In every run, what a slot holds carries no more authority than any
capability it was obtained from by copies and mints. -/
theorem authority_never_amplified {P : Platform} {K : TracedKernel}
    (h : (lineageSystem P).Reached K) {x : Word} {c : Cap} (hc : K.obtained x c) :
    Within c (K.kernel.slots x).cap := by
  refine h.invariant (I := fun K => K.lineage.Sound) ?_ ?_ x c hc
  · intro K hstart x c hc
    rw [(hstart x c).mp hc]
    exact .refl _
  · rintro K e K' hK - ⟨-, hsteps⟩
    generalize K'.lineage = L' at hsteps ⊢
    induction hsteps with
    | refl => exact hK
    | tail _ hstep ih => exact hstep.sound ih

/-! ## Every entry can be traced -/

/-- The slots change from `s` to `t` by traceable writes. -/
def Leads (dm : DirectMap) (s t : Slots) : Prop :=
  ∀ o, ∃ o', ReflTransGen (LineageStep dm) ⟨s, o⟩ ⟨t, o'⟩

namespace Leads

variable {dm : DirectMap} {s t u : Slots}

theorem refl (s : Slots) : Leads dm s s := fun o => ⟨o, .refl⟩

theorem trans (h : Leads dm s t) (h' : Leads dm t u) : Leads dm s u := by
  intro o
  obtain ⟨o₁, h₁⟩ := h o
  obtain ⟨o₂, h₂⟩ := h' o₁
  exact ⟨o₂, h₁.trans h₂⟩

theorem op {op : CapOp} {r : Reply} (h : CapStep dm s op r t) : Leads dm s t :=
  fun o => ⟨_, .single (.op (L := ⟨s, o⟩) h)⟩

theorem install (s : Slots) (dest : Word) {c : Cap}
    (hc : c.type = .x86IoPort ∨ c.type = .irqHandler) : Leads dm s (s.setCap dest c) :=
  fun o => ⟨_, .single (.install (L := ⟨s, o⟩) dest c hc)⟩

theorem copyCap (s : Slots) (dest src mask : Word) : Leads dm s (copyCap s dest src mask).2 :=
  .op (.copy Prod.mk.eta.symm)

end Leads

section

variable {P : Platform} {fuel : Nat} {k k' : Kernel} {slot : Word} {mr cap : Nat → Word}
  {m : Method} {r : Reply}

theorem withSlot_leads {dm : DirectMap} {s t : Slots} {root index : Word} {depth : BitVec 8}
    {f : Word → Result (Reply × Slots)} (h : withSlot s root index depth f = .ok (r, t))
    (hf : ∀ dest, f dest = .ok (r, t) → Leads dm s t) : Leads dm s t := by
  rcases withSlot_cases h with ⟨rfl, -⟩ | ⟨dest, -, h⟩
  · exact .refl _
  · exact hf dest h

theorem irqControlGet_leads {dm : DirectMap} {irq root index : Word} {depth : BitVec 8}
    (h : irqControlGet P k irq root index depth = .ok (r, k')) : Leads dm k.slots k'.slots := by
  rcases irqControlGet_cases h with ⟨-, rfl⟩ | ⟨dest, -, -, -, -, -, rfl⟩
  · exact .refl _
  · exact .install _ dest (.inr rfl)

theorem invokeMethod_leads (hm : (k.slots slot).cap.type = m.signature.type)
    (h : invokeMethod P fuel k slot mr cap m = .ok (r, k')) : Leads P.dm k.slots k'.slots := by
  by_cases hslots : m.writesSlots = false
  · exact invokeMethod_slots hslots h ▸ .refl _
  · cases m <;> try exact absurd rfl hslots
    case cnodeCopy =>
      refine withSlot_leads (onSlots_slots h) fun dst h => withSlot_leads h fun src h => ?_
      exact .op (.copy (Except.ok.inj h))
    case cnodeMint =>
      refine withSlot_leads (onSlots_slots h) fun dst h => withSlot_leads h fun src h => ?_
      exact .op (.mint (Except.ok.inj h))
    case cnodeDelete =>
      refine withSlot_leads (onSlots_slots h) fun c h => ?_
      simp only [bind_eq_ok, finished_eq_ok, pure_eq_ok, Prod.mk.injEq] at h
      obtain ⟨u, hu, -, rfl⟩ := h
      exact .op (.delete ⟨fuel, hu⟩)
    case cnodeRevoke =>
      refine withSlot_leads (onSlots_slots h) fun c h => ?_
      simp only [bind_eq_ok, finished_eq_ok, pure_eq_ok, Prod.mk.injEq] at h
      obtain ⟨u, hu, -, rfl⟩ := h
      exact .op (.revoke ⟨fuel, hu⟩)
    case tcbConfigure =>
      cases h
      exact ((Leads.copyCap _ _ _ _).trans (.copyCap _ _ _ _)).trans (.copyCap _ _ _ _)
    case untypedRetype => exact .op (.retype hm (retype_slots h))
    case ioPortControlIssue =>
      refine withSlot_leads (onSlots_slots h) fun dest h => ?_
      have hissued : k.slots.setCap dest _ = k'.slots := congrArg Prod.snd (Except.ok.inj h)
      exact hissued ▸ .install _ dest (.inl rfl)
    case irqControlGet => exact irqControlGet_leads h

theorem Effects.leads {dm : DirectMap} (h : Effects k k') : Leads dm k.slots k'.slots := by
  induction h with
  | refl => exact .refl _
  | @tail k₁ k₂ _ hstep ih =>
    refine ih.trans ?_
    cases hstep with
    | notifications | interrupts => exact .refl _
    | message hstep =>
      cases hstep with
      | update hstep => exact hstep.slots ▸ .refl _
      | copy dest src => exact .copyCap _ _ _ _

theorem Entry.enter_leads {e : Entry} (h : e.enter P fuel k = .ok k') :
    Leads P.dm k.slots k'.slots := by
  simp only [Entry.enter, bind_eq_ok] at h
  obtain ⟨k₁, hhandle, hreturn⟩ := h
  rw [(returnFromKernelCode_updates hreturn).slots]
  obtain ⟨tcbs, hsaved, -⟩ := saveFrameOnTcb_spec k e.frame
  rcases Entry.handle_cases hhandle with heffects | ⟨slot, m, mr, cap, r, k₂, hm, hinvoke, hanswer⟩
  · rw [hsaved] at heffects
    exact heffects.leads
  · rw [hsaved] at hinvoke
    obtain ⟨f, -, -, hadmitted⟩ := hm
    rw [hanswer.slots]
    exact invokeMethod_leads (k := { k with tcbs }) hadmitted.type hinvoke

end

/-- Tracing excludes no entry. -/
theorem lineage_step_exists {P : Platform} {K : TracedKernel} {e : Entry} {k' : Kernel}
    (h : KernelStep P K.kernel e k') : ∃ obtained, (lineageSystem P).step K e ⟨k', obtained⟩ := by
  have hleads : Leads P.dm K.kernel.slots k'.slots := by
    cases h with
    | syscall fuel buffers f _ h =>
      exact Entry.enter_leads (k := { K.kernel with buffers }) ((syscallEntry_eq P fuel _ f) ▸ h)
    | interrupt buffers f _ h =>
      exact Entry.enter_leads (k := { K.kernel with buffers }) ((interruptEntry_eq P 0 _ f) ▸ h)
  obtain ⟨obtained, hsteps⟩ := hleads K.obtained
  exact ⟨obtained, h, hsteps⟩

/-- The boot thread copies the endpoint capability in slot 6 to slot 7, with the
rights mask 1; its root CNode is in slot 2. -/
def copyKernel : Kernel :=
  { exampleKernel [] [(2, ({ type := .cnode, sizeBits := 12 } : Cap).withPtr initCnode),
      (6, { endpointCap exampleEndpoint with rights := 0x1F, badge := 9 })] with
    buffers := fun _ i =>
      if i = 0 then 7#64 else if i = 1 ∨ i = 3 then 64#64 else if i = 2 then 6#64
      else if i = 4 then 1#64 else if i = capsOrBadges 0 then 2#64 else 0#64 }

def copyFrame : Frame := callFrame 2 2 { emptyTag with length := 5, extraCaps := 1, label := 1 }

theorem copyKernel_enters : ∃ k', syscallEntry examplePlatform 0 copyKernel copyFrame = .ok k' ∧
    k'.slots = (copyCap copyKernel.slots (initSlot 7) (initSlot 6) 1#64).2 := by
  have hslots : (syscallEntry examplePlatform 0 copyKernel copyFrame).map (fun k => k.slots) =
      .ok (copyCap copyKernel.slots (initSlot 7) (initSlot 6) 1#64).2 := by rfl
  cases hk : syscallEntry examplePlatform 0 copyKernel copyFrame with
  | error e =>
    rw [hk] at hslots
    cases hslots
  | ok k' =>
    rw [hk] at hslots
    exact ⟨k', rfl, Except.ok.inj hslots⟩

/-- Before the copy every capability is obtained from itself only. -/
def copyTraced : TracedKernel := ⟨copyKernel, fun x c => c = (copyKernel.slots x).cap⟩

/-- What each capability is obtained from after the copy. -/
def obtainedByCopy (t : Slots) : Word → Cap → Prop :=
  obtainedAfter copyKernel.slots t
    (CopiedFrom (copyCap copyKernel.slots (initSlot 7) (initSlot 6) 1#64).1
      (.copy (initSlot 7) (initSlot 6) 1#64)) copyTraced.obtained

theorem authority_never_amplified_copy :
    Within (copyKernel.slots (initSlot 6)).cap
      ((copyCap copyKernel.slots (initSlot 7) (initSlot 6) 1#64).2 (initSlot 7)).cap := by
  obtain ⟨k', hk', hslots⟩ := copyKernel_enters
  have hstep : (lineageSystem examplePlatform).step copyTraced (.syscall copyFrame)
      ⟨k', obtainedByCopy k'.slots⟩ := by
    refine ⟨.syscall 0 copyKernel.buffers copyFrame k' hk', .single ?_⟩
    show LineageStep lowMap copyTraced.lineage ⟨k'.slots, obtainedByCopy k'.slots⟩
    rw [hslots]
    exact .op (L := copyTraced.lineage) (.copy Prod.mk.eta.symm)
  rw [← hslots]
  refine authority_never_amplified (.step (.start fun x c => Iff.rfl) trivial hstep) ?_
  exact .inr (.inl ⟨initSlot 6, ⟨by decide +kernel, rfl, rfl⟩, rfl⟩)

end Tern
