import Tern.Deliveries

/-! What `tcb_configure` leaves of a TCB. Its three copies into the slots of the
TCB are one run of `copy_cap` along a list, whose answers are dropped. -/

namespace Tern

open Lib Cdt

/-! ## Copies along a list -/

/-- The copy of a capability with all its rights. -/
def copyOf (c : Cap) : Cap := copied c capRightsAll

@[simp] theorem copyOf_type (c : Cap) : (copyOf c).type = c.type := rfl
@[simp] theorem copyOf_badge (c : Cap) : (copyOf c).badge = c.badge := rfl
@[simp] theorem capPtr_copyOf (c : Cap) : capPtr (copyOf c) = capPtr c := rfl

@[simp] theorem copyOf_copyOf (c : Cap) : copyOf (copyOf c) = copyOf c := by
  have hrights : ∀ r : BitVec 5, (r.setWidth 64 &&& capRightsAll).setWidth 5 = r := by decide
  by_cases htype : c.type = .untyped <;> simp [copyOf, copied, capRights, htype, hrights]

/-- Copies from slot to slot, one after the other; a refused one does nothing. -/
def copyEach : List (Word × Word) → Slots → Slots
  | [], s => s
  | (dest, src) :: l, s => copyEach l (copyCap s dest src capRightsAll).2

/-- A slot takes the copy of a capability, or has it already. -/
def Takes (d c : Cap) : Prop :=
  d.type = .null ∧ (c.type = .untyped → c.badge = 0#64) ∨ d = copyOf c

/-- Every slot takes its copy, and no copy is made from a slot that was filled
before with another capability. -/
structure TakesEach (s : Slots) (l : List (Word × Word)) : Prop where
  takes : ∀ p ∈ l, Takes (s p.1).cap (s p.2).cap
  sources : l.Pairwise fun p q => q.2 = p.1 → copyOf (s q.2).cap = copyOf (s p.2).cap

/-- Every slot has the copy of the capability that was in its source at first. -/
def CopiesEach (s : Slots) (l : List (Word × Word)) (t : Slots) : Prop :=
  ∀ p ∈ l, (t p.1).cap = copyOf (s p.2).cap

section

variable {s t : Slots} {dest src x : Word} {l : List (Word × Word)}

theorem copyCap_at (s : Slots) (dest src x : Word) [Decidable (CopyAllowed s dest src)] :
    ((copyCap s dest src capRightsAll).2 x).cap =
      if x = dest ∧ CopyAllowed s dest src then copyOf (s src).cap else (s x).cap := by
  by_cases hallowed : CopyAllowed s dest src
  · by_cases hx : x = dest <;> simp [hallowed.copyCap_eq, hx, hallowed, copyOf]
  · simp [copyCap_refused hallowed, hallowed]

theorem copyCap_off (hx : x ≠ dest) :
    ((copyCap s dest src capRightsAll).2 x).cap = (s x).cap := by
  classical
  rw [copyCap_at, if_neg fun h => hx h.1]

theorem copyEach_off (hx : x ∉ l.map Prod.fst) : (copyEach l s x).cap = (s x).cap := by
  induction l generalizing s with
  | nil => rfl
  | cons p l ih =>
    simp only [List.map_cons, List.mem_cons, not_or] at hx
    rw [copyEach, ih hx.2, copyCap_off hx.1]

/-- The first slot has its copy afterwards exactly if it takes it. -/
theorem copyCap_copies_iff :
    ((copyCap s dest src capRightsAll).2 dest).cap = copyOf (s src).cap ↔
      Takes (s dest).cap (s src).cap := by
  classical
  rw [copyCap_at]
  by_cases hallowed : CopyAllowed s dest src
  · simp only [hallowed, and_self, if_true, true_iff]
    exact .inl ⟨hallowed.empty, hallowed.fresh⟩
  · simp only [hallowed, and_false, if_false]
    constructor
    · exact .inr
    · rintro (⟨hempty, hfresh⟩ | hsame)
      · exact absurd ⟨hempty, hfresh⟩ hallowed
      · exact hsame

theorem Takes.congr {d c c' : Cap} (h : copyOf c = copyOf c') : Takes d c ↔ Takes d c' := by
  have htype : (copyOf c).type = (copyOf c').type := by rw [h]
  have hbadge : (copyOf c).badge = (copyOf c').badge := by rw [h]
  rw [copyOf_type, copyOf_type] at htype
  rw [copyOf_badge, copyOf_badge] at hbadge
  rw [Takes, Takes, htype, hbadge, h]

theorem CopyAllowed.congr {s' : Slots} (hdest : (s' dest).cap = (s dest).cap)
    (hsrc : (s' src).cap = (s src).cap) : CopyAllowed s' dest src ↔ CopyAllowed s dest src := by
  constructor
  · rintro ⟨hempty, hfresh⟩
    exact ⟨hdest ▸ hempty, hsrc ▸ hfresh⟩
  · rintro ⟨hempty, hfresh⟩
    exact ⟨hdest.symm ▸ hempty, hsrc.symm ▸ hfresh⟩

/-- A copy from a slot that is not filled on the way. -/
theorem copyEach_at {p : Word × Word} [Decidable (CopyAllowed s p.1 p.2)]
    (hdistinct : (l.map Prod.fst).Nodup) (hp : p ∈ l) (hsrc : p.2 ∉ l.map Prod.fst) :
    (copyEach l s p.1).cap =
      if CopyAllowed s p.1 p.2 then copyOf (s p.2).cap else (s p.1).cap := by
  induction l generalizing s with
  | nil => cases hp
  | cons q l ih =>
    classical
    simp only [List.map_cons, List.nodup_cons, List.mem_cons, not_or] at hdistinct hsrc hp
    rw [copyEach]
    rcases hp with rfl | hp
    · rw [copyEach_off hdistinct.1, copyCap_at]
      simp
    · have hne : p.1 ≠ q.1 := fun h => hdistinct.1 (h ▸ List.mem_map_of_mem hp)
      have hdest : ((copyCap s q.1 q.2 capRightsAll).2 p.1).cap = (s p.1).cap := copyCap_off hne
      have hkept : ((copyCap s q.1 q.2 capRightsAll).2 p.2).cap = (s p.2).cap :=
        copyCap_off hsrc.1
      rw [ih hdistinct.2 hp hsrc.2, hdest, hkept]
      simp only [CopyAllowed.congr hdest hkept]

/-- If a slot that was just filled is a source later on, and the copy made from it
is one of what was there before, then it is one of what was filled in as well. -/
theorem source_kept {p : Word × Word} (htakes : Takes (s dest).cap (s src).cap)
    (hfilled : (t dest).cap = copyOf (s src).cap) (hdistinct : (l.map Prod.fst).Nodup)
    (hp : p ∈ l) (hfresh : dest ∉ l.map Prod.fst) (hsrc : p.2 = dest)
    (hcopy : (copyEach l t p.1).cap = copyOf (s dest).cap) :
    copyOf (s dest).cap = copyOf (s src).cap := by
  classical
  subst hsrc
  rcases htakes with ⟨hempty, hused⟩ | hsame
  · rw [copyEach_at hdistinct hp hfresh] at hcopy
    by_cases hallowed : CopyAllowed t p.1 p.2
    · rw [if_pos hallowed, hfilled, copyOf_copyOf] at hcopy
      exact hcopy.symm
    · -- a refused copy leaves a capability there, which is none of an empty slot
      rw [if_neg hallowed] at hcopy
      refine absurd ⟨?_, ?_⟩ hallowed
      · rw [hcopy, copyOf_type, hempty]
      · rw [hfilled, copyOf_type, copyOf_badge]
        exact hused
  · rw [hsame, copyOf_copyOf]

/-- Two states alike in the destinations and, up to copies, in the sources. -/
theorem TakesEach.congr {s' : Slots} (hdest : ∀ p ∈ l, (s' p.1).cap = (s p.1).cap)
    (hsrc : ∀ p ∈ l, copyOf (s' p.2).cap = copyOf (s p.2).cap) :
    TakesEach s' l ↔ TakesEach s l := by
  have htakes : (∀ p ∈ l, Takes (s' p.1).cap (s' p.2).cap) ↔
      ∀ p ∈ l, Takes (s p.1).cap (s p.2).cap := by
    refine forall₂_congr fun p hp => ?_
    rw [hdest p hp, Takes.congr (hsrc p hp)]
  have hpairs : l.Pairwise (fun p q => q.2 = p.1 → copyOf (s' q.2).cap = copyOf (s' p.2).cap) ↔
      l.Pairwise fun p q => q.2 = p.1 → copyOf (s q.2).cap = copyOf (s p.2).cap := by
    refine List.Pairwise.iff_of_mem fun {p q} hp hq => ?_
    rw [hsrc p hp, hsrc q hq]
  constructor
  · exact fun h => ⟨htakes.mp h.takes, hpairs.mp h.sources⟩
  · exact fun h => ⟨htakes.mpr h.takes, hpairs.mpr h.sources⟩

theorem CopiesEach.congr {s' : Slots}
    (hsrc : ∀ p ∈ l, copyOf (s' p.2).cap = copyOf (s p.2).cap) :
    CopiesEach s' l t ↔ CopiesEach s l t := by
  refine forall₂_congr fun p hp => ?_
  rw [hsrc p hp]

/-- Copies along a list of different slots: each slot has its copy at the end
exactly if each takes it. -/
theorem copyEach_copies_iff (hdistinct : (l.map Prod.fst).Nodup) :
    CopiesEach s l (copyEach l s) ↔ TakesEach s l := by
  induction l generalizing s with
  | nil => exact iff_of_true nofun ⟨nofun, .nil⟩
  | cons p l ih =>
    simp only [List.map_cons, List.nodup_cons] at hdistinct
    obtain ⟨hfresh, hdistinct⟩ := hdistinct
    let s' := (copyCap s p.1 p.2 capRightsAll).2
    have hhead : (copyEach (p :: l) s p.1).cap = copyOf (s p.2).cap ↔
        Takes (s p.1).cap (s p.2).cap := by
      rw [copyEach, copyEach_off hfresh, copyCap_copies_iff]
    have hdest : ∀ q ∈ l, (s' q.1).cap = (s q.1).cap := by
      intro q hq
      exact copyCap_off fun h => hfresh (h ▸ List.mem_map_of_mem hq)
    -- the first copy does not show in the sources of the others
    have hsrc : Takes (s p.1).cap (s p.2).cap →
        (∀ q ∈ l, q.2 = p.1 → copyOf (s q.2).cap = copyOf (s p.2).cap) →
        ∀ q ∈ l, copyOf (s' q.2).cap = copyOf (s q.2).cap := by
      intro htakes hsources q hq
      by_cases heq : q.2 = p.1
      · have hfilled : (s' q.2).cap = copyOf (s p.2).cap := by
          rw [heq]
          exact copyCap_copies_iff.mpr htakes
        rw [hfilled, copyOf_copyOf, hsources q hq heq]
      · rw [show (s' q.2).cap = (s q.2).cap from copyCap_off heq]
    constructor
    · intro hcopies
      have htakes := hhead.mp (hcopies p List.mem_cons_self)
      have hsources : ∀ q ∈ l, q.2 = p.1 → copyOf (s q.2).cap = copyOf (s p.2).cap := by
        intro q hq heq
        have hcopy := hcopies q (List.mem_cons_of_mem p hq)
        rw [heq] at hcopy ⊢
        exact source_kept htakes (copyCap_copies_iff.mpr htakes) hdistinct hq hfresh heq hcopy
      have hrest : CopiesEach s l (copyEach l s') :=
        fun q hq => hcopies q (List.mem_cons_of_mem p hq)
      have hsame := hsrc htakes hsources
      have htail := (TakesEach.congr hdest hsame).mp ((ih hdistinct).mp
        ((CopiesEach.congr hsame).mpr hrest))
      exact ⟨List.forall_mem_cons.mpr ⟨htakes, htail.takes⟩,
        List.pairwise_cons.mpr ⟨hsources, htail.sources⟩⟩
    · rintro ⟨htakes, hpairs⟩
      obtain ⟨htakes, htail⟩ := List.forall_mem_cons.mp htakes
      obtain ⟨hsources, hpairs⟩ := List.pairwise_cons.mp hpairs
      have hsame := hsrc htakes hsources
      have hrest : CopiesEach s l (copyEach l s') := (CopiesEach.congr hsame).mp
        ((ih hdistinct).mpr ((TakesEach.congr hdest hsame).mpr ⟨htail, hpairs⟩))
      exact List.forall_mem_cons.mpr ⟨hhead.mpr htakes, hrest⟩

end

/-! ## The fields of a TCB -/

/-- The copies of `tcb_configure`. -/
def configureCopies (tcb cspaceRoot vspaceRoot bufferFrame : Word) : List (Word × Word) :=
  [(cspaceRootOf tcb, cspaceRoot), (vspaceRootOf tcb, vspaceRoot),
    (ipcBufferFrameOf tcb, bufferFrame)]

/-- The TCB holds copies of the given capabilities, and its IPC buffer is at the
frame it holds. -/
structure Configured (k k' : Kernel) (tcb cspaceRoot vspaceRoot bufferFrame : Word) : Prop where
  cspace : (k'.slots (cspaceRootOf tcb)).cap = copyOf (k.slots cspaceRoot).cap
  vspace : (k'.slots (vspaceRootOf tcb)).cap = copyOf (k.slots vspaceRoot).cap
  frame : (k'.slots (ipcBufferFrameOf tcb)).cap = copyOf (k.slots bufferFrame).cap
  buffer : (k'.tcbs tcb).ipcBuffer = pointer (capPtr (k'.slots (ipcBufferFrameOf tcb)).cap)

/-- The four fields and the derivation lists are as they were. -/
structure Unconfigured (k k' : Kernel) (tcb : Word) : Prop where
  cspace : (k'.slots (cspaceRootOf tcb)).cap = (k.slots (cspaceRootOf tcb)).cap
  vspace : (k'.slots (vspaceRootOf tcb)).cap = (k.slots (vspaceRootOf tcb)).cap
  frame : (k'.slots (ipcBufferFrameOf tcb)).cap = (k.slots (ipcBufferFrameOf tcb)).cap
  buffer : (k'.tcbs tcb).ipcBuffer = (k.tcbs tcb).ipcBuffer
  links : k'.slots.links = k.slots.links

/-- A call of `tcb_configure` does all it is asked for, or answers an error and
does nothing. -/
def AllOrNothing (k : Kernel) (slot cspaceRoot vspaceRoot bufferFrame : Word)
    (result : Reply × Kernel) : Prop :=
  result.1.isOk = true ∧
      Configured k result.2 (capPtr (k.slots slot).cap) cspaceRoot vspaceRoot bufferFrame ∨
    result.1.isOk = false ∧ Unconfigured k result.2 (capPtr (k.slots slot).cap)

section

variable {s : Slots} {tcb cspaceRoot vspaceRoot bufferFrame : Word}

theorem configureCopies_distinct :
    ((configureCopies tcb cspaceRoot vspaceRoot bufferFrame).map Prod.fst).Nodup := by
  have hoffsets : ∀ x y : Word, x ≠ y → tcb + x ≠ tcb + y :=
    fun x y hne heq => hne (add_left_cancel heq)
  simp only [configureCopies, cspaceRootOf, vspaceRootOf, ipcBufferFrameOf, List.map_cons,
    List.map_nil, List.nodup_cons, List.mem_cons, List.not_mem_nil, not_or]
  exact ⟨⟨hoffsets _ _ (by decide), hoffsets _ _ (by decide), not_false⟩,
    ⟨hoffsets _ _ (by decide), not_false⟩, not_false, .nil⟩

/-- If every slot takes its copy, the frame is the given one still after the copies,
also where its slot is one of those filled. -/
theorem TakesEach.frame_kept
    (h : TakesEach s (configureCopies tcb cspaceRoot vspaceRoot bufferFrame)) :
    capPtr (copyEach (configureCopies tcb cspaceRoot vspaceRoot bufferFrame) s bufferFrame).cap =
      capPtr (s bufferFrame).cap := by
  have hcopies := (copyEach_copies_iff configureCopies_distinct).mpr h
  have hsources := h.sources
  simp only [configureCopies, List.pairwise_cons, List.mem_cons, List.not_mem_nil,
    forall_eq_or_imp, forall_eq, or_false] at hsources
  obtain ⟨⟨-, hcspace⟩, hvspace, -⟩ := hsources
  -- the frame is in one of the slots that are filled, or it is left alone
  by_cases hmem : bufferFrame ∈
      (configureCopies tcb cspaceRoot vspaceRoot bufferFrame).map Prod.fst
  · obtain ⟨p, hp, heq⟩ := List.mem_map.mp hmem
    have hcopy := hcopies p hp
    rw [heq] at hcopy
    have hsame : copyOf (s bufferFrame).cap = copyOf (s p.2).cap := by
      simp only [configureCopies, List.mem_cons, List.not_mem_nil, or_false] at hp
      rcases hp with rfl | rfl | rfl
      · exact hcspace heq.symm
      · exact hvspace heq.symm
      · rfl
    rw [hcopy, ← hsame, capPtr_copyOf]
  · rw [copyEach_off hmem]

/-- `tcb_configure` is all-or-nothing exactly if every slot of the TCB takes its
copy. It never answers an error. -/
theorem configure_all_or_nothing_iff (k : Kernel) (slot cspaceRoot vspaceRoot bufferFrame : Word) :
    AllOrNothing k slot cspaceRoot vspaceRoot bufferFrame
        (tcbConfigure k slot cspaceRoot vspaceRoot bufferFrame) ↔
      TakesEach k.slots
        (configureCopies (capPtr (k.slots slot).cap) cspaceRoot vspaceRoot bufferFrame) := by
  let tcb := capPtr (k.slots slot).cap
  have hslots : (tcbConfigure k slot cspaceRoot vspaceRoot bufferFrame).2.slots =
      copyEach (configureCopies tcb cspaceRoot vspaceRoot bufferFrame) k.slots := rfl
  have hbuffer : ((tcbConfigure k slot cspaceRoot vspaceRoot bufferFrame).2.tcbs tcb).ipcBuffer =
      pointer (capPtr (copyEach (configureCopies tcb cspaceRoot vspaceRoot bufferFrame) k.slots
        bufferFrame).cap) := by
    rw [← hslots]
    simp only [tcbConfigure, Kernel.modifyTcb, tcb, Function.update_self]
  constructor
  · rintro (⟨-, hconf⟩ | ⟨herror, -⟩)
    · rw [← copyEach_copies_iff configureCopies_distinct]
      simp only [CopiesEach, configureCopies, List.forall_mem_cons, List.not_mem_nil,
        false_imp_iff, implies_true, and_true]
      exact ⟨hconf.cspace, hconf.vspace, hconf.frame⟩
    · cases herror
  · intro htakes
    have hcopies := (copyEach_copies_iff configureCopies_distinct).mpr htakes
    have hframe := hcopies (ipcBufferFrameOf tcb, bufferFrame) (by simp [configureCopies, tcb])
    refine .inl ⟨rfl, ?_, ?_, hframe, ?_⟩
    · exact hcopies (cspaceRootOf tcb, cspaceRoot) (by simp [configureCopies, tcb])
    · exact hcopies (vspaceRootOf tcb, vspaceRoot) (by simp [configureCopies, tcb])
    · rw [hbuffer, htakes.frame_kept, hslots, hframe, capPtr_copyOf]

end

/-- The worker is configured already; another CNode, PML4 and frame are given. -/
def reconfigureKernel : Kernel :=
  exampleKernel [workerTcb] [(5, tcbCap workerTcb),
    (6, ({ type := .cnode, sizeBits := 4 } : Cap).withPtr 0xFFFF800000200000#64),
    (7, ({ type := .x86Pml4 } : Cap).withPtr 0xFFFF800000300000#64),
    (8, ({ type := .x86Page } : Cap).withPtr 0xFFFF800000400000#64)]

/-- The old CSpace root stays, and the answer is `NO_ERROR`. -/
theorem reconfigure_answers_ok :
    ¬ ∀ k slot cspaceRoot vspaceRoot bufferFrame,
      AllOrNothing k slot cspaceRoot vspaceRoot bufferFrame
        (tcbConfigure k slot cspaceRoot vspaceRoot bufferFrame) := by
  intro h
  rcases h reconfigureKernel (initSlot 5) (initSlot 6) (initSlot 7) (initSlot 8) with
    ⟨-, hconf⟩ | ⟨herror, -⟩
  · exact absurd hconf.cspace (by decide +kernel)
  · cases herror

end Tern
