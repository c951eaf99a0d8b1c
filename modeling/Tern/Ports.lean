import Tern.Updates

/-! How user code reaches I/O ports: through the methods on port capabilities,
whose accesses are to stay inside the capability's range, and through the I/O
privilege level in its flags, which is to stay zero. -/

namespace Tern

/-! ## Port capabilities -/

/-- The ports that an access touches. -/
def PortAccess.ports (a : PortAccess) : List Nat := (List.range a.width).map (a.port.toNat + ·)

/-- The accesses made between `k` and `k'` touch no port outside the range. -/
def InRange (first last : BitVec 16) (k k' : Kernel) : Prop :=
  ∀ new, k'.portAccesses = new ++ k.portAccesses → ∀ a ∈ new, ∀ p ∈ a.ports,
    first.toNat ≤ p ∧ p ≤ last.toNat

/-- How many ports a method of a port capability accesses. -/
def Method.portWidth : Method → Option Nat
  | .ioPortIn8 | .ioPortOut8 => some 1
  | .ioPortIn16 | .ioPortOut16 => some 2
  | .ioPortIn32 | .ioPortOut32 => some 4
  | _ => none

/-- The check of one port covers the whole access: it is refused, ends inside
the range, or is a byte access to the last port, to which the largest word wraps. -/
def CoveredByCheck (first last : BitVec 16) (port : Word) (width : Nat) : Prop :=
  (port.toNat < first.toNat ∨ last.toNat < port.toNat) ∧ port ≠ BitVec.allOnes 64 ∨
    port.toNat + width ≤ last.toNat + 1 ∨
    port = BitVec.allOnes 64 ∧ width = 1 ∧ last = BitVec.allOnes 16

theorem firstPort_new (first last : BitVec 16) : firstPort (newX86IoPortCap first last) = first := by
  simp [firstPort, newX86IoPortCap, BitVec.setWidth_setWidth_of_le]

theorem lastPort_new (first last : BitVec 16) : lastPort (newX86IoPortCap first last) = last := by
  simp [lastPort, newX86IoPortCap, BitVec.setWidth_setWidth_of_le]

/-- The check for size 1 lets the range pass, and the largest word. -/
theorem ioPortRangeCheck_one (c : Cap) (port : Word) :
    ioPortRangeCheck c port 1#64 = none ↔
      (firstPort c).toNat ≤ port.toNat ∧
        (port.toNat ≤ (lastPort c).toNat ∨ port = BitVec.allOnes 64) := by
  have hfirst := (firstPort c).isLt
  have hlast := (lastPort c).isLt
  have hport := port.isLt
  have hall : port = BitVec.allOnes 64 ↔ port.toNat = 2 ^ 64 - 1 := by
    rw [← BitVec.toNat_inj, BitVec.toNat_allOnes]
  simp only [ioPortRangeCheck, hall, BitVec.lt_def, BitVec.toNat_add, BitVec.toNat_setWidth,
    BitVec.toNat_ofNat, ite_eq_right_iff, reduceCtorEq, imp_false, not_or, Nat.not_lt]
  omega

theorem mem_ports (a : PortAccess) (p : Nat) :
    p ∈ a.ports ↔ a.port.toNat ≤ p ∧ p < a.port.toNat + a.width := by
  simp only [PortAccess.ports, List.mem_map, List.mem_range]
  constructor
  · rintro ⟨i, hi, rfl⟩
    omega
  · rintro ⟨hlow, hhigh⟩
    exact ⟨p - a.port.toNat, by omega, by omega⟩

/-- The check refuses the method, which then accesses nothing, or passes, and it
makes one access of `width` ports. -/
structure ChecksOnce (k k' : Kernel) (c : Cap) (port : Word) (width : Nat) : Prop where
  refused : ioPortRangeCheck c port 1#64 ≠ none → k'.portAccesses = k.portAccesses
  passed : ioPortRangeCheck c port 1#64 = none →
    ∃ v, k'.portAccesses = ⟨port.setWidth 16, width, v⟩ :: k.portAccesses

theorem ioPortIn_checksOnce (P : Platform) (width : Nat) (k : Kernel) (slot port : Word) :
    ChecksOnce k (ioPortIn P width k slot port).2 (k.slots slot).cap port width := by
  unfold ioPortIn
  cases hc : ioPortRangeCheck (k.slots slot).cap port 1#64 with
  | some e => exact ⟨fun _ => rfl, fun hn => by cases hc.symm.trans hn⟩
  | none => exact ⟨fun hn => absurd hc hn, fun _ => ⟨_, rfl⟩⟩

theorem ioPortOut_checksOnce (width : Nat) (k : Kernel) (slot port value : Word) :
    ChecksOnce k (ioPortOut width k slot port value).2 (k.slots slot).cap port width := by
  unfold ioPortOut
  cases hc : ioPortRangeCheck (k.slots slot).cap port 1#64 with
  | some e => exact ⟨fun _ => rfl, fun hn => by cases hc.symm.trans hn⟩
  | none => exact ⟨fun hn => absurd hc hn, fun _ => ⟨_, rfl⟩⟩

theorem invokeMethod_checksOnce {P : Platform} {fuel : Nat} {k k' : Kernel} {slot : Word}
    {mr cap : Nat → Word} {m : Method} {w : Nat} {r : Reply} (hw : m.portWidth = some w)
    (h : invokeMethod P fuel k slot mr cap m = .ok (r, k')) :
    ChecksOnce k k' (k.slots slot).cap (mr 0) w := by
  cases m <;> cases hw <;> obtain rfl := congrArg Prod.snd (Except.ok.inj h)
  case ioPortIn8 | ioPortIn16 | ioPortIn32 => exact ioPortIn_checksOnce ..
  case ioPortOut8 | ioPortOut16 | ioPortOut32 => exact ioPortOut_checksOnce ..

theorem Method.portWidth_pos {m : Method} {w : Nat} (hw : m.portWidth = some w) : 0 < w := by
  cases m <;> cases hw <;> decide

/-- The accesses of the methods on a port capability stay inside its range
exactly where the check for one port covers them. -/
theorem port_access_in_range_iff {P : Platform} {fuel : Nat} {k k' : Kernel} {slot : Word}
    {mr cap : Nat → Word} {m : Method} {w : Nat} {r : Reply} {first last : BitVec 16}
    (hw : m.portWidth = some w) (hcap : (k.slots slot).cap = newX86IoPortCap first last)
    (h : invokeMethod P fuel k slot mr cap m = .ok (r, k')) :
    InRange first last k k' ↔ CoveredByCheck first last (mr 0) w := by
  have hpos := m.portWidth_pos hw
  have hcheck := ioPortRangeCheck_one (k.slots slot).cap (mr 0)
  rw [hcap, firstPort_new, lastPort_new] at hcheck
  have hall : mr 0 = BitVec.allOnes 64 ↔ (mr 0).toNat = 2 ^ 64 - 1 := by
    rw [← BitVec.toNat_inj, BitVec.toNat_allOnes]
  have hmax : last = BitVec.allOnes 16 ↔ last.toNat = 2 ^ 16 - 1 := by
    rw [← BitVec.toNat_inj, BitVec.toNat_allOnes]
  have hport := (mr 0).isLt
  have hfirst := first.isLt
  have hlast := last.isLt
  have honce := invokeMethod_checksOnce hw h
  rw [hcap] at honce
  rw [hall] at hcheck
  rw [CoveredByCheck, ne_eq, hall, hmax]
  by_cases hpass : ioPortRangeCheck (newX86IoPortCap first last) (mr 0) 1#64 = none
  · obtain ⟨v, hnew⟩ := honce.passed hpass
    have htrunc : ((mr 0).setWidth 16).toNat = (mr 0).toNat % 2 ^ 16 := BitVec.toNat_setWidth ..
    have hconf : InRange first last k k' ↔
        first.toNat ≤ (mr 0).toNat % 2 ^ 16 ∧ (mr 0).toNat % 2 ^ 16 + w ≤ last.toNat + 1 := by
      constructor
      · intro hc
        have hports := hc [⟨(mr 0).setWidth 16, w, v⟩] hnew _ List.mem_cons_self
        simp only [mem_ports, htrunc] at hports
        have hlow := hports ((mr 0).toNat % 2 ^ 16) (by omega)
        have hhigh := hports ((mr 0).toNat % 2 ^ 16 + (w - 1)) (by omega)
        omega
      · rintro ⟨hlow, hhigh⟩ new heq a ha p hp
        rw [hnew, ← List.singleton_append, List.append_left_inj] at heq
        rw [← heq, List.mem_singleton] at ha
        simp only [ha, mem_ports, htrunc] at hp
        omega
    have hin := hcheck.mp hpass
    rw [hconf]
    omega
  · have hout := mt hcheck.mpr hpass
    have hnothing : InRange first last k k' := by
      intro new heq
      rw [honce.refused hpass, List.self_eq_append_left] at heq
      simp [heq]
    simp only [hnothing, true_iff]
    omega

/-- The boot thread holds the ports 0x3F8 to 0x3FF in slot 5. -/
def serialKernel : Kernel := exampleKernel [] [(5, newX86IoPortCap 0x3F8#16 0x3FF#16)]

/-- A read of 4 bytes at the start of the range. -/
theorem port_access_in_range_iff_serial :
    InRange 0x3F8#16 0x3FF#16 serialKernel
      (ioPortIn examplePlatform 4 serialKernel (initSlot 5) 0x3F8#64).2 :=
  have hread : invokeMethod examplePlatform 0 serialKernel (initSlot 5) (fun _ => 0x3F8#64)
      (fun _ => 0#64) .ioPortIn32 =
        .ok (ioPortIn examplePlatform 4 serialKernel (initSlot 5) 0x3F8#64) := rfl
  (port_access_in_range_iff rfl (by decide +kernel) hread).mpr (.inr (.inl (by decide)))

/-- A read of 4 bytes at the last port of the range reads three ports behind it. -/
theorem port_read_leaves_range :
    ¬ ∀ (P : Platform) (fuel : Nat) (k k' : Kernel) (slot : Word) (mr cap : Nat → Word)
      (m : Method) (w : Nat) (r : Reply) (first last : BitVec 16), m.portWidth = some w →
      (k.slots slot).cap = newX86IoPortCap first last →
      invokeMethod P fuel k slot mr cap m = .ok (r, k') → InRange first last k k' := by
  intro h
  have hread := h examplePlatform 0 serialKernel _ (initSlot 5) (fun _ => 0x3FF#64)
    (fun _ => 0#64) .ioPortIn32 4 _ 0x3F8#16 0x3FF#16 rfl (by decide +kernel) rfl
  have hlast := hread [⟨0x3FF#16, 4, none⟩] (by decide +kernel) _ List.mem_cons_self 0x402
    (by decide)
  exact absurd hlast.2 (by decide)

/-! ## The I/O privilege level -/

/-- Bits 12 and 13 of the flags. -/
def flagIopl : Word := 0x3000#64

/-- The I/O privilege level in these flags is zero. -/
def Unprivileged (rflags : Word) : Prop := rflags &&& flagIopl = 0#64

instance (rflags : Word) : Decidable (Unprivileged rflags) := inferInstanceAs (Decidable (_ = _))

/-- `new_user_frame`. -/
def newUserFrame (rip rsp : Word) : Frame :=
  { cs := userCs, ss := userSs, rip, rsp, rflags := 0x202#64 }

/-- A frame for user code, as `jump_to_userland_frame` is to get it. -/
structure UserMode (f : Frame) : Prop where
  cs : f.cs = userCs
  ss : f.ss = userSs
  interrupts : f.rflags &&& flagIf = flagIf
  iopl : Unprivileged f.rflags

/-- A kernel entry, with what user code has written to its memory before it. -/
structure Arrival where
  entry : Entry
  buffers : Word → IpcBuffer
  userFrames : Word → Frame

def Kernel.arriving (k : Kernel) (a : Arrival) : Kernel :=
  { k with buffers := a.buffers, userFrames := a.userFrames }

/-- The kernel, the flags of the user code that runs, and the frames that
`switch_tcb_actual` has passed to `jump_to_userland_frame`. -/
structure Machine where
  kernel : Kernel
  rflags : Word
  jumps : List Frame

/-- The frame that `return_from_kernel_code` jumps to on its way from `k` to
`k'`: none where it returns to the interrupted code or the processor idles. -/
def jumpedTo (k k' : Kernel) : Option Frame :=
  if k.returnToTcb = k.currentTcb then none
  else k.returnToTcb.map fun t => (k'.tcbs t).savedState

/-- The flags of the user code that runs after an entry with the frame `f`. -/
def flagsAfter (M : Machine) (f : Frame) : Option Frame → Word
  | some jump => jump.rflags
  | none => if f.cs = userCs then f.rflags else M.rflags

/-- One entry. The processor, in ring 3, never raises the I/O privilege level. -/
inductive MachineStep (P : Platform) (M : Machine) (a : Arrival) : Machine → Prop
  | enter (fuel : Nat) (k k' : Kernel)
      (hframe : a.entry.frame.cs = userCs → Unprivileged M.rflags →
        Unprivileged a.entry.frame.rflags)
      (hhandle : a.entry.handle P fuel (M.kernel.arriving a) = .ok k)
      (hreturn : returnFromKernelCode P.dm k = .ok k') :
      MachineStep P M a
        ⟨k', flagsAfter M a.entry.frame (jumpedTo k k'), (jumpedTo k k').toList ++ M.jumps⟩

/-- The frames of the start: zeroed memory or `new_user_frame`. -/
def InitialFrame (f : Frame) : Prop := f = {} ∨ ∃ rip rsp, f = newUserFrame rip rsp

/-- All kernel entries from a start where every frame is an initial one. -/
def machineSystem (P : Platform) : Lib.Transition Machine Arrival where
  start M := (∀ t, InitialFrame (M.kernel.tcbs t).savedState ∧
    ∀ f, (M.kernel.tcbs t).currentUserFrame = some f → InitialFrame f) ∧
    Unprivileged M.rflags ∧ M.jumps = []
  step := MachineStep P

/-- The frame that the running thread's third message register points to. -/
def frameArgument (k : Kernel) (f : Frame) : Prop :=
  ∃ t p, k.currentTcb = some t ∧ (k.tcbs t).ipcBuffer = some p ∧ f = k.userFrames (k.buffers p 3)

/-- If the entry writes the registers of a thread, then with an unprivileged frame, and
it writes to saved frames in no other way. -/
structure WritesUnprivileged (M : Machine) (a : Arrival) : Prop where
  written : ∀ f obj written, a.entry = .syscall f →
    Invokes (M.kernel.arriving a) f .tcbWriteRegisters obj →
      frameArgument (M.kernel.arriving a) written → Unprivileged written.rflags
  confined : a.entry.Confined (M.kernel.arriving a)

/-- The frames of a thread are unprivileged. -/
structure Calm (c : Tcb) : Prop where
  saved : Unprivileged c.savedState.rflags
  live : ∀ f, c.currentUserFrame = some f → Unprivileged f.rflags

theorem unprivileged_ensure {f : Frame} (h : Unprivileged f.rflags) :
    Unprivileged (ensureFrameValidForUsermode f).rflags := by
  have hdistrib : (f.rflags ||| flagIf) &&& flagIopl =
      (f.rflags &&& flagIopl) ||| (flagIf &&& flagIopl) := by
    ext i
    simp only [BitVec.getElem_and, BitVec.getElem_or, Bool.and_or_distrib_right]
  rw [Unprivileged, ensureFrameValidForUsermode, hdistrib, h]
  decide

/-- The repaired frame is one for user code, provided that it was unprivileged. -/
theorem userMode_ensure {f : Frame} (h : Unprivileged f.rflags) :
    UserMode (ensureFrameValidForUsermode f) where
  cs := rfl
  ss := rfl
  interrupts := by
    ext i
    simp only [ensureFrameValidForUsermode, BitVec.getElem_and, BitVec.getElem_or]
    cases f.rflags[i] <;> cases flagIf[i] <;> rfl
  iopl := unprivileged_ensure h

section

variable {k k' : Kernel}

theorem calm_modifyTcb {t : Word} {f : Tcb → Tcb} (hk : ∀ x, Calm (k.tcbs x))
    (hf : Calm (f (k.tcbs t))) (x : Word) : Calm ((k.modifyTcb t f).tcbs x) := by
  rw [Kernel.modifyTcb_tcbs]
  split
  · exact hf
  · exact hk x

theorem Update.calm (h : Update k k') (hk : ∀ t, Calm (k.tcbs t)) : ∀ t, Calm (k'.tcbs t) := by
  cases h with
  | tcb t f hsaved hlive hbuffer =>
    refine calm_modifyTcb hk ⟨?_, ?_⟩
    · rw [hsaved]
      exact (hk t).saved
    · rw [hlive]
      exact (hk t).live
  | save t f hf => exact calm_modifyTcb hk ⟨(hk t).live f hf, (hk t).live⟩
  | arm t => exact calm_modifyTcb hk ⟨unprivileged_ensure (hk t).saved, (hk t).live⟩
  | resultLive t f w hf =>
    refine calm_modifyTcb hk ⟨(hk t).saved, fun g hg => ?_⟩
    cases hg
    exact (hk t).live f hf
  | resultSaved t w => exact calm_modifyTcb hk ⟨(hk t).saved, (hk t).live⟩
  | nodes | noted | buffers | processor => exact hk

theorem Effects.calm (h : Effects k k') (hk : ∀ t, Calm (k.tcbs t)) : ∀ t, Calm (k'.tcbs t) := by
  refine h.invariant (I := fun k => ∀ t, Calm (k.tcbs t)) (fun k k' h hk => ?_) hk
  cases h with
  | notifications | interrupts => exact hk
  | message h =>
    cases h with
    | update h => exact h.calm hk
    | copy => exact hk

/-- No frame changes, but those of threads in cleared memory. -/
def FramesKept (k k' : Kernel) : Prop :=
  ∀ t, k'.tcbs t = {} ∨ (k'.tcbs t).savedState = (k.tcbs t).savedState ∧
    (k'.tcbs t).currentUserFrame = (k.tcbs t).currentUserFrame

theorem FramesKept.of_eq (h : k'.tcbs = k.tcbs) : FramesKept k k' := fun t => .inr (by simp [h])

theorem FramesKept.modifyTcb (t : Word) (f : Tcb → Tcb)
    (hsaved : ∀ c, (f c).savedState = c.savedState)
    (hlive : ∀ c, (f c).currentUserFrame = c.currentUserFrame) :
    FramesKept k (k.modifyTcb t f) := by
  intro x
  rw [Kernel.modifyTcb_tcbs]
  split
  · next h => exact .inr ⟨h ▸ hsaved _, h ▸ hlive _⟩
  · exact .inr ⟨rfl, rfl⟩

theorem FramesKept.setState (t : Word) (state : TaskState) : FramesKept k (k.setState t state) :=
  .modifyTcb t _ (fun _ => rfl) (fun _ => rfl)

theorem FramesKept.calm (h : FramesKept k k') (hk : ∀ t, Calm (k.tcbs t)) (t : Word) :
    Calm (k'.tcbs t) := by
  rcases h t with h | ⟨hsaved, hlive⟩
  · rw [h]
    exact ⟨by decide, by nofun⟩
  · exact ⟨hsaved ▸ (hk t).saved, hlive ▸ (hk t).live⟩

theorem initObjects_tcbs (dm : DirectMap) (type : CapType) (objSize usable : Word) (n : Nat)
    (k : Kernel) (t : Word) : (initObjects dm type objSize usable n k).tcbs t = {} ∨
      (initObjects dm type objSize usable n k).tcbs t = k.tcbs t := by
  induction n with
  | zero => exact .inr rfl
  | succ n ih =>
    have hobject : ∀ (k : Kernel) (ptr : Word), (initObject k type ptr objSize).tcbs t =
        if inMemory ptr objSize t then {} else k.tcbs t := by
      intro k ptr
      cases type <;> rfl
    rw [initObjects, hobject]
    split
    · exact .inl rfl
    · exact ih

theorem mapEntry_tcbs (k : Kernel) (above : List (Word × Word)) (entry value : Word) :
    (mapEntry k above entry value).2.tcbs = k.tcbs := by
  unfold mapEntry
  split
  · rfl
  · split <;> rfl

/-- Only `tcb_write_registers` brings in a new frame. -/
theorem invokeMethod_framesKept {P : Platform} {fuel : Nat} {slot : Word} {mr cap : Nat → Word}
    {m : Method} {r : Reply} (hm : m ≠ .tcbWriteRegisters)
    (h : invokeMethod P fuel k slot mr cap m = .ok (r, k')) : FramesKept k k' := by
  cases m <;> simp only [invokeMethod] at h
  case tcbWriteRegisters => exact absurd rfl hm
  case cnodeCopy | cnodeDelete | cnodeMint | cnodeRevoke | cnodeDebugGet | ioPortControlIssue =>
    simp only [onSlots, bind_eq_ok, pure_eq_ok, Prod.mk.injEq] at h
    obtain ⟨-, -, -, rfl⟩ := h
    exact .of_eq rfl
  case cnodeDebugPrint | tcbSetName | tcbReadRegisters | irqHandlerAck | irqHandlerClear |
      irqHandlerSetNotification =>
    cases h
    exact .of_eq rfl
  case tcbResume =>
    simp only [tcbResume, scheduleTcb, bind_eq_ok, pure_eq_ok, Prod.mk.injEq] at h
    obtain ⟨_, ⟨-, -, nodes, -, rfl⟩, -, rfl⟩ := h
    exact FramesKept.setState _ .runnable
  case tcbSuspend =>
    simp only [tcbSuspend, suspendTcb, bind_eq_ok, pure_eq_ok, Prod.mk.injEq] at h
    obtain ⟨_, ⟨nodes, -, rfl⟩, -, rfl⟩ := h
    exact FramesKept.setState _ .suspended
  case tcbConfigure =>
    cases h
    exact FramesKept.modifyTcb (k := { k with slots := _ }) _ _ (fun _ => rfl) (fun _ => rfl)
  case tcbSetDebug =>
    cases h
    exact FramesKept.modifyTcb _ _ (fun _ => rfl) (fun _ => rfl)
  case tcbSetTlsBase =>
    have hset := FramesKept.modifyTcb (k := k) (capPtr (k.slots slot).cap)
      (fun c => { c with tlsBase := mr 0 }) (fun _ => rfl) (fun _ => rfl)
    cases h
    split <;> exact hset
  case tcbBindNotification =>
    have hbind := FramesKept.modifyTcb (k := k) (capPtr (k.slots slot).cap)
      (fun c => { c with boundNotification := pointer (capPtr (k.slots (cap 0)).cap) })
      (fun _ => rfl) (fun _ => rfl)
    simp only [Except.ok.injEq, tcbBindNotification] at h
    split at h
    · cases h
      exact .of_eq rfl
    · split at h
      · cases h
        exact .of_eq rfl
      · cases h
        exact hbind
  case ioPortIn8 | ioPortIn16 | ioPortIn32 | ioPortOut8 | ioPortOut16 | ioPortOut32 =>
    simp only [Except.ok.injEq, ioPortIn, ioPortOut] at h
    split at h <;> cases h <;> exact .of_eq rfl
  case pdptMap | pdMap | ptMap | pageMap | hugePageMap =>
    obtain rfl := congrArg Prod.snd (Except.ok.inj h)
    exact .of_eq (mapEntry_tcbs _ _ _ _)
  case irqControlGet =>
    rcases irqControlGet_cases h with ⟨-, rfl⟩ | ⟨dest, -, -, -, -, -, rfl⟩
    · exact .of_eq rfl
    · exact .of_eq rfl
  case untypedRetype =>
    simp only [retype, bind_eq_ok] at h
    obtain ⟨⟨r', slots⟩, -, h⟩ := h
    dsimp only at h
    split at h
    · cases h
      exact .of_eq rfl
    · simp only [bind_eq_ok, pure_eq_ok, Prod.mk.injEq] at h
      obtain ⟨type, -, objSize, -, -, rfl⟩ := h
      intro t
      rcases initObjects_tcbs P.dm type objSize _ _ k t with h | h
      · exact .inl h
      · exact .inr ⟨congrArg Tcb.savedState h, congrArg Tcb.currentUserFrame h⟩

theorem invokeMethod_calm {P : Platform} {fuel : Nat} {slot : Word} {mr cap : Nat → Word}
    {m : Method} {r : Reply} (h : invokeMethod P fuel k slot mr cap m = .ok (r, k'))
    (hwrite : m = .tcbWriteRegisters → Unprivileged (k.userFrames (mr 3)).rflags)
    (hk : ∀ t, Calm (k.tcbs t)) : ∀ t, Calm (k'.tcbs t) := by
  by_cases hm : m = .tcbWriteRegisters
  · subst hm
    cases h
    exact calm_modifyTcb hk ⟨hwrite rfl, (hk _).live⟩
  · exact (invokeMethod_framesKept hm h).calm hk

theorem Admitted.frameArgument {slot : Word} {info : MessageTag} {mr cap : Nat → Word}
    (h : Admitted k slot info .tcbWriteRegisters mr cap) :
    Tern.frameArgument k (k.userFrames (mr 3)) := by
  have hregisters := h.registers
  simp only [getMrs, Method.signature, OfNat.ofNat_ne_zero, if_false, bind_eq_ok,
    pure_eq_ok] at hregisters
  obtain ⟨p, hp, rfl⟩ := hregisters
  unfold thisBuffer at hp
  split at hp
  · cases hp
  · split at hp
    · cases hp
    · cases hp
      exact ⟨_, _, by assumption, by assumption, rfl⟩

end

/-- The jump at the end of an entry is to the repaired frame of a thread. -/
theorem jumpedTo_userMode {dm : DirectMap} {k k' : Kernel} {f : Frame}
    (hk : ∀ t, Calm (k.tcbs t)) (hreturn : returnFromKernelCode dm k = .ok k')
    (hf : jumpedTo k k' = some f) : UserMode f := by
  unfold jumpedTo at hf
  unfold returnFromKernelCode at hreturn
  split at hf
  · cases hf
  · rename_i hne
    rw [if_neg hne] at hreturn
    obtain ⟨t, ht, rfl⟩ := Option.map_eq_some_iff.mp hf
    rw [ht] at hreturn
    simp only [switchTcbActual, bind_eq_ok, pure_eq_ok] at hreturn
    obtain ⟨-, -, k₁, hsave, k₂, hresched, -, -, rfl⟩ := hreturn
    have hupdates := (saveCurrent_updates hsave).trans (rescheduleCurrent_updates hresched)
    have hcalm := Effects.calm (Updates.effects hupdates) hk
    simp only [Kernel.modifyTcb_tcbs, Kernel.setState, if_true]
    exact userMode_ensure (hcalm t).saved

/-- What holds between the entries. -/
structure Harmless (M : Machine) : Prop where
  calm : ∀ t, Calm (M.kernel.tcbs t)
  rflags : Unprivileged M.rflags
  jumps : ∀ f ∈ M.jumps, UserMode f

theorem InitialFrame.unprivileged {f : Frame} (h : InitialFrame f) : Unprivileged f.rflags := by
  rcases h with rfl | ⟨rip, rsp, rfl⟩
  · decide
  · show Unprivileged 0x202#64
    decide

theorem saveFrameOnTcb_calm {k : Kernel} {f : Frame} (hf : f.cs = userCs → Unprivileged f.rflags)
    (hk : ∀ t, Calm (k.tcbs t)) (t : Word) : Calm ((saveFrameOnTcb k f).tcbs t) := by
  obtain ⟨tcbs, heq, htcbs⟩ := saveFrameOnTcb_spec k f
  obtain ⟨-, hsaved, hlive⟩ := htcbs t
  rw [heq]
  refine ⟨hsaved ▸ (hk t).saved, fun g hg => ?_⟩
  rcases hlive with hsame | ⟨hcs, hnew⟩
  · exact (hk t).live g (hsame ▸ hg)
  · cases hnew.symm.trans hg
    exact hf hcs

theorem MachineStep.handle_calm {P : Platform} {M : Machine} {a : Arrival} {fuel : Nat}
    {k : Kernel} (hM : Harmless M) (hok : WritesUnprivileged M a)
    (hframe : a.entry.frame.cs = userCs → Unprivileged a.entry.frame.rflags)
    (hhandle : a.entry.handle P fuel (M.kernel.arriving a) = .ok k) : ∀ t, Calm (k.tcbs t) := by
  have hsaved : ∀ t, Calm ((saveFrameOnTcb (M.kernel.arriving a) a.entry.frame).tcbs t) :=
    saveFrameOnTcb_calm hframe hM.calm
  rcases Entry.handle_cases hhandle with heffects | ⟨slot, m, mr, cap, r, k₁, hhandles, hinvoke, hanswer⟩
  · exact heffects.calm hsaved
  · refine Effects.calm (Updates.effects hanswer) (invokeMethod_calm hinvoke (fun hm => ?_) hsaved)
    subst hm
    obtain ⟨f, he, hasks, hm⟩ := id hhandles
    -- the handler finds the user frames as they were before the frame was saved
    obtain ⟨tcbs, heq, -⟩ := saveFrameOnTcb_spec (M.kernel.arriving a) a.entry.frame
    rw [heq]
    rw [he] at hhandles
    exact hok.written f _ _ he hhandles.invokes hm.frameArgument

theorem Harmless.step {P : Platform} {M M' : Machine} {a : Arrival} (hM : Harmless M)
    (hok : WritesUnprivileged M a) (h : MachineStep P M a M') : Harmless M' := by
  cases h with
  | enter fuel k k' hframe hhandle hreturn =>
    have hentry := fun hcs => hframe hcs hM.rflags
    have hk := MachineStep.handle_calm hM hok hentry hhandle
    have hjump : ∀ f, jumpedTo k k' = some f → UserMode f :=
      fun f hf => jumpedTo_userMode hk hreturn hf
    refine ⟨?_, ?_, ?_⟩
    · exact Effects.calm (Updates.effects (returnFromKernelCode_updates hreturn)) hk
    · unfold flagsAfter
      split
      · exact (hjump _ (by assumption)).iopl
      · split
        · exact hentry (by assumption)
        · exact hM.rflags
    · intro f hf
      rcases List.mem_append.mp hf with hf | hf
      · exact hjump f (Option.mem_toList.mp hf)
      · exact hM.jumps f hf

/-- In every run in which threads are given only unprivileged registers, and in no other
way than by `tcb_write_registers`, every frame that user code is entered with is one
for user mode. -/
theorem jumps_userMode {P : Platform} {M : Machine}
    (h : (machineSystem P).ReachedBy WritesUnprivileged M) : ∀ f ∈ M.jumps, UserMode f := by
  refine (h.invariant (I := Harmless) ?_ fun _ _ _ hM hok hstep => hM.step hok hstep).jumps
  rintro M ⟨hframes, hflags, hjumps⟩
  refine ⟨fun t => ⟨(hframes t).1.unprivileged, fun f hf => ((hframes t).2 f hf).unprivileged⟩,
    hflags, ?_⟩
  rw [hjumps]
  nofun

/-- System calls one after the other, before each of which user code has cleared
the buffers and put `written` wherever a frame is read from. -/
def runArrivals (P : Platform) (written : Frame) : List Frame → Machine → Result Machine
  | [], M => .ok M
  | f :: fs, M => do
    let a : Arrival := ⟨.syscall f, fun _ _ => 0#64, fun _ => written⟩
    let k ← a.entry.handle P 0 (M.kernel.arriving a)
    let k' ← returnFromKernelCode P.dm k
    runArrivals P written fs
      ⟨k', flagsAfter M f (jumpedTo k k'), (jumpedTo k k').toList ++ M.jumps⟩

theorem runArrivals_reached {P : Platform} {ok : Machine → Arrival → Prop} {written : Frame}
    {fs : List Frame} {M M' : Machine} (hM : (machineSystem P).ReachedBy ok M)
    (hok : ∀ f ∈ fs, ∀ M, ok M ⟨.syscall f, fun _ _ => 0#64, fun _ => written⟩)
    (hflags : ∀ f ∈ fs, Unprivileged f.rflags) (hrun : runArrivals P written fs M = .ok M') :
    (machineSystem P).ReachedBy ok M' := by
  induction fs generalizing M with
  | nil =>
    cases hrun
    exact hM
  | cons f fs ih =>
    simp only [runArrivals, bind_eq_ok] at hrun
    obtain ⟨k, hhandle, k', hreturn, hrun⟩ := hrun
    refine ih (.step hM (hok f List.mem_cons_self M) (.enter 0 k k' ?_ hhandle hreturn))
      (fun g hg => hok g (List.mem_cons_of_mem f hg))
      (fun g hg => hflags g (List.mem_cons_of_mem f hg)) hrun
    exact fun _ _ => hflags f List.mem_cons_self

/-- The boot thread holds the capability of a second thread in slot 5. -/
def workerMachine : Machine := ⟨exampleKernel [workerTcb] [(5, tcbCap workerTcb)], 0#64, []⟩

theorem workerMachine_start (P : Platform) : (machineSystem P).start workerMachine := by
  refine ⟨fun t => ?_, by decide, rfl⟩
  simp only [workerMachine, exampleKernel]
  split
  · exact ⟨.inl rfl, by rintro _ ⟨⟩⟩
  · split <;> exact ⟨.inl rfl, by rintro _ ⟨⟩⟩

/-- It writes the thread's registers, resumes it and yields to it. -/
def writeAndYield : List Frame :=
  [callFrame 2 5 { emptyTag with length := 4, label := 13 }, resumeFrame 5, yieldFrame]

/-- What the thread is entered with. -/
def jumpsOf (written : Frame) : Result (List Frame) :=
  (runArrivals examplePlatform written writeAndYield workerMachine).map Machine.jumps

theorem jumpsOf_reached (ok : Machine → Arrival → Prop) (written : Frame) (jumps : List Frame)
    (hok : ∀ f ∈ writeAndYield, ∀ M, ok M ⟨.syscall f, fun _ _ => 0#64, fun _ => written⟩)
    (h : jumpsOf written = .ok jumps) :
    ∃ M, (machineSystem examplePlatform).ReachedBy ok M ∧ M.jumps = jumps := by
  unfold jumpsOf at h
  cases hrun : runArrivals examplePlatform written writeAndYield workerMachine with
  | error e =>
    rw [hrun] at h
    cases h
  | ok M =>
    rw [hrun] at h
    exact ⟨M, runArrivals_reached (.start (workerMachine_start _)) hok (by decide) hrun,
      Except.ok.inj h⟩

theorem jumps_userMode_worker :
    UserMode (ensureFrameValidForUsermode (newUserFrame 0x400000#64 0#64)) := by
  have hlabels : ∀ f ∈ writeAndYield,
      (Method.ofLabel? f.tag.label).all (fun m => m.writesMemory = false) = true := by
    decide +kernel
  have hok : ∀ f ∈ writeAndYield, ∀ M, WritesUnprivileged M
      ⟨.syscall f, fun _ _ => 0#64, fun _ => newUserFrame 0x400000#64 0#64⟩ := by
    refine fun f hf M => ⟨?_, frame_invokesOnly (hlabels f hf)⟩
    rintro g obj written - - ⟨t, p, -, -, rfl⟩
    show Unprivileged 0x202#64
    decide
  obtain ⟨M, hM, hjumps⟩ := jumpsOf_reached WritesUnprivileged (newUserFrame 0x400000#64 0#64)
    [ensureFrameValidForUsermode (newUserFrame 0x400000#64 0#64)] hok (by decide +kernel)
  exact jumps_userMode hM _ (hjumps ▸ List.mem_cons_self)

/-- A thread may give another one the I/O privilege level of user code. -/
theorem written_privilege_reaches_user_mode :
    ¬ ∀ (P : Platform) (M : Machine), (machineSystem P).Reached M → ∀ f ∈ M.jumps, UserMode f := by
  intro h
  obtain ⟨M, hM, hjumps⟩ := jumpsOf_reached (fun _ _ => True)
    { newUserFrame 0x400000#64 0#64 with rflags := 0x3202#64 }
    [{ newUserFrame 0x400000#64 0#64 with rflags := 0x3202#64 }] (fun _ _ _ => trivial)
    (by decide +kernel)
  have hjump := h examplePlatform M hM _ (hjumps ▸ List.mem_cons_self)
  exact absurd hjump.iopl (by decide)

end Tern
