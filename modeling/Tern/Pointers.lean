import Tern.Carving
import Tern.Devices
import Tern.Syscall

/-! Which pointers a capability can hold. `untyped_retype` stores one for each
object it makes and `irq_control_get` one into the kernel's table of interrupt
handlers, whose elements are 24 bytes long. -/

namespace Tern

open Lib Cdt

/-- The pointer goes into every capability and is read back from it. -/
def Encodes (p : Word) : Prop := ∀ c, ∃ d, capSetPtr c p = .ok d ∧ capPtr d = p

theorem encodes_iff {p : Word} : Encodes p ↔ isSafeCapPtr p = true := by
  constructor
  · intro h
    obtain ⟨d, hd, -⟩ := h {}
    exact ((capSetPtr_eq_ok _ _ _).mp hd).1
  · intro hsafe c
    exact ⟨c.withPtr p, (capSetPtr_eq_ok _ _ _).mpr ⟨hsafe, rfl⟩, capPtr_withPtr c p hsafe⟩

/-! ## Alignment -/

theorem and_mask_eq_zero_iff (p : Word) : p &&& 0xF#64 = 0#64 ↔ 16 ∣ p.toNat := by
  have hmod : (p &&& 0xF#64).toNat = p.toNat % 16 := by
    rw [BitVec.toNat_and]
    exact Nat.and_two_pow_sub_one_eq_mod p.toNat 4
  rw [← BitVec.toNat_inj, hmod, Nat.dvd_iff_mod_eq_zero]
  rfl

theorem capPtr_dvd (c : Cap) : 16 ∣ (capPtr c).toNat := by
  rw [← and_mask_eq_zero_iff]
  apply BitVec.eq_of_getLsbD_eq
  intro i hi
  have hmask : ∀ j < 64, 4 ≤ j → (0xF#64).getLsbD j = false := by decide
  by_cases h4 : i < 4
  · have hbit : (capPtr c).getLsbD i = false := by
      simp only [capPtr, bitsPointer, BitVec.getLsbD_signExtend, BitVec.getLsbD_append]
      simp [h4, show i < 48 by omega]
    rw [BitVec.getLsbD_and, hbit, Bool.false_and, BitVec.getLsbD_zero]
  · rw [BitVec.getLsbD_and, hmask i hi (by omega), Bool.and_false, BitVec.getLsbD_zero]

/-- A row of places from `a` on is aligned: its start is, and so is its step,
if there is a second place. -/
theorem forall_dvd_add_mul_iff {m a size num : Nat} :
    (∀ i < num, m ∣ a + i * size) ↔ num = 0 ∨ m ∣ a ∧ (num = 1 ∨ m ∣ size) := by
  constructor
  · intro h
    by_cases hnone : num = 0
    · exact .inl hnone
    · have hfirst : m ∣ a := by simpa using h 0 (by omega)
      refine .inr ⟨hfirst, ?_⟩
      by_cases hone : num = 1
      · exact .inl hone
      · have hsecond : m ∣ a + size := by simpa using h 1 (by omega)
        exact .inr ((Nat.dvd_add_right hfirst).mp hsecond)
  · rintro (rfl | ⟨hfirst, rfl | hstep⟩) i hi
    · exact absurd hi (Nat.not_lt_zero i)
    · obtain rfl : i = 0 := Nat.lt_one_iff.mp hi
      simpa using hfirst
    · exact Nat.dvd_add hfirst (Nat.dvd_mul_left_of_dvd hstep i)

/-- Up to 16 bytes, the wrapped aligned offset is as much a multiple of 16 as the
rounded one. -/
theorem dvd_alignUp_iff {x a : Word} {k : Nat} (ha : a.toNat = 2 ^ k) (hk : k ≤ 4) :
    16 ∣ (alignUp x a).toNat ↔ 16 ∣ roundUp x.toNat (2 ^ k) := by
  by_cases hx : x.toNat + 2 ^ k ≤ 2 ^ 64
  · rw [alignUp_toNat ha hx]
  · have hlt := x.isLt
    have hpos : 0 < 2 ^ k := Nat.two_pow_pos k
    have hzero := alignUp_wraps ha (x := x) (by omega)
    -- the rounded offset is the end of the address space
    have hup := le_roundUp hpos x.toNat
    have hdown := roundUp_lt hpos x.toNat
    have hend : roundUp x.toNat (2 ^ k) = 2 ^ 64 := by
      obtain ⟨q, hq⟩ := roundUp_dvd x.toNat (2 ^ k)
      obtain ⟨m, hm⟩ : 2 ^ k ∣ 2 ^ 64 := Nat.pow_dvd_pow 2 (by omega)
      rw [hq] at hup hdown ⊢
      rw [hm] at hlt hx ⊢
      have hlow : q < m + 1 := by
        apply Nat.lt_of_mul_lt_mul_left (a := 2 ^ k)
        rw [Nat.mul_succ]
        omega
      have hhigh : m < q + 1 := by
        apply Nat.lt_of_mul_lt_mul_left (a := 2 ^ k)
        rw [Nat.mul_succ]
        omega
      rw [show q = m by omega]
    rw [hzero, hend]
    exact iff_of_true (Nat.dvd_zero _) (by decide)

/-! ## The pointers of a retype -/

/-- The boot loader's direct map lies in the upper half of the address space and
is aligned. -/
def DirectMap.InUpperHalf (dm : DirectMap) : Prop := dm.offset >>> 47 = 0x1FFFF#64 ∧ 4 ≤ dm.bits

theorem DirectMap.InUpperHalf.safe_iff {dm : DirectMap} (h : dm.InUpperHalf) (x : Word) :
    isSafeCapPtr (dm.directMapOf x) = true ↔ 16 ∣ x.toNat := by
  obtain ⟨hupper, hbits⟩ := h
  have haligned : 16 ∣ dm.offset.toNat :=
    (Nat.pow_dvd_pow 2 hbits).trans dm.aligned
  have hlow : dm.directMapOf x &&& 0xF#64 = x &&& 0xF#64 := by
    rw [DirectMap.directMapOf, BitVec.and_comm, BitVec.and_or_distrib_left,
      BitVec.and_comm _ dm.offset, (and_mask_eq_zero_iff _).mpr haligned, BitVec.or_zero,
      BitVec.and_comm]
  have hhigh : dm.directMapOf x >>> 47 = 0x1FFFF#64 := by
    rw [DirectMap.directMapOf, BitVec.ushiftRight_or_distrib, hupper]
    apply BitVec.eq_of_getLsbD_eq
    intro i hi
    rw [BitVec.getLsbD_or, BitVec.getLsbD_ushiftRight]
    by_cases h17 : i < 17
    · have hones : ∀ j < 17, (0x1FFFF#64).getLsbD j = true := by decide
      rw [hones i h17, Bool.or_true]
    · rw [BitVec.getLsbD_of_ge x (47 + i) (by omega), Bool.false_or]
  simp [isSafeCapPtr, hlow, hhigh, and_mask_eq_zero_iff]

/-- The condition on a retype of `num` objects: there is none, they are without
size or of 16 bytes and more, or there is one, at an aligned offset. -/
def PointersAligned (c : Cap) (objSize num : Nat) : Prop :=
  num = 0 ∨ objSize = 0 ∨ 16 ≤ objSize ∨ num = 1 ∧ 16 ∣ roundUp c.badge.toNat objSize

section

variable {dm : DirectMap} {s : Slots} {slot : Word} {type : CapType}
  {sizeBits objSize untyped dest usable : Word}

theorem objPaddr_dvd_iff {i : Nat} (hi : i < 2 ^ 64) :
    16 ∣ (objPaddr objSize (usableMemory s slot objSize) i).toNat ↔
      16 ∣ (alignUp (s slot).cap.badge objSize).toNat + i * objSize.toNat := by
  have hword : 16 ∣ 2 ^ 64 := by decide
  rw [objPaddr, usableMemory, BitVec.toNat_add, BitVec.toNat_add, BitVec.toNat_mul,
    BitVec.toNat_ofNat, Nat.mod_eq_of_lt hi, Nat.mod_add_mod, Nat.add_mod_mod,
    Nat.dvd_mod_iff hword, Nat.add_assoc, Nat.dvd_add_right (capPtr_dvd _)]

theorem objPtrs_encode_iff (s : Slots) (slot : Word) (hmap : dm.InUpperHalf)
    (hsize : objectSize type sizeBits = .ok objSize) {num : Nat} (hnum : num < 2 ^ 64) :
    (∀ i < num, Encodes (objPtr dm objSize (usableMemory s slot objSize) i)) ↔
      PointersAligned (s slot).cap objSize.toNat num := by
  have hrow : (∀ i < num, Encodes (objPtr dm objSize (usableMemory s slot objSize) i)) ↔
      ∀ i < num, 16 ∣ (alignUp (s slot).cap.badge objSize).toNat + i * objSize.toNat := by
    refine forall₂_congr fun i hi => ?_
    rw [encodes_iff, objPtr, hmap.safe_iff, objPaddr_dvd_iff (hi.trans hnum)]
  rw [hrow, forall_dvd_add_mul_iff, PointersAligned]
  by_cases htype : type = .null
  · subst htype
    obtain rfl : objSize = 0#64 := by cases hsize; rfl
    rw [alignUp_zero]
    simp
  · obtain ⟨k, -, hpow⟩ := objectSize_pow hsize htype
    have hpos := objectSize_pos hsize htype
    by_cases hk : 4 ≤ k
    · -- the size is a multiple of 16, and the offset is one of the size
      have hdvd : 16 ∣ objSize.toNat := hpow ▸ Nat.pow_dvd_pow 2 hk
      have hoffset : 16 ∣ (alignUp (s slot).cap.badge objSize).toNat := by
        rw [alignUp, mask_toNat hpow, ← hpow]
        exact Nat.dvd_mul_left_of_dvd hdvd _
      have hle : 16 ≤ objSize.toNat := Nat.le_of_dvd hpos hdvd
      simp [hdvd, hoffset, hle]
    · have hsmall : objSize.toNat < 16 := by
        rw [hpow]
        exact Nat.pow_lt_pow_right (by decide) (by omega : k < 4)
      have hnot : ¬ 16 ∣ objSize.toNat := fun hdvd =>
        absurd (Nat.le_of_dvd hpos hdvd) (by omega)
      rw [dvd_alignUp_iff hpow (by omega), ← hpow]
      simp only [hnot, or_false, show objSize.toNat ≠ 0 by omega,
        show ¬ 16 ≤ objSize.toNat by omega, false_or]
      exact or_congr_right and_comm

/-- The rounds go through exactly if every pointer is safe: their only assertion
is the one of `set_bits_pointer`. -/
theorem createObjects_returns_iff {n : Nat} :
    (∃ t, createObjects dm untyped type sizeBits objSize dest usable n s = .ok t) ↔
      ∀ i < n, isSafeCapPtr (objPtr dm objSize usable i) = true := by
  induction n with
  | zero => exact iff_of_true ⟨s, rfl⟩ nofun
  | succ n ih =>
    simp only [createObjects, bind_eq_ok, createObject_eq_ok]
    constructor
    · rintro ⟨t, u, hu, hsafe, -⟩ i hi
      rcases Nat.lt_succ_iff_lt_or_eq.mp hi with hlt | rfl
      · exact ih.mp ⟨u, hu⟩ i hlt
      · exact hsafe
    · intro hsafe
      obtain ⟨u, hu⟩ := ih.mpr fun i hi => hsafe i (by omega)
      exact ⟨_, u, hu, hsafe n (Nat.lt_succ_self n), rfl⟩

/-- The call comes to `create_objects`: its checks pass and the assertions before
it hold. -/
structure RetypeCall.Creates (call : RetypeCall) (s : Slots) (slot : Word) (type : CapType)
    (objSize cnode : Word) : Prop where
  accepted : call.Accepted s slot type objSize cnode
  isCNode : (s cnode).cap.type = .cnode
  dest : ∃ dest, cteFor s cnode call.nodeOffset (call.nodeDepth.setWidth 64) = .ok dest ∧
    dest ≠ 0#64

theorem retype_returns_iff {call : RetypeCall} {cnode : Word}
    (h : call.Creates s slot type objSize cnode) :
    (∃ r t, call.run dm s slot = .ok (r, t)) ↔ ∀ i < call.numObjects.toNat,
      isSafeCapPtr (objPtr dm objSize (usableMemory s slot objSize) i) = true := by
  obtain ⟨dest, hdest, hne⟩ := h.dest
  have ha := h.accepted
  have hrounds : (∃ u, createObjects dm slot type call.sizeBits objSize dest
      (usableMemory s slot objSize) call.numObjects.toNat s = .ok u) ↔ _ :=
    createObjects_returns_iff
  rw [← hrounds]
  constructor
  · rintro ⟨r, t, hrun⟩
    rcases RetypeCall.run_cases hrun with ⟨-, hnot⟩ | ⟨type', objSize', cnode', ha', hto⟩
    · exact absurd ha (hnot _ _ _)
    · obtain ⟨rfl, rfl, rfl⟩ := ha.unique ha'
      obtain ⟨u, hu, -⟩ := hto.created
      obtain ⟨-, rfl⟩ := cteFor_eq_ok hdest
      exact ⟨u, hu⟩
  · rintro ⟨u, hu⟩
    have htype : retypeType call.type = .ok type := by rw [retypeType, ha.type_eq]
    simp only [RetypeCall.run, untypedRetype, bind_eq_ok]
    refine ⟨.ok, u.setCap slot { (u slot).cap with
      badge := alignUp (s slot).cap.badge objSize + objSize * call.numObjects },
      type, htype, objSize, ha.size, ?_⟩
    rw [if_neg ha.room, withSlot_of_lookup ha.found]
    simp only [bind_eq_ok, assert_eq_ok, beq_iff_eq, exists_const]
    refine ⟨h.isCNode, ?_⟩
    rw [if_neg ha.slots]
    simp only [bind_eq_ok, assert_eq_ok, bne_iff_ne, exists_const]
    exact ⟨dest, hdest, hne, u, hu, rfl⟩

end

/-! ## The pointer of an interrupt handler -/

/-- The linker places `irq_handlers` in the kernel image, at the end of the
address space, and the compiler at a multiple of 8, the alignment of its type. -/
structure HandlersPlaced (P : Platform) : Prop where
  aligned : 8 ∣ P.irqHandlers.toNat
  image : 0xFFFFFFFF80000000 ≤ P.irqHandlers.toNat
  inside : P.irqHandlers.toNat + 16 * 24 ≤ 2 ^ 64

/-- The checks of `irq_control_get` pass, with this destination slot. -/
structure IrqAccepted (k : Kernel) (irq root index : Word) (depth : BitVec 8) (dest : Word) :
    Prop where
  found : lookupCapSlot k.slots root index (depth.setWidth 64) = .ok (.ok dest)
  empty : (k.slots dest).cap.type = .null
  line : irq < 16#64
  free : bit irq &&& k.irqHandlersIssued = 0#64

/-- The condition on a line: it is even, in a table at a multiple of 16; in
another table it is odd. -/
def LineAligned (P : Platform) (irq : Word) : Prop :=
  (P.irqHandlers.toNat / 8 + irq.toNat) % 2 = 0

section

variable {P : Platform} {k : Kernel} {irq root index dest : Word} {depth : BitVec 8}

theorem irqHandlerAt_encodes_iff (htable : HandlersPlaced P) (hirq : irq < 16#64) :
    Encodes (irqHandlerAt P irq) ↔ LineAligned P irq := by
  have haligned := htable.aligned
  have himage := htable.image
  have hinside := htable.inside
  have hline : irq.toNat < 16 := hirq
  have hat : (irqHandlerAt P irq).toNat = P.irqHandlers.toNat + 24 * irq.toNat := by
    rw [irqHandlerAt, BitVec.toNat_add, BitVec.toNat_mul]
    simp only [BitVec.toNat_ofNat]
    omega
  have hhigh : irqHandlerAt P irq >>> 47 = 0x1FFFF#64 := by
    apply BitVec.eq_of_toNat_eq
    rw [BitVec.toNat_ushiftRight, Nat.shiftRight_eq_div_pow, hat]
    simp only [BitVec.toNat_ofNat]
    omega
  have hsafe : isSafeCapPtr (irqHandlerAt P irq) = true ↔ 16 ∣ (irqHandlerAt P irq).toNat := by
    simp [isSafeCapPtr, hhigh, and_mask_eq_zero_iff]
  rw [encodes_iff, hsafe, hat, LineAligned]
  omega

theorem IrqAccepted.returns_iff (h : IrqAccepted k irq root index depth dest) :
    (∃ r k', irqControlGet P k irq root index depth = .ok (r, k')) ↔
      isSafeCapPtr (irqHandlerAt P irq) = true := by
  have hline : ¬ 16#64 ≤ irq := BitVec.not_le.mpr h.line
  constructor
  · rintro ⟨r, k', hrun⟩
    simp only [irqControlGet, bind_eq_ok] at hrun
    obtain ⟨x, hfound, hrun⟩ := hrun
    cases h.found.symm.trans hfound
    simp only [h.empty, h.free, hline, ne_eq, not_true_eq_false, if_false, bind_eq_ok,
      capSetPtr_eq_ok] at hrun
    obtain ⟨c, ⟨hsafe, -⟩, -⟩ := hrun
    exact hsafe
  · intro hsafe
    have hset : capSetPtr (newIrqHandlerCap irq) (irqHandlerAt P irq) =
        .ok ((newIrqHandlerCap irq).withPtr (irqHandlerAt P irq)) :=
      (capSetPtr_eq_ok _ _ _).mpr ⟨hsafe, rfl⟩
    refine ⟨.ok, setIrqHandler { k with
        irqHandlersIssued := k.irqHandlersIssued ||| bit irq
        slots := k.slots.setCap dest ((newIrqHandlerCap irq).withPtr (irqHandlerAt P irq)) }
      (irqHandlerAt P irq) { k.irqHandlers (irqHandlerAt P irq) with irq := irq.setWidth 32 }, ?_⟩
    simp only [irqControlGet, bind_eq_ok]
    refine ⟨_, h.found, ?_⟩
    simp only [h.empty, h.free, hline, ne_eq, not_true_eq_false, if_false, bind_eq_ok]
    exact ⟨_, hset, rfl⟩

/-- Every pointer that a retype stores can be encoded, and the retype returns,
exactly if its objects meet the condition; so can the pointer to the handler of
a line, and `irq_control_get` returns, exactly if the line does. -/
theorem cap_pointers_encode_iff (P : Platform) (hmap : P.dm.InUpperHalf)
    (htable : HandlersPlaced P) :
    (∀ s slot call type objSize cnode, RetypeCall.Creates call s slot type objSize cnode →
      ((∀ i < call.numObjects.toNat,
          Encodes (objPtr P.dm objSize (usableMemory s slot objSize) i)) ↔
        PointersAligned (s slot).cap objSize.toNat call.numObjects.toNat) ∧
      ((∃ r t, call.run P.dm s slot = .ok (r, t)) ↔
        PointersAligned (s slot).cap objSize.toNat call.numObjects.toNat)) ∧
    ∀ k irq root index depth dest, IrqAccepted k irq root index depth dest →
      (Encodes (irqHandlerAt P irq) ↔ LineAligned P irq) ∧
      ((∃ r k', irqControlGet P k irq root index depth = .ok (r, k')) ↔ LineAligned P irq) := by
  constructor
  · intro s slot call type objSize cnode h
    have hencode := objPtrs_encode_iff s slot hmap h.accepted.size call.numObjects.isLt
    refine ⟨hencode, ?_⟩
    rw [retype_returns_iff h, ← hencode]
    exact forall₂_congr fun i hi => encodes_iff.symm
  · intro k irq root index depth dest h
    have hencode := irqHandlerAt_encodes_iff (P := P) htable h.line
    refine ⟨hencode, ?_⟩
    rw [h.returns_iff, ← hencode, encodes_iff]

end

theorem lowMap_inUpperHalf : lowMap.InUpperHalf := ⟨by decide, by decide⟩

theorem examplePlatform_placed : HandlersPlaced examplePlatform :=
  ⟨by decide, by decide, by decide⟩

theorem cap_pointers_encode_example :
    (∃ r t, (oneObject 1#64 0#64 100).run lowMap bootSlots (initSlot 6) = .ok (r, t)) ∧
      Encodes (irqHandlerAt examplePlatform 2#64) := by
  obtain ⟨hretype, hirq⟩ := cap_pointers_encode_iff examplePlatform lowMap_inUpperHalf
    examplePlatform_placed
  constructor
  · refine (hretype bootSlots (initSlot 6) (oneObject 1#64 0#64 100) .endpoint 16#64 (initSlot 2)
      ⟨⟨rfl, rfl, ?_, bootSlots_lookup (i := 2) (by decide), ?_⟩, ?_, initSlot 100, ?_⟩).2.mpr ?_
    · decide +kernel
    · decide +kernel
    · decide +kernel
    · decide +kernel
    · exact .inr (.inr (.inl (by decide)))
  · refine (hirq (exampleKernel [] []) 2#64 (cspaceRootOf initTcb) 100#64 64#8 (initSlot 100)
      ⟨?_, ?_, ?_, ?_⟩).1.mpr ?_
    · decide +kernel
    · decide +kernel
    · decide
    · decide
    · unfold LineAligned
      decide

/-- Two untypeds of one byte each, and line 1. -/
theorem second_byte_and_line_unencodable :
    (¬ ∀ s slot call type objSize cnode, RetypeCall.Creates call s slot type objSize cnode →
      ∀ i < call.numObjects.toNat,
        Encodes (objPtr examplePlatform.dm objSize (usableMemory s slot objSize) i)) ∧
    ¬ ∀ k irq root index depth dest, IrqAccepted k irq root index depth dest →
      Encodes (irqHandlerAt examplePlatform irq) := by
  constructor
  · intro h
    have hsafe := encodes_iff.mp (h bootSlots (initSlot 6)
      ⟨6#64, 0#64, initSlot 2, 2#64, 64#8, 100#64, 2#64⟩ .untyped 1#64 (initSlot 2)
      ⟨⟨rfl, rfl, by decide +kernel, bootSlots_lookup (i := 2) (by decide), by decide +kernel⟩,
        by decide +kernel, initSlot 100, by decide +kernel⟩ 1 (by decide))
    exact absurd hsafe (by decide +kernel)
  · intro h
    have hsafe := encodes_iff.mp (h (exampleKernel [] []) 1#64 (cspaceRootOf initTcb) 100#64 64#8
      (initSlot 100) ⟨by decide +kernel, by decide +kernel, by decide, by decide⟩)
    exact absurd hsafe (by decide)

end Tern
