import Mathlib.Data.Fintype.Basic
import Tern.Dispatch
import Tern.Lib.Bitfields

/-! The two views of `union capability`: its words, in which `cap_ptr` and `cap_set_ptr`
find the pointer with a mask, and its bit-fields, which the compiler lays out from the
lowest bit on. `CapBits` is the union itself, with any value of its 128 bits; `Cap.bits`
gives the bits of a capability of the kernel's model. -/

namespace Tern

open Lib

/-- `union capability`. -/
abbrev CapBits := BitVec 128

/-- The named members of the structure in the union. -/
inductive CapField
  | isOriginal | isDevice | reserved | ptr | sizeBits | rights | type | badge
  deriving DecidableEq, Repr

instance : Fintype CapField where
  elems := {.isOriginal, .isDevice, .reserved, .ptr, .sizeBits, .rights, .type, .badge}
  complete f := by cases f <;> decide

namespace CapBits

/-- `words[i]`. -/
abbrev word (i : Fin 2) : Bitfield 128 := ⟨64 * i, 64, by omega⟩

/-- The place of a bit-field. -/
abbrev field : CapField → Bitfield 128
  | .isOriginal => ⟨0, 1, by decide⟩
  | .isDevice => ⟨1, 1, by decide⟩
  | .reserved => ⟨2, 2, by decide⟩
  | .ptr => ⟨4, 44, by decide⟩
  | .sizeBits => ⟨48, 6, by decide⟩
  | .rights => ⟨54, 5, by decide⟩
  | .type => ⟨59, 5, by decide⟩
  | .badge => ⟨64, 64, by decide⟩

/-- `BITS_PTR_MASK`. -/
def bitsPtrMask : Word := 0xFFFFFFFFFFF0#64

/-- `bits_pointer`. -/
def bitsPointer (bits : Word) : Word :=
  let ptrBits := bits &&& bitsPtrMask
  if ptrBits &&& 0x800000000000#64 ≠ 0#64 then ptrBits ||| 0xFFFF000000000000#64 else ptrBits

/-- `set_bits_pointer`. -/
def setBitsPointer (bits ptr : Word) : Result Word := do
  assert (isSafeCapPtr ptr)
  return (bits &&& ~~~bitsPtrMask) ||| (ptr &&& bitsPtrMask)

/-- `cap_ptr`. -/
def capPtr (cap : CapBits) : Word := bitsPointer ((word 0).get cap)

/-- `cap_set_ptr`. -/
def capSetPtr (cap : CapBits) (ptr : Word) : Result CapBits := do
  let bits ← setBitsPointer ((word 0).get cap) ptr
  return (word 0).set cap bits

/-- `cap_set_rights`. -/
def capSetRights (cap : CapBits) (rights : Word) : CapBits :=
  (field .rights).set cap (rights.setWidth 5)

/-- Assignments to members, in order. -/
def assign (cap : CapBits) (values : List ((f : CapField) × BitVec (field f).width)) : CapBits :=
  values.foldl (fun cap v => (field v.1).set cap v.2) cap

/-- `new_x86_64_io_port_cap`. -/
def newX86IoPortCap (firstPort lastPort : BitVec 16) : CapBits :=
  assign 0#128 [⟨.type, BitVec.ofNat 5 CapType.x86IoPort.toNat⟩, ⟨.ptr, firstPort.setWidth 44⟩,
    ⟨.badge, lastPort.setWidth 64⟩]

/-- The assignments of `create_objects` to a destination capability. -/
def create (cap : CapBits) (type sizeBits : Word) : CapBits :=
  assign cap [⟨.type, type.setWidth 5⟩, ⟨.sizeBits, sizeBits.setWidth 6⟩, ⟨.badge, 0#64⟩,
    ⟨.isOriginal, 1#1⟩, ⟨.rights, capRightsAll.setWidth 5⟩]

/-! ## The layout -/

/-- The members have no bit in common. -/
theorem field_apart : ∀ f g : CapField, f ≠ g → (field f).Apart (field g) := by decide

/-- They have all bits of the union. -/
theorem field_cover : ∀ i < 128, ∃ f, (field f).Has i := by decide +kernel

/-- The pointer's place within `words[0]`. -/
abbrev pointerBits : Bitfield 64 := ⟨4, 44, by decide⟩

theorem bitsPtrMask_eq : bitsPtrMask = pointerBits.mask := by decide

theorem get_set_of_ne {f g : CapField} (h : f ≠ g) (c : CapBits) (v : BitVec (field f).width) :
    (field g).get ((field f).set c v) = (field g).get c :=
  Bitfield.get_set_of_apart (field_apart f g h) c v

/-- Members that are not assigned to are kept. -/
theorem get_assign {f : CapField} {values : List ((f : CapField) × BitVec (field f).width)}
    (h : ∀ v ∈ values, v.1 ≠ f) (c : CapBits) :
    (field f).get (assign c values) = (field f).get c := by
  induction values generalizing c with
  | nil => rfl
  | cons v values ih =>
    have hrest := ih (fun v hv => h v (List.mem_cons_of_mem _ hv)) ((field v.1).set c v.2)
    exact hrest.trans (get_set_of_ne (h v List.mem_cons_self) ..)

/-- A capability is its members. -/
theorem eq_of_field {c d : CapBits} (h : ∀ f, (field f).get c = (field f).get d) : c = d :=
  Bitfield.eq_of_get field_cover h

/-! ## The pointer in both views -/

/-- The bits above the pointer, all set in the upper half of the address space. -/
abbrev aboveBits : Bitfield 64 := ⟨48, 16, by decide⟩

theorem getLsbD_bitsPointer (ptr : BitVec 44) {i : Nat} (hi : i < 64) :
    (Tern.bitsPointer ptr).getLsbD i =
      if i < 4 then false else if i < 48 then ptr.getLsbD (i - 4) else ptr.getLsbD 43 := by
  simp only [Tern.bitsPointer, BitVec.getLsbD_signExtend, BitVec.msb_append,
    BitVec.getLsbD_append, hi, decide_true, Bool.true_and]
  by_cases h4 : i < 4
  · simp [h4, show i < 48 by omega]
  · by_cases h48 : i < 48
    · simp [h4, h48]
    · simp [h4, h48, BitVec.msb_eq_getLsbD_last]

/-- The test of `bits_pointer` is for bit 47. -/
theorem and_signBit_ne (bits : Word) :
    bits &&& bitsPtrMask &&& 0x800000000000#64 ≠ 0#64 ↔ bits.getLsbD 47 = true := by
  have hsign : bitsPtrMask &&& 0x800000000000#64 = BitVec.twoPow 64 47 := by decide
  rw [BitVec.and_assoc, hsign, BitVec.and_twoPow]
  cases bits.getLsbD 47 <;> decide

/-- Both views of the pointer: bit 47 is the highest of the field. -/
theorem bitsPointer_eq (bits : Word) : bitsPointer bits = Tern.bitsPointer (pointerBits.get bits) := by
  have habove : 0xFFFF000000000000#64 = aboveBits.mask := by decide
  refine BitVec.eq_of_getLsbD_eq fun i hi => ?_
  have hptr : (bits &&& bitsPtrMask).getLsbD i = (bits.getLsbD i && decide (pointerBits.Has i)) := by
    rw [BitVec.getLsbD_and, bitsPtrMask_eq, Bitfield.getLsbD_mask hi]
  have hbits : (bitsPointer bits).getLsbD i =
      (bits.getLsbD i && decide (pointerBits.Has i) || bits.getLsbD 47 && decide (aboveBits.Has i)) := by
    simp only [bitsPointer, and_signBit_ne]
    split
    · next h => rw [BitVec.getLsbD_or, hptr, habove, Bitfield.getLsbD_mask hi, h, Bool.true_and]
    · next h => rw [hptr, Bool.eq_false_of_not_eq_true h, Bool.false_and, Bool.or_false]
  rw [hbits, getLsbD_bitsPointer _ hi]
  by_cases h4 : i < 4
  · simp [Bitfield.Has, h4, show ¬ 4 ≤ i by omega, show ¬ 48 ≤ i by omega]
  · by_cases h48 : i < 48
    · have hget := Bitfield.getLsbD_get (f := pointerBits) bits (show i - 4 < 44 by omega)
      rw [if_neg h4, if_pos h48, hget]
      simp [Bitfield.Has, h48, show 4 ≤ i by omega, show ¬ 48 ≤ i by omega,
        Nat.add_sub_cancel' (show 4 ≤ i by omega)]
    · have hget := Bitfield.getLsbD_get (f := pointerBits) bits (show 43 < 44 by decide)
      rw [if_neg h4, if_neg h48, hget]
      simp [Bitfield.Has, h48, show 48 ≤ i by omega, hi]

theorem setBitsPointer_eq (bits ptr : Word) :
    setBitsPointer bits ptr =
      (assert (isSafeCapPtr ptr)).map fun _ => pointerBits.set bits (pointerBits.get ptr) := by
  rw [Bitfield.set_get, ← bitsPtrMask_eq]
  rfl

theorem capPtr_eq (c : CapBits) : capPtr c = Tern.bitsPointer ((field .ptr).get c) := by
  rw [capPtr, bitsPointer_eq, ← Bitfield.get_within (f := word 0)]
  rfl

theorem capSetPtr_eq (c : CapBits) (p : Word) :
    capSetPtr c p =
      (assert (isSafeCapPtr p)).map fun _ => (field .ptr).set c (pointerBits.get p) := by
  have hset := Bitfield.set_within (f := word 0) pointerBits c (pointerBits.get p)
  rw [capSetPtr, setBitsPointer_eq]
  cases isSafeCapPtr p
  · rfl
  · exact congrArg _ hset.symm

theorem capSetPtr_of_safe (c : CapBits) {p : Word} (hp : isSafeCapPtr p = true) :
    capSetPtr c p = .ok ((field .ptr).set c (pointerBits.get p)) := by
  rw [capSetPtr_eq, hp]
  rfl

/-- No assignment to another member moves the pointer. -/
theorem capPtr_assign {values : List ((f : CapField) × BitVec (field f).width)}
    (h : ∀ v ∈ values, v.1 ≠ .ptr) (c : CapBits) : capPtr (assign c values) = capPtr c := by
  rw [capPtr_eq, capPtr_eq, get_assign h]

theorem capPtr_create (c : CapBits) (type sizeBits : Word) :
    capPtr (create c type sizeBits) = capPtr c :=
  capPtr_assign (by simp) c

theorem capPtr_capSetRights (c : CapBits) (rights : Word) :
    capPtr (capSetRights c rights) = capPtr c := by
  rw [capPtr_eq, capPtr_eq, capSetRights, get_set_of_ne (by decide)]

/-- The field of a pointer that the assertion lets pass is the pointer. -/
theorem bitsPointer_get {p : Word} (hp : isSafeCapPtr p = true) :
    Tern.bitsPointer (pointerBits.get p) = p :=
  capPtr_withPtr {} p hp

end CapBits

open CapBits in
/-- The mask and the bit-fields find the pointer in the same place. -/
theorem cap_views_agree (c : CapBits) :
    (∀ p, isSafeCapPtr p = true → ∃ d, CapBits.capSetPtr c p = .ok d ∧ CapBits.capPtr d = p ∧
      ∀ f ≠ CapField.ptr, (field f).get d = (field f).get c) ∧
    (∀ f ≠ CapField.ptr, ∀ v, CapBits.capPtr ((field f).set c v) = CapBits.capPtr c) ∧
    (∀ v, CapBits.capPtr ((field .ptr).set c v) = (v ++ 0#4).signExtend 64) ∧
    CapBits.capPtr c = ((field .ptr).get c ++ 0#4).signExtend 64 ∧
    ∀ p, isSafeCapPtr p = true →
      CapBits.capSetPtr c p = .ok ((field .ptr).set c (p.extractLsb' 4 44)) := by
  refine ⟨fun p hp => ?_, fun f hf v => ?_, fun v => ?_, capPtr_eq c,
    fun p hp => capSetPtr_of_safe c hp⟩
  · refine ⟨_, capSetPtr_of_safe c hp, ?_, fun f hf => get_set_of_ne hf.symm ..⟩
    rw [capPtr_eq, Bitfield.get_set]
    exact bitsPointer_get hp
  · rw [capPtr_eq, capPtr_eq, get_set_of_ne hf]
  · rw [capPtr_eq, Bitfield.get_set]
    rfl

theorem cap_views_agree_halves :
    (∃ d, CapBits.capSetPtr (BitVec.allOnes 128) 0xFFFFFFFF80001000#64 = .ok d ∧
      CapBits.capPtr d = 0xFFFFFFFF80001000#64 ∧
      ∀ f ≠ CapField.ptr, (CapBits.field f).get d = (CapBits.field f).get (BitVec.allOnes 128)) ∧
    ∃ d, CapBits.capSetPtr (BitVec.allOnes 128) 0x7FFFFFFFFFF0#64 = .ok d ∧
      CapBits.capPtr d = 0x7FFFFFFFFFF0#64 ∧
      ∀ f ≠ CapField.ptr, (CapBits.field f).get d = (CapBits.field f).get (BitVec.allOnes 128) :=
  ⟨(cap_views_agree _).1 _ (by decide), (cap_views_agree _).1 _ (by decide)⟩

/-! ## The kernel's capabilities -/

namespace Cap

open CapBits

/-- The union's value, `badge` in the second word. -/
def bits (c : Cap) : CapBits := c.badge ++ c.word0

/-- The value of a member. -/
def member (c : Cap) : (f : CapField) → BitVec (field f).width
  | .isOriginal => BitVec.ofBool c.isOriginal
  | .isDevice => BitVec.ofBool c.isDevice
  | .reserved => c.reserved
  | .ptr => c.ptr
  | .sizeBits => c.sizeBits
  | .rights => c.rights
  | .type => BitVec.ofNat 5 c.type.toNat
  | .badge => c.badge

theorem field_bits (c : Cap) (f : CapField) : (field f).get c.bits = c.member f := by
  refine BitVec.eq_of_getLsbD_eq fun i hi => ?_
  rw [Bitfield.getLsbD_get _ hi]
  cases f <;> dsimp only [field] at hi <;>
    simp (disch := omega) only [bits, word0, member, BitVec.getLsbD_append, if_pos, if_neg] <;>
    exact congrArg _ (by omega)

/-- The words `cnode_debug_get` replies with. -/
theorem word_bits (c : Cap) : (word 0).get c.bits = c.word0 ∧ (word 1).get c.bits = c.badge :=
  ⟨BitVec.extractLsb'_append_eq_right, BitVec.extractLsb'_append_eq_left⟩

theorem toNat_type_injective : ∀ a b : CapType,
    BitVec.ofNat 5 a.toNat = BitVec.ofNat 5 b.toNat → a = b := by
  intro a b
  cases a <;> cases b <;> decide

/-- Different capabilities have different words. -/
theorem bits_injective : Function.Injective bits := by
  intro c d h
  have hmember (f : CapField) : c.member f = d.member f := by
    rw [← field_bits, ← field_bits, h]
  have hbool : ∀ a b : Bool, BitVec.ofBool a = BitVec.ofBool b → a = b := by decide
  obtain ⟨_, _, _, _, _, _, _, _⟩ := c
  obtain ⟨_, _, _, _, _, _, _, _⟩ := d
  rw [Cap.mk.injEq]
  exact ⟨hbool _ _ (hmember .isOriginal), hbool _ _ (hmember .isDevice), hmember .reserved,
    hmember .ptr, hmember .sizeBits, hmember .rights, toNat_type_injective _ _ (hmember .type),
    hmember .badge⟩

/-- An assignment to a member, in both models. -/
theorem set_bits {c d : Cap} {f : CapField} {v : BitVec (field f).width} (hf : d.member f = v)
    (h : ∀ g ≠ f, d.member g = c.member g := by
      intro g hg; cases g <;> first | rfl | contradiction) :
    (field f).set c.bits v = d.bits := by
  refine eq_of_field fun g => ?_
  rw [field_bits]
  by_cases hg : g = f
  · subst hg
    rw [Bitfield.get_set, hf]
  · rw [get_set_of_ne (Ne.symm hg), field_bits, h g hg]

theorem assign_bits {c d e : Cap} {f : CapField} {v : BitVec (field f).width}
    {values : List ((f : CapField) × BitVec (field f).width)}
    (hset : (field f).set c.bits v = d.bits) (hrest : assign d.bits values = e.bits) :
    assign c.bits (⟨f, v⟩ :: values) = e.bits := by
  rw [assign, List.foldl_cons, hset]
  exact hrest

theorem capPtr_bits (c : Cap) : CapBits.capPtr c.bits = capPtr c := by
  rw [capPtr_eq, field_bits]
  rfl

theorem capSetPtr_bits (c : Cap) (p : Word) :
    CapBits.capSetPtr c.bits p = (capSetPtr c p).map bits := by
  have hset : (field .ptr).set c.bits (pointerBits.get p) = (c.withPtr p).bits := set_bits rfl
  rw [capSetPtr_eq, hset, capSetPtr]
  cases isSafeCapPtr p <;> rfl

theorem capSetRights_bits (c : Cap) (rights : Word) :
    capSetRights c.bits rights = (c.withRights rights).bits :=
  set_bits rfl

/-- `new_x86_64_io_port_cap` goes through the bit-fields only. -/
theorem newX86IoPortCap_bits (first last : BitVec 16) :
    CapBits.newX86IoPortCap first last = (newX86IoPortCap first last).bits := by
  have hnull : 0#128 = newNullCap.bits := by decide
  rw [CapBits.newX86IoPortCap, hnull]
  refine assign_bits (d := { type := .x86IoPort }) (set_bits rfl) ?_
  refine assign_bits (d := { type := .x86IoPort, ptr := first.setWidth 44 }) (set_bits rfl) ?_
  exact assign_bits (set_bits rfl) rfl

/-- The pointer of an I/O port capability is its first port, shifted into the field. -/
theorem capPtr_newX86IoPortCap (first last : BitVec 16) :
    CapBits.capPtr (CapBits.newX86IoPortCap first last) = first.setWidth 64 <<< 4 := by
  rw [newX86IoPortCap_bits, capPtr_bits]
  refine BitVec.eq_of_getLsbD_eq fun i hi => ?_
  have hptr : capPtr (newX86IoPortCap first last) = Tern.bitsPointer (first.setWidth 44) := rfl
  rw [hptr, getLsbD_bitsPointer _ hi, BitVec.getLsbD_shiftLeft, BitVec.getLsbD_setWidth,
    BitVec.getLsbD_setWidth, BitVec.getLsbD_setWidth]
  by_cases h4 : i < 4
  · simp [h4]
  · by_cases h48 : i < 48
    · simp [h4, h48, hi, show i - 4 < 44 by omega, show i - 4 < 64 by omega]
    · simp [h4, h48, hi, BitVec.getLsbD_of_ge first (i - 4) (by omega)]

theorem retyped_bits (c : Cap) (type : CapType) (sizeBits : Word) :
    create c.bits (BitVec.ofNat 64 type.toNat) sizeBits = (c.retyped type sizeBits).bits := by
  have htype : BitVec.ofNat 5 type.toNat = (BitVec.ofNat 64 type.toNat).setWidth 5 :=
    (BitVec.setWidth_ofNat_of_le (by decide) _).symm
  refine assign_bits (d := { c with type }) (set_bits htype) ?_
  refine assign_bits (d := { c with type, sizeBits := sizeBits.setWidth 6 }) (set_bits rfl) ?_
  refine assign_bits (d := { c with type, sizeBits := sizeBits.setWidth 6, badge := 0#64 })
    (set_bits rfl) ?_
  refine assign_bits (d := { c with
    type, sizeBits := sizeBits.setWidth 6, badge := 0#64, isOriginal := true }) (set_bits rfl) ?_
  exact assign_bits (set_bits rfl) rfl

end Cap

end Tern
