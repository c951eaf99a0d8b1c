import Tern.Retype

/-! The memory behind an untyped capability, as an interval of direct-map
addresses, and where the objects retyped from it lie. Alignment is `roundUp` in
unbounded arithmetic; a retype fits when its objects end inside the untyped. -/

namespace Tern

open Cdt

/-! ## Word arithmetic -/

/-- `n` rounded up to a multiple of `a`, without overflow. -/
def roundUp (n a : Nat) : Nat := (n + a - 1) / a * a

theorem le_roundUp {a : Nat} (ha : 0 < a) (n : Nat) : n ≤ roundUp n a := by
  have hlt := Nat.lt_div_mul_add ha (a := n + a - 1)
  unfold roundUp
  omega

theorem mask_toNat {y a : Word} {k : Nat} (ha : a.toNat = 2 ^ k) :
    (y &&& ~~~(a - 1#64)).toNat = y.toNat / 2 ^ k * 2 ^ k := by
  have hpow : 0 < 2 ^ k := Nat.two_pow_pos k
  have hsub : (a - 1#64).toNat = 2 ^ k - 1 := by
    rw [BitVec.toNat_sub_of_le (by rw [BitVec.le_def, ha]; exact hpow), ha]
    rfl
  have hshift : y &&& ~~~(a - 1#64) = (y >>> k) <<< k := by
    apply BitVec.eq_of_getLsbD_eq
    intro i hi
    have hbit : (a - 1#64).getLsbD i = decide (i < k) := by
      rw [BitVec.getLsbD, hsub, Nat.testBit_two_pow_sub_one]
    rw [BitVec.getLsbD_and, BitVec.getLsbD_not, hbit, BitVec.getLsbD_shiftLeft,
      BitVec.getLsbD_ushiftRight]
    by_cases hik : i < k
    · simp [hik]
    · simp [hik, hi, show k + (i - k) = i by omega]
  have hle : y.toNat / 2 ^ k * 2 ^ k ≤ y.toNat := Nat.div_mul_le_self ..
  rw [hshift, BitVec.toNat_shiftLeft, BitVec.toNat_ushiftRight, Nat.shiftRight_eq_div_pow,
    Nat.shiftLeft_eq, Nat.mod_eq_of_lt (by omega)]

theorem alignUp_toNat {x a : Word} {k : Nat} (ha : a.toNat = 2 ^ k)
    (hx : x.toNat + 2 ^ k ≤ 2 ^ 64) : (alignUp x a).toNat = roundUp x.toNat (2 ^ k) := by
  have hpow : 0 < 2 ^ k := Nat.two_pow_pos k
  have hsum : (x + a - 1#64).toNat = x.toNat + 2 ^ k - 1 := by
    rw [BitVec.toNat_sub, BitVec.toNat_add, ha]
    have hone : (1#64).toNat = 1 := rfl
    omega
  rw [alignUp, mask_toNat ha, hsum, roundUp]

/-- Every listed object type but `CAP_NULL` has a power of two as size. -/
theorem objectSize_pow {type : CapType} {sizeBits objSize : Word}
    (h : objectSize type sizeBits = .ok objSize) (htype : type ≠ .null) :
    ∃ k < 64, objSize.toNat = 2 ^ k := by
  cases type <;> first
    | exact absurd rfl htype
    | cases h; exact ⟨_, Nat.mod_lt _ (by decide), bit_toNat _⟩
    | cases h

/-! ## The direct map -/

namespace DirectMap

variable (dm : DirectMap)

theorem directMapOf_low {a : Word} (ha : a.toNat < 2 ^ dm.bits) :
    (dm.directMapOf a).toNat = dm.offset.toNat + a.toNat := by
  obtain ⟨q, hq⟩ := dm.aligned
  rw [directMapOf, BitVec.toNat_or, Nat.or_comm, hq, Nat.two_pow_add_eq_or_of_lt ha]

theorem directMapOf_high {a : Word} {p : Nat} (hp : p < 2 ^ dm.bits)
    (ha : a.toNat = dm.offset.toNat + p) : dm.directMapOf a = a := by
  obtain ⟨q, hq⟩ := dm.aligned
  apply BitVec.eq_of_toNat_eq
  rw [directMapOf, BitVec.toNat_or, ha, hq, Nat.two_pow_add_eq_or_of_lt hp, Nat.or_comm,
    ← Nat.or_assoc, Nat.or_self]

end DirectMap

section

variable (dm : DirectMap)

/-- The direct-map address a capability stands for. -/
def addrOf (c : Cap) : Nat := (dm.directMapOf (capPtr c)).toNat

/-- The size in bytes of the memory of an untyped capability. -/
def bytes (c : Cap) : Nat := 2 ^ c.sizeBits.toNat

/-- The pointer is a direct-map address already. -/
def Direct (c : Cap) : Prop := dm.directMapOf (capPtr c) = capPtr c

/-- The memory of an untyped capability is part of the mapped memory; its
pointer is a physical or a direct-map address. -/
def InWindow (c : Cap) : Prop :=
  ∃ p, p + bytes c ≤ 2 ^ dm.bits ∧ ((capPtr c).toNat = p ∨ (capPtr c).toNat = dm.offset.toNat + p)

/-- A retype whose objects, each of `size` bytes, end inside the untyped `c`. -/
def Fits (c : Cap) (size num : Nat) : Prop := roundUp c.badge.toNat size + size * num ≤ bytes c

variable {dm}

theorem bytes_pos (c : Cap) : 0 < bytes c := Nat.two_pow_pos _

theorem bytes_le (c : Cap) : bytes c ≤ 2 ^ 63 :=
  Nat.pow_le_pow_right (by decide) (by have := c.sizeBits.isLt; omega)

theorem capSize_toNat (c : Cap) : (capSize c).toNat = bytes c := by
  have hlt := c.sizeBits.isLt
  rw [capSize, bit_toNat, BitVec.toNat_setWidth, bytes]
  congr 1
  omega

theorem InWindow.addrOf_eq {c : Cap} (h : InWindow dm c) :
    ∃ p, p + bytes c ≤ 2 ^ dm.bits ∧ addrOf dm c = dm.offset.toNat + p ∧
      ((capPtr c).toNat = p ∨ (capPtr c).toNat = dm.offset.toNat + p) := by
  obtain ⟨p, hp, hptr⟩ := h
  have hpos := bytes_pos c
  refine ⟨p, hp, ?_, hptr⟩
  rcases hptr with h | h
  · rw [addrOf, dm.directMapOf_low (by omega), h]
  · rw [addrOf, dm.directMapOf_high (p := p) (by omega) h, h]

theorem Direct.addrOf_eq {c : Cap} (h : Direct dm c) : addrOf dm c = (capPtr c).toNat :=
  congrArg _ h

/-- The test of `untyped_contains`, for direct-map addresses. -/
theorem untypedContains_iff {u c : Cap} (hu : InWindow dm u) (hdu : Direct dm u)
    (hc : Direct dm c) :
    untypedContains u c = true ↔ addrOf dm u ≤ addrOf dm c ∧ addrOf dm c < addrOf dm u + bytes u := by
  obtain ⟨p, hp, haddr, -⟩ := hu.addrOf_eq
  have hbelow := dm.below
  have hsum : (capPtr u + capSize u).toNat = addrOf dm u + bytes u := by
    rw [BitVec.toNat_add, capSize_toNat, ← hdu.addrOf_eq, Nat.mod_eq_of_lt (by omega)]
  simp only [untypedContains, Bool.and_eq_true, decide_eq_true_eq, BitVec.le_def, BitVec.lt_def,
    hsum, hdu.addrOf_eq, hc.addrOf_eq]

section

variable {c : Cap} {type : CapType} {sizeBits objSize : Word} {num : Nat}

theorem objectSize_pos (hsize : objectSize type sizeBits = .ok objSize) (htype : type ≠ .null) :
    0 < objSize.toNat := by
  obtain ⟨k, -, hpow⟩ := objectSize_pow hsize htype
  rw [hpow]
  exact Nat.two_pow_pos k

/-- In a fitting retype the aligned offset does not overflow. -/
theorem Fits.alignUp_toNat (hsize : objectSize type sizeBits = .ok objSize) (htype : type ≠ .null)
    (hfits : Fits c objSize.toNat num) :
    (alignUp c.badge objSize).toNat = roundUp c.badge.toNat objSize.toNat := by
  obtain ⟨k, hk, hpow⟩ := objectSize_pow hsize htype
  have hle := le_roundUp (objectSize_pos hsize htype) c.badge.toNat
  have hbytes := bytes_le c
  have hmax : 2 ^ k ≤ 2 ^ 63 := Nat.pow_le_pow_right (by decide) (by omega)
  unfold Fits at hfits
  rw [Tern.alignUp_toNat hpow (by omega), hpow]

theorem Fits.object_le (hfits : Fits c objSize.toNat num) {i : Nat} (hi : i < num) :
    roundUp c.badge.toNat objSize.toNat + i * objSize.toNat + objSize.toNat ≤ bytes c := by
  have hmul : (i + 1) * objSize.toNat ≤ num * objSize.toNat := Nat.mul_le_mul_right _ hi
  rw [Nat.succ_mul] at hmul
  unfold Fits at hfits
  rw [Nat.mul_comm objSize.toNat num] at hfits
  omega

/-- The watermark a fitting retype leaves. -/
theorem Fits.watermark_toNat {numObjects : Word} (hsize : objectSize type sizeBits = .ok objSize)
    (htype : type ≠ .null) (hfits : Fits c objSize.toNat numObjects.toNat) :
    (alignUp c.badge objSize + objSize * numObjects).toNat =
      roundUp c.badge.toNat objSize.toNat + objSize.toNat * numObjects.toNat := by
  have hbytes := bytes_le c
  have halign := hfits.alignUp_toNat hsize htype
  unfold Fits at hfits
  rw [BitVec.toNat_add, BitVec.toNat_mul, halign]
  rw [Nat.mod_eq_of_lt (a := objSize.toNat * numObjects.toNat) (by omega),
    Nat.mod_eq_of_lt (by omega)]

end

/-- Where the `i`th object of a fitting retype lies. -/
theorem objPtr_toNat {s : Slots} {slot : Word} {type : CapType} {sizeBits objSize : Word}
    {num i : Nat} (hsize : objectSize type sizeBits = .ok objSize) (htype : type ≠ .null)
    (hwin : InWindow dm (s slot).cap) (hfits : Fits (s slot).cap objSize.toNat num) (hi : i < num) :
    let p := roundUp (s slot).cap.badge.toNat objSize.toNat + i * objSize.toNat
    (objPtr dm objSize (usableMemory s slot objSize) i).toNat = addrOf dm (s slot).cap + p ∧
      dm.directMapOf (objPtr dm objSize (usableMemory s slot objSize) i) =
        objPtr dm objSize (usableMemory s slot objSize) i := by
  intro p
  obtain ⟨q, hq, haddr, hptr⟩ := hwin.addrOf_eq
  have hpos := objectSize_pos hsize htype
  have hbytes := bytes_le (s slot).cap
  have hbelow := dm.below
  have halign := hfits.alignUp_toNat hsize htype
  have hend : p + objSize.toNat ≤ bytes (s slot).cap := hfits.object_le hi
  have hi64 : i < 2 ^ 64 := by
    have : i * 1 ≤ i * objSize.toNat := Nat.mul_le_mul_left _ hpos
    omega
  have hmul : (BitVec.ofNat 64 i * objSize).toNat = i * objSize.toNat := by
    rw [BitVec.toNat_mul, BitVec.toNat_ofNat, Nat.mod_eq_of_lt hi64, Nat.mod_eq_of_lt (by omega)]
  have hpaddr : (objPaddr objSize (usableMemory s slot objSize) i).toNat =
      (capPtr (s slot).cap).toNat + p := by
    rw [objPaddr, usableMemory, BitVec.toNat_add, BitVec.toNat_add, halign, hmul]
    rcases hptr with h | h <;> omega
  rcases hptr with h | h
  · have hlow := dm.directMapOf_low (a := objPaddr objSize (usableMemory s slot objSize) i)
      (by rw [hpaddr]; omega)
    rw [hpaddr, h] at hlow
    rw [objPtr, hlow, haddr]
    exact ⟨by omega, dm.directMapOf_high (p := q + p) (by omega) (by rw [hlow])⟩
  · have hhigh := dm.directMapOf_high (a := objPaddr objSize (usableMemory s slot objSize) i)
      (p := q + p) (by omega) (by rw [hpaddr]; omega)
    rw [objPtr, hhigh, hpaddr, haddr, h]
    exact ⟨rfl, hhigh⟩

end

end Tern
