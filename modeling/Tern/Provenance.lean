import Tern.Operations
import Tern.Regions

/-! Where capabilities come from. `Made` says which slots an operation fills and
from which slot; `Derived` what a capability made by a copy, a mint or a fitting
retype has in common with the one it was made from. -/

namespace Tern

open Lib Cdt

/-- The operation, answered with `r`, put a capability derived from the one in
`parent` into `new`. -/
def Made (s : Slots) (r : Reply) : CapOp → Word → Word → Prop
  | .copy dest src _, new, parent => r.isOk = true ∧ new = dest ∧ parent = src
  | .mint dest src _ _, new, parent => r.isOk = true ∧ new = dest ∧ parent = src
  | .retype slot _ _ root nodeIndex _ nodeOffset numObjects, new, parent =>
    r.isOk = true ∧ parent = slot ∧
      ∃ i < numObjects.toNat, new = destSlot (retypeDest s root nodeIndex nodeOffset) i
  | .delete _, _, _ => False
  | .revoke _, _, _ => False

theorem Made.unique {s : Slots} {r : Reply} {op : CapOp} {x p q : Word} (hp : Made s r op x p)
    (hq : Made s r op x q) : p = q := by
  cases op with
  | copy dest src mask => exact hp.2.2.trans hq.2.2.symm
  | mint dest src badge mask => exact hp.2.2.trans hq.2.2.symm
  | delete c => exact hp.elim
  | revoke c => exact hp.elim
  | retype => exact hp.2.1.trans hq.2.1.symm

/-- Two capabilities that differ in the badge at most. -/
def SameButBadge (c d : Cap) : Prop := d = { c with badge := d.badge }

theorem SameButBadge.rfl {c : Cap} : SameButBadge c c := Eq.refl c

/-- A capability and one derived from it: the same object again, or an object
carved out of untyped memory. -/
inductive Derived (dm : DirectMap) (parent child : Cap) : Prop
  | same (htype : child.type = parent.type) (hptr : child.ptr = parent.ptr)
      (hsize : child.sizeBits = parent.sizeBits)
      (horiginal : child.type = .untyped → child.isOriginal = parent.isOriginal)
  | carved {off size : Nat} (huntyped : parent.type = .untyped) (hsize : 0 < size)
      (hend : off + size ≤ bytes parent) (haddr : addrOf dm child = addrOf dm parent + off)
      (hdirect : Direct dm child) (hbytes : child.type = .untyped → bytes child = size)

/-- What is kept of every untyped capability: its memory is mapped memory, and
if it is original its pointer is a direct-map address. -/
def Anchored (dm : DirectMap) (c : Cap) : Prop :=
  c.type = .untyped → InWindow dm c ∧ (c.isOriginal = true → Direct dm c)

/-- Boot-time untypeds are as `new_untyped_cap` makes them: not original, with the
physical address of mapped memory. -/
def BootUntyped (dm : DirectMap) (c : Cap) : Prop :=
  c.isOriginal = false ∧ (capPtr c).toNat + bytes c ≤ 2 ^ dm.bits

/-- A retype that goes through stays inside its untyped. -/
def RetypeFits (dm : DirectMap) (s : Slots) : CapOp → Prop
  | .retype slot typeArg sizeBits root nodeIndex _ nodeOffset numObjects =>
    ∀ type objSize t, CapType.ofWord? typeArg = some type →
      RetypesTo dm s slot type sizeBits objSize (retypeDest s root nodeIndex nodeOffset)
        numObjects t →
      Fits (s slot).cap objSize.toNat numObjects.toNat
  | _ => True

section

variable {dm : DirectMap} {c d : Cap}

theorem SameButBadge.fields (h : SameButBadge c d) :
    d.type = c.type ∧ d.ptr = c.ptr ∧ d.sizeBits = c.sizeBits ∧ d.isOriginal = c.isOriginal := by
  unfold SameButBadge at h
  rw [h]
  exact ⟨Eq.refl _, Eq.refl _, Eq.refl _, Eq.refl _⟩

theorem BootUntyped.anchored (h : BootUntyped dm c) : Anchored dm c := by
  intro _
  exact ⟨⟨_, h.2, .inl rfl⟩, fun ho => by rw [h.1] at ho; cases ho⟩

theorem addrOf_congr (hptr : d.ptr = c.ptr) : addrOf dm d = addrOf dm c := by
  unfold addrOf capPtr
  rw [hptr]

theorem direct_congr (hptr : d.ptr = c.ptr) : Direct dm d ↔ Direct dm c := by
  unfold Direct capPtr
  rw [hptr]

theorem bytes_congr (hsize : d.sizeBits = c.sizeBits) : bytes d = bytes c := by
  unfold bytes
  rw [hsize]

theorem inWindow_congr (hptr : d.ptr = c.ptr) (hsize : d.sizeBits = c.sizeBits) :
    InWindow dm d ↔ InWindow dm c := by
  unfold InWindow capPtr
  rw [bytes_congr hsize, hptr]

theorem Anchored.congr (h : Anchored dm c) (htype : d.type = c.type) (hptr : d.ptr = c.ptr)
    (hsize : d.sizeBits = c.sizeBits)
    (horiginal : d.type = .untyped → d.isOriginal = c.isOriginal) : Anchored dm d := by
  intro hd
  rw [inWindow_congr hptr hsize, direct_congr hptr, horiginal hd]
  exact h (htype ▸ hd)

/-- An untyped carved out of mapped memory is mapped memory. -/
theorem Derived.anchored (h : Derived dm c d) (hc : Anchored dm c) : Anchored dm d := by
  cases h with
  | same htype hptr hsize horiginal => exact hc.congr htype hptr hsize horiginal
  | @carved off size huntyped hpos hend haddr hdirect hbytes =>
    intro hd
    obtain ⟨p, hp, hcaddr, -⟩ := (hc huntyped).1.addrOf_eq
    refine ⟨⟨p + off, by rw [hbytes hd]; omega, .inr ?_⟩, fun _ => hdirect⟩
    rw [← hdirect.addrOf_eq]
    omega

theorem SameButBadge.anchored (h : SameButBadge c d) (hc : Anchored dm c) : Anchored dm d := by
  obtain ⟨htype, hptr, hsize, horiginal⟩ := h.fields
  exact hc.congr htype hptr hsize fun _ => horiginal

theorem Derived.direct (h : Derived dm c d) (hc : Direct dm c) : Direct dm d := by
  cases h with
  | same _ hptr _ _ => exact (direct_congr hptr).mpr hc
  | carved _ _ _ _ hdirect _ => exact hdirect

theorem IsNewCap.sizeBits_toNat {type : CapType} {sizeBits p : Word}
    (h : IsNewCap type sizeBits p c) : c.sizeBits.toNat = sizeBits.toNat % 64 := by
  rw [h.sizeBits_eq, BitVec.toNat_setWidth]

/-- A new capability of a fitting retype is carved out of the untyped. -/
theorem IsNewCap.derived {s : Slots} {slot : Word} {type : CapType} {sizeBits objSize : Word}
    {num i : Nat} (h : IsNewCap type sizeBits (objPtr dm objSize (usableMemory s slot objSize) i) c)
    (hsize : objectSize type sizeBits = .ok objSize) (htype : type ≠ .null)
    (hslot : (s slot).cap.type = .untyped) (hwin : InWindow dm (s slot).cap)
    (hfits : Fits (s slot).cap objSize.toNat num) (hi : i < num)
    (hd : SameButBadge c d) : Derived dm (s slot).cap d := by
  obtain ⟨hdtype, hdptr, hdsize, -⟩ := hd.fields
  obtain ⟨hptr, hdirect⟩ := objPtr_toNat hsize htype hwin hfits hi
  refine .carved hslot (objectSize_pos hsize htype) (hfits.object_le hi) ?_ ?_ ?_
  · rw [addrOf_congr hdptr, ← hptr, addrOf, h.ptr_eq, hdirect]
  · rw [direct_congr hdptr, Direct, h.ptr_eq, hdirect]
  · intro hdu
    rw [bytes_congr hdsize, bytes, h.sizeBits_toNat]
    rw [hdtype, h.type_eq] at hdu
    subst hdu
    cases hsize
    rw [bit_toNat]

end

/-- After an operation a slot is empty, or holds a capability derived from the
one it was made from, or has kept its capability up to the badge. -/
theorem CapStep.caps {dm : DirectMap} {s t : Slots} {op : CapOp} {r : Reply}
    (h : CapStep dm s op r t) (hanchored : ∀ a, Anchored dm (s a).cap)
    (hfits : RetypeFits dm s op) (x : Word) :
    (t x).cap.type = .null ∨ (∃ p, Made s r op x p ∧ Derived dm (s p).cap (t x).cap) ∨
      ((∀ p, ¬ Made s r op x p) ∧ SameButBadge (s x).cap (t x).cap) := by
  cases h with
  | @copy dest src mask r t h =>
    rcases copyCap_cases s dest src mask with ⟨r', hr, hlabel, -⟩ | ⟨hd, -, hr⟩ <;> rw [hr] at h <;>
      cases h
    · exact .inr (.inr ⟨fun p hp => hlabel (by simpa [Reply.isOk] using hp.1), .rfl⟩)
    · by_cases hx : x = dest
      · refine .inr (.inl ⟨src, ⟨rfl, hx, rfl⟩, ?_⟩)
        simp only [insertCteAfter_cap, Slots.setCap_cap, hx, if_true]
        exact .same rfl rfl rfl fun ht => by
          have : (s src).cap.type = .untyped := ht
          simp [copied, this]
      · exact .inr (.inr ⟨fun p hp => hx hp.2.1, by simp [hx, SameButBadge]⟩)
  | @mint dest src badge mask r t h =>
    rcases mintCap_cases s dest src badge mask with ⟨r', hr, hlabel⟩ | ⟨hd, ht, -, hr⟩ <;>
      rw [hr] at h <;> cases h
    · exact .inr (.inr ⟨fun p hp => hlabel (by simpa [Reply.isOk] using hp.1), .rfl⟩)
    · by_cases hx : x = dest
      · refine .inr (.inl ⟨src, ⟨rfl, hx, rfl⟩, ?_⟩)
        simp only [insertCteAfter_cap, Slots.setCap_cap, hx, if_true]
        exact .same rfl rfl rfl fun hu => by
          have : (s src).cap.type = .untyped := hu
          rcases ht with ht | ht <;> rw [ht] at this <;> cases this
      · exact .inr (.inr ⟨fun p hp => hx hp.2.1, by simp [hx, SameButBadge]⟩)
  | delete h =>
    rcases revokes_deletes_cap.2 _ _ _ h x with h | h
    · exact .inr (.inr ⟨fun _ hp => hp, by rw [h]; exact .rfl⟩)
    · exact .inl (by rw [h]; rfl)
  | revoke h =>
    rcases revokes_deletes_cap.1 _ _ _ h x with h | h
    · exact .inr (.inr ⟨fun _ hp => hp, by rw [h]; exact .rfl⟩)
    · exact .inl (by rw [h]; rfl)
  | @retype slot typeArg sizeBits root nodeIndex nodeOffset num nodeDepth r t hslot h =>
    rcases untypedRetype_cases h with ⟨hr, rfl⟩ | ⟨type, objSize, rfl, htype, hto⟩
    · exact .inr (.inr ⟨fun p hp => by simpa [hr] using hp.1, .rfl⟩)
    · have hf := hfits type objSize t htype hto
      obtain ⟨u, hu, rfl⟩ := hto.created
      have hbadge : SameButBadge (u x).cap ((u.setCap slot { (u slot).cap with
          badge := alignUp (s slot).cap.badge objSize + objSize * num }) x).cap := by
        by_cases hx : x = slot <;> simp [hx, SameButBadge]
      have hbtype := hbadge.fields.1
      rcases createObjects_cap hu x with hnull | hcap
      · exact .inl (by rw [hbtype, hnull])
      · cases hfill : filledBy (retypeDest s root nodeIndex nodeOffset) num.toNat x with
        | some i =>
          rw [hfill] at hcap
          obtain ⟨hi, hx⟩ := filledBy_eq_some hfill
          by_cases hnull : type = .null
          · exact .inl (by rw [hbtype, hcap.type_eq, hnull])
          · refine .inr (.inl ⟨slot, ⟨rfl, rfl, i, hi, hx⟩, ?_⟩)
            exact hcap.derived hto.size hnull hslot (hanchored slot hslot).1 hf hi hbadge
        | none =>
          rw [hfill] at hcap
          refine .inr (.inr ⟨fun p hp => ?_, hcap ▸ hbadge⟩)
          obtain ⟨-, -, i, hi, hx⟩ := hp
          exact filledBy_eq_none.mp hfill i hi hx

end Tern
