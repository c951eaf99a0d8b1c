import Tern.Untyped

/-! What `create_objects` does to capabilities and links, round by round. -/

namespace Tern

open Lib Cdt

/-- The destination capability of one round. -/
def newCap (c : Cap) (type : CapType) (sizeBits objPtr : Word) : Cap :=
  (c.retyped type sizeBits).withPtr objPtr

@[simp] theorem newCap_type (c : Cap) (type : CapType) (sizeBits p : Word) :
    (newCap c type sizeBits p).type = type := rfl

@[simp] theorem clearMemory_cap (s : Slots) (p size x : Word) :
    (clearMemory s p size x).cap = if inMemory p size x then {} else (s x).cap := rfl

/-- The memory a retype of `slot` hands out starts here. -/
def usableMemory (s : Slots) (slot objSize : Word) : Word :=
  capPtr (s slot).cap + alignUp (s slot).cap.badge objSize

/-- The pointer to the `i`th object. -/
def objPtr (dm : DirectMap) (objSize usable : Word) (i : Nat) : Word :=
  dm.directMapOf (objPaddr objSize usable i)

/-- Some byte of the slot at `a` lies in the `size` bytes from `p` on. -/
def Touches (p size a : Word) : Prop :=
  inMemory p size a = true ∨ inMemory p size (a + 16#64) = true

instance (p size a : Word) : Decidable (Touches p size a) := inferInstanceAs (Decidable (_ ∨ _))

theorem clearMemory_links {s : Slots} {p size : Word}
    (h : ∀ a, Touches p size a → s.links.Unlinked a) :
    (clearMemory s p size).links = s.links := by
  have hnext : ∀ a, (clearMemory s p size a).next = (s a).next := by
    intro a
    by_cases ha : inMemory p size (a + 16#64) = true
    · simp only [clearMemory, ha, if_true]
      exact (h a (.inr ha)).1.symm
    · simp [clearMemory, ha]
  have hprev : ∀ a, (clearMemory s p size a).prev = (s a).prev := by
    intro a
    by_cases ha : inMemory p size (a + 16#64) = true
    · simp only [clearMemory, ha, if_true]
      exact (h a (.inr ha)).2.symm
    · simp [clearMemory, ha]
  simp only [Slots.links, hnext, hprev]

section

variable {dm : DirectMap} {untyped : Word} {type : CapType} {sizeBits objSize dest usable : Word}

/-- One round that goes through: the pointer is a valid one, the memory is
cleared, the capability is made and its slot linked behind the untyped. -/
theorem createObject_eq_ok {slot paddr : Word} {s t : Slots} :
    createObject dm untyped type sizeBits objSize slot paddr s = .ok t ↔
      isSafeCapPtr (dm.directMapOf paddr) = true ∧
      t = insertCteAfter ((clearMemory s (dm.directMapOf paddr) objSize).setCap slot
        (newCap (clearMemory s (dm.directMapOf paddr) objSize slot).cap type sizeBits
          (dm.directMapOf paddr))) slot untyped := by
  simp only [createObject, bind_eq_ok, capSetPtr_eq_ok, pure_eq_ok]
  constructor
  · rintro ⟨c, ⟨hsafe, rfl⟩, rfl⟩
    exact ⟨hsafe, rfl⟩
  · rintro ⟨hsafe, rfl⟩
    exact ⟨_, ⟨hsafe, rfl⟩, rfl⟩

/-- The loop of `create_objects` as an induction rule. -/
theorem createObjects_rule {P : Nat → Slots → Prop} {s t : Slots} {n : Nat} (hzero : P 0 s)
    (hround : ∀ i u v, i < n → P i u →
      createObject dm untyped type sizeBits objSize (destSlot dest i)
        (objPaddr objSize usable i) u = .ok v → P (i + 1) v)
    (h : createObjects dm untyped type sizeBits objSize dest usable n s = .ok t) : P n t := by
  induction n generalizing t with
  | zero => cases h; exact hzero
  | succ n ih =>
    simp only [createObjects, bind_eq_ok] at h
    obtain ⟨u, hu, hv⟩ := h
    exact hround n u t (by omega) (ih (fun i u v hi => hround i u v (by omega)) hu) hv

/-- Which of the first rounds filled a slot last. -/
def filledBy (dest : Word) : Nat → Word → Option Nat
  | 0, _ => none
  | i + 1, x => if x = destSlot dest i then some i else filledBy dest i x

theorem filledBy_eq_some {n i : Nat} {x : Word} (h : filledBy dest n x = some i) :
    i < n ∧ x = destSlot dest i := by
  induction n with
  | zero => cases h
  | succ n ih =>
    rw [filledBy] at h
    split at h
    · cases h; exact ⟨by omega, by assumption⟩
    · have := ih h; exact ⟨by omega, this.2⟩

theorem filledBy_eq_none {n : Nat} {x : Word} :
    filledBy dest n x = none ↔ ∀ i < n, x ≠ destSlot dest i := by
  induction n with
  | zero => simp [filledBy]
  | succ n ih =>
    rw [filledBy]
    constructor
    · intro h i hi
      split at h
      · cases h
      · rename_i hx
        rcases Nat.lt_succ_iff_lt_or_eq.mp hi with hlt | rfl
        · exact ih.mp h i hlt
        · exact hx
    · intro h
      rw [if_neg (h n (by omega))]
      exact ih.mpr fun i hi => h i (by omega)

/-- A capability that `create_objects` made for the object at `p`. -/
structure IsNewCap (type : CapType) (sizeBits p : Word) (c : Cap) : Prop where
  type_eq : c.type = type
  sizeBits_eq : c.sizeBits = sizeBits.setWidth 6
  badge_eq : c.badge = 0#64
  original : c.isOriginal = true
  ptr_eq : capPtr c = p

theorem isNewCap_newCap (type : CapType) (sizeBits : Word) (c : Cap) {p : Word} (hp : isSafeCapPtr p = true) :
    IsNewCap type sizeBits p (newCap c type sizeBits p) :=
  ⟨rfl, rfl, rfl, rfl, capPtr_withPtr _ p hp⟩

/-- After the loop a slot is empty, or holds the capability of the round that
filled it last, or has kept its capability. -/
theorem createObjects_cap {s t : Slots} {n : Nat}
    (h : createObjects dm untyped type sizeBits objSize dest usable n s = .ok t) (x : Word) :
    (t x).cap.type = .null ∨
    match filledBy dest n x with
    | some i => IsNewCap type sizeBits (objPtr dm objSize usable i) (t x).cap
    | none => (t x).cap = (s x).cap := by
  refine createObjects_rule (P := fun n t => (t x).cap.type = .null ∨
    match filledBy dest n x with
    | some i => IsNewCap type sizeBits (objPtr dm objSize usable i) (t x).cap
    | none => (t x).cap = (s x).cap) (.inr rfl) ?_ h
  intro i u v _ hu hv
  obtain ⟨hsafe, rfl⟩ := createObject_eq_ok.mp hv
  by_cases hx : x = destSlot dest i
  · have hcap := isNewCap_newCap type sizeBits
      (clearMemory u (dm.directMapOf (objPaddr objSize usable i)) objSize (destSlot dest i)).cap
      hsafe
    exact .inr (by simpa [filledBy, hx, objPtr] using hcap)
  · by_cases hm : inMemory (dm.directMapOf (objPaddr objSize usable i)) objSize x = true
    · exact .inl (by simp [hx, hm])
    · simpa [filledBy, hx, hm] using hu

end

end Tern
