import Tern.Retype
import Tern.Lib.Transition

/-! The derivation list as a whole: `WellLinked` says that the links of all
slots are disjoint finite lists and that empty slots are on none of them. Every
operation keeps it when it inserts only unlinked slots that hold something. The
methods copy, retype and configure do not check this themselves. -/

namespace Tern

open Lib Cdt

structure WellLinked (s : Slots) : Prop where
  wf : s.links.Wf
  null_unlinked : ∀ a, (s a).cap.type = .null → s.links.Unlinked a

namespace WellLinked

variable {s t : Slots}

theorem linked_type (hs : WellLinked s) {a : Word} (ha : ¬ s.links.Unlinked a) :
    (s a).cap.type ≠ .null :=
  fun h => ha (hs.null_unlinked a h)

theorem setCap (hs : WellLinked s) {a : Word} {c : Cap}
    (hc : c.type = .null → s.links.Unlinked a) : WellLinked (s.setCap a c) := by
  refine ⟨by simpa using hs.wf, fun x hx => ?_⟩
  rw [Slots.setCap_links]
  rw [Slots.setCap_cap] at hx
  split at hx
  · rename_i h
    subst h
    exact hc hx
  · exact hs.null_unlinked x hx

/-- Only an unlinked slot may be inserted, and neither it nor the slot in front
of it may be empty. -/
theorem insert (hs : WellLinked s) {new after : Word} (hnew : s.links.Unlinked new)
    (hne : new ≠ after) (hn : (s new).cap.type ≠ .null) (ha : (s after).cap.type ≠ .null) :
    WellLinked (insertCteAfter s new after) := by
  refine ⟨by simpa using Links.insertAfter_wf hs.wf hnew hne, fun x hx => ?_⟩
  rw [insertCteAfter_cap] at hx
  have hxn : x ≠ new := fun e => hn (e ▸ hx)
  have hxa : x ≠ after := fun e => ha (e ▸ hx)
  simpa using Links.insertAfter_unlinked hs.wf hxn hxa (hs.null_unlinked x hx)

theorem remove (hs : WellLinked s) (c : Word) : WellLinked (Cdt.remove s c) := by
  refine ⟨by simpa using Links.unlink_wf hs.wf, fun x hx => ?_⟩
  rw [remove_cap] at hx
  rw [remove_links]
  split at hx
  · rename_i h
    subst h
    exact Links.unlink_unlinked hs.wf
  · exact Links.unlink_keeps_unlinked hs.wf (hs.null_unlinked x hx)

theorem clear (hs : WellLinked s) {p size : Word}
    (h : ∀ a, Touches p size a → s.links.Unlinked a) : WellLinked (clearMemory s p size) := by
  have hlinks := clearMemory_links h
  refine ⟨hlinks ▸ hs.wf, fun a ha => ?_⟩
  rw [hlinks]
  rw [clearMemory_cap] at ha
  split at ha
  · rename_i hm
    exact h a (.inl hm)
  · exact hs.null_unlinked a ha

theorem revoke_delete :
    (∀ s c t, Revokes s c t → WellLinked s → WellLinked t) ∧
    ∀ s c t, Deletes s c t → WellLinked s → WellLinked t := by
  refine revoke_delete_rule (fun _ _ _ hs => hs) ?_ ?_
  · intro s c n t u _ _ ht hu hs
    exact hu (ht hs)
  · intro s c t ht hs
    exact (ht hs).remove c

theorem copy (hs : WellLinked s) {dest src : Word} (mask : Word)
    (h : (s dest).cap.type ≠ .null ∨ (s src).cap.type ≠ .null) :
    WellLinked (copyCap s dest src mask).2 := by
  rcases copyCap_cases s dest src mask with ⟨r, hr, -, -⟩ | ⟨hd, -, hr⟩
  · rw [hr]; exact hs
  · rw [hr]
    have hsrc : (s src).cap.type ≠ .null := h.resolve_left (by simpa using hd)
    have hne : dest ≠ src := fun e => hsrc (e ▸ hd)
    have hunlinked := hs.null_unlinked dest hd
    exact (hs.setCap fun _ => hunlinked).insert (by simpa using hunlinked) hne
      (by simpa [copied] using hsrc) (by simpa [hne.symm] using hsrc)

theorem mint (hs : WellLinked s) (dest src badge mask : Word) :
    WellLinked (mintCap s dest src badge mask).2 := by
  rcases mintCap_cases s dest src badge mask with ⟨r, hr, -⟩ | ⟨hd, ht, -, hr⟩
  · rw [hr]; exact hs
  · rw [hr]
    have hsrc : (s src).cap.type ≠ .null := by
      rcases ht with h | h <;> simp [h]
    have hne : dest ≠ src := fun e => hsrc (e ▸ hd)
    have hunlinked := hs.null_unlinked dest hd
    exact (hs.setCap fun _ => hunlinked).insert (by simpa using hunlinked) hne
      (by simpa [minted] using hsrc) (by simpa [hne.symm] using hsrc)

end WellLinked

/-! ## Retyping -/

/-- The targets of a retype are safe to link: no object is of type `CAP_NULL`,
the destination slots are unlinked, distinct and not the untyped's own, and
the memory that is cleared holds no linked slot, nor the untyped's, nor a
destination filled before. -/
structure FreshTargets (s : Slots) (slot : Word) (type : CapType) (dest obj : Nat → Word)
    (size : Word) (n : Nat) : Prop where
  typed : 0 < n → type ≠ .null
  unlinked : ∀ i < n, s.links.Unlinked (dest i)
  ne_slot : ∀ i < n, dest i ≠ slot
  distinct : ∀ i j, i < j → j < n → dest i ≠ dest j
  memory : ∀ j < n, ∀ a, Touches (obj j) size a →
    s.links.Unlinked a ∧ a ≠ slot ∧ ∀ i < j, a ≠ dest i

/-- What holds after `i` rounds of `create_objects`. -/
structure RoundInv (s : Slots) (slot : Word) (dest : Nat → Word) (i : Nat) (u : Slots) :
    Prop where
  wellLinked : WellLinked u
  slot_type : (u slot).cap.type ≠ .null
  linked : ∀ a, s.links.Unlinked a → a ≠ slot → (∀ j < i, a ≠ dest j) → u.links.Unlinked a

section

variable {dm : DirectMap} {s u v : Slots} {slot : Word} {type : CapType}
  {sizeBits objSize paddr : Word} {dest obj : Nat → Word} {n i : Nat}

theorem RoundInv.touched (hu : RoundInv s slot dest i u)
    (hfresh : FreshTargets s slot type dest obj objSize n) (hi : i < n) :
    ∀ a, Touches (obj i) objSize a → u.links.Unlinked a := by
  intro a ha
  obtain ⟨h1, h2, h3⟩ := hfresh.memory i hi a ha
  exact hu.linked a h1 h2 h3

theorem RoundInv.dest_unlinked (hu : RoundInv s slot dest i u)
    (hfresh : FreshTargets s slot type dest obj objSize n) (hi : i < n) :
    u.links.Unlinked (dest i) :=
  hu.linked _ (hfresh.unlinked i hi) (hfresh.ne_slot i hi)
    fun j hj => (hfresh.distinct j i hj hi).symm

theorem RoundInv.links (hu : RoundInv s slot dest i u)
    (hfresh : FreshTargets s slot type dest obj objSize n) (hi : i < n)
    (hobj : obj i = dm.directMapOf paddr)
    (h : createObject dm slot type sizeBits objSize (dest i) paddr u = .ok v) :
    v.links = u.links.insertAfter (dest i) slot := by
  obtain ⟨-, rfl⟩ := createObject_eq_ok.mp h
  rw [← hobj, insertCteAfter_links, Slots.setCap_links,
    clearMemory_links (hu.touched hfresh hi)]

theorem RoundInv.round (hu : RoundInv s slot dest i u)
    (hfresh : FreshTargets s slot type dest obj objSize n) (hi : i < n)
    (hobj : obj i = dm.directMapOf paddr)
    (h : createObject dm slot type sizeBits objSize (dest i) paddr u = .ok v) :
    RoundInv s slot dest (i + 1) v := by
  have hlinks := hu.links hfresh hi hobj h
  obtain ⟨-, rfl⟩ := createObject_eq_ok.mp h
  rw [← hobj] at hlinks ⊢
  have htouched := hu.touched hfresh hi
  have hslot : (clearMemory u (obj i) objSize slot).cap = (u slot).cap := by
    have hnot : inMemory (obj i) objSize slot ≠ true :=
      fun hm => (hfresh.memory i hi slot (.inl hm)).2.1 rfl
    simp [hnot]
  have htype : type ≠ .null := hfresh.typed (by omega)
  have hne : slot ≠ dest i := fun e => hfresh.ne_slot i hi e.symm
  refine ⟨?_, ?_, ?_⟩
  · refine ((hu.wellLinked.clear htouched).setCap fun h => absurd h htype).insert ?_ hne.symm
      (by simpa using htype) ?_
    · simpa [clearMemory_links htouched] using hu.dest_unlinked hfresh hi
    · simpa only [Slots.setCap_cap, hne, if_false, hslot] using hu.slot_type
  · simpa only [insertCteAfter_cap, Slots.setCap_cap, hne, if_false, hslot] using hu.slot_type
  · intro a ha hslot' hdests
    rw [hlinks]
    exact Links.insertAfter_unlinked hu.wellLinked.wf (hdests i (by omega)) hslot'
      (hu.linked a ha hslot' fun j hj => hdests j (by omega))

end

theorem RoundInv.run {dm : DirectMap} {s t : Slots} {slot : Word} {type : CapType}
    {sizeBits objSize dest usable : Word} {n : Nat} (hs : WellLinked s)
    (hslot : (s slot).cap.type ≠ .null)
    (hfresh : FreshTargets s slot type (destSlot dest) (objPtr dm objSize usable) objSize n)
    (h : createObjects dm slot type sizeBits objSize dest usable n s = .ok t) :
    RoundInv s slot (destSlot dest) n t :=
  createObjects_rule (P := RoundInv s slot (destSlot dest))
    ⟨hs, hslot, fun _ ha _ _ => ha⟩
    (fun _ _ _ hi hu hv => hu.round hfresh hi rfl hv) h

theorem WellLinked.retype {dm : DirectMap} {s t : Slots} {slot : Word} {type : CapType}
    {sizeBits objSize dest numObjects : Word} (hs : WellLinked s)
    (hslot : (s slot).cap.type ≠ .null)
    (h : RetypesTo dm s slot type sizeBits objSize dest numObjects t)
    (hfresh : FreshTargets s slot type (destSlot dest)
      (objPtr dm objSize (usableMemory s slot objSize)) objSize numObjects.toNat) :
    WellLinked t := by
  obtain ⟨u, hu, rfl⟩ := h.created
  have hrun := RoundInv.run hs hslot hfresh hu
  exact hrun.wellLinked.setCap fun h => absurd h hrun.slot_type

end Tern
