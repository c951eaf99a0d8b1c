import Tern.Cap

/-! The capability derivation list: insertion and removal of slots, copying and
minting, the child test, and the mutually recursive `delete_cap` and
`revoke_cap`. The recursion runs on fuel; `none` means that the fuel ran out,
never an error. -/

namespace Tern.Cdt

open Lib

def insertCteAfter (s : Slots) (new after : Word) : Slots :=
  let next := (s after).next
  let s := s.setPrevIf next (some new)
  let s := s.setNext after (some new)
  let s := s.setNext new next
  s.setPrev new (some after)

def unlinkCte (s : Slots) (del : Word) : Slots :=
  let s := s.setNextIf (s del).prev (s del).next
  let s := s.setPrevIf (s del).next (s del).prev
  let s := s.setNext del none
  s.setPrev del none

def copyCap (s : Slots) (dest src rightsMask : Word) : Reply × Slots :=
  if (s dest).cap.type ≠ .null then (.deleteFirst, s)
  else if (s src).cap.type = .untyped ∧ (s src).cap.badge ≠ 0 then (.revokeFirst, s)
  else
    let s := s.setCap dest (s src).cap
    let s := if (s src).cap.type ≠ .untyped
      then s.setCap dest { (s dest).cap with isOriginal := false } else s
    let s := s.setCap dest ((s dest).cap.withRights (capRights (s src).cap &&& rightsMask))
    (.ok, insertCteAfter s dest src)

def mintCap (s : Slots) (dest src badge rightsMask : Word) : Reply × Slots :=
  if (s dest).cap.type ≠ .null then (.deleteFirst, s)
  else if (s src).cap.type ≠ .endpoint ∧ (s src).cap.type ≠ .notification then
    (.illegalOperation, s)
  else if (s src).cap.badge ≠ 0 then (.illegalOperation, s)
  else
    let s := s.setCap dest (s src).cap
    let s := s.setCap dest { (s dest).cap with badge }
    -- minted badged endpoints stay original, notifications do not
    let s := if (s src).cap.type = .notification
      then s.setCap dest { (s dest).cap with isOriginal := false } else s
    let s := s.setCap dest ((s dest).cap.withRights (capRights (s src).cap &&& rightsMask))
    (.ok, insertCteAfter s dest src)

def untypedContains (untyped obj : Cap) : Bool :=
  let base := capPtr untyped
  let size := capSize untyped
  let ptr := capPtr obj
  decide (base ≤ ptr) && decide (ptr < base + size)

/-- The test of `is_child_cap` on the two capabilities. -/
def isChildOf (c parent : Cap) : Bool :=
  if !parent.isOriginal then false
  else if parent.type = .untyped then untypedContains parent c
  else if c.type ≠ parent.type then false
  else if parent.type = .endpoint then parent.badge == c.badge || parent.badge == 0
  else true

def isChildCap (s : Slots) (c : Option Word) (parent : Word) : Bool :=
  match c with
  | none => false
  | some c => isChildOf (s c).cap (s parent).cap

mutual

def deleteCap : Nat → Slots → Word → Option Slots
  | 0, _, _ => none
  | fuel + 1, s, c =>
    match revokeCap fuel s c with
    | none => none
    | some s => some ((unlinkCte s c).setCap c newNullCap)

def revokeCap : Nat → Slots → Word → Option Slots
  | 0, _, _ => none
  | fuel + 1, s, c =>
    match (s c).next with
    | none => some s
    | some n =>
      if isChildCap s (some n) c then
        match deleteCap fuel s n with
        | none => none
        | some s => revokeCap fuel s c
      else some s

end

/-- `delete_cap (c)` returns and leaves `t`. -/
def Deletes (s : Slots) (c : Word) (t : Slots) : Prop := ∃ fuel, deleteCap fuel s c = some t

/-- `revoke_cap (c)` returns and leaves `t`. -/
def Revokes (s : Slots) (c : Word) (t : Slots) : Prop := ∃ fuel, revokeCap fuel s c = some t

/-! ## Links -/

@[simp] theorem insertCteAfter_cap (s : Slots) (new after x : Word) :
    (insertCteAfter s new after x).cap = (s x).cap := by
  simp [insertCteAfter]

@[simp] theorem insertCteAfter_links (s : Slots) (new after : Word) :
    (insertCteAfter s new after).links = s.links.insertAfter new after := by
  simp [insertCteAfter, Links.insertAfter]

@[simp] theorem unlinkCte_cap (s : Slots) (del x : Word) :
    (unlinkCte s del x).cap = (s x).cap := by
  simp [unlinkCte]

@[simp] theorem unlinkCte_links (s : Slots) (del : Word) :
    (unlinkCte s del).links = s.links.unlink del := by
  simp only [unlinkCte, Links.unlink, Slots.setPrev_links, Slots.setNext_links,
    Slots.setPrevIf_links, Slots.setNextIf_links, ← Slots.links_next, ← Slots.links_prev]

/-- The last two steps of `delete_cap`. -/
def remove (s : Slots) (c : Word) : Slots := (unlinkCte s c).setCap c newNullCap

@[simp] theorem remove_cap (s : Slots) (c x : Word) :
    (remove s c x).cap = if x = c then newNullCap else (s x).cap := by
  simp [remove]

@[simp] theorem remove_links (s : Slots) (c : Word) :
    (remove s c).links = s.links.unlink c := by
  simp [remove]

/-! ## Copying and minting -/

/-- What `copy_cap` puts into the destination. -/
def copied (c : Cap) (mask : Word) : Cap :=
  { c with isOriginal := if c.type = .untyped then c.isOriginal else false,
           rights := (capRights c &&& mask).setWidth 5 }

/-- What `mint_cap` puts into the destination. -/
def minted (c : Cap) (badge mask : Word) : Cap :=
  { c with isOriginal := if c.type = .notification then false else c.isOriginal, badge,
           rights := (capRights c &&& mask).setWidth 5 }

theorem setCap_setCap (s : Slots) (a : Word) (c d : Cap) :
    (s.setCap a c).setCap a d = s.setCap a d := by
  funext x
  by_cases h : x = a <;> simp [Slots.setCap, h]

/-- Everything `copy_cap` can do: refuse and change nothing, or install the
derived capability in an empty slot and link it behind its source. -/
theorem copyCap_cases (s : Slots) (dest src mask : Word) :
    (∃ r : Reply, copyCap s dest src mask = (r, s) ∧ r.label ≠ .noError ∧
      ((s dest).cap.type ≠ .null ∨
        (s src).cap.type = .untyped ∧ (s src).cap.badge ≠ 0)) ∨
    ((s dest).cap.type = .null ∧
      ((s src).cap.type = .untyped → (s src).cap.badge = 0) ∧
      copyCap s dest src mask =
        (.ok, insertCteAfter (s.setCap dest (copied (s src).cap mask)) dest src)) := by
  unfold copyCap
  by_cases hd : (s dest).cap.type = .null
  · rw [if_neg (by simpa using hd)]
    by_cases hu : (s src).cap.type = .untyped ∧ (s src).cap.badge ≠ 0
    · exact .inl ⟨.revokeFirst, by rw [if_pos hu], by decide, .inr hu⟩
    · rw [if_neg hu]
      refine .inr ⟨hd, fun h => by_contra fun hb => hu ⟨h, hb⟩, ?_⟩
      by_cases hsd : src = dest
      · subst hsd
        simp [hd, setCap_setCap, copied, Cap.withRights, capRights]
      · by_cases ht : (s src).cap.type = .untyped <;>
          simp [hsd, ht, setCap_setCap, copied, Cap.withRights, capRights]
  · exact .inl ⟨.deleteFirst, by rw [if_pos hd], by decide, .inl hd⟩

/-- Everything `mint_cap` can do. -/
theorem mintCap_cases (s : Slots) (dest src badge mask : Word) :
    (∃ r : Reply, mintCap s dest src badge mask = (r, s) ∧ r.label ≠ .noError) ∨
    ((s dest).cap.type = .null ∧
      ((s src).cap.type = .endpoint ∨ (s src).cap.type = .notification) ∧
      (s src).cap.badge = 0 ∧
      mintCap s dest src badge mask =
        (.ok, insertCteAfter (s.setCap dest (minted (s src).cap badge mask)) dest src)) := by
  unfold mintCap
  by_cases hd : (s dest).cap.type = .null
  · rw [if_neg (by simpa using hd)]
    by_cases ht : (s src).cap.type ≠ .endpoint ∧ (s src).cap.type ≠ .notification
    · exact .inl ⟨.illegalOperation, by rw [if_pos ht], by decide⟩
    · rw [if_neg ht]
      by_cases hb : (s src).cap.badge = 0
      · rw [if_neg (by simpa using hb)]
        have ht' : (s src).cap.type = .endpoint ∨ (s src).cap.type = .notification := by
          by_contra h
          exact ht ⟨fun e => h (.inl e), fun e => h (.inr e)⟩
        have hsd : src ≠ dest := by
          rintro rfl
          rcases ht' with h | h <;> rw [hd] at h <;> cases h
        refine .inr ⟨hd, ht', hb, ?_⟩
        rcases ht' with h | h <;>
          simp [hsd, h, setCap_setCap, minted, Cap.withRights, capRights]
      · exact .inl ⟨.illegalOperation, by rw [if_pos hb], by decide⟩
  · exact .inl ⟨.deleteFirst, by rw [if_pos hd], by decide⟩

/-! ## Deletion and revocation -/

/-- Induction over the two recursions: `R` for the loop of `revoke_cap`, `D`
for `delete_cap`. -/
theorem revoke_delete_rule {R D : Slots → Word → Slots → Prop}
    (hstop : ∀ s c, isChildCap s (s c).next c = false → R s c s)
    (hloop : ∀ s c n t u, (s c).next = some n → isChildCap s (some n) c = true →
      D s n t → R t c u → R s c u)
    (hdelete : ∀ s c t, R s c t → D s c (remove t c)) :
    (∀ s c t, Revokes s c t → R s c t) ∧ ∀ s c t, Deletes s c t → D s c t := by
  have hfuel : ∀ fuel, (∀ s c t, revokeCap fuel s c = some t → R s c t) ∧
      ∀ s c t, deleteCap fuel s c = some t → D s c t := by
    intro fuel
    induction fuel with
    | zero => exact ⟨fun _ _ _ h => by simp [revokeCap] at h, fun _ _ _ h => by simp [deleteCap] at h⟩
    | succ fuel ih =>
      constructor
      · intro s c t h
        rw [revokeCap] at h
        cases hn : (s c).next with
        | none =>
          rw [hn] at h
          cases h
          exact hstop s c (by rw [hn]; rfl)
        | some n =>
          rw [hn] at h
          by_cases hc : isChildCap s (some n) c = true
          · simp only [hc, if_true] at h
            cases hd : deleteCap fuel s n with
            | none => rw [hd] at h; cases h
            | some u =>
              rw [hd] at h
              exact hloop s c n u t hn hc (ih.2 _ _ _ hd) (ih.1 _ _ _ h)
          · simp only [hc] at h
            cases h
            exact hstop s c (by rw [hn]; simpa using hc)
      · intro s c t h
        rw [deleteCap] at h
        cases hr : revokeCap fuel s c with
        | none => rw [hr] at h; cases h
        | some u =>
          rw [hr] at h
          cases h
          exact hdelete s c u (ih.1 _ _ _ hr)
  exact ⟨fun s c t ⟨fuel, h⟩ => (hfuel fuel).1 s c t h,
    fun s c t ⟨fuel, h⟩ => (hfuel fuel).2 s c t h⟩

/-- The loop of `revoke_cap` ends where the next slot is no child. -/
theorem Revokes.stopped {s t : Slots} {c : Word} (h : Revokes s c t) :
    isChildCap t (t c).next c = false :=
  (revoke_delete_rule (R := fun _ c t => isChildCap t (t c).next c = false)
    (D := fun _ _ _ => True) (fun _ _ h => h) (fun _ _ _ _ _ _ _ _ h => h)
    (fun _ _ _ _ => trivial)).1 s c t h

/-- Deletion and revocation write no capability but the null capability. -/
theorem revokes_deletes_cap :
    (∀ s c t, Revokes s c t → ∀ x, (t x).cap = (s x).cap ∨ (t x).cap = newNullCap) ∧
    ∀ s c t, Deletes s c t → ∀ x, (t x).cap = (s x).cap ∨ (t x).cap = newNullCap := by
  refine revoke_delete_rule (fun _ _ _ _ => .inl rfl) ?_ ?_
  · intro s c n t u _ _ ht hu x
    rcases hu x with h | h
    · rw [h]; exact ht x
    · exact .inr h
  · intro s c t ht x
    by_cases hx : x = c
    · exact .inr (by simp [hx])
    · simpa [hx] using ht x

end Tern.Cdt
