import Tern.Pointers
import Tern.Precision

/-! What revocation does for the untyped itself. The watermark is kept in the
badge of the capability, and `revoke_cap` writes no capability but the ones it
deletes, so an untyped that has been retyped stays used. -/

namespace Tern

open Lib Cdt

/-- One untyped as large as that of the capability. -/
structure RetypeCall.WholeOf (call : RetypeCall) (c : Cap) : Prop where
  type : CapType.ofWord? call.type = some .untyped
  sizeBits : call.sizeBits = c.sizeBits.setWidth 64
  numObjects : call.numObjects = 1#64

/-- The call names a CNode with room for what it makes. -/
structure RetypeCall.Placed (call : RetypeCall) (s : Slots) (cnode : Word) : Prop where
  found : lookupCapSlot s call.root call.nodeIndex (call.nodeDepth.setWidth 64) = .ok (.ok cnode)
  isCNode : (s cnode).cap.type = .cnode
  slots : ¬ capSize (s cnode).cap < call.nodeOffset + call.numObjects
  dest : ∃ dest, cteFor s cnode call.nodeOffset (call.nodeDepth.setWidth 64) = .ok dest ∧
    dest ≠ 0#64

/-- The remedy that `REVOKE_FIRST` stands for: the capability in `u` can be
copied to `dest`, and a call for its whole size returns with an object at its
base, wherever there is room for the new capability. -/
structure Reusable (dm : DirectMap) (t : Slots) (u dest mask : Word) (call : RetypeCall) :
    Prop where
  copied : (copyCap t dest u mask).1 = .ok
  allocated : ∀ cnode, call.Placed t cnode → ∃ t', call.run dm t u = .ok (.ok, t') ∧
    ∃ c, IsNewCap .untyped call.sizeBits (dm.directMapOf (capPtr (t u).cap)) c ∧
      SameButBadge c (t' (slotAt (capPtr (t cnode).cap) call.nodeOffset)).cap

section

variable {dm : DirectMap} {s t : Slots} {u dest mask : Word} {call : RetypeCall}

/-- A slot that still has a capability after a revocation has kept it. -/
theorem Cdt.Revokes.kept {c x : Word} (h : Revokes s c t) (hx : (t x).cap.type ≠ .null) :
    (t x).cap = (s x).cap := by
  rcases revokes_deletes_cap.1 s c t h x with hcap | hcap
  · exact hcap
  · exact absurd (congrArg Cap.type hcap) hx

theorem RetypeCall.WholeOf.objectSize {c : Cap} (h : call.WholeOf c) :
    objectSize .untyped call.sizeBits = .ok (capSize c) := by
  rw [h.sizeBits]
  rfl

/-- A fresh untyped starts at its base. -/
theorem alignUp_fresh (c : Cap) : alignUp 0#64 (capSize c) = 0#64 := by
  have hpow : (capSize c).toNat = 2 ^ c.sizeBits.toNat := capSize_toNat c
  have hbytes : bytes c ≤ 2 ^ 63 := bytes_le c
  have hpos : 0 < 2 ^ c.sizeBits.toNat := Nat.two_pow_pos _
  have hround : roundUp 0 (2 ^ c.sizeBits.toNat) = 0 := by
    rw [roundUp, Nat.div_eq_of_lt (by omega), Nat.zero_mul]
  have hroom : (0#64 : Word).toNat + 2 ^ c.sizeBits.toNat ≤ 2 ^ 64 := by
    rw [show (0#64 : Word).toNat = 0 from rfl]
    unfold bytes at hbytes
    omega
  apply BitVec.eq_of_toNat_eq
  exact (alignUp_toNat hpow hroom).trans hround

/-- The first object of a fresh untyped is at its base. -/
theorem objPtr_fresh (dm : DirectMap) (hbadge : (t u).cap.badge = 0#64) :
    objPtr dm (capSize (t u).cap) (usableMemory t u (capSize (t u).cap)) 0 =
      dm.directMapOf (capPtr (t u).cap) := by
  rw [objPtr, objPaddr, usableMemory, hbadge, alignUp_fresh]
  simp

/-- The checks of a call for the whole size pass on a fresh untyped. -/
theorem RetypeCall.WholeOf.creates {cnode : Word} (h : call.WholeOf (t u).cap)
    (hbadge : (t u).cap.badge = 0#64) (hplaced : call.Placed t cnode) :
    call.Creates t u .untyped (capSize (t u).cap) cnode where
  accepted :=
    { type_eq := h.type
      size := h.objectSize
      room := by
        rw [hbadge, alignUp_fresh, h.numObjects]
        simp [capSize]
      found := hplaced.found
      slots := hplaced.slots }
  isCNode := hplaced.isCNode
  dest := hplaced.dest

/-- The call goes through: the one pointer that it encodes is that of the untyped. -/
theorem RetypeCall.WholeOf.allocates {cnode : Word} (hmap : dm.InUpperHalf)
    (h : call.WholeOf (t u).cap) (hbadge : (t u).cap.badge = 0#64) (hplaced : call.Placed t cnode) :
    ∃ t', call.run dm t u = .ok (.ok, t') ∧
      ∃ c, IsNewCap .untyped call.sizeBits (dm.directMapOf (capPtr (t u).cap)) c ∧
        SameButBadge c (t' (slotAt (capPtr (t cnode).cap) call.nodeOffset)).cap := by
  have hcreates := h.creates hbadge hplaced
  have hsafe : ∀ i < call.numObjects.toNat, isSafeCapPtr (objPtr dm (capSize (t u).cap)
      (usableMemory t u (capSize (t u).cap)) i) = true := by
    intro i hi
    obtain rfl : i = 0 := by
      rw [h.numObjects] at hi
      exact Nat.lt_one_iff.mp hi
    rw [objPtr_fresh dm hbadge, hmap.safe_iff]
    exact capPtr_dvd _
  obtain ⟨r, t', hrun⟩ := (retype_returns_iff hcreates).mpr hsafe
  rcases untypedRetype_accepted hrun with
    ⟨-, -, hnot⟩ | ⟨type, objSize, cnode', rfl, haccepted, hto⟩
  · exact absurd hcreates.accepted (hnot _ _ _)
  · obtain ⟨rfl, rfl, rfl⟩ := hcreates.accepted.unique haccepted
    obtain ⟨v, hv, hsame⟩ := hto.rounds
    rw [h.numObjects] at hv
    have hnew := createObjects_last (n := 0) hv
    have hfirst : ∀ p, destSlot p 0 = p := fun p => by simp [destSlot, slotAt]
    rw [objPtr_fresh dm hbadge, hfirst] at hnew
    exact ⟨t', hrun, _, hnew, hsame _⟩

theorem Reusable.of_fresh (hmap : dm.InUpperHalf) (hbadge : (t u).cap.badge = 0#64)
    (hdest : (t dest).cap.type = .null) (hwhole : call.WholeOf (t u).cap) :
    Reusable dm t u dest mask call := by
  refine ⟨?_, fun cnode hplaced => hwhole.allocates hmap hbadge hplaced⟩
  rcases copyCap_cases t dest u mask with ⟨r, -, -, hd | ⟨-, hb⟩⟩ | ⟨-, -, hr⟩
  · exact absurd hdest hd
  · exact absurd hbadge hb
  · rw [hr]

/-- Revocation on a well-formed list leaves the revoked slot as it is. -/
theorem Cdt.Revokes.keeps_self {c : Word} (h : Revokes s c t) (hs : WellLinked s) :
    (t c).cap = (s c).cap := by
  obtain ⟨l, hl⟩ := hs.wf.finite c
  obtain ⟨q, r, rfl, hrem, -⟩ := h.spec hs hl
  exact hrem.cap_of_not_mem fun hq => hl.not_mem (List.mem_append_left _ hq)

/-- After `revoke_cap` an untyped that is still there, as it is on well-formed
lists, can be used again exactly if it was fresh. -/
theorem revoked_untyped_reusable_iff (dm : DirectMap) (hmap : dm.InUpperHalf) {s t : Slots}
    {u dest : Word} (mask : Word) {call : RetypeCall} (hrevoked : Revokes s u t)
    (huntyped : (s u).cap.type = .untyped) (hkept : WellLinked s ∨ (t u).cap.type = .untyped)
    (hdest : (t dest).cap.type = .null) (hwhole : call.WholeOf (s u).cap) :
    Reusable dm t u dest mask call ↔ (s u).cap.badge = 0#64 := by
  have hcap : (t u).cap = (s u).cap := by
    rcases hkept with hs | hkept
    · exact hrevoked.keeps_self hs
    · exact hrevoked.kept (by rw [hkept]; decide)
  rw [← hcap] at hwhole huntyped ⊢
  constructor
  · intro h
    by_contra hbadge
    have hcopied := h.copied
    rcases copyCap_cases t dest u mask with ⟨r, hr, hlabel, -⟩ | ⟨-, hfresh, -⟩
    · rw [hr] at hcopied
      obtain rfl : r = .ok := hcopied
      exact hlabel rfl
    · exact hbadge (hfresh huntyped)
  · exact fun hbadge => .of_fresh hmap hbadge hdest hwhole

end

/-- An original untyped of 2^12 bytes in slot 100. -/
def freshUntyped : Slots := resultSlots (makeOne bootSlots 6#64 12#64 6 100)

theorem freshUntyped_reached : (capSystem lowMap).Reached freshUntyped :=
  .step (.start bootSlots_boot) trivial
    ⟨_, makeOne_step (by decide +kernel) (by decide +kernel)⟩

/-- Ask for all of it, in slot 102. -/
def wholeCall : RetypeCall := oneObject 6#64 12#64 102

/-- With a copy of it in slot 101, -/
def copiedUntyped : Slots := (copyCap freshUntyped (initSlot 101) (initSlot 100) capRightsAll).2

/-- which is deleted when slot 100 is revoked. -/
def revokedUntyped : Slots := ((revokeCap 4 copiedUntyped (initSlot 100)).getD copiedUntyped)

theorem revoked_untyped_reusable_fresh :
    (copiedUntyped (initSlot 101)).cap.type = .untyped ∧
      (revokedUntyped (initSlot 101)).cap.type = .null ∧
      wholeCall.Placed revokedUntyped (initSlot 2) ∧
      Reusable lowMap revokedUntyped (initSlot 100) (initSlot 101) capRightsAll wholeCall := by
  have hrevoked : Revokes copiedUntyped (initSlot 100) revokedUntyped := by
    refine ⟨4, ?_⟩
    have hsome : (revokeCap 4 copiedUntyped (initSlot 100)).isSome = true := by decide +kernel
    obtain ⟨t, ht⟩ := Option.isSome_iff_exists.mp hsome
    rw [revokedUntyped, ht]
    rfl
  refine ⟨by decide +kernel, by decide +kernel, ⟨by decide +kernel, by decide +kernel,
    by decide +kernel, ⟨initSlot 102, by decide +kernel, by decide⟩⟩, ?_⟩
  refine (revoked_untyped_reusable_iff lowMap lowMap_inUpperHalf capRightsAll hrevoked ?_ (.inr ?_)
    ?_ ⟨?_, ?_, ?_⟩).mpr ?_ <;> decide +kernel

/-- An endpoint made from it, in slot 101. -/
def usedUntyped : Slots := resultSlots (makeOne freshUntyped 1#64 0#64 100 101)

/-- Revocation takes the endpoint away, and copying is still refused. -/
theorem revoked_untyped_stays_used :
    ¬ ∀ s t u dest mask call, (capSystem lowMap).Reached s → (s u).cap.type = .untyped →
      (s u).cap.isOriginal = true → Revokes s u t → (t u).cap = (s u).cap →
      (t dest).cap.type = .null → call.WholeOf (s u).cap →
      Reusable lowMap t u dest mask call := by
  intro h
  have hreached : (capSystem lowMap).Reached usedUntyped :=
    .step freshUntyped_reached trivial ⟨_, makeOne_step (by decide +kernel) (by decide +kernel)⟩
  have hrevoke : revokeCap 4 usedUntyped (initSlot 100) =
      some ((revokeCap 4 usedUntyped (initSlot 100)).get (by decide +kernel)) := by
    simp
  have hcopied := (h usedUntyped _ (initSlot 100) (initSlot 101) capRightsAll wholeCall hreached
    (by decide +kernel) (by decide +kernel) ⟨4, hrevoke⟩ (by decide +kernel) (by decide +kernel)
    ⟨by decide +kernel, by decide +kernel, by decide +kernel⟩).copied
  exact absurd hcopied (by decide +kernel)

end Tern
