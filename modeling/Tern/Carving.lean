import Tern.Regions
import Tern.Operations
import Tern.Occupancy

/-! Where `untyped_retype` puts its objects, and what it leaves as watermark. The
code computes with words: the aligned offset may lie behind the end of the
untyped, and the difference that should be the memory left is then close to
`2 ^ 64`. -/

namespace Tern

open Lib Cdt

/-! ## The aligned offset -/

/-- `ALIGN_UP` wraps around to zero. -/
theorem alignUp_wraps {x a : Word} {k : Nat} (ha : a.toNat = 2 ^ k)
    (hx : 2 ^ 64 < x.toNat + 2 ^ k) : (alignUp x a).toNat = 0 := by
  have hlt := x.isLt
  have ha64 := a.isLt
  have hsum : (x + a - 1#64).toNat = x.toNat + 2 ^ k - 1 - 2 ^ 64 := by
    rw [BitVec.toNat_sub, BitVec.toNat_add, ha]
    have hone : (1#64).toNat = 1 := rfl
    omega
  rw [alignUp, mask_toNat ha, hsum, Nat.div_eq_of_lt (by omega), Nat.zero_mul]

/-- An aligned offset that is not below the offset is the rounded offset. -/
theorem alignUp_of_le {x a : Word} {k : Nat} (ha : a.toNat = 2 ^ k)
    (hle : x.toNat ≤ (alignUp x a).toNat) : (alignUp x a).toNat = roundUp x.toNat (2 ^ k) := by
  by_cases hx : x.toNat + 2 ^ k ≤ 2 ^ 64
  · exact alignUp_toNat ha hx
  · have hover : 2 ^ 64 < x.toNat + 2 ^ k := by omega
    have hzero := alignUp_wraps ha hover
    have ha64 := a.isLt
    omega

/-- There is no alignment to objects without size. -/
theorem alignUp_zero (x : Word) : alignUp x 0#64 = 0#64 := by
  simp [alignUp]

theorem roundUp_zero (n : Nat) : roundUp n 0 = 0 := Nat.mul_zero _

theorem roundUp_dvd (n a : Nat) : a ∣ roundUp n a := Nat.dvd_mul_left _ _

theorem roundUp_lt {a : Nat} (ha : 0 < a) (n : Nat) : roundUp n a < n + a := by
  have hle := Nat.div_mul_le_self (n + a - 1) a
  unfold roundUp
  omega

/-! ## The watermark -/

/-- The condition on a retype that goes through, of an untyped whose watermark
is not behind its end: the aligned watermark is not behind it either, and
objects of type `CAP_NULL`, which have no size, are made of a fresh untyped only. -/
def Advances (c : Cap) (type : CapType) (objSize : Nat) : Prop :=
  roundUp c.badge.toNat objSize ≤ bytes c ∧ (type = .null → c.badge = 0#64)

section

variable {dm : DirectMap} {s t : Slots} {slot : Word} {type : CapType}
  {sizeBits objSize dest numObjects : Word}

theorem RetypesTo.badge (h : RetypesTo dm s slot type sizeBits objSize dest numObjects t) :
    (t slot).cap.badge = alignUp (s slot).cap.badge objSize + objSize * numObjects := by
  obtain ⟨u, -, rfl⟩ := h.created
  simp

/-- The memory test of `untyped_retype`, in numbers below `2 ^ 64`. -/
theorem RetypesTo.room_toNat (h : RetypesTo dm s slot type sizeBits objSize dest numObjects t) :
    (objSize * numObjects).toNat ≤
      (2 ^ 64 - (alignUp (s slot).cap.badge objSize).toNat + bytes (s slot).cap) % 2 ^ 64 := by
  have hroom := h.room
  rw [BitVec.lt_def, BitVec.toNat_sub] at hroom
  have hbytes : (bit ((s slot).cap.sizeBits.setWidth 64)).toNat = bytes (s slot).cap :=
    capSize_toNat _
  omega

theorem RetypesTo.badge_toNat (h : RetypesTo dm s slot type sizeBits objSize dest numObjects t) :
    (t slot).cap.badge.toNat =
      ((alignUp (s slot).cap.badge objSize).toNat + (objSize * numObjects).toNat) % 2 ^ 64 := by
  rw [h.badge, BitVec.toNat_add]

/-- A multiple of `a` below the rounded number is below the number. -/
theorem lt_of_dvd_lt_roundUp {n m a : Nat} (ha : 0 < a) (hdvd : a ∣ m) (hlt : m < roundUp n a) :
    m < n := by
  have hround := roundUp_lt ha n
  obtain ⟨p, rfl⟩ := hdvd
  obtain ⟨q, hq⟩ := roundUp_dvd n a
  rw [hq] at hlt hround
  have hpq : p < q := Nat.lt_of_mul_lt_mul_left hlt
  have hmul : a * (p + 1) ≤ a * q := Nat.mul_le_mul_left a hpq
  rw [Nat.mul_succ] at hmul
  omega

/-- A retype that goes through moves the watermark up and not behind the end of
the untyped, exactly if it meets the condition. -/
theorem RetypesTo.advances_iff (h : RetypesTo dm s slot type sizeBits objSize dest numObjects t)
    (hbound : (s slot).cap.badge.toNat ≤ bytes (s slot).cap) :
    ((s slot).cap.badge.toNat ≤ (t slot).cap.badge.toNat ∧
        (t slot).cap.badge.toNat ≤ bytes (s slot).cap) ↔
      Advances (s slot).cap type objSize.toNat := by
  have hbytes := bytes_le (s slot).cap
  have hroom := h.room_toNat
  have hmark := h.badge_toNat
  have htotal := (objSize * numObjects).isLt
  unfold Advances
  by_cases htype : type = .null
  · -- no size: the watermark goes back to zero
    subst htype
    obtain rfl : objSize = 0#64 := by cases h.size; rfl
    have hzero : (t slot).cap.badge.toNat = 0 := by
      rw [hmark, alignUp_zero]
      simp
    have hround : roundUp (s slot).cap.badge.toNat (0#64 : Word).toNat = 0 := roundUp_zero _
    rw [hzero, hround]
    simp only [true_imp_iff, ← BitVec.toNat_inj, BitVec.toNat_ofNat]
    omega
  · obtain ⟨k, hk, hpow⟩ := objectSize_pow h.size htype
    have hpos := objectSize_pos h.size htype
    have hmax : 2 ^ k ≤ 2 ^ 63 := Nat.pow_le_pow_right (by decide) (by omega)
    have halign : (alignUp (s slot).cap.badge objSize).toNat =
        roundUp (s slot).cap.badge.toNat objSize.toNat := by
      rw [alignUp_toNat hpow (by omega), hpow]
    have hle := le_roundUp hpos (s slot).cap.badge.toNat
    rw [halign] at hroom hmark
    simp only [htype, false_imp_iff, and_true]
    constructor
    · rintro ⟨hup, hend⟩
      by_contra hover
      -- the watermark has wrapped around, to a multiple of the size
      have hround := roundUp_lt hpos (s slot).cap.badge.toNat
      have hlow : (t slot).cap.badge.toNat < roundUp (s slot).cap.badge.toNat objSize.toNat := by
        omega
      have hdvd : objSize.toNat ∣ (t slot).cap.badge.toNat := by
        have hword : objSize.toNat ∣ 2 ^ 64 := hpow ▸ Nat.pow_dvd_pow 2 (by omega)
        rw [hmark, BitVec.toNat_mul]
        refine (Nat.dvd_mod_iff hword).mpr (Nat.dvd_add (roundUp_dvd _ _) ?_)
        exact (Nat.dvd_mod_iff hword).mpr (Nat.dvd_mul_right _ _)
      have := lt_of_dvd_lt_roundUp hpos hdvd hlow
      omega
    · intro hfits
      omega

end

/-! ## Runs of retypes -/

/-- The arguments of `untyped_retype` behind the untyped itself. -/
structure RetypeCall where
  type : Word
  sizeBits : Word
  root : Word
  nodeIndex : Word
  nodeDepth : BitVec 8
  nodeOffset : Word
  numObjects : Word

def RetypeCall.run (call : RetypeCall) (dm : DirectMap) (s : Slots) (slot : Word) :
    Result (Reply × Slots) :=
  untypedRetype dm s slot call.type call.sizeBits call.root call.nodeIndex call.nodeDepth
    call.nodeOffset call.numObjects

/-- The checks of the call pass, for objects of this type and size. -/
def RetypeCall.Accepted (call : RetypeCall) (s : Slots) (slot : Word) (type : CapType)
    (objSize cnode : Word) : Prop :=
  RetypeAccepted s slot call.type call.sizeBits call.root call.nodeIndex call.nodeDepth
    call.nodeOffset call.numObjects type objSize cnode

/-- Calls of `untyped_retype` on one slot, whose watermark is not behind the end
of its untyped at first. -/
def retypeCalls (dm : DirectMap) (slot : Word) : Transition Slots RetypeCall where
  start s := (s slot).cap.badge.toNat ≤ bytes (s slot).cap
  step s call t := ∃ r, call.run dm s slot = .ok (r, t)

/-- The condition on a call: if it is accepted, its aligned watermark is inside. -/
def CallAdvances (s : Slots) (slot : Word) (call : RetypeCall) : Prop :=
  ∀ type objSize cnode, call.Accepted s slot type objSize cnode →
    Advances (s slot).cap type objSize.toNat

/-- An accepted call that writes no new capability over the untyped itself and
clears no memory there. -/
def SparesUntyped (dm : DirectMap) (s : Slots) (slot : Word) (call : RetypeCall) : Prop :=
  ∀ type objSize cnode, call.Accepted s slot type objSize cnode → ∀ i < call.numObjects.toNat,
    ¬ WritesCap dm objSize (slotAt (capPtr (s cnode).cap) call.nodeOffset)
      (usableMemory s slot objSize) i slot

section

variable {dm : DirectMap} {s t : Slots} {slot : Word} {call : RetypeCall} {r : Reply}

theorem RetypeCall.run_cases (h : call.run dm s slot = .ok (r, t)) :
    (t = s ∧ ∀ type objSize cnode, ¬ call.Accepted s slot type objSize cnode) ∨
    ∃ type objSize cnode, call.Accepted s slot type objSize cnode ∧
      RetypesTo dm s slot type call.sizeBits objSize
        (slotAt (capPtr (s cnode).cap) call.nodeOffset) call.numObjects t := by
  rcases untypedRetype_accepted h with ⟨-, hsame, hnot⟩ | ⟨type, objSize, cnode, -, ha, hto⟩
  · exact .inl ⟨hsame, hnot⟩
  · exact .inr ⟨type, objSize, cnode, ha, hto⟩

/-- One call moves the watermark up inside the untyped exactly if it meets the
condition. -/
theorem RetypeCall.advances_iff (h : call.run dm s slot = .ok (r, t))
    (hbound : (s slot).cap.badge.toNat ≤ bytes (s slot).cap) :
    ((s slot).cap.badge.toNat ≤ (t slot).cap.badge.toNat ∧
        (t slot).cap.badge.toNat ≤ bytes (s slot).cap) ↔ CallAdvances s slot call := by
  rcases RetypeCall.run_cases h with ⟨rfl, hnot⟩ | ⟨type, objSize, cnode, ha, hto⟩
  · exact ⟨fun _ type objSize cnode ha => absurd ha (hnot _ _ _), fun _ => ⟨le_rfl, hbound⟩⟩
  · rw [hto.advances_iff hbound]
    constructor
    · intro hadv type' objSize' cnode' ha'
      obtain ⟨rfl, rfl, -⟩ := ha.unique ha'
      exact hadv
    · exact fun hall => hall type objSize cnode ha

/-- A call that spares the untyped changes nothing there but the badge. -/
theorem RetypeCall.bytes_eq (h : call.run dm s slot = .ok (r, t))
    (hspares : SparesUntyped dm s slot call) : bytes (t slot).cap = bytes (s slot).cap := by
  rcases RetypeCall.run_cases h with ⟨rfl, -⟩ | ⟨type, objSize, cnode, ha, hto⟩
  · rfl
  · obtain ⟨u, hu, rfl⟩ := hto.created
    have hnone := hspares type objSize cnode ha
    have hkept : (u slot).cap = (s slot).cap := by
      rcases (createObjects_leave hu slot).cap with ⟨-, hcap⟩ | ⟨i, hi, -⟩
      · exact hcap
      · exact absurd hi.writes (hnone i hi.lt)
    rw [Slots.setCap_cap, if_pos rfl, hkept]
    rfl

/-- Between two states of a run whose calls meet the condition and spare the
untyped, the watermark does not go down and stays inside the untyped; and the
next call keeps it so exactly if it meets the condition. -/
theorem watermark_advances_iff (dm : DirectMap) (slot : Word) {s t : Slots}
    (hs : (retypeCalls dm slot).ReachedBy
      (fun s call => CallAdvances s slot call ∧ SparesUntyped dm s slot call) s)
    (ht : ((retypeCalls dm slot).startingAt s).ReachedBy
      (fun s call => CallAdvances s slot call ∧ SparesUntyped dm s slot call) t) :
    ((s slot).cap.badge.toNat ≤ (t slot).cap.badge.toNat ∧
      (t slot).cap.badge.toNat ≤ bytes (t slot).cap ∧
      bytes (t slot).cap = bytes (s slot).cap) ∧
    ∀ call r u, call.run dm t slot = .ok (r, u) →
      (((t slot).cap.badge.toNat ≤ (u slot).cap.badge.toNat ∧
        (u slot).cap.badge.toNat ≤ bytes (t slot).cap) ↔ CallAdvances t slot call) := by
  have hstart : (s slot).cap.badge.toNat ≤ bytes (s slot).cap := by
    apply hs.invariant (I := fun s => (s slot).cap.badge.toNat ≤ bytes (s slot).cap)
    · exact fun _ h => h
    · intro s call t hbound hok ⟨r, hrun⟩
      rw [RetypeCall.bytes_eq hrun hok.2]
      exact ((RetypeCall.advances_iff hrun hbound).mpr hok.1).2
  have hrun : (s slot).cap.badge.toNat ≤ (t slot).cap.badge.toNat ∧
      (t slot).cap.badge.toNat ≤ bytes (t slot).cap ∧
      bytes (t slot).cap = bytes (s slot).cap := by
    apply ht.invariant (I := fun t => (s slot).cap.badge.toNat ≤ (t slot).cap.badge.toNat ∧
      (t slot).cap.badge.toNat ≤ bytes (t slot).cap ∧ bytes (t slot).cap = bytes (s slot).cap)
    · rintro _ rfl
      exact ⟨le_rfl, hstart, rfl⟩
    · intro t call u ⟨hup, hbound, hsize⟩ hok ⟨r, hrun⟩
      obtain ⟨hup', hbound'⟩ := (RetypeCall.advances_iff hrun hbound).mpr hok.1
      have hsize' := RetypeCall.bytes_eq hrun hok.2
      exact ⟨hup.trans hup', hsize'.symm ▸ hbound', hsize'.trans hsize⟩
  exact ⟨hrun, fun call r u hcall => RetypeCall.advances_iff hcall hrun.2.1⟩

end

/-- One object from slot 6 of the root CNode to slot `j`. -/
def oneObject (type sizeBits : Word) (j : Nat) : RetypeCall :=
  ⟨type, sizeBits, initSlot 2, 2#64, 64#8, BitVec.ofNat 64 j, 1#64⟩

/-- Two CNodes of 16 slots from the same untyped, to slots 101 and 102. -/
def twoCNodes : RetypeCall := ⟨4#64, 4#64, initSlot 2, 2#64, 64#8, 101#64, 2#64⟩

/-- What the checks of a call can have found. -/
theorem RetypeCall.Accepted.eq {call : RetypeCall} {s : Slots} {slot : Word} {type type' : CapType}
    {objSize objSize' cnode cnode' : Word} (ha : call.Accepted s slot type' objSize' cnode')
    (htype : CapType.ofWord? call.type = some type)
    (hsize : objectSize type call.sizeBits = .ok objSize)
    (hfound : lookupCapSlot s call.root call.nodeIndex (call.nodeDepth.setWidth 64) =
      .ok (.ok cnode)) : type' = type ∧ objSize' = objSize ∧ cnode' = cnode := by
  cases htype.symm.trans ha.type_eq
  cases hsize.symm.trans ha.size
  have hfound := ha.found.symm.trans hfound
  injection hfound with hfound
  injection hfound with hfound
  exact ⟨rfl, rfl, hfound⟩

/-- One endpoint, in slot 100: the watermark is 16. -/
def oneEndpoint : Slots := resultSlots (makeOne bootSlots 1#64 0#64 6 100)

/-- Then the CNodes, behind the endpoint. -/
def cnodesMade : Slots := resultSlots (twoCNodes.run lowMap oneEndpoint (initSlot 6))

theorem bootSlots_start : (retypeCalls lowMap (initSlot 6)).start bootSlots :=
  (show (bootSlots (initSlot 6)).cap.badge.toNat ≤ _ by decide +kernel)

theorem oneEndpoint_run : (oneObject 1#64 0#64 100).run lowMap bootSlots (initSlot 6) =
    .ok (.ok, oneEndpoint) := by
  have hok : resultReply (makeOne bootSlots 1#64 0#64 6 100) = .ok := by decide +kernel
  rw [← hok]
  exact result_eq (x := makeOne bootSlots 1#64 0#64 6 100) (by decide +kernel)

theorem cnodesMade_run : twoCNodes.run lowMap oneEndpoint (initSlot 6) = .ok (.ok, cnodesMade) := by
  have hok : resultReply (twoCNodes.run lowMap oneEndpoint (initSlot 6)) = .ok := by decide +kernel
  rw [← hok]
  exact result_eq (by decide +kernel)

/-- The two CNodes take the watermark from 16 to 1536. -/
theorem watermark_advances_cnodes :
    ((oneEndpoint (initSlot 6)).cap.badge = 16#64 ∧ (cnodesMade (initSlot 6)).cap.badge = 1536#64) ∧
    (oneEndpoint (initSlot 6)).cap.badge.toNat ≤ (cnodesMade (initSlot 6)).cap.badge.toNat ∧
    (cnodesMade (initSlot 6)).cap.badge.toNat ≤ bytes (cnodesMade (initSlot 6)).cap := by
  have hfirst : CallAdvances bootSlots (initSlot 6) (oneObject 1#64 0#64 100) ∧
      SparesUntyped lowMap bootSlots (initSlot 6) (oneObject 1#64 0#64 100) := by
    have htype : CapType.ofWord? (oneObject 1#64 0#64 100).type = some .endpoint := rfl
    have hfound := bootSlots_lookup (i := 2) (by decide)
    constructor
    · intro type objSize cnode ha
      obtain ⟨rfl, rfl, -⟩ := ha.eq htype rfl hfound
      exact ⟨by unfold roundUp; decide +kernel, fun h => absurd h (by decide)⟩
    · intro type objSize cnode ha i hi
      obtain ⟨rfl, rfl, rfl⟩ := ha.eq htype rfl hfound
      obtain rfl : i = 0 := Nat.lt_one_iff.mp hi
      unfold WritesCap
      decide +kernel
  have hfound : lookupCapSlot oneEndpoint (initSlot 2) 2#64 64#64 = .ok (.ok (initSlot 2)) := by
    decide +kernel
  have hsecond : CallAdvances oneEndpoint (initSlot 6) twoCNodes ∧
      SparesUntyped lowMap oneEndpoint (initSlot 6) twoCNodes := by
    have htype : CapType.ofWord? twoCNodes.type = some .cnode := rfl
    constructor
    · intro type objSize cnode ha
      obtain ⟨rfl, rfl, -⟩ := ha.eq htype rfl hfound
      exact ⟨by unfold roundUp; decide +kernel, fun h => absurd h (by decide)⟩
    · intro type objSize cnode ha i hi
      obtain ⟨rfl, rfl, rfl⟩ := ha.eq htype rfl hfound
      have hall : ∀ i < 2, ¬ WritesCap lowMap 512#64 (slotAt (capPtr (oneEndpoint (initSlot 2)).cap)
          101#64) (usableMemory oneEndpoint (initSlot 6) 512#64) i (initSlot 6) := by
        unfold WritesCap
        decide +kernel
      exact hall i hi
  exact ⟨⟨by decide +kernel, by decide +kernel⟩, ((watermark_advances_iff lowMap (initSlot 6)
    (.step (.start bootSlots_start) hfirst ⟨_, oneEndpoint_run⟩)
    (.step (.start rfl) hsecond ⟨_, cnodesMade_run⟩)).1.imp_right And.left)⟩

/-- An endpoint, and then an object of type `CAP_NULL`. -/
theorem null_retype_resets_watermark :
    ¬ ∀ s t, (retypeCalls lowMap (initSlot 6)).Reached s →
      ((retypeCalls lowMap (initSlot 6)).startingAt s).Reached t →
      (s (initSlot 6)).cap.badge.toNat ≤ (t (initSlot 6)).cap.badge.toNat ∧
      (t (initSlot 6)).cap.badge.toNat ≤ bytes (t (initSlot 6)).cap := by
  intro h
  let t := resultSlots (makeOne oneEndpoint 0#64 0#64 6 101)
  have hs : (retypeCalls lowMap (initSlot 6)).Reached oneEndpoint :=
    .step (.start bootSlots_start) trivial ⟨_, oneEndpoint_run⟩
  have ht : ((retypeCalls lowMap (initSlot 6)).startingAt oneEndpoint).Reached t := by
    apply Transition.ReachedBy.step (l := oneObject 0#64 0#64 101) (.start rfl) trivial
    exact ⟨_, result_eq (x := makeOne oneEndpoint 0#64 0#64 6 101) (by decide +kernel)⟩
  exact absurd (h oneEndpoint t hs ht).1 (by decide +kernel)

/-! ## The objects -/

/-- How far from the base of its untyped the `i`th object is made. -/
def objOffset (s : Slots) (slot objSize : Word) (i : Nat) : Nat :=
  (objPaddr objSize (usableMemory s slot objSize) i - capPtr (s slot).cap).toNat

/-- The bytes a capability counts for its object, if it counts them: the slots
of a CNode are 32 bytes long. -/
def recordedBytes (c : Cap) : Option Nat :=
  match c.type with
  | .cnode => some (32 * (capSize c).toNat)
  | .untyped => some (capSize c).toNat
  | _ => none

/-- The objects of a retype lie inside the untyped `s slot`, behind its
watermark and apart from each other, and the new capabilities tell their sizes.
A new capability that a later round cleared is empty. -/
structure CarvedInside (dm : DirectMap) (s : Slots) (slot objSize dest : Word) (num : Nat)
    (t : Slots) : Prop where
  aligned : ∀ i < num, objSize.toNat ∣ objOffset s slot objSize i
  above : ∀ i < num, (s slot).cap.badge.toNat ≤ objOffset s slot objSize i
  inside : ∀ i < num, objOffset s slot objSize i + objSize.toNat ≤ bytes (s slot).cap
  apart : ∀ i < num, ∀ j < num, i ≠ j →
    objOffset s slot objSize i + objSize.toNat ≤ objOffset s slot objSize j ∨
    objOffset s slot objSize j + objSize.toNat ≤ objOffset s slot objSize i
  mapped : InWindow dm (s slot).cap → ∀ i < num,
    (objPtr dm objSize (usableMemory s slot objSize) i).toNat =
      addrOf dm (s slot).cap + objOffset s slot objSize i
  recorded : ∀ x i, filledBy dest num x = some i → (t x).cap.type = .null ∨
    capPtr (t x).cap = objPtr dm objSize (usableMemory s slot objSize) i ∧
      ∀ n, recordedBytes (t x).cap = some n → n = objSize.toNat

/-- The condition: no object is made, or the objects end inside the untyped, in
unbounded arithmetic; those without size are made of a fresh untyped, and a
CNode has fewer than `2 ^ 59` slots. -/
def CarvesInside (c : Cap) (type : CapType) (sizeBits : Word) (objSize num : Nat) : Prop :=
  num = 0 ∨ Fits c objSize num ∧ (type = .null → c.badge = 0#64) ∧
    (type = .cnode → sizeBits.toNat % 64 < 59)

section

variable {dm : DirectMap} {s t : Slots} {slot : Word} {type : CapType}
  {sizeBits objSize dest numObjects : Word}

theorem CarvedInside.of_none {num : Nat} (h : num = 0) :
    CarvedInside dm s slot objSize dest num t := by
  subst h
  exact ⟨nofun, nofun, nofun, nofun, fun _ => nofun, nofun⟩

theorem objOffset_toNat {i : Nat} (hi : i < 2 ^ 64) : objOffset s slot objSize i =
    ((alignUp (s slot).cap.badge objSize).toNat + i * objSize.toNat) % 2 ^ 64 := by
  have hsum : ∀ p a m : Word, p + a + m - p = a + m := by
    intro p a m
    bv_omega
  rw [objOffset, objPaddr, usableMemory, hsum, BitVec.toNat_add, BitVec.toNat_mul,
    BitVec.toNat_ofNat, Nat.mod_eq_of_lt hi, Nat.add_mod_mod]

/-- The last new capability is not cleared. -/
theorem createObjects_last {usable untyped : Word} {u : Slots} {n : Nat}
    (h : createObjects dm untyped type sizeBits objSize dest usable (n + 1) s = .ok u) :
    IsNewCap type sizeBits (objPtr dm objSize usable n) (u (destSlot dest n)).cap := by
  simp only [createObjects, bind_eq_ok] at h
  obtain ⟨v, -, hu⟩ := h
  obtain ⟨hsafe, rfl⟩ := createObject_eq_ok.mp hu
  have hnew := isNewCap_newCap type sizeBits
    (clearMemory v (dm.directMapOf (objPaddr objSize usable n)) objSize (destSlot dest n)).cap hsafe
  simpa [objPtr] using hnew

theorem capSize_of_sizeBits {c : Cap} (h : c.sizeBits = sizeBits.setWidth 6) :
    (capSize c).toNat = 2 ^ (sizeBits.toNat % 64) := by
  rw [capSize_toNat, bytes, h, BitVec.toNat_setWidth]

theorem IsNewCap.recorded {p : Word} {c : Cap} (h : IsNewCap type sizeBits p c)
    (hsize : objectSize type sizeBits = .ok objSize)
    (hcnode : type = .cnode → sizeBits.toNat % 64 < 59) {n : Nat}
    (hn : recordedBytes c = some n) : n = objSize.toNat := by
  have hbits := capSize_of_sizeBits h.sizeBits_eq
  rw [recordedBytes, h.type_eq] at hn
  cases type with
  | cnode =>
    cases hsize
    cases hn
    have hsmall := hcnode rfl
    have hsum : (sizeBits + 5#64).toNat % 64 = 5 + sizeBits.toNat % 64 := by
      rw [BitVec.toNat_add]
      simp only [BitVec.toNat_ofNat]
      omega
    rw [bit_toNat, hsum, hbits, Nat.pow_add]
  | untyped =>
    cases hsize
    cases hn
    rw [bit_toNat, hbits]
  | _ => cases hn

/-- A CNode that counts the right number of bytes has fewer than `2 ^ 59` slots. -/
theorem IsNewCap.cnode_lt {p : Word} {c : Cap} (h : IsNewCap .cnode sizeBits p c)
    (hsize : objectSize .cnode sizeBits = .ok objSize)
    (hrecorded : ∀ n, recordedBytes c = some n → n = objSize.toNat) :
    sizeBits.toNat % 64 < 59 := by
  have hbits := capSize_of_sizeBits h.sizeBits_eq
  have hn : recordedBytes c = some (32 * (capSize c).toNat) := by
    rw [recordedBytes, h.type_eq]
  have hbytes := hrecorded _ hn
  cases hsize
  have hpow : 2 ^ (5 + sizeBits.toNat % 64) = 2 ^ ((sizeBits + 5#64).toNat % 64) := by
    rw [← bit_toNat (sizeBits + 5#64), ← hbytes, hbits, Nat.pow_add]
  have hexp := Nat.pow_right_injective (le_refl 2) hpow
  have hlt := Nat.mod_lt (sizeBits + 5#64).toNat (y := 64) (by decide)
  omega

/-- The rounds of a retype, whose last assignment touches a badge only. -/
theorem RetypesTo.rounds (h : RetypesTo dm s slot type sizeBits objSize dest numObjects t) :
    ∃ u, createObjects dm slot type sizeBits objSize dest (usableMemory s slot objSize)
      numObjects.toNat s = .ok u ∧ ∀ x, SameButBadge (u x).cap (t x).cap := by
  obtain ⟨u, hu, rfl⟩ := h.created
  refine ⟨u, hu, fun x => ?_⟩
  by_cases hx : x = slot <;> simp [hx, SameButBadge]

/-- What the new capabilities of a retype are, if later rounds spare them. -/
theorem RetypesTo.newCaps (h : RetypesTo dm s slot type sizeBits objSize dest numObjects t)
    {x : Word} {i : Nat} (hi : filledBy dest numObjects.toNat x = some i) :
    (t x).cap.type = .null ∨ ∃ c, IsNewCap type sizeBits
      (objPtr dm objSize (usableMemory s slot objSize) i) c ∧ SameButBadge c (t x).cap := by
  obtain ⟨u, hu, hsame⟩ := h.rounds
  have hcap := createObjects_cap hu x
  rw [hi] at hcap
  rcases hcap with hnull | hnew
  · exact .inl ((hsame x).fields.1.trans hnull)
  · exact .inr ⟨_, hnew, hsame x⟩

theorem recordedBytes_congr {c d : Cap} (h : SameButBadge c d) :
    recordedBytes d = recordedBytes c := by
  obtain ⟨htype, -, hbits, -⟩ := h.fields
  rw [recordedBytes, recordedBytes, htype, capSize_toNat, capSize_toNat, bytes_congr hbits]

theorem objPtr_zero (dm : DirectMap) (s : Slots) (slot : Word) (i : Nat) :
    objPtr dm 0#64 (usableMemory s slot 0#64) i = dm.directMapOf (capPtr (s slot).cap) := by
  rw [objPtr, objPaddr, usableMemory, alignUp_zero]
  simp

/-- Objects without size lie inside exactly if the untyped is fresh. -/
theorem RetypesTo.carved_null
    (h : RetypesTo dm s slot .null sizeBits objSize dest numObjects t) :
    CarvedInside dm s slot objSize dest numObjects.toNat t ↔
      CarvesInside (s slot).cap .null sizeBits objSize.toNat numObjects.toNat := by
  obtain rfl : objSize = 0#64 := by cases h.size; rfl
  have hzero : ∀ i < numObjects.toNat, objOffset s slot 0#64 i = 0 := by
    intro i hi
    have hlt := numObjects.isLt
    rw [objOffset_toNat (by omega), alignUp_zero]
    simp
  constructor
  · intro hcarved
    by_cases hnum : numObjects.toNat = 0
    · exact .inl hnum
    · have habove := hcarved.above 0 (by omega)
      rw [hzero 0 (by omega)] at habove
      refine .inr ⟨?_, fun _ => BitVec.eq_of_toNat_eq (Nat.le_zero.mp habove), nofun⟩
      have hround : roundUp (s slot).cap.badge.toNat (0#64 : Word).toNat = 0 := roundUp_zero _
      rw [Fits, hround]
      simp
  · rintro (hnum | ⟨-, hfresh, -⟩)
    · exact .of_none hnum
    · have hbadge : (s slot).cap.badge.toNat = 0 := by rw [hfresh rfl]; rfl
      constructor
      · exact fun i hi => by rw [hzero i hi]; exact Nat.dvd_zero _
      · exact fun i hi => by rw [hzero i hi, hbadge]
      · exact fun i hi => by rw [hzero i hi]; exact Nat.zero_le _
      · exact fun i hi j hj _ => .inl (by rw [hzero i hi, hzero j hj]; exact le_rfl)
      · exact fun _ i hi => by rw [hzero i hi, objPtr_zero]; rfl
      · intro x i hi
        rcases h.newCaps hi with hnull | ⟨c, hnew, hsame⟩
        · exact .inl hnull
        · exact .inl (hsame.fields.1.trans hnew.type_eq)

theorem RetypesTo.carved_of_fits (h : RetypesTo dm s slot type sizeBits objSize dest numObjects t)
    (htype : type ≠ .null) (hfits : Fits (s slot).cap objSize.toNat numObjects.toNat)
    (hcnode : type = .cnode → sizeBits.toNat % 64 < 59) :
    CarvedInside dm s slot objSize dest numObjects.toNat t := by
  have hpos := objectSize_pos h.size htype
  have hbytes := bytes_le (s slot).cap
  have hend := fun i (hi : i < numObjects.toNat) => hfits.object_le hi
  have hoffset : ∀ i < numObjects.toNat, objOffset s slot objSize i =
      roundUp (s slot).cap.badge.toNat objSize.toNat + i * objSize.toNat := by
    intro i hi
    have hlt := numObjects.isLt
    have hle := hend i hi
    rw [objOffset_toNat (by omega), hfits.alignUp_toNat h.size htype, Nat.mod_eq_of_lt (by omega)]
  have hstep : ∀ i j, i < j → i * objSize.toNat + objSize.toNat ≤ j * objSize.toNat := by
    intro i j hij
    rw [← Nat.succ_mul]
    exact Nat.mul_le_mul_right _ hij
  constructor
  · intro i hi
    rw [hoffset i hi]
    exact Nat.dvd_add (roundUp_dvd _ _) (Nat.dvd_mul_left _ _)
  · intro i hi
    have hle := le_roundUp hpos (s slot).cap.badge.toNat
    rw [hoffset i hi]
    omega
  · intro i hi
    rw [hoffset i hi]
    exact hend i hi
  · intro i hi j hj hij
    rw [hoffset i hi, hoffset j hj]
    rcases Nat.lt_or_gt_of_ne hij with hlt | hlt
    · have := hstep i j hlt
      omega
    · have := hstep j i hlt
      omega
  · intro hwin i hi
    rw [hoffset i hi]
    exact (objPtr_toNat h.size htype hwin hfits hi).1
  · intro x i hi
    rcases h.newCaps hi with hnull | ⟨c, hnew, hsame⟩
    · exact .inl hnull
    · refine .inr ⟨?_, fun n hn => hnew.recorded h.size hcnode ?_⟩
      · rw [capPtr, hsame.fields.2.1]
        exact hnew.ptr_eq
      · rw [← recordedBytes_congr hsame]
        exact hn

/-- Of blocks that reach from `a` behind `b`, one is the first to end behind it. -/
theorem exists_straddling {a b size num : Nat} (hpos : 0 < size) (hle : a ≤ b)
    (hover : b < a + size * num) : ∃ i < num, a + i * size ≤ b ∧ b < a + i * size + size := by
  have hlow := Nat.div_mul_le_self (b - a) size
  have hhigh := Nat.lt_div_mul_add hpos (a := b - a)
  refine ⟨(b - a) / size, ?_, by omega, by omega⟩
  apply Nat.div_lt_of_lt_mul
  omega

/-- Where the objects lie inside, they fit. -/
theorem CarvedInside.fits {num : Nat} (h : CarvedInside dm s slot objSize dest num t)
    (hsize : objectSize type sizeBits = .ok objSize) (htype : type ≠ .null)
    (hnum : 0 < num) (hlt : num < 2 ^ 64) : Fits (s slot).cap objSize.toNat num := by
  obtain ⟨k, hk, hpow⟩ := objectSize_pow hsize htype
  have hpos := objectSize_pos hsize htype
  have hbytes := bytes_le (s slot).cap
  have hfirst : objOffset s slot objSize 0 = (alignUp (s slot).cap.badge objSize).toNat := by
    rw [objOffset_toNat (by decide), Nat.zero_mul, Nat.add_zero, Nat.mod_eq_of_lt (BitVec.isLt _)]
  have halign : (alignUp (s slot).cap.badge objSize).toNat =
      roundUp (s slot).cap.badge.toNat objSize.toNat := by
    have habove := h.above 0 hnum
    rw [hfirst] at habove
    rw [alignUp_of_le hpow habove, hpow]
  have hinside := h.inside 0 hnum
  rw [hfirst, halign] at hinside
  by_contra hover
  obtain ⟨i, hi, hlow, hhigh⟩ := exists_straddling hpos (by omega) (Nat.lt_of_not_le hover)
  have hend := h.inside i hi
  rw [objOffset_toNat (by omega), halign, Nat.mod_eq_of_lt (by omega)] at hend
  omega

theorem RetypesTo.carved_iff (h : RetypesTo dm s slot type sizeBits objSize dest numObjects t) :
    CarvedInside dm s slot objSize dest numObjects.toNat t ↔
      CarvesInside (s slot).cap type sizeBits objSize.toNat numObjects.toNat := by
  by_cases htype : type = .null
  · subst htype
    exact h.carved_null
  · constructor
    · intro hcarved
      by_cases hnum : numObjects.toNat = 0
      · exact .inl hnum
      · refine .inr ⟨hcarved.fits h.size htype (by omega) numObjects.isLt,
          fun hn => absurd hn htype, ?_⟩
        rintro rfl
        -- the capability of the last round is still there
        obtain ⟨n, hn⟩ := Nat.exists_eq_succ_of_ne_zero hnum
        obtain ⟨u, hu, hsame⟩ := h.rounds
        rw [hn] at hu
        have hlast := createObjects_last hu
        have hfilled : filledBy dest numObjects.toNat (destSlot dest n) = some n := by
          rw [hn, filledBy, if_pos rfl]
        rcases hcarved.recorded _ _ hfilled with hnull | ⟨-, hrecorded⟩
        · cases hnull.symm.trans ((hsame _).fields.1.trans hlast.type_eq)
        · apply hlast.cnode_lt h.size
          rwa [← recordedBytes_congr (hsame _)]
    · rintro (hnum | ⟨hfits, -, hcnode⟩)
      · exact .of_none hnum
      · exact h.carved_of_fits htype hfits hcnode

/-- The objects of a successful `untyped_retype` lie inside the untyped, behind
its old watermark and apart, and their capabilities tell their sizes, exactly if
the condition holds. -/
theorem retype_carves_inside_iff {call : RetypeCall}
    (h : call.run dm s slot = .ok (.ok, t)) : ∃ type objSize cnode,
      call.Accepted s slot type objSize cnode ∧
      (CarvedInside dm s slot objSize (slotAt (capPtr (s cnode).cap) call.nodeOffset)
          call.numObjects.toNat t ↔
        CarvesInside (s slot).cap type call.sizeBits objSize.toNat call.numObjects.toNat) := by
  rcases untypedRetype_accepted h with ⟨hr, -⟩ | ⟨type, objSize, cnode, -, ha, hto⟩
  · cases hr
  · exact ⟨type, objSize, cnode, ha, hto.carved_iff⟩

end

/-- Behind the endpoint, at offsets 512 and 1024. -/
theorem retype_carves_inside_cnodes :
    CarvedInside lowMap oneEndpoint (initSlot 6) 512#64 (initSlot 101) 2 cnodesMade := by
  obtain ⟨type, objSize, cnode, ha, hiff⟩ := retype_carves_inside_iff cnodesMade_run
  have htype : CapType.ofWord? twoCNodes.type = some .cnode := rfl
  have hsize : objectSize .cnode twoCNodes.sizeBits = .ok 512#64 := by decide
  have hfound : lookupCapSlot oneEndpoint (initSlot 2) 2#64 64#64 = .ok (.ok (initSlot 2)) := by
    decide +kernel
  obtain ⟨rfl, rfl, rfl⟩ := ha.eq htype hsize hfound
  have hdest : slotAt (capPtr (oneEndpoint (initSlot 2)).cap) 101#64 = initSlot 101 := by
    decide +kernel
  rw [show twoCNodes.nodeOffset = 101#64 from rfl, hdest] at hiff
  refine hiff.mpr (.inr ⟨?_, fun h => absurd h (by decide), fun _ => by decide⟩)
  unfold Fits
  decide +kernel

/-- After an endpoint, an untyped twice as large as the one it is made from. -/
theorem retype_behind_untyped :
    ¬ ∀ s slot (call : RetypeCall) t, (s slot).cap.type = .untyped →
      call.run lowMap s slot = .ok (.ok, t) → ∀ type objSize cnode,
      call.Accepted s slot type objSize cnode → CarvedInside lowMap s slot objSize
        (slotAt (capPtr (s cnode).cap) call.nodeOffset) call.numObjects.toNat t := by
  intro h
  let t := resultSlots (makeOne oneEndpoint 6#64 17#64 6 101)
  have hrun : (oneObject 6#64 17#64 101).run lowMap oneEndpoint (initSlot 6) = .ok (.ok, t) := by
    have hok : resultReply (makeOne oneEndpoint 6#64 17#64 6 101) = .ok := by decide +kernel
    rw [← hok]
    exact result_eq (by decide +kernel)
  obtain ⟨type, objSize, cnode, ha⟩ : ∃ type objSize cnode,
      (oneObject 6#64 17#64 101).Accepted oneEndpoint (initSlot 6) type objSize cnode := by
    rcases untypedRetype_accepted hrun with ⟨hr, -⟩ | ⟨type, objSize, cnode, -, ha, -⟩
    · cases hr
    · exact ⟨type, objSize, cnode, ha⟩
  have hinside := (h oneEndpoint (initSlot 6) _ t (by decide +kernel) hrun type objSize cnode
    ha).inside 0 (by decide)
  cases ha.type_eq
  cases ha.size
  exact absurd hinside (by decide +kernel)

end Tern
