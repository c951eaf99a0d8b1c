import Tern.Provenance
import Tern.Lib.Nesting

/-! Disjointness of retyped objects. A ledger records every object created in a
run, the object each capability refers to, and the highest watermark of every
untyped. The watermark proper lives in the badge of each capability, so a copy
of an untyped may carry an older one: a retype is sound if it fits and if its
capability carries the highest watermark its untyped has ever had. -/

namespace Tern

open Lib Cdt

/-- The values `new 0`, `new 1`, ... in the `num` places from `count` on. -/
def appended {α : Type} (count num : Nat) (new old : Nat → α) (i : Nat) : α :=
  if count ≤ i ∧ i < count + num then new (i - count) else old i

/-- Block 0 is the untyped the run starts from, the others are the objects
created so far. -/
structure Ledger extends Blocks where
  count : Nat
  /-- The retype that created an object, counted from 1. -/
  op : Nat → Nat
  ops : Nat
  owner : Word → Option Nat
  top : Nat → Nat

/-- The ledger after a successful retype of `slot`. -/
def Ledger.retyped (g : Ledger) (dm : DirectMap) (s t : Slots) (slot objSize dest : Word)
    (num : Nat) : Ledger where
  start := appended g.count num
    (fun k => (objPtr dm objSize (usableMemory s slot objSize) k).toNat) g.start
  size := appended g.count num (fun _ => objSize.toNat) g.size
  parent := appended g.count num (fun _ => g.owner slot) g.parent
  count := g.count + num
  op := appended g.count num (fun _ => g.ops + 1) g.op
  ops := g.ops + 1
  owner x := match filledBy dest num x with
    | some k => some (g.count + k)
    | none => g.owner x
  top i := if g.owner slot = some i then max (g.top i) (t slot).cap.badge.toNat else g.top i

def Ledger.copied (g : Ledger) (dest src : Word) : Ledger :=
  { g with owner := Function.update g.owner dest (g.owner src) }

/-- The size `untyped_retype` computes for an object. -/
def retypeSize (typeArg sizeBits : Word) : Word :=
  match (retypeType typeArg).bind fun type => objectSize type sizeBits with
  | .ok objSize => objSize
  | .error _ => 0#64

def ledgerAfter (dm : DirectMap) (s t : Slots) (r : Reply) (g : Ledger) : CapOp → Ledger
  | .copy dest src _ => if r.isOk then g.copied dest src else g
  | .mint dest src _ _ => if r.isOk then g.copied dest src else g
  | .retype slot typeArg sizeBits root nodeIndex _ nodeOffset num =>
    if r.isOk then g.retyped dm s t slot (retypeSize typeArg sizeBits)
      (retypeDest s root nodeIndex nodeOffset) num.toNat
    else g
  | _ => g

/-- The only untyped capability is the one in slot `a`, as `new_untyped_cap`
makes it, and nothing has been created yet. -/
structure OneUntyped (dm : DirectMap) (s : Slots) (g : Ledger) (a : Word) : Prop where
  only : ∀ b, (s b).cap.type = .untyped → b = a
  untyped : (s a).cap.type = .untyped
  boot : BootUntyped dm (s a).cap
  start : g.start 0 = addrOf dm (s a).cap
  size : g.size 0 = bytes (s a).cap
  parent : g.parent 0 = none
  count : g.count = 1
  ops : g.ops = 0
  owner : ∀ b, g.owner b = if b = a then some 0 else none
  top : ∀ i, g.top i = 0

def ledgerSystem (dm : DirectMap) : Transition (Slots × Ledger) CapOp where
  start S := ∃ a, OneUntyped dm S.1 S.2 a
  step S op S' := ∃ r, CapStep dm S.1 op r S'.1 ∧ S'.2 = ledgerAfter dm S.1 S'.1 r S.2 op

/-- Object `i` was created by a retype and has a capability. -/
def Live (S : Slots × Ledger) (i : Nat) : Prop :=
  0 < i ∧ i < S.2.count ∧ ∃ x, S.2.owner x = some i ∧ (S.1 x).cap.type ≠ .null

/-- The condition on a retype that goes through: its objects have a type and
end, in unbounded arithmetic, inside the untyped, whose capability carries the
highest watermark this untyped has ever had. -/
structure SoundRetype (dm : DirectMap) (S : Slots × Ledger) (slot : Word) (type : CapType)
    (objSize num : Nat) : Prop where
  typed : type ≠ .null
  fits : Fits (S.1 slot).cap objSize num
  newest : ∀ i, S.2.owner slot = some i → S.2.top i ≤ (S.1 slot).cap.badge.toNat

def WatermarkSafe (dm : DirectMap) (S : Slots × Ledger) : CapOp → Prop
  | .retype slot typeArg sizeBits root nodeIndex _ nodeOffset num =>
    ∀ type objSize t, CapType.ofWord? typeArg = some type →
      RetypesTo dm S.1 slot type sizeBits objSize (retypeDest S.1 root nodeIndex nodeOffset) num t →
      SoundRetype dm S slot type objSize.toNat num.toNat
  | _ => True

/-! ## The ledger -/

section

variable {α : Type} {count num i k : Nat} {new old : Nat → α}

theorem appended_old (hi : i < count) : appended count num new old i = old i :=
  if_neg (by omega)

theorem appended_new (hk : k < num) : appended count num new old (count + k) = new k := by
  rw [appended, if_pos (by omega), Nat.add_sub_cancel_left]

theorem retypeSize_eq {typeArg sizeBits objSize : Word} {type : CapType}
    (htype : CapType.ofWord? typeArg = some type) (hsize : objectSize type sizeBits = .ok objSize) :
    retypeSize typeArg sizeBits = objSize := by
  simp [retypeSize, retypeType, htype, hsize, Except.bind]

end

/-- What the ledger says of an untyped capability. -/
def Owned (dm : DirectMap) (g : Ledger) (x : Word) (c : Cap) : Prop :=
  Anchored dm c ∧ ∃ i < g.count, g.owner x = some i ∧ g.start i = addrOf dm c ∧ g.size i = bytes c

/-- The blocks are allocated below their watermarks, and every untyped
capability is one to its block. -/
structure LedgerInv (dm : DirectMap) (s : Slots) (g : Ledger) : Prop where
  allocated : g.Allocated g.top g.count
  owned : ∀ x, (s x).cap.type = .untyped → Owned dm g x (s x).cap

namespace LedgerInv

variable {dm : DirectMap} {s t : Slots} {g : Ledger}

theorem start {a : Word} (h : OneUntyped dm s g a) : LedgerInv dm s g := by
  have hcount := h.count
  have hzero : ∀ i < g.count, i = 0 := fun i hi => by omega
  refine ⟨⟨⟨fun i hi hpos => ?_, h.parent⟩, fun i hi p hp => ?_, fun p _ => ?_, fun i _ => h.top i,
    fun i j p hij hj => ?_⟩, fun x hx => ?_⟩
  · omega
  · rw [hzero i hi, h.parent] at hp
    cases hp
  · rw [h.top]
    exact Nat.zero_le _
  · omega
  · obtain rfl := h.only x hx
    exact ⟨h.boot.anchored, 0, by omega, by rw [h.owner, if_pos rfl], h.start, h.size⟩

/-- Deletions and revocations take capabilities away. -/
theorem emptied (h : LedgerInv dm s g)
    (ht : ∀ x, (t x).cap = (s x).cap ∨ (t x).cap = newNullCap) : LedgerInv dm t g := by
  refine ⟨h.allocated, fun x hx => ?_⟩
  rcases ht x with hcap | hcap
  · rw [hcap] at hx ⊢
    exact h.owned x hx
  · rw [hcap] at hx
    cases hx

end LedgerInv

section

variable {dm : DirectMap} {s t : Slots} {g g' : Ledger}

/-- Another capability to the same memory belongs to the same block, also in a
ledger that has more blocks. -/
theorem Owned.congr {x y : Word} {c d : Cap} (h : Owned dm g x c) (hd : Anchored dm d)
    (hptr : d.ptr = c.ptr) (hsize : d.sizeBits = c.sizeBits) (howner : g'.owner y = g.owner x)
    (hblocks : ∀ i < g.count, i < g'.count ∧ g'.start i = g.start i ∧ g'.size i = g.size i) :
    Owned dm g' y d := by
  obtain ⟨-, i, hi, hix, hstart, hbytes⟩ := h
  obtain ⟨h1, h2, h3⟩ := hblocks i hi
  refine ⟨hd, i, h1, howner.trans hix, ?_, ?_⟩
  · rw [h2, hstart, addrOf_congr hptr]
  · rw [h3, hbytes, bytes_congr hsize]

/-- A capability to the object of `src` comes into `dest`. -/
theorem LedgerInv.copied {dest src : Word} (h : LedgerInv dm s g)
    (htype : (t dest).cap.type = (s src).cap.type) (hptr : (t dest).cap.ptr = (s src).cap.ptr)
    (hsize : (t dest).cap.sizeBits = (s src).cap.sizeBits)
    (horiginal : (t dest).cap.type = .untyped →
      (t dest).cap.isOriginal = (s src).cap.isOriginal)
    (hother : ∀ x, x ≠ dest → (t x).cap = (s x).cap) : LedgerInv dm t (g.copied dest src) := by
  refine ⟨h.allocated, fun x hx => ?_⟩
  by_cases hxd : x = dest
  · subst hxd
    have hsrc := h.owned src (htype ▸ hx)
    exact hsrc.congr (hsrc.1.congr htype hptr hsize horiginal) hptr hsize
      (by simp [Ledger.copied]) fun i hi => ⟨hi, rfl, rfl⟩
  · rw [hother x hxd] at hx ⊢
    have hx' := h.owned x hx
    exact hx'.congr hx'.1 rfl rfl (by simp [Ledger.copied, hxd]) fun i hi => ⟨hi, rfl, rfl⟩

variable {slot : Word} {type : CapType} {sizeBits objSize dest numObjects : Word}

theorem Ledger.retyped_old {num i : Nat} (hi : i < g.count) :
    (g.retyped dm s t slot objSize dest num).start i = g.start i ∧
      (g.retyped dm s t slot objSize dest num).size i = g.size i ∧
      (g.retyped dm s t slot objSize dest num).parent i = g.parent i := by
  simp [Ledger.retyped, appended_old hi]

theorem Ledger.retyped_new {num k : Nat} (hk : k < num) :
    (g.retyped dm s t slot objSize dest num).start (g.count + k) =
        (objPtr dm objSize (usableMemory s slot objSize) k).toNat ∧
      (g.retyped dm s t slot objSize dest num).size (g.count + k) = objSize.toNat ∧
      (g.retyped dm s t slot objSize dest num).parent (g.count + k) = g.owner slot := by
  simp [Ledger.retyped, appended_new hk]

/-- The objects of a sound retype are carved out of the block of its untyped. -/
theorem retyped_carves (t : Slots) (dest : Word) {p num : Nat}
    (hsize : objectSize type sizeBits = .ok objSize)
    (htype : type ≠ .null) (hwin : InWindow dm (s slot).cap)
    (hfits : Fits (s slot).cap objSize.toNat num) (howner : g.owner slot = some p)
    (hstart : g.start p = addrOf dm (s slot).cap) :
    g.Carves (g.retyped dm s t slot objSize dest num).toBlocks g.count p
      (roundUp (s slot).cap.badge.toNat objSize.toNat) objSize.toNat num := by
  constructor
  · exact fun i hi => Ledger.retyped_old hi
  · intro k hk
    obtain ⟨hptr, -⟩ := objPtr_toNat hsize htype hwin hfits hk
    rw [(Ledger.retyped_new hk).1, (Ledger.retyped_new hk).2.1, (Ledger.retyped_new hk).2.2, hptr,
      hstart, Nat.add_assoc]
    exact ⟨rfl, rfl, howner⟩

/-- A sound retype keeps the invariant. -/
theorem LedgerInv.retyped (h : LedgerInv dm s g) (hslot : (s slot).cap.type = .untyped)
    (hto : RetypesTo dm s slot type sizeBits objSize dest numObjects t)
    (hsound : SoundRetype dm (s, g) slot type objSize.toNat numObjects.toNat) :
    LedgerInv dm t (g.retyped dm s t slot objSize dest numObjects.toNat) := by
  obtain ⟨htyped, hfits, hnewest⟩ := hsound
  obtain ⟨hanchored, p, hp, howner, hstart, hbytes⟩ := h.owned slot hslot
  have hwin := (hanchored hslot).1
  have hcarves := retyped_carves t dest hto.size htyped hwin hfits howner hstart
  have hbadge : ∀ x, ∃ u : Slots, createObjects dm slot type sizeBits objSize dest
      (usableMemory s slot objSize) numObjects.toNat s = .ok u ∧
      SameButBadge (u x).cap (t x).cap := by
    obtain ⟨u, hu, rfl⟩ := hto.created
    exact fun x => ⟨u, hu, by by_cases hx : x = slot <;> simp [hx, SameButBadge]⟩
  constructor
  · refine h.allocated.carve hcarves hp ?_ ?_ fun i => ?_
    · exact (hnewest p howner).trans (le_roundUp (objectSize_pos hto.size htyped) _)
    · rw [hbytes, Nat.mul_comm]
      exact hfits
    · have hmark : (t slot).cap.badge.toNat =
          roundUp (s slot).cap.badge.toNat objSize.toNat + numObjects.toNat * objSize.toNat := by
        obtain ⟨u, -, rfl⟩ := hto.created
        rw [Nat.mul_comm, ← hfits.watermark_toNat hto.size htyped]
        simp
      show (if g.owner slot = some i then max (g.top i) (t slot).cap.badge.toNat else g.top i) = _
      rw [howner, hmark]
      by_cases hip : i = p
      · simp [hip]
      · simp [hip, Ne.symm hip]
  · intro x hx
    obtain ⟨u, hu, hsame⟩ := hbadge x
    obtain ⟨hutype, huptr, husize, -⟩ := hsame.fields
    rcases createObjects_cap hu x with hnull | hcap
    · rw [hutype, hnull] at hx
      cases hx
    · cases hfill : filledBy dest numObjects.toNat x with
      | none =>
        rw [hfill] at hcap
        rw [hcap] at hsame hutype huptr husize
        have hx' := h.owned x (hutype ▸ hx)
        exact hx'.congr (hsame.anchored hx'.1) huptr husize (by simp [Ledger.retyped, hfill])
          fun i hi => ⟨Nat.lt_of_lt_of_le hi (Nat.le_add_right ..), (Ledger.retyped_old hi).1,
            (Ledger.retyped_old hi).2.1⟩
      | some k =>
        rw [hfill] at hcap
        obtain ⟨hk, -⟩ := filledBy_eq_some hfill
        obtain ⟨hptr, hdirect⟩ := objPtr_toNat hto.size htyped hwin hfits hk
        have hderived := hcap.derived hto.size htyped hslot hwin hfits hk hsame
        refine ⟨hderived.anchored hanchored, g.count + k, Nat.add_lt_add_left hk _,
          by simp [Ledger.retyped, hfill], (Ledger.retyped_new hk).1.trans ?_,
          (Ledger.retyped_new hk).2.1.trans ?_⟩
        · rw [addrOf_congr huptr, addrOf, hcap.ptr_eq, hdirect]
        · have htype : type = .untyped := by rw [← hcap.type_eq, ← hutype]; exact hx
          subst htype
          have hsize := hto.size
          cases hsize
          rw [bytes_congr husize, bytes, hcap.sizeBits_toNat, bit_toNat]

end

theorem LedgerInv.step {dm : DirectMap} {S S' : Slots × Ledger} {op : CapOp}
    (h : LedgerInv dm S.1 S.2) (hsafe : WatermarkSafe dm S op)
    (hstep : (ledgerSystem dm).step S op S') : LedgerInv dm S'.1 S'.2 := by
  obtain ⟨r, hstep, hledger⟩ := hstep
  rw [hledger]
  obtain ⟨s, g⟩ := S
  obtain ⟨t, g'⟩ := S'
  simp only at h hstep ⊢
  cases hstep with
  | @copy dest src mask r t hcopy =>
    rcases copyCap_cases s dest src mask with ⟨r', hr, hlabel, -⟩ | ⟨-, -, hr⟩ <;>
      rw [hr] at hcopy <;> cases hcopy
    · rw [ledgerAfter, if_neg (by simpa [Reply.isOk] using hlabel)]
      exact h
    · refine h.copied ?_ ?_ ?_ ?_ fun x hx => by simp [hx]
      all_goals simp +contextual [Cdt.copied]
  | @mint dest src badge mask r t hmint =>
    rcases mintCap_cases s dest src badge mask with ⟨r', hr, hlabel⟩ | ⟨-, ht, -, hr⟩ <;>
      rw [hr] at hmint <;> cases hmint
    · rw [ledgerAfter, if_neg (by simpa [Reply.isOk] using hlabel)]
      exact h
    · refine h.copied ?_ ?_ ?_ ?_ fun x hx => by simp [hx]
      all_goals rcases ht with ht | ht <;> simp [minted, ht]
  | delete hdelete => exact h.emptied (revokes_deletes_cap.2 _ _ _ hdelete)
  | revoke hrevoke => exact h.emptied (revokes_deletes_cap.1 _ _ _ hrevoke)
  | @retype slot typeArg sizeBits root nodeIndex nodeOffset num nodeDepth r t hslot hretype =>
    rcases untypedRetype_cases hretype with ⟨hr, rfl⟩ | ⟨type, objSize, rfl, htype, hto⟩
    · rw [ledgerAfter, if_neg (by simp [hr])]
      exact h
    · have hsound := hsafe type objSize t htype hto
      have hkept := h.retyped hslot hto hsound
      rwa [← retypeSize_eq htype hto.size] at hkept

/-- In every run whose retypes are sound, two live objects made by different
retypes are apart unless one was retyped, in some number of steps, from the
other. -/
theorem live_objects_apart (dm : DirectMap) {S : Slots × Ledger}
    (h : (ledgerSystem dm).ReachedBy (WatermarkSafe dm) S) {i j : Nat} (hi : Live S i)
    (hj : Live S j) (hop : S.2.op i ≠ S.2.op j) :
    S.2.Apart i j ∨ S.2.Ancestor i j ∨ S.2.Ancestor j i := by
  have hinv : LedgerInv dm S.1 S.2 := by
    refine h.invariant (I := fun S => LedgerInv dm S.1 S.2) ?_ ?_
    · rintro S ⟨a, hstart⟩
      exact .start hstart
    · exact fun _ _ _ hS hsafe hstep => hS.step hsafe hstep
  exact hinv.allocated.nested.apart_or_ancestor hi.2.1 hj.2.1 fun e => hop (e ▸ rfl)

/-- The booted machine with its untyped as block 0. -/
def bootLedger : Slots × Ledger :=
  (bootSlots,
    { start := fun _ => addrOf lowMap (bootSlots (initSlot 6)).cap
      size := fun _ => bytes (bootSlots (initSlot 6)).cap
      parent := fun _ => none
      count := 1
      op := fun _ => 0
      ops := 0
      owner := fun b => if b = initSlot 6 then some 0 else none
      top := fun _ => 0 })

theorem bootLedger_start : (ledgerSystem lowMap).start bootLedger := by
  refine ⟨initSlot 6, fun b hb => ?_, by decide +kernel, ⟨rfl, by decide +kernel⟩, rfl, rfl, rfl, rfl,
    rfl, fun _ => rfl, fun _ => rfl⟩
  by_contra h6
  by_cases h2 : b = initSlot 2
  · subst h2
    exact absurd hb (by decide +kernel)
  · simp [bootLedger, bootSlots, h2, h6] at hb

/-- Retype one endpoint from slot `i` into slot `j`. -/
def endpointOp (i j : Nat) : CapOp :=
  .retype (initSlot i) 1#64 0#64 (initSlot 2) 2#64 64#8 (BitVec.ofNat 64 j) 1#64

def makeEndpoint (S : Slots × Ledger) (i j : Nat) : Slots × Ledger :=
  let x := makeOne S.1 1#64 0#64 i j
  (resultSlots x, ledgerAfter lowMap S.1 (resultSlots x) (resultReply x) S.2 (endpointOp i j))

theorem makeEndpoint_step {S : Slots × Ledger} {i j : Nat}
    (hslot : (S.1 (initSlot i)).cap.type = .untyped)
    (h : (makeOne S.1 1#64 0#64 i j).isOk = true) :
    (ledgerSystem lowMap).step S (endpointOp i j) (makeEndpoint S i j) :=
  ⟨_, makeOne_step hslot h, rfl⟩

theorem makeEndpoint_safe {S : Slots × Ledger} {i j : Nat}
    (hfits : Fits (S.1 (initSlot i)).cap 16 1)
    (hnewest : ∀ k, S.2.owner (initSlot i) = some k →
      S.2.top k ≤ (S.1 (initSlot i)).cap.badge.toNat) :
    WatermarkSafe lowMap S (endpointOp i j) := by
  intro type objSize t htype hto
  cases htype
  have hsize := hto.size
  cases hsize
  exact ⟨by decide, hfits, hnewest⟩

theorem live_objects_apart_endpoints :
    let S := makeEndpoint (makeEndpoint bootLedger 6 100) 6 101
    S.2.Apart 1 2 ∨ S.2.Ancestor 1 2 ∨ S.2.Ancestor 2 1 := by
  refine live_objects_apart lowMap (.step (.step (.start bootLedger_start) (makeEndpoint_safe ?_ ?_)
    (makeEndpoint_step (by decide +kernel) (by decide +kernel))) (makeEndpoint_safe ?_ ?_)
    (makeEndpoint_step (by decide +kernel) (by decide +kernel)))
    ⟨by decide, by decide +kernel, initSlot 100, by decide +kernel, by decide +kernel⟩
    ⟨by decide, by decide +kernel, initSlot 101, by decide +kernel, by decide +kernel⟩
    (by decide +kernel)
  · unfold Fits
    decide +kernel
  · exact fun _ _ => Nat.zero_le _
  · unfold Fits
    decide +kernel
  · intro k hk
    have howner : (makeEndpoint bootLedger 6 100).2.owner (initSlot 6) = some 0 := by
      decide +kernel
    rw [howner] at hk
    cases hk
    decide +kernel

/-- An untyped is copied from slot 6 to slot 7, and one endpoint is retyped from
each of the two capabilities. -/
def bothCopiesRetyped : Slots × Ledger :=
  let S := ((copyCap bootSlots (initSlot 7) (initSlot 6) capRightsAll).2,
    bootLedger.2.copied (initSlot 7) (initSlot 6))
  makeEndpoint (makeEndpoint S 6 100) 7 101

/-- The two endpoints occupy the same memory. -/
theorem copied_untypeds_overlap :
    ¬ ∀ S, (ledgerSystem lowMap).Reached S → ∀ i j, Live S i → Live S j → S.2.op i ≠ S.2.op j →
      S.2.Apart i j ∨ S.2.Ancestor i j ∨ S.2.Ancestor j i := by
  intro h
  have hcopy : (ledgerSystem lowMap).Reached
      ((copyCap bootSlots (initSlot 7) (initSlot 6) capRightsAll).2,
        bootLedger.2.copied (initSlot 7) (initSlot 6)) :=
    .step (l := .copy (initSlot 7) (initSlot 6) capRightsAll) (.start bootLedger_start) trivial
      ⟨.ok, .copy (Prod.ext (by decide +kernel) rfl), rfl⟩
  have hreached : (ledgerSystem lowMap).Reached bothCopiesRetyped :=
    .step (.step hcopy trivial (makeEndpoint_step (by decide +kernel) (by decide +kernel))) trivial
      (makeEndpoint_step (by decide +kernel) (by decide +kernel))
  have hroot : ∀ k, bothCopiesRetyped.2.parent 0 ≠ some k := by
    intro k
    rw [show bothCopiesRetyped.2.parent 0 = none by decide +kernel]
    exact nofun
  have hchild : ∀ a b, a ≠ 0 → bothCopiesRetyped.2.parent b = some 0 →
      ¬ bothCopiesRetyped.2.Ancestor a b := by
    intro a b ha hb hab
    obtain ⟨p, hap, hp⟩ := Relation.TransGen.tail'_iff.mp hab
    rw [hb] at hp
    cases hp
    cases hap with
    | refl => exact ha rfl
    | tail _ hk => exact hroot _ hk
  rcases h _ hreached 1 2
    ⟨by decide, by decide +kernel, initSlot 100, by decide +kernel, by decide +kernel⟩
    ⟨by decide, by decide +kernel, initSlot 101, by decide +kernel, by decide +kernel⟩
    (by decide +kernel) with hapart | hanc | hanc
  · unfold Blocks.Apart at hapart
    exact absurd hapart (by decide +kernel)
  · exact hchild 1 2 (by decide) (by decide +kernel) hanc
  · exact hchild 2 1 (by decide) (by decide +kernel) hanc

end Tern
