import Tern.Completeness
import Tern.Lineage
import Tern.Precision

/-! Revoking a badged endpoint capability. It takes away only capabilities with
its own badge, and all its copies provided that it is marked original.
`mint_cap` is meant to mark badged endpoints original but lets them inherit the
mark of their source, and a copy has lost it. -/

namespace Tern

open Lib Cdt

structure MintTraced extends Traced where
  /-- The capability in the slot was minted from one whose original mark was the
  given one. -/
  minted : Word → Bool → Prop

/-- A mint sets the mark of its destination, an emptied or refilled slot loses
it. -/
def mintedAfter (s t : Slots) (r : Reply) (op : CapOp) (minted : Word → Bool → Prop) (x : Word)
    (o : Bool) : Prop :=
  (t x).cap.type ≠ .null ∧
    ((∃ src badge mask, op = .mint x src badge mask ∧ r.isOk = true ∧
        o = (s src).cap.isOriginal) ∨
      ((∀ p, ¬ Made s r op x p) ∧ minted x o))

def MintTraced.after (M : MintTraced) (op : CapOp) (r : Reply) (t : Slots) : MintTraced where
  slots := t
  desc := descAfter M.slots t r op M.desc
  minted := mintedAfter M.slots t r op M.minted

def mintSystem (dm : DirectMap) : Transition MintTraced CapOp where
  start M := Boot M.slots ∧ (∀ a x, ¬ M.desc a x) ∧ ∀ x o, ¬ M.minted x o
  step M op M' := ∃ r t, CapStep dm M.slots op r t ∧ M' = M.after op r t

def IsBadged (c : Cap) : Prop := c.type = .endpoint ∧ c.badge ≠ 0#64

/-- Revoking `m` returns, empties every slot that holds a copy of it, and keeps
every capability to the same object with another badge. -/
def RevokesBadge (M : MintTraced) (m : Word) : Prop :=
  ∃ t, Revokes M.slots m t ∧ (∀ x, M.desc m x → (t x).cap.type = .null) ∧
    ∀ x, SameObject (M.slots x).cap (M.slots m).cap →
      (M.slots x).cap.badge ≠ (M.slots m).cap.badge → (t x).cap = (M.slots x).cap

/-! ## What a revocation of a badge takes away -/

theorem isChildOf_badged {c parent : Cap} (hparent : IsBadged parent)
    (h : isChildOf c parent = true) : c.type = .endpoint ∧ c.badge = parent.badge := by
  obtain ⟨htype, hbadge⟩ := hparent
  obtain ⟨horiginal, hsame⟩ := isChildOf_type (by simp [htype]) h
  have hc : c.type = .endpoint := hsame.trans htype
  simp only [isChildOf, horiginal, htype, hc, hbadge, Bool.not_true, Bool.false_eq_true, if_false,
    reduceCtorEq, ne_eq, not_true_eq_false, if_true, Bool.or_eq_true, beq_iff_eq,
    BitVec.ofNat_eq_ofNat, or_false] at h
  exact ⟨hc, h.symm⟩

theorem isChildCap_of_not_original {s : Slots} {c : Word} (h : (s c).cap.isOriginal = false)
    (n : Option Word) : isChildCap s n c = false := by
  cases n <;> simp [isChildCap, isChildOf, h]

/-- From `s` to `t` only endpoint capabilities with badge `b` were deleted. -/
def DeletesBadge (b : Word) (s t : Slots) : Prop :=
  ∀ x, (t x).cap = (s x).cap ∨
    ((t x).cap = newNullCap ∧ (s x).cap.type = .endpoint ∧ (s x).cap.badge = b)

theorem DeletesBadge.trans {b : Word} {s t u : Slots} (h : DeletesBadge b s t)
    (h' : DeletesBadge b t u) : DeletesBadge b s u := by
  intro x
  rcases h' x with hu | ⟨hu, htype, hbadge⟩
  · rw [hu]
    exact h x
  · refine .inr ⟨hu, ?_⟩
    rcases h x with ht | ⟨ht, hs⟩
    · exact ht ▸ ⟨htype, hbadge⟩
    · exact hs

/-- A capability that is deleted on the way is no longer original, so the loop
over its children ends. -/
theorem revokes_deletes_badge :
    (∀ s c t, Revokes s c t → (IsBadged (s c).cap → DeletesBadge (s c).cap.badge s t) ∧
      ((s c).cap.isOriginal = false → t = s)) ∧
    ∀ s c t, Deletes s c t → IsBadged (s c).cap → DeletesBadge (s c).cap.badge s t := by
  refine revoke_delete_rule (fun s c _ => ⟨fun _ _ => .inl rfl, fun _ => rfl⟩) ?_ ?_
  · intro s c n t u hn hchild ht hu
    constructor
    · intro hc
      obtain ⟨htype, hbadge⟩ := isChildOf_badged hc hchild
      have hst : DeletesBadge (s c).cap.badge s t := hbadge ▸ ht ⟨htype, hbadge ▸ hc.2⟩
      rcases hst c with hsame | ⟨hnull, -⟩
      · have htu := hu.1 (hsame ▸ hc)
        rw [hsame] at htu
        exact hst.trans htu
      · have htu : u = t := hu.2 (by rw [hnull]; rfl)
        exact htu ▸ hst
    · intro hc
      rw [isChildCap_of_not_original hc] at hchild
      cases hchild
  · intro s c t ht hc x
    by_cases hx : x = c
    · exact .inr ⟨by simp [hx], by rw [hx]; exact hc.1, by rw [hx]⟩
    · simpa [hx] using ht.1 hc x

/-- Another badge survives, whatever the lists look like. -/
theorem Cdt.Revokes.keeps_other_badge {s t : Slots} {m x : Word} (h : Revokes s m t)
    (hm : IsBadged (s m).cap) (hx : (s x).cap.badge ≠ (s m).cap.badge) :
    (t x).cap = (s x).cap := by
  rcases (revokes_deletes_badge.1 s m t h).1 hm x with hkept | ⟨-, -, hbadge⟩
  · exact hkept
  · exact absurd hbadge hx

/-! ## Copies keep the badge -/

/-- A slot that was not filled is empty or goes on. -/
theorem CapStep.continues {dm : DirectMap} {s t : Slots} {op : CapOp} {r : Reply}
    (h : CapStep dm s op r t) {x : Word} (hx : (t x).cap.type ≠ .null)
    (hmade : ∀ p, ¬ Made s r op x p) : Continues (s x).cap (t x).cap := by
  cases h with
  | @copy dest src mask r t h =>
    rcases copyCap_cases s dest src mask with ⟨r', hr, -⟩ | ⟨-, -, hr⟩ <;> rw [hr] at h <;> cases h
    · exact .inl rfl
    · have hxd : x ≠ dest := fun e => hmade src ⟨rfl, e, rfl⟩
      exact .inl (by simp [hxd])
  | @mint dest src badge mask r t h =>
    rcases mintCap_cases s dest src badge mask with ⟨r', hr, -⟩ | ⟨-, -, -, hr⟩ <;> rw [hr] at h <;>
      cases h
    · exact .inl rfl
    · have hxd : x ≠ dest := fun e => hmade src ⟨rfl, e, rfl⟩
      exact .inl (by simp [hxd])
  | delete h =>
    rcases revokes_deletes_cap.2 _ _ _ h x with h | h
    · exact .inl h
    · exact absurd (by rw [h]; rfl) hx
  | revoke h =>
    rcases revokes_deletes_cap.1 _ _ _ h x with h | h
    · exact .inl h
    · exact absurd (by rw [h]; rfl) hx
  | @retype slot typeArg sizeBits root nodeIndex nodeOffset num nodeDepth r t hslot h =>
    rcases untypedRetype_cases h with ⟨-, rfl⟩ | ⟨type, objSize, rfl, -, hto⟩
    · exact .inl rfl
    · obtain ⟨u, hu, rfl⟩ := hto.created
      have hkept : (u x).cap = (s x).cap := by
        have hfill : filledBy (retypeDest s root nodeIndex nodeOffset) num.toNat x = none :=
          filledBy_eq_none.mpr fun i hi e => hmade slot ⟨rfl, rfl, i, hi, e⟩
        rcases createObjects_cap hu x with hnull | hcap
        · by_cases hxs : x = slot <;> simp [hxs] at hx hnull <;> exact absurd hnull hx
        · rwa [hfill] at hcap
      by_cases hxs : x = slot
      · subst hxs
        exact .inr ⟨hslot, by simp [SameButBadge, hkept]⟩
      · exact .inl (by simp [hxs, hkept])

/-- Only a copy fills a slot from a badged endpoint capability. -/
theorem CapStep.made_of_badged {dm : DirectMap} {s t : Slots} {op : CapOp} {r : Reply}
    (h : CapStep dm s op r t) {x p : Word} (hmade : Made s r op x p) (hp : IsBadged (s p).cap) :
    Within (s p).cap (t x).cap := by
  refine h.copied_within ?_
  cases h with
  | copy | mint => exact hmade
  | delete | revoke => exact hmade
  | retype hslot h =>
    obtain ⟨-, rfl, -⟩ := hmade
    exact absurd (hslot.symm.trans hp.1) (by simp)

theorem IsBadged.of_continues {c d : Cap} (h : Continues c d) (hd : IsBadged d) : d = c := by
  rcases h with rfl | ⟨hc, hsame⟩
  · rfl
  · exact absurd (hsame.fields.1.symm.trans hd.1) (by simp [hc])

theorem IsBadged.within {c d : Cap} (hc : IsBadged c) (h : Within c d) : IsBadged d :=
  ⟨h.type.trans hc.1, (h.badge (.inl hc.1) hc.2).symm ▸ hc.2⟩

structure MintInv (M : MintTraced) : Prop where
  wellLinked : WellLinked M.slots
  runs : M.slots.links.Runs M.desc
  within : ∀ m x, M.desc m x → IsBadged (M.slots m).cap →
    Within (M.slots m).cap (M.slots x).cap
  mark : ∀ m o, M.minted m o → IsBadged (M.slots m).cap → (M.slots m).cap.isOriginal = o

theorem MintInv.start {dm : DirectMap} {M : MintTraced} (h : (mintSystem dm).start M) :
    MintInv M where
  wellLinked := h.1.wellLinked
  runs := .of_none h.2.1
  within m x hd := absurd hd (h.2.1 m x)
  mark m o hm := absurd hm (h.2.2 m o)

theorem MintInv.step {dm : DirectMap} {M : MintTraced} {op : CapOp} {r : Reply} {t : Slots}
    (hM : MintInv M) (hsafe : LinkSafe dm M.slots op) (h : CapStep dm M.slots op r t) :
    MintInv (M.after op r t) where
  wellLinked := h.wellLinked hM.wellLinked hsafe
  runs := h.runs hM.wellLinked hsafe hM.runs
  within := by
    rintro m x ⟨⟨hm, hx⟩, hnone, hd⟩ hbadged
    have hkept : (t m).cap = (M.slots m).cap := hbadged.of_continues (h.continues hm hnone)
    show Within (t m).cap (t x).cap
    rw [hkept]
    replace hbadged : IsBadged (M.slots m).cap := hkept ▸ hbadged
    rcases hd with ⟨p, hp, rfl | hd⟩ | ⟨hmade, hd⟩
    · exact h.made_of_badged hp hbadged
    · have hwithin := hM.within m p hd hbadged
      exact hwithin.trans (h.made_of_badged hp (hbadged.within hwithin))
    · exact (hM.within m x hd hbadged).continues (h.continues hx hmade)
  mark := by
    rintro m o ⟨hm, ⟨src, badge, mask, rfl, hr, rfl⟩ | ⟨hmade, hminted⟩⟩ hbadged
    · cases h with
      | mint h =>
        rcases mintCap_cases M.slots m src badge mask with ⟨r', hmint, hlabel⟩ | ⟨-, -, -, hmint⟩ <;>
          cases hmint.symm.trans h
        · exact absurd (by simpa [Reply.isOk] using hr) hlabel
        · have htype : (minted (M.slots src).cap badge mask).type = .endpoint := by
            simpa [MintTraced.after] using hbadged.1
          have hsrc : (M.slots src).cap.type = .endpoint := htype
          simp [MintTraced.after, minted, hsrc]
    · have hkept : (t m).cap = (M.slots m).cap := hbadged.of_continues (h.continues hm hmade)
      show (t m).cap.isOriginal = o
      rw [hkept]
      exact hM.mark m o hminted (hkept ▸ hbadged)

/-! ## Complete where the mark was inherited -/

theorem MintInv.revokesBadge_iff {M : MintTraced} (hM : MintInv M) {m : Word}
    (hm : IsBadged (M.slots m).cap) :
    RevokesBadge M m ↔ (M.slots m).cap.isOriginal = true ∨ ∀ x, ¬ M.desc m x := by
  obtain ⟨l, hl⟩ := hM.wellLinked.wf.finite m
  obtain ⟨p, rest, rfl, hp⟩ := hM.runs m l hl
  obtain ⟨t, ht⟩ := revokes_total hM.wellLinked m
  constructor
  · rintro ⟨u, hu, hempty, -⟩
    cases ho : (M.slots m).cap.isOriginal with
    | true => exact .inl rfl
    | false =>
      refine .inr fun x hx => ?_
      have hsame : u = M.slots := (revokes_deletes_badge.1 _ m u hu).2 ho
      have hnull := hempty x hx
      rw [hsame] at hnull
      exact hM.wellLinked.linked_type (hM.runs.linked hM.wellLinked.wf hx).2 hnull
  · intro hcond
    refine ⟨t, ht, fun x hx => ?_, fun x _ hbadge => ht.keeps_other_badge hm hbadge⟩
    obtain ⟨q, r, hqr, hrem, hstop⟩ := ht.spec hM.wellLinked hl
    have ho : (M.slots m).cap.isOriginal = true := hcond.resolve_right fun h => h x hx
    have hchildren : ∀ y ∈ p, isChildOf (M.slots y).cap (M.slots m).cap = true := by
      intro y hy
      have hwithin := hM.within m y ((hp y).mpr hy) hm
      simp [isChildOf, ho, hm.1, hwithin.type, hwithin.badge (.inl hm.1) hm.2]
    rw [hrem.cap_of_mem (hstop.mem_of_children hqr hchildren ((hp x).mp hx))]
    rfl

/-- In every run whose steps are safe for the links: revoking a minted badged
endpoint capability is complete and spares other badges exactly if it was
minted from an original capability, or has not been copied. -/
theorem badge_revocation_complete_iff (dm : DirectMap) {M : MintTraced}
    (h : (mintSystem dm).ReachedBy (fun M op => LinkSafe dm M.slots op) M) {m : Word} {o : Bool}
    (hminted : M.minted m o) (hm : IsBadged (M.slots m).cap) :
    RevokesBadge M m ↔ o = true ∨ ∀ x, ¬ M.desc m x := by
  have hM : MintInv M := h.invariant (fun _ => .start) fun M op M' hM hsafe ⟨r, t, hstep, hM'⟩ =>
    hM' ▸ hM.step hsafe hstep
  rw [hM.revokesBadge_iff hm, hM.mark m o hminted hm]

/-! ## An endpoint, minted from its original and from a copy -/

/-- One endpoint, in slot 100. -/
def endpointTraced : MintTraced where
  toTraced := madeOne 1#64 0#64
  minted := mintedAfter bootSlots (madeOne 1#64 0#64).slots
    (resultReply (makeOne bootSlots 1#64 0#64 6 100))
    (.retype (initSlot 6) 1#64 0#64 (initSlot 2) 2#64 64#8 100#64 1#64) fun _ _ => False

def copyTo (M : MintTraced) (j i : Nat) : MintTraced :=
  M.after (.copy (initSlot j) (initSlot i) capRightsAll)
    (copyCap M.slots (initSlot j) (initSlot i) capRightsAll).1
    (copyCap M.slots (initSlot j) (initSlot i) capRightsAll).2

/-- Mint from slot `i` to slot `j` with badge 5. -/
def mintTo (M : MintTraced) (j i : Nat) : MintTraced :=
  M.after (.mint (initSlot j) (initSlot i) 5#64 capRightsAll)
    (mintCap M.slots (initSlot j) (initSlot i) 5#64 capRightsAll).1
    (mintCap M.slots (initSlot j) (initSlot i) 5#64 capRightsAll).2

section

variable {dm : DirectMap} {M : MintTraced} {ok : MintTraced → CapOp → Prop}

theorem copyTo_reached (h : (mintSystem dm).ReachedBy ok M) (j i : Nat)
    (hok : ok M (.copy (initSlot j) (initSlot i) capRightsAll)) :
    (mintSystem dm).ReachedBy ok (copyTo M j i) :=
  .step h hok ⟨_, _, .copy Prod.mk.eta.symm, rfl⟩

theorem mintTo_reached (h : (mintSystem dm).ReachedBy ok M) (j i : Nat)
    (hok : ok M (.mint (initSlot j) (initSlot i) 5#64 capRightsAll)) :
    (mintSystem dm).ReachedBy ok (mintTo M j i) :=
  .step h hok ⟨_, _, .mint Prod.mk.eta.symm, rfl⟩

theorem mintTo_minted {j i : Nat}
    (h : (mintCap M.slots (initSlot j) (initSlot i) 5#64 capRightsAll).1.isOk = true)
    (hcap : ((mintTo M j i).slots (initSlot j)).cap.type ≠ .null) :
    (mintTo M j i).minted (initSlot j) (M.slots (initSlot i)).cap.isOriginal :=
  ⟨hcap, .inl ⟨_, _, _, rfl, h, rfl⟩⟩

end

theorem endpointTraced_step : (mintSystem lowMap).step ⟨bootTraced, fun _ _ => False⟩
    (.retype (initSlot 6) 1#64 0#64 (initSlot 2) 2#64 64#8 100#64 1#64) endpointTraced :=
  ⟨_, _, makeOne_step (by decide +kernel) (by decide +kernel), rfl⟩

theorem bootTraced_mintStart : (mintSystem lowMap).start ⟨bootTraced, fun _ _ => False⟩ :=
  ⟨bootSlots_boot, fun _ _ h => h, fun _ _ h => h⟩

theorem endpointTraced_reached : (mintSystem lowMap).ReachedBy
    (fun M op => LinkSafe lowMap M.slots op) endpointTraced :=
  .step (.start bootTraced_mintStart)
    (makeOne_linkSafe (j := 100) (show CapType.ofWord? 1#64 = some .endpoint from rfl) rfl (by decide)
      (by decide +kernel) (bootSlots_boot _) (by decide) fun a ha => ⟨bootSlots_boot a, fun he =>
        absurd (he ▸ ha) (by decide +kernel)⟩) endpointTraced_step

theorem badge_revocation_complete_iff_original :
    RevokesBadge (copyTo (mintTo endpointTraced 101 100) 102 101) (initSlot 101) := by
  have hreached := copyTo_reached (mintTo_reached endpointTraced_reached 101 100 trivial) 102 101
    (.inr (by decide +kernel))
  have hminted : (copyTo (mintTo endpointTraced 101 100) 102 101).minted (initSlot 101) true := by
    refine ⟨by decide +kernel, .inr ⟨fun p hp => ?_, mintTo_minted (by decide) (by decide)⟩⟩
    exact absurd hp.2.1 (by decide)
  exact (badge_revocation_complete_iff lowMap hreached hminted
    ⟨by decide +kernel, by decide +kernel⟩).mpr (.inl rfl)

/-- Minted from a copy, with one copy of its own in slot 103. -/
def copyOfMinted : MintTraced :=
  copyTo (mintTo (copyTo endpointTraced 101 100) 102 101) 103 102

/-- Revoking a capability that was minted from a copy leaves its own copy. -/
theorem minted_from_copy_not_revoked :
    ¬ ∀ M, (mintSystem lowMap).Reached M → ∀ m o, M.minted m o → IsBadged (M.slots m).cap →
      RevokesBadge M m := by
  intro h
  have hreached : (mintSystem lowMap).Reached copyOfMinted :=
    copyTo_reached (mintTo_reached (copyTo_reached endpointTraced_reached.reached 101 100 trivial)
      102 101 trivial) 103 102 trivial
  have hminted : copyOfMinted.minted (initSlot 102) false := by
    refine ⟨by decide +kernel, .inr ⟨fun p hp => ?_, ?_⟩⟩
    · exact absurd hp.2.1 (by decide)
    · exact mintTo_minted (by decide +kernel) (by decide +kernel)
  have hdesc : copyOfMinted.desc (initSlot 102) (initSlot 103) := by
    refine ⟨⟨by decide +kernel, by decide +kernel⟩, fun p hp => absurd hp.2.1 (by decide),
      .inl ⟨initSlot 102, ⟨by decide +kernel, rfl, rfl⟩, .inl rfl⟩⟩
  obtain ⟨t, ht, hempty, -⟩ :=
    h _ hreached _ _ hminted ⟨by decide +kernel, by decide +kernel⟩
  have hsame := (revokes_deletes_badge.1 _ _ t ht).2 (by decide +kernel)
  have hnull := hempty _ hdesc
  rw [hsame] at hnull
  exact absurd hnull (by decide +kernel)

end Tern
