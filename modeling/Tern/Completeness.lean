import Tern.Provenance
import Tern.Revocation
import Tern.Lib.Descent

/-! Revoking an untyped takes away everything made from it, provided that it is
an original capability. States are traced with the relation `desc`: the
capability now in `x` was obtained from the one now in `a` by retyping, copying
and minting. The descendants of a slot are a first part of what follows it, and
they lie inside its memory. `new_untyped_cap` does not mark the boot-time
untypeds original, so revoking these, or their copies, takes nothing away. -/

namespace Tern

open Lib Cdt

structure Traced where
  slots : Slots
  desc : Word → Word → Prop

/-- Descent after an operation. An emptied or refilled slot starts anew; a slot
that was filled descends from the slot it was filled from and its ancestors. -/
def descAfter (s t : Slots) (r : Reply) (op : CapOp) (desc : Word → Word → Prop) (a x : Word) :
    Prop :=
  ((t a).cap.type ≠ .null ∧ (t x).cap.type ≠ .null) ∧ (∀ p, ¬ Made s r op a p) ∧
    ((∃ p, Made s r op x p ∧ (a = p ∨ desc a p)) ∨ ((∀ p, ¬ Made s r op x p) ∧ desc a x))

def BootUntypeds (dm : DirectMap) (s : Slots) : Prop :=
  ∀ a, (s a).cap.type = .untyped → BootUntyped dm (s a).cap

def tracedSystem (dm : DirectMap) : Transition Traced CapOp where
  start T := Boot T.slots ∧ BootUntypeds dm T.slots ∧ ∀ a x, ¬ T.desc a x
  step T op T' := ∃ r, CapStep dm T.slots op r T'.slots ∧
    T'.desc = descAfter T.slots T'.slots r op T.desc

/-- After a revocation of `u` every slot obtained from `u` is empty. -/
def Complete (T : Traced) (u : Word) : Prop :=
  ∀ t, Revokes T.slots u t → ∀ x, T.desc u x → (t x).cap.type = .null

/-! ## Descendants follow their ancestors -/

theorem runs_of_made {s t : Slots} {r : Reply} {op : CapOp} {desc : Word → Word → Prop}
    (ht : WellLinked t)
    (h : t.links.Runs fun a x => (∀ p, ¬ Made s r op a p) ∧
      ((∃ p, Made s r op x p ∧ (a = p ∨ desc a p)) ∨ ((∀ p, ¬ Made s r op x p) ∧ desc a x))) :
    t.links.Runs (descAfter s t r op desc) := by
  refine h.congr fun a x => ⟨fun hd => hd.2, fun hd => ⟨?_, hd⟩⟩
  obtain ⟨ha, hx⟩ := h.linked ht.wf hd
  exact ⟨ht.linked_type ha, ht.linked_type hx⟩

theorem runs_of_removed {s t : Slots} {X : List Word} {r : Reply} {op : CapOp}
    {desc : Word → Word → Prop} (hs : WellLinked s) (hrem : Removed s t X)
    (hmade : ∀ x p, ¬ Made s r op x p) (h : s.links.Runs desc) :
    t.links.Runs (descAfter s t r op desc) := by
  have hnull : ∀ x ∈ X, (t x).cap.type = .null := fun x hx => by rw [hrem.cap_of_mem hx]; rfl
  refine (h.filter hs.wf hrem.follows).congr fun a x => ?_
  constructor
  · rintro ⟨⟨ha, hx⟩, -, ⟨p, hp, -⟩ | ⟨-, hd⟩⟩
    · exact absurd hp (hmade x p)
    · exact ⟨fun hm => ha (hnull a hm), fun hm => hx (hnull x hm), hd⟩
  · rintro ⟨ha, hx, hd⟩
    obtain ⟨hla, hlx⟩ := h.linked hs.wf hd
    refine ⟨⟨?_, ?_⟩, hmade a, .inr ⟨hmade x, hd⟩⟩
    · rw [hrem.cap_of_not_mem ha]; exact hs.linked_type hla
    · rw [hrem.cap_of_not_mem hx]; exact hs.linked_type hlx

theorem runs_of_insert {s t : Slots} {r : Reply} {op : CapOp} {desc : Word → Word → Prop}
    {new parent : Word} (hs : WellLinked s) (ht : WellLinked t) (h : s.links.Runs desc)
    (hnew : s.links.Unlinked new) (hne : new ≠ parent)
    (hlinks : t.links = s.links.insertAfter new parent)
    (hmade : ∀ x p, Made s r op x p ↔ x = new ∧ p = parent) :
    t.links.Runs (descAfter s t r op desc) := by
  refine runs_of_made ht ?_
  rw [hlinks]
  refine (h.insertAfter hs.wf hnew hne).congr fun a x => ?_
  simp only [hmade, not_and, Links.Extended]
  constructor
  · rintro ⟨ha, ⟨p, ⟨hx, rfl⟩, hd⟩ | ⟨hx, hd⟩⟩
    · exact ⟨fun e => ha p e rfl, .inl ⟨hx, hd⟩⟩
    · exact ⟨fun e => ha parent e rfl, .inr ⟨fun e => hx parent e rfl, hd⟩⟩
  · rintro ⟨ha, ⟨hx, hd⟩ | ⟨hx, hd⟩⟩
    · exact ⟨fun _ e => absurd e ha, .inl ⟨parent, ⟨hx, rfl⟩, hd⟩⟩
    · exact ⟨fun _ e => absurd e ha, .inr ⟨fun _ e => absurd e hx, hd⟩⟩

/-- Descent after `k` rounds of a retype. -/
def DescRound (desc : Word → Word → Prop) (dest : Nat → Word) (slot : Word) (k : Nat)
    (a x : Word) : Prop :=
  (∀ i < k, a ≠ dest i) ∧
    (((∃ i < k, x = dest i) ∧ (a = slot ∨ desc a slot)) ∨ ((∀ i < k, x ≠ dest i) ∧ desc a x))

theorem descRound_succ {desc : Word → Word → Prop} {dest : Nat → Word} {slot : Word} {k : Nat}
    (hslot : ∀ i < k + 1, dest i ≠ slot) (a x : Word) :
    DescRound desc dest slot (k + 1) a x ↔
      Links.Extended (DescRound desc dest slot k) (dest k) slot a x := by
  have hs : ∀ i < k, slot ≠ dest i := fun i hi => (hslot i (by omega)).symm
  constructor
  · rintro ⟨ha, hx⟩
    have ha' : ∀ i < k, a ≠ dest i := fun i hi => ha i (by omega)
    refine ⟨ha k (by omega), ?_⟩
    by_cases hxk : x = dest k
    · refine .inl ⟨hxk, ?_⟩
      rcases hx with ⟨-, hd | hd⟩ | ⟨hx, -⟩
      · exact .inl hd
      · exact .inr ⟨ha', .inr ⟨hs, hd⟩⟩
      · exact absurd hxk (hx k (by omega))
    · refine .inr ⟨hxk, ha', ?_⟩
      rcases hx with ⟨⟨i, hi, hx⟩, hd⟩ | ⟨hx, hd⟩
      · have hik : i ≠ k := fun e => hxk (e ▸ hx)
        exact .inl ⟨⟨i, by omega, hx⟩, hd⟩
      · exact .inr ⟨fun i hi => hx i (by omega), hd⟩
  · rintro ⟨hak, ⟨hx, hd⟩ | ⟨hxk, ha, hx⟩⟩
    · rcases hd with rfl | ⟨ha, ⟨⟨i, hi, e⟩, -⟩ | ⟨-, hd⟩⟩
      · exact ⟨fun i hi => (hslot i hi).symm, .inl ⟨⟨k, by omega, hx⟩, .inl rfl⟩⟩
      · exact absurd e (hs i hi)
      · exact ⟨Nat.forall_lt_succ_right.mpr ⟨ha, hak⟩, .inl ⟨⟨k, by omega, hx⟩, .inr hd⟩⟩
    · refine ⟨Nat.forall_lt_succ_right.mpr ⟨ha, hak⟩, ?_⟩
      rcases hx with ⟨⟨i, hi, hx⟩, hd⟩ | ⟨hx, hd⟩
      · exact .inl ⟨⟨i, by omega, hx⟩, hd⟩
      · exact .inr ⟨Nat.forall_lt_succ_right.mpr ⟨hx, hxk⟩, hd⟩

theorem runs_of_retype {dm : DirectMap} {s t : Slots} {slot : Word} {type : CapType}
    {sizeBits objSize dest numObjects : Word} {desc : Word → Word → Prop} (hs : WellLinked s)
    (hslot : (s slot).cap.type ≠ .null)
    (h : RetypesTo dm s slot type sizeBits objSize dest numObjects t)
    (hfresh : FreshTargets s slot type (destSlot dest)
      (objPtr dm objSize (usableMemory s slot objSize)) objSize numObjects.toNat)
    (hruns : s.links.Runs desc) :
    t.links.Runs (DescRound desc (destSlot dest) slot numObjects.toNat) := by
  obtain ⟨u, hu, rfl⟩ := h.created
  rw [Slots.setCap_links]
  have hzero : s.links.Runs (DescRound desc (destSlot dest) slot 0) :=
    hruns.congr fun a x => by simp [DescRound]
  refine (createObjects_rule (P := fun i u => RoundInv s slot (destSlot dest) i u ∧
    u.links.Runs (DescRound desc (destSlot dest) slot i))
    ⟨⟨hs, hslot, fun _ ha _ _ => ha⟩, hzero⟩ ?_ hu).2
  rintro i u v hi ⟨hround, hruns⟩ hv
  refine ⟨hround.round hfresh hi rfl hv, ?_⟩
  rw [hround.links hfresh hi rfl hv]
  exact (hruns.insertAfter hround.wellLinked.wf (hround.dest_unlinked hfresh hi)
    (hfresh.ne_slot i hi)).congr (descRound_succ fun j hj => hfresh.ne_slot j (by omega))

theorem CapStep.runs {dm : DirectMap} {s t : Slots} {op : CapOp} {r : Reply}
    {desc : Word → Word → Prop} (h : CapStep dm s op r t) (hs : WellLinked s)
    (hsafe : LinkSafe dm s op) (hruns : s.links.Runs desc) :
    t.links.Runs (descAfter s t r op desc) := by
  have ht := h.wellLinked hs hsafe
  cases h with
  | @copy dest src mask r t h =>
    rcases copyCap_cases s dest src mask with ⟨r', hr, hlabel, -⟩ | ⟨hd, -, hr⟩ <;> rw [hr] at h <;>
      cases h
    · exact runs_of_removed hs (.refl s)
        (fun x p hp => hlabel (by simpa [Reply.isOk] using hp.1)) hruns
    · have hsrc : (s src).cap.type ≠ .null := hsafe.resolve_left (by simpa using hd)
      have hne : dest ≠ src := fun e => hsrc (e ▸ hd)
      exact runs_of_insert hs ht hruns (hs.null_unlinked dest hd) hne (by simp)
        fun x p => ⟨fun hp => hp.2, fun hp => ⟨rfl, hp⟩⟩
  | @mint dest src badge mask r t h =>
    rcases mintCap_cases s dest src badge mask with ⟨r', hr, hlabel⟩ | ⟨hd, hty, -, hr⟩ <;>
      rw [hr] at h <;> cases h
    · exact runs_of_removed hs (.refl s)
        (fun x p hp => hlabel (by simpa [Reply.isOk] using hp.1)) hruns
    · have hsrc : (s src).cap.type ≠ .null := by rcases hty with h | h <;> simp [h]
      have hne : dest ≠ src := fun e => hsrc (e ▸ hd)
      exact runs_of_insert hs ht hruns (hs.null_unlinked dest hd) hne (by simp)
        fun x p => ⟨fun hp => hp.2, fun hp => ⟨rfl, hp⟩⟩
  | delete h =>
    obtain ⟨X, hX⟩ := h.removed hs
    exact runs_of_removed hs hX (fun _ _ hp => hp) hruns
  | revoke h =>
    obtain ⟨X, hX⟩ := h.removed hs
    exact runs_of_removed hs hX (fun _ _ hp => hp) hruns
  | @retype slot typeArg sizeBits root nodeIndex nodeOffset num nodeDepth r t hslot h =>
    rcases untypedRetype_cases h with ⟨hr, rfl⟩ | ⟨type, objSize, rfl, htype, hto⟩
    · exact runs_of_removed hs (.refl _) (fun x p hp => by simpa [hr] using hp.1) hruns
    · have hfresh := hsafe type objSize t htype hto
      refine runs_of_made ht ((runs_of_retype hs (by simp [hslot]) hto hfresh hruns).congr ?_)
      intro a x
      simp only [Made, DescRound]
      constructor
      · rintro ⟨ha, hx⟩
        refine ⟨fun i hi e => ha slot ⟨rfl, rfl, i, hi, e⟩, ?_⟩
        rcases hx with ⟨p, ⟨-, rfl, i, hi, hx⟩, hd⟩ | ⟨hx, hd⟩
        · exact .inl ⟨⟨i, hi, hx⟩, hd⟩
        · exact .inr ⟨fun i hi e => hx slot ⟨rfl, rfl, i, hi, e⟩, hd⟩
      · rintro ⟨ha, hx⟩
        refine ⟨?_, ?_⟩
        · rintro p ⟨-, -, i, hi, e⟩
          exact ha i hi e
        rcases hx with ⟨⟨i, hi, hx⟩, hd⟩ | ⟨hx, hd⟩
        · exact .inl ⟨slot, ⟨rfl, rfl, i, hi, hx⟩, hd⟩
        · refine .inr ⟨?_, hd⟩
          rintro p ⟨-, -, i, hi, e⟩
          exact hx i hi e

/-! ## Descendants lie inside their ancestors -/

/-- Where the capability `d` points lies in the memory of the untyped `c`, and
so does all of its memory if it is an untyped itself. -/
structure Inside (dm : DirectMap) (c d : Cap) : Prop where
  lower : addrOf dm c ≤ addrOf dm d
  upper : addrOf dm d < addrOf dm c + bytes c
  memory : d.type = .untyped → addrOf dm d + bytes d ≤ addrOf dm c + bytes c

section

variable {dm : DirectMap} {b c d : Cap}

theorem Derived.inside (h : Derived dm c d) : Inside dm c d := by
  cases h with
  | same _ hptr hsize _ =>
    have haddr : addrOf dm d = addrOf dm c := addrOf_congr hptr
    have hbytes := bytes_congr hsize
    have hpos := bytes_pos c
    exact ⟨by omega, by omega, fun _ => by omega⟩
  | carved _ hpos hend haddr _ hbytes =>
    refine ⟨by omega, by omega, fun hd => ?_⟩
    rw [hbytes hd]
    omega

theorem Inside.trans (hbc : Inside dm b c) (hc : c.type = .untyped) (hcd : Inside dm c d) :
    Inside dm b d := by
  obtain ⟨h1, h2, h3⟩ := hbc
  obtain ⟨h4, h5, h6⟩ := hcd
  have := h3 hc
  exact ⟨by omega, by omega, fun hd => by have := h6 hd; omega⟩

/-- A capability derived from one inside `b` is inside `b`. -/
theorem Inside.derived (hbc : Inside dm b c) (h : Derived dm c d) : Inside dm b d := by
  by_cases hc : c.type = .untyped
  · exact hbc.trans hc h.inside
  · cases h with
    | same htype hptr _ _ =>
      obtain ⟨h1, h2, -⟩ := hbc
      have haddr : addrOf dm d = addrOf dm c := addrOf_congr hptr
      exact ⟨by omega, by omega, fun hd => absurd (htype ▸ hd) hc⟩
    | carved huntyped _ _ _ _ _ => exact absurd huntyped hc

theorem Inside.congr {b' d' : Cap} (h : Inside dm b d) (hb : SameButBadge b b')
    (hd : SameButBadge d d') : Inside dm b' d' := by
  obtain ⟨-, hbptr, hbsize, -⟩ := hb.fields
  obtain ⟨hdtype, hdptr, hdsize, -⟩ := hd.fields
  obtain ⟨h1, h2, h3⟩ := h
  have h4 : addrOf dm b' = addrOf dm b := addrOf_congr hbptr
  have h5 : addrOf dm d' = addrOf dm d := addrOf_congr hdptr
  have h6 := bytes_congr hbsize
  have h7 := bytes_congr hdsize
  exact ⟨by omega, by omega, fun hu => by have := h3 (hdtype ▸ hu); omega⟩

end

structure DescentInv (dm : DirectMap) (T : Traced) : Prop where
  wellLinked : WellLinked T.slots
  anchored : ∀ a, Anchored dm (T.slots a).cap
  runs : T.slots.links.Runs T.desc
  inside : ∀ u x, T.desc u x → (T.slots u).cap.type = .untyped →
    Inside dm (T.slots u).cap (T.slots x).cap
  direct : ∀ u x, T.desc u x → Direct dm (T.slots u).cap → Direct dm (T.slots x).cap

/-- The condition on a step: it is safe for the links, and a retype fits. -/
def TracedSafe (dm : DirectMap) (T : Traced) (op : CapOp) : Prop :=
  LinkSafe dm T.slots op ∧ RetypeFits dm T.slots op

theorem DescentInv.start {dm : DirectMap} {T : Traced} (h : (tracedSystem dm).start T) :
    DescentInv dm T where
  wellLinked := h.1.wellLinked
  anchored a ha := (h.2.1 a ha).anchored ha
  runs := .of_none h.2.2
  inside u x hd := absurd hd (h.2.2 u x)
  direct u x hd := absurd hd (h.2.2 u x)

theorem DescentInv.step {dm : DirectMap} {T T' : Traced} {op : CapOp} (hT : DescentInv dm T)
    (hsafe : TracedSafe dm T op) (h : (tracedSystem dm).step T op T') : DescentInv dm T' := by
  obtain ⟨r, hstep, hdesc⟩ := h
  have hcaps := hstep.caps hT.anchored hsafe.2
  -- an ancestor was there before, with the same capability
  have hkept : ∀ a x, T'.desc a x → SameButBadge (T.slots a).cap (T'.slots a).cap := by
    intro a x hd
    rw [hdesc] at hd
    obtain ⟨⟨ha, -⟩, hmade, -⟩ := hd
    rcases hcaps a with hnull | ⟨p, hp, -⟩ | ⟨-, hsame⟩
    · exact absurd hnull ha
    · exact absurd hp (hmade p)
    · exact hsame
  -- a descendant was made from the ancestor, or from a descendant, or was one before
  have hcases : ∀ a x, T'.desc a x →
      Derived dm (T.slots a).cap (T'.slots x).cap ∨
      (∃ p, T.desc a p ∧ Derived dm (T.slots p).cap (T'.slots x).cap) ∨
      (T.desc a x ∧ SameButBadge (T.slots x).cap (T'.slots x).cap) := by
    intro a x hd
    rw [hdesc] at hd
    obtain ⟨⟨-, hx⟩, -, hd⟩ := hd
    rcases hcaps x with hnull | ⟨p, hp, hderived⟩ | ⟨hnone, hsame⟩
    · exact absurd hnull hx
    · rcases hd with ⟨q, hq, hd⟩ | ⟨hnone, -⟩
      · obtain rfl := hp.unique hq
        rcases hd with rfl | hd
        · exact .inl hderived
        · exact .inr (.inl ⟨p, hd, hderived⟩)
      · exact absurd hp (hnone p)
    · rcases hd with ⟨q, hq, -⟩ | ⟨-, hd⟩
      · exact absurd hq (hnone q)
      · exact .inr (.inr ⟨hd, hsame⟩)
  refine ⟨hstep.wellLinked hT.wellLinked hsafe.1, ?_, ?_, ?_, ?_⟩
  · intro a
    rcases hcaps a with hnull | ⟨p, -, hderived⟩ | ⟨-, hsame⟩
    · exact fun ha => by rw [hnull] at ha; cases ha
    · exact hderived.anchored (hT.anchored p)
    · exact hsame.anchored (hT.anchored a)
  · rw [hdesc]
    exact hstep.runs hT.wellLinked hsafe.1 hT.runs
  · intro u x hd hu
    have hsame := hkept u x hd
    have hu' : (T.slots u).cap.type = .untyped := hsame.fields.1 ▸ hu
    rcases hcases u x hd with hx | ⟨p, hp, hx⟩ | ⟨hd, hx⟩
    · exact hx.inside.congr hsame .rfl
    · exact ((hT.inside u p hp hu').derived hx).congr hsame .rfl
    · exact (hT.inside u x hd hu').congr hsame hx
  · intro u x hd hu
    have hu' : Direct dm (T.slots u).cap := (direct_congr (hkept u x hd).fields.2.1).mp hu
    rcases hcases u x hd with hx | ⟨p, hp, hx⟩ | ⟨hd, hx⟩
    · exact hx.direct hu'
    · exact hx.direct (hT.direct u p hp hu')
    · exact (direct_congr hx.fields.2.1).mpr (hT.direct u x hd hu')

theorem DescentInv.complete_iff {dm : DirectMap} {T : Traced} (hT : DescentInv dm T) {u : Word}
    (hu : (T.slots u).cap.type = .untyped) :
    Complete T u ↔ (T.slots u).cap.isOriginal = true ∨ ∀ x, ¬ T.desc u x := by
  obtain ⟨l, hl⟩ := hT.wellLinked.wf.finite u
  obtain ⟨p, m, rfl, hp⟩ := hT.runs u l hl
  constructor
  · intro h
    by_cases ho : (T.slots u).cap.isOriginal = true
    · exact .inl ho
    · -- the loop ends at once and leaves the descendants where they are
      refine .inr fun x hx => ?_
      have hstop : isChildCap T.slots (T.slots u).next u = false := by
        cases (T.slots u).next <;> simp [isChildCap, isChildOf, ho]
      have hrevoke : Revokes T.slots u T.slots := ⟨1, by
        rw [revokeCap]
        cases hn : (T.slots u).next with
        | none => rfl
        | some n => rw [hn] at hstop; simp [hstop]⟩
      exact hT.wellLinked.linked_type (hT.runs.linked hT.wellLinked.wf hx).2 (h _ hrevoke x hx)
  · rintro (ho | hnone) t ht x hx
    · obtain ⟨q, r, hqr, hrem, hstop⟩ := ht.spec hT.wellLinked hl
      obtain ⟨hwin, hdirect⟩ := hT.anchored u hu
      have hchildren : ∀ y ∈ p, isChildOf (T.slots y).cap (T.slots u).cap = true := by
        intro y hy
        have hd := (hp y).mpr hy
        have hin := hT.inside u y hd hu
        have hcontains := (untypedContains_iff hwin (hdirect ho)
          (hT.direct u y hd (hdirect ho))).mpr ⟨hin.lower, hin.upper⟩
        simp [isChildOf, ho, hu, hcontains]
      rw [hrem.cap_of_mem (hstop.mem_of_children hqr hchildren ((hp x).mp hx))]
      rfl
    · exact absurd hx (hnone x)

/-- In every run whose steps are safe for the links and whose retypes fit,
revoking an untyped is complete exactly if it is original or has no
descendants. -/
theorem untyped_revocation_complete_iff (dm : DirectMap) {T : Traced}
    (h : (tracedSystem dm).ReachedBy (TracedSafe dm) T) {u : Word}
    (hu : (T.slots u).cap.type = .untyped) :
    Complete T u ↔ (T.slots u).cap.isOriginal = true ∨ ∀ x, ¬ T.desc u x :=
  (h.invariant (I := DescentInv dm) (fun _ => .start) fun _ _ _ hT hsafe hstep =>
    hT.step hsafe hstep).complete_iff hu

theorem bootSlots_untypeds : BootUntypeds lowMap bootSlots := by
  intro a ha
  by_cases h2 : a = initSlot 2
  · subst h2
    exact absurd ha (by decide +kernel)
  · by_cases h6 : a = initSlot 6
    · subst h6
      exact ⟨rfl, by decide +kernel⟩
    · simp [bootSlots, h2, h6] at ha

/-- The traced machine at boot. -/
def bootTraced : Traced := ⟨bootSlots, fun _ _ => False⟩

theorem bootTraced_start : (tracedSystem lowMap).start bootTraced :=
  ⟨bootSlots_boot, bootSlots_untypeds, fun _ _ h => h⟩

/-- Then one object is retyped from slot 6 into slot 100. -/
def madeOne (type sizeBits : Word) : Traced where
  slots := resultSlots (makeOne bootSlots type sizeBits 6 100)
  desc := descAfter bootSlots (resultSlots (makeOne bootSlots type sizeBits 6 100))
    (resultReply (makeOne bootSlots type sizeBits 6 100))
    (.retype (initSlot 6) type sizeBits (initSlot 2) 2#64 64#8 100#64 1#64) bootTraced.desc

theorem madeOne_step {type sizeBits : Word}
    (h : (makeOne bootSlots type sizeBits 6 100).isOk = true) :
    (tracedSystem lowMap).step bootTraced
      (.retype (initSlot 6) type sizeBits (initSlot 2) 2#64 64#8 100#64 1#64)
      (madeOne type sizeBits) :=
  ⟨_, makeOne_step (j := 100) (by decide +kernel) h, rfl⟩

/-- One object more, from slot `i` in slot `j`. -/
def Traced.make (T : Traced) (type sizeBits : Word) (i j : Nat) : Traced where
  slots := resultSlots (makeOne T.slots type sizeBits i j)
  desc := descAfter T.slots (resultSlots (makeOne T.slots type sizeBits i j))
    (resultReply (makeOne T.slots type sizeBits i j))
    (.retype (initSlot i) type sizeBits (initSlot 2) 2#64 64#8 (BitVec.ofNat 64 j) 1#64) T.desc

/-- Slot `i` is copied to slot `j`. -/
def Traced.copy (T : Traced) (i j : Nat) : Traced where
  slots := (copyCap T.slots (initSlot j) (initSlot i) capRightsAll).2
  desc := descAfter T.slots (copyCap T.slots (initSlot j) (initSlot i) capRightsAll).2
    (copyCap T.slots (initSlot j) (initSlot i) capRightsAll).1
    (.copy (initSlot j) (initSlot i) capRightsAll) T.desc

/-- One object from slot `i` to slot `j` is safe if it is made clear of linked
slots and of slot `i`. -/
theorem makeOne_linkSafe {s : Slots} {i j : Nat} {typeArg sizeBits : Word} {type : CapType}
    {objSize : Word} (htype : CapType.ofWord? typeArg = some type)
    (hsize : objectSize type sizeBits = .ok objSize) (hnull : type ≠ .null)
    (hdest : retypeDest s (initSlot 2) 2#64 (BitVec.ofNat 64 j) = initSlot j)
    (hunlinked : s.links.Unlinked (initSlot j)) (hne : initSlot j ≠ initSlot i)
    (hclear : ∀ a, Touches (objPtr lowMap objSize (usableMemory s (initSlot i) objSize) 0) objSize a →
      s.links.Unlinked a ∧ a ≠ initSlot i) :
    LinkSafe lowMap s
      (.retype (initSlot i) typeArg sizeBits (initSlot 2) 2#64 64#8 (BitVec.ofNat 64 j) 1#64) := by
  intro type' objSize' t htype' hto
  cases htype.symm.trans htype'
  cases hsize.symm.trans hto.size
  have hfirst : ∀ n < (1#64 : Word).toNat, n = 0 := fun n hn => by simpa using hn
  have hslot : destSlot (initSlot j) 0 = initSlot j := by simp [destSlot, slotAt]
  rw [hdest]
  refine ⟨fun _ => hnull, fun n hn => ?_, fun n hn => ?_, fun n m hnm hm => ?_, fun n hn a ha => ?_⟩
  · rw [hfirst n hn, hslot]
    exact hunlinked
  · rw [hfirst n hn, hslot]
    exact hne
  · have := hfirst m hm
    omega
  · obtain rfl := hfirst n hn
    exact ⟨(hclear a ha).1, (hclear a ha).2, fun m hm => absurd hm (Nat.not_lt_zero m)⟩

theorem madeOne_safe : TracedSafe lowMap bootTraced
    (.retype (initSlot 6) 6#64 12#64 (initSlot 2) 2#64 64#8 100#64 1#64) := by
  refine ⟨makeOne_linkSafe (j := 100) (show CapType.ofWord? 6#64 = some .untyped from rfl) rfl
    (by decide) (by decide +kernel) (bootSlots_boot _) (by decide)
    fun a ha => ⟨bootSlots_boot a, ?_⟩, ?_⟩
  · rintro rfl
    exact absurd ha (by decide +kernel)
  · intro type objSize t htype hto
    cases htype
    have hsize := hto.size
    cases hsize
    show roundUp _ _ + _ ≤ _
    decide +kernel

/-- The first retype links the two slots that it is about. -/
theorem madeOne_unlinked {type sizeBits a : Word}
    (h : (makeOne bootSlots type sizeBits 6 100).isOk = true) (hslot : a ≠ initSlot 6)
    (hdest : a ≠ initSlot 100) : (madeOne type sizeBits).slots.links.Unlinked a := by
  obtain ⟨t, ht⟩ : ∃ t, t = (madeOne type sizeBits).slots := ⟨_, rfl⟩
  have hrun : makeOne bootSlots type sizeBits 6 100 =
      .ok (resultReply (makeOne bootSlots type sizeBits 6 100), t) := by
    rw [ht]
    exact result_eq h
  rw [← ht]
  rcases untypedRetype_cases hrun with ⟨-, rfl⟩ | ⟨type', objSize, -, -, hto⟩
  · exact bootSlots_boot a
  · obtain ⟨u, hu, rfl⟩ := hto.created
    simp only [createObjects, bind_eq_ok, Except.ok.injEq, exists_eq_left',
      show (1#64 : Word).toNat = 1 from rfl] at hu
    obtain ⟨-, rfl⟩ := createObject_eq_ok.mp hu
    have hboot : ∀ p size a, Touches p size a → bootSlots.links.Unlinked a := fun _ _ a _ =>
      bootSlots_boot a
    rw [Slots.setCap_links, insertCteAfter_links, Slots.setCap_links, clearMemory_links (hboot _ _)]
    refine Links.insertAfter_unlinked bootSlots_boot.wellLinked.wf ?_ hslot (bootSlots_boot a)
    rw [show destSlot (retypeDest bootSlots (initSlot 2) 2#64 (BitVec.ofNat 64 100)) 0 =
      initSlot 100 by decide +kernel]
    exact hdest

/-- An untyped in slot 100, an endpoint made from it in slot 101, and a copy of
the endpoint in slot 102. -/
def familyTraced : Traced := ((madeOne 6#64 12#64).make 1#64 0#64 100 101).copy 101 102

theorem familyTraced_reached : (tracedSystem lowMap).ReachedBy (TracedSafe lowMap) familyTraced := by
  have hmade : (tracedSystem lowMap).ReachedBy (TracedSafe lowMap) (madeOne 6#64 12#64) :=
    .step (.start bootTraced_start) madeOne_safe (madeOne_step (by decide +kernel))
  have hok : (makeOne bootSlots 6#64 12#64 6 100).isOk = true := by decide +kernel
  have hchild : TracedSafe lowMap (madeOne 6#64 12#64)
      (.retype (initSlot 100) 1#64 0#64 (initSlot 2) 2#64 64#8 (BitVec.ofNat 64 101) 1#64) := by
    refine ⟨makeOne_linkSafe (show CapType.ofWord? 1#64 = some .endpoint from rfl) rfl (by decide)
      (by decide +kernel) (madeOne_unlinked hok (by decide) (by decide)) (by decide)
      fun a ha => ⟨madeOne_unlinked hok ?_ ?_, ?_⟩, ?_⟩
    · rintro rfl
      exact absurd ha (by decide +kernel)
    · rintro rfl
      exact absurd ha (by decide +kernel)
    · rintro rfl
      exact absurd ha (by decide +kernel)
    · intro type objSize t htype hto
      cases htype
      have hsize := hto.size
      cases hsize
      show roundUp _ _ + _ ≤ _
      decide +kernel
  have hcopy : TracedSafe lowMap ((madeOne 6#64 12#64).make 1#64 0#64 100 101)
      (.copy (initSlot 102) (initSlot 101) capRightsAll) := ⟨.inr (by decide +kernel), trivial⟩
  exact .step (.step hmade hchild ⟨_, makeOne_step (by decide +kernel) (by decide +kernel), rfl⟩)
    hcopy ⟨_, .copy Prod.mk.eta.symm, rfl⟩

/-- Both the endpoint and its copy were obtained from the untyped. -/
theorem familyTraced_desc : familyTraced.desc (initSlot 100) (initSlot 101) ∧
    familyTraced.desc (initSlot 100) (initSlot 102) := by
  have hchild : ((madeOne 6#64 12#64).make 1#64 0#64 100 101).desc (initSlot 100) (initSlot 101) := by
    refine ⟨⟨by decide +kernel, by decide +kernel⟩, ?_, .inl ⟨initSlot 100, ⟨by decide +kernel, rfl,
      0, by decide, by decide +kernel⟩, .inl rfl⟩⟩
    rintro p ⟨-, -, i, hi, hslot⟩
    obtain rfl : i = 0 := by simpa using hi
    exact absurd hslot (by decide +kernel)
  have hkept : ∀ p, ¬ Made ((madeOne 6#64 12#64).make 1#64 0#64 100 101).slots
      (copyCap ((madeOne 6#64 12#64).make 1#64 0#64 100 101).slots (initSlot 102) (initSlot 101)
        capRightsAll).1 (.copy (initSlot 102) (initSlot 101) capRightsAll) (initSlot 100) p :=
    fun p hp => absurd hp.2.1 (by decide)
  refine ⟨⟨⟨by decide +kernel, by decide +kernel⟩, hkept, .inr ⟨fun p hp => ?_, hchild⟩⟩,
    ⟨⟨by decide +kernel, by decide +kernel⟩, hkept, .inl ⟨initSlot 101, ⟨by decide +kernel, rfl, rfl⟩,
      .inr hchild⟩⟩⟩
  exact absurd hp.2.1 (by decide)

/-- Revoking the untyped takes both away. -/
theorem untyped_revocation_complete_iff_original :
    (familyTraced.desc (initSlot 100) (initSlot 101) ∧
      familyTraced.desc (initSlot 100) (initSlot 102)) ∧
    Complete familyTraced (initSlot 100) :=
  ⟨familyTraced_desc, (untyped_revocation_complete_iff lowMap familyTraced_reached
    (by decide +kernel)).mpr (.inl (by decide +kernel))⟩

/-- Revoking a boot-time untyped leaves the notification made from it. -/
theorem boot_untyped_revocation_incomplete :
    ¬ ∀ T, (tracedSystem lowMap).Reached T → ∀ u, (T.slots u).cap.type = .untyped →
      Complete T u := by
  intro h
  have hcomplete := h (madeOne 3#64 0#64)
    (.step (.start bootTraced_start) trivial (madeOne_step (by decide +kernel)))
    (initSlot 6) (by decide +kernel)
  have hrevoke : revokeCap 1 (madeOne 3#64 0#64).slots (initSlot 6) =
      some ((revokeCap 1 (madeOne 3#64 0#64).slots (initSlot 6)).get (by decide +kernel)) := by
    simp
  have hdesc : (madeOne 3#64 0#64).desc (initSlot 6) (initSlot 100) := by
    refine ⟨⟨by decide +kernel, by decide +kernel⟩, ?_, .inl ⟨initSlot 6, ⟨by decide +kernel, rfl,
      0, by decide, by decide +kernel⟩, .inl rfl⟩⟩
    rintro p ⟨-, -, i, hi, hslot⟩
    obtain rfl : i = 0 := by simpa using hi
    exact absurd hslot (by decide +kernel)
  exact absurd (hcomplete _ ⟨1, hrevoke⟩ (initSlot 100) hdesc) (by decide +kernel)

end Tern
