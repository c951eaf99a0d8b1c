import Tern.Revocation

/-! Which capabilities a revocation takes away. `is_child_cap` compares types
and, for endpoints, badges, but neither the objects nor the `is_original` flag
of the child. So revoking a capability that is no untyped is precise only where
the derivation list itself separates the objects. -/

namespace Tern

open Lib Cdt

/-- The step from `s` to `t` empties slot `x`. -/
def Empties (s t : Slots) (x : Word) : Prop :=
  (s x).cap.type ≠ .null ∧ (t x).cap.type = .null

/-- Revoking or deleting `c` empties, besides `c` itself when deleting, only
slots whose capability refers to the object of `c`. -/
def Precise (s : Slots) (c : Word) : Prop :=
  (∀ t, Revokes s c t → ∀ x, Empties s t x → SameObject (s x).cap (s c).cap) ∧
  ∀ t, Deletes s c t → ∀ x, x ≠ c → Empties s t x → SameObject (s x).cap (s c).cap

/-- Slots reached from `c` along `next` over children of `c` that refer to the
object of `c`. -/
inductive OwnRun (s : Slots) (c : Word) : Word → Prop
  | self : OwnRun s c c
  | next {x n : Word} (hx : OwnRun s c x) (hn : (s x).next = some n)
      (hchild : isChildOf (s n).cap (s c).cap = true) (hsame : SameObject (s n).cap (s c).cap) :
      OwnRun s c n

/-- Where this walk first meets a capability that refers to another object, the
child test rejects it. -/
def StopsAtForeign (s : Slots) (c : Word) : Prop :=
  ∀ x n, OwnRun s c x → (s x).next = some n → ¬ SameObject (s n).cap (s c).cap →
    isChildCap s (some n) c = false

theorem isChildOf_type {a b : Cap} (hb : b.type ≠ .untyped) (h : isChildOf a b = true) :
    b.isOriginal = true ∧ a.type = b.type := by
  unfold isChildOf at h
  cases ho : b.isOriginal with
  | false => simp [ho] at h
  | true =>
    refine ⟨rfl, ?_⟩
    by_contra hne
    simp [ho, hb, hne] at h

/-- Children of a child are children, unless the parent is an untyped. -/
theorem isChildOf_trans {a b c : Cap} (hc : c.type ≠ .untyped) (hab : isChildOf a b = true)
    (hbc : isChildOf b c = true) : isChildOf a c = true := by
  obtain ⟨hco, hbct⟩ := isChildOf_type hc hbc
  have hb : b.type ≠ .untyped := hbct ▸ hc
  obtain ⟨hbo, habt⟩ := isChildOf_type hb hab
  unfold isChildOf at *
  by_cases he : c.type = .endpoint
  · simp only [hco, hbo, he, hbct, habt, Bool.not_true, Bool.false_eq_true, if_false, reduceCtorEq,
      ne_eq, not_true_eq_false, if_true, Bool.or_eq_true, beq_iff_eq] at *
    rcases hbc with h | h
    · rw [h]; exact hab
    · exact .inr h
  · simp [hco, hc, habt, hbct, he]

theorem OwnRun.child {s : Slots} {c x : Word} (h : OwnRun s c x) (hx : x ≠ c) :
    isChildOf (s x).cap (s c).cap = true := by
  cases h with
  | self => exact absurd rfl hx
  | next _ _ hchild _ => exact hchild

theorem OwnRun.same {s : Slots} {c x : Word} (h : OwnRun s c x) :
    SameObject (s x).cap (s c).cap := by
  cases h with
  | self => exact ⟨rfl, rfl⟩
  | next _ _ _ hsame => exact hsame

/-! ## Precise where the walk stops, in any heap -/

/-- During a revocation of `c` that started in `s`: only slots of the walk have
been emptied, and its slots are followed by slots of the walk or by slots that
are no children. Nothing is assumed of the links. -/
structure WalkInv (s : Slots) (c : Word) (t : Slots) : Prop where
  cap : ∀ x, (t x).cap = (s x).cap ∨ ((t x).cap = newNullCap ∧ OwnRun s c x)
  next : ∀ x n, OwnRun s c x → (t x).next = some n →
    OwnRun s c n ∨ isChildOf (s n).cap (s c).cap = false

theorem unlinkCte_next (s : Slots) (del x : Word) :
    (unlinkCte s del x).next =
      if x = del then none else if (s del).prev = some x then (s del).next else (s x).next := by
  have hset : ∀ (t : Slots) (a b : Option Word) (y : Word),
      (t.setNextIf a b y).next = if a = some y then b else (t y).next := by
    intro t a b y
    cases a with
    | none => simp [Slots.setNextIf]
    | some a =>
      by_cases h : y = a
      · simp [Slots.setNextIf, Slots.setNext, h]
      · simp [Slots.setNextIf, Slots.setNext, h, Ne.symm h]
  have hprev : ∀ (t : Slots) (a b : Option Word) (y : Word),
      (t.setPrevIf a b y).next = (t y).next := by
    intro t a b y
    cases a with
    | none => rfl
    | some a => by_cases h : y = a <;> simp [Slots.setPrevIf, Slots.setPrev, h]
  by_cases hx : x = del
  · subst hx
    simp [unlinkCte, Slots.setPrev, Slots.setNext]
  · simp [unlinkCte, Slots.setPrev, Slots.setNext, hx, hset, hprev]

theorem WalkInv.child {s t : Slots} {c x n : Word} (hc : (s c).cap.type ≠ .untyped)
    (ht : WalkInv s c t) (hx : OwnRun s c x) (hn : (t x).next = some n)
    (hchild : isChildCap t (some n) x = true) : OwnRun s c n := by
  rcases ht.next x n hx hn with h | h
  · exact h
  · rcases ht.cap n with hcn | ⟨-, hrun⟩
    · have hchild' : isChildOf (s n).cap (t x).cap = true := by
        simpa [isChildCap, hcn] using hchild
      rcases ht.cap x with hcx | ⟨hcx, -⟩
      · rw [hcx] at hchild'
        by_cases hxc : x = c
        · subst hxc
          rw [hchild'] at h
          cases h
        · rw [isChildOf_trans hc hchild' (hx.child hxc)] at h
          cases h
      · rw [hcx] at hchild'
        simp [isChildOf, newNullCap] at hchild'
    · exact hrun

theorem WalkInv.remove {s t : Slots} {c x : Word} (ht : WalkInv s c t) (hx : OwnRun s c x) :
    WalkInv s c (remove t x) := by
  constructor
  · intro y
    by_cases hy : y = x
    · exact .inr ⟨by simp [hy], hy ▸ hx⟩
    · simpa [hy] using ht.cap y
  · intro y n hy hn
    have hnext : (Cdt.remove t x y).next = (unlinkCte t x y).next := by
      by_cases h : y = x <;> simp [Cdt.remove, Slots.setCap, h]
    rw [hnext, unlinkCte_next] at hn
    split at hn
    · cases hn
    · split at hn
      · exact ht.next x n hx hn
      · exact ht.next y n hy hn

theorem WalkInv.revoke_delete {s : Slots} {c : Word} (hc : (s c).cap.type ≠ .untyped) :
    (∀ t x u, Revokes t x u → OwnRun s c x → WalkInv s c t → WalkInv s c u) ∧
    ∀ t x u, Deletes t x u → OwnRun s c x → WalkInv s c t → WalkInv s c u := by
  refine revoke_delete_rule (fun _ _ _ _ ht => ht) ?_ ?_
  · intro t x n u v hn hchild hu hv hx ht
    exact hv hx (hu (ht.child hc hx hn hchild) ht)
  · intro t x u hu hx ht
    exact (hu hx ht).remove hx

theorem StopsAtForeign.walkInv {s : Slots} {c : Word} (h : StopsAtForeign s c) :
    WalkInv s c s := by
  refine ⟨fun _ => .inl rfl, fun x n hx hn => ?_⟩
  by_cases hsame : SameObject (s n).cap (s c).cap
  · cases hchild : isChildOf (s n).cap (s c).cap with
    | true => exact .inl (.next hx hn hchild hsame)
    | false => exact .inr rfl
  · exact .inr (h x n hx hn hsame)

theorem WalkInv.empties {s t : Slots} {c x : Word} (h : WalkInv s c t) (hx : Empties s t x) :
    SameObject (s x).cap (s c).cap := by
  rcases h.cap x with hcap | ⟨-, hrun⟩
  · exact absurd (hcap ▸ hx.2) hx.1
  · exact hrun.same

theorem StopsAtForeign.precise {s : Slots} {c : Word} (hc : (s c).cap.type ≠ .untyped)
    (h : StopsAtForeign s c) : Precise s c :=
  ⟨fun t ht _ hx => ((WalkInv.revoke_delete hc).1 s c t ht .self h.walkInv).empties hx,
    fun t ht _ _ hx => ((WalkInv.revoke_delete hc).2 s c t ht .self h.walkInv).empties hx⟩

/-! ## Precise only there, on a well-formed list -/

/-- The walk is a piece of the list behind `c`. -/
theorem OwnRun.split {s : Slots} {c x : Word} {l : List Word} (hl : s.links.Follows c l)
    (h : OwnRun s c x) : ∃ p m, l = p ++ m ∧ s.links.Follows x m ∧
      ∀ y ∈ p, isChildOf (s y).cap (s c).cap = true := by
  induction h with
  | self => exact ⟨[], l, rfl, hl, fun _ hy => by cases hy⟩
  | @next x n _ hn hchild _ ih =>
    obtain ⟨p, m, rfl, hm, hp⟩ := ih
    obtain ⟨q, rfl, hq⟩ := hm.eq_cons hn
    refine ⟨p ++ [n], q, by simp, hq, fun y hy => ?_⟩
    rcases List.mem_append.mp hy with hy | hy
    · exact hp y hy
    · cases List.mem_singleton.mp hy
      exact hchild

theorem Precise.stopsAtForeign {s : Slots} {c : Word} (hs : WellLinked s) (h : Precise s c) :
    StopsAtForeign s c := by
  intro x n hx hn hforeign
  by_contra hchild
  have hchild' : isChildOf (s n).cap (s c).cap = true := by simpa [isChildCap] using hchild
  obtain ⟨l, hl⟩ := hs.wf.finite c
  obtain ⟨p, m, rfl, hm, hp⟩ := hx.split hl
  obtain ⟨m, rfl, -⟩ := hm.eq_cons hn
  obtain ⟨t, ht⟩ := revokes_total hs c
  obtain ⟨q, r, hqr, hrem, hstop⟩ := ht.spec hs hl
  have hnq : n ∈ q := by
    refine hstop.mem_of_children (p := p ++ [n]) (m := m) (by simpa using hqr) ?_ (by simp)
    intro y hy
    rcases List.mem_append.mp hy with hy | hy
    · exact hp y hy
    · cases List.mem_singleton.mp hy
      exact hchild'
  obtain ⟨k, hk⟩ := hl.prev_of_mem hs.wf (List.mem_append_right p List.mem_cons_self)
  have hlinked : ¬ s.links.Unlinked n := fun hu => by
    rw [hu.2] at hk
    cases hk
  refine hforeign (h.1 t ht n ⟨hs.linked_type hlinked, ?_⟩)
  rw [hrem.cap_of_mem hnq]
  rfl

/-- In every reachable state revocation and deletion are precise at a capability
whose walk stops at foreign objects, and on a well-formed list only there. -/
theorem revocation_precise_iff (dm : DirectMap) {s : Slots} (_ : (capSystem dm).Reached s)
    {c : Word} (hc : (s c).cap.type ≠ .untyped) :
    (StopsAtForeign s c → Precise s c) ∧
    (WellLinked s → (Precise s c ↔ StopsAtForeign s c)) :=
  ⟨StopsAtForeign.precise hc, fun hs => ⟨Precise.stopsAtForeign hs, StopsAtForeign.precise hc⟩⟩

/-- One notification, in slot 100. -/
def oneNotification : Slots := resultSlots (makeOne bootSlots 3#64 0#64 6 100)

theorem oneNotification_reached : (capSystem lowMap).Reached oneNotification :=
  .step (.start bootSlots_boot) trivial
      ⟨_, makeOne_step (by decide +kernel) (by decide +kernel)⟩

/-- It is copied to slot 101. -/
def sharedNotification : Slots :=
  (copyCap oneNotification (initSlot 101) (initSlot 100) capRightsAll).2

theorem revocation_precise_iff_shared : Precise sharedNotification (initSlot 100) := by
  have hreached : (capSystem lowMap).Reached sharedNotification :=
    .step (l := .copy (initSlot 101) (initSlot 100) capRightsAll) oneNotification_reached trivial
      ⟨_, .copy Prod.mk.eta.symm⟩
  refine (revocation_precise_iff lowMap hreached (by decide +kernel)).1 fun x n hx hn hforeign => ?_
  have hlast : (sharedNotification (initSlot 101)).next = none := by decide +kernel
  have hwalk : x = initSlot 100 ∨ x = initSlot 101 := by
    clear hforeign hn
    induction hx with
    | self => exact .inl rfl
    | @next x m _ hm _ _ ih =>
      rcases ih with rfl | rfl
      · have hfirst : (sharedNotification (initSlot 100)).next = some (initSlot 101) := by
          decide +kernel
        exact .inr (Option.some.inj (hm.symm.trans hfirst))
      · rw [hlast] at hm
        cases hm
  rcases hwalk with rfl | rfl
  · have hfirst : (sharedNotification (initSlot 100)).next = some (initSlot 101) := by
      decide +kernel
    cases Option.some.inj (hn.symm.trans hfirst)
    exact absurd (by decide +kernel) hforeign
  · rw [hlast] at hn
    cases hn

/-- A second notification, in slot 101, made after the first. -/
def twoNotifications : Slots := resultSlots (makeOne oneNotification 3#64 0#64 6 101)

/-- Revoking the second notification deletes the first. -/
theorem revoke_deletes_older_sibling :
    ¬ ∀ s, (capSystem lowMap).Reached s → ∀ c, (s c).cap.type ≠ .untyped → Precise s c := by
  intro h
  have hreached : (capSystem lowMap).Reached twoNotifications :=
    .step oneNotification_reached trivial
      ⟨_, makeOne_step (by decide +kernel) (by decide +kernel)⟩
  have hprecise := (h _ hreached (initSlot 101) (by decide +kernel)).1
  have hrevoke : revokeCap 5 twoNotifications (initSlot 101) =
      some ((revokeCap 5 twoNotifications (initSlot 101)).get (by decide +kernel)) := by simp
  have hsame := hprecise _ ⟨5, hrevoke⟩ (initSlot 100) ⟨by decide +kernel, by decide +kernel⟩
  exact absurd hsame (by decide +kernel)

end Tern
