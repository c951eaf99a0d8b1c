import Mathlib.Logic.Relation
import Mathlib.Logic.Function.Basic
import Mathlib.Data.List.Nodup

/-! Null-terminated doubly linked lists over any type of nodes: the two link
functions, insertion after a node, removal, and the lists they represent.
`Follows a l` says that `l` is what comes after `a`; `Wf` says that the two
directions agree and that every node is followed by a finite list. Insertion
and removal keep `Wf`, and their effect on every `Follows` list is stated as a
list operation. -/

namespace Tern.Lib

structure Links (α : Type*) where
  next : α → Option α
  prev : α → Option α

namespace Links

variable {α : Type*} (L : Links α)

/-- The nodes after `a` are exactly `l`, in order. -/
def Follows (a : α) : List α → Prop
  | [] => L.next a = none
  | b :: l => L.next a = some b ∧ Follows b l

/-- One step along `next`. -/
def Step (a b : α) : Prop := L.next a = some b

/-- Both directions agree and every node is followed by a finite list. -/
structure Wf : Prop where
  next_iff_prev : ∀ a b, L.next a = some b ↔ L.prev b = some a
  finite : ∀ a, ∃ l, L.Follows a l

/-- A node with no neighbour. -/
def Unlinked (a : α) : Prop := L.next a = none ∧ L.prev a = none

variable {L}

theorem Follows.eq_cons {a b : α} {l : List α} (h : L.Follows a l) (hb : L.next a = some b) :
    ∃ m, l = b :: m ∧ L.Follows b m := by
  cases l with
  | nil => cases hb.symm.trans h
  | cons c m =>
    cases hb.symm.trans h.1
    exact ⟨m, rfl, h.2⟩

theorem Follows.unique {a : α} {l m : List α} (hl : L.Follows a l) (hm : L.Follows a m) :
    l = m := by
  induction l generalizing a m with
  | nil =>
    cases m with
    | nil => rfl
    | cons b m => cases hl.symm.trans hm.1
  | cons b l ih =>
    obtain ⟨n, rfl, hn⟩ := hm.eq_cons hl.1
    rw [ih hl.2 hn]

theorem Follows.append {a b : α} {l m : List α} (h : L.Follows a (l ++ b :: m)) :
    L.Follows b m := by
  induction l generalizing a with
  | nil => exact h.2
  | cons c l ih => exact ih h.2

theorem Follows.not_mem {a : α} {l : List α} (h : L.Follows a l) : a ∉ l := by
  intro ha
  obtain ⟨p, q, rfl⟩ := List.append_of_mem ha
  have hlen := congrArg List.length (h.unique h.append)
  simp only [List.length_append, List.length_cons] at hlen
  omega

theorem Follows.nodup {a : α} {l : List α} (h : L.Follows a l) : (a :: l).Nodup := by
  induction l generalizing a with
  | nil => simp
  | cons b l ih => exact List.nodup_cons.mpr ⟨h.not_mem, ih h.2⟩

/-- Every node on a following list has the node before it as `prev`, so it is
linked. -/
theorem Follows.prev_of_mem {a b : α} {l : List α} (hL : L.Wf) (h : L.Follows a l)
    (hb : b ∈ l) : ∃ c, L.prev b = some c := by
  induction l generalizing a with
  | nil => cases hb
  | cons d l ih =>
    rcases List.mem_cons.mp hb with rfl | hb
    · exact ⟨a, (hL.next_iff_prev _ _).mp h.1⟩
    · exact ih h.2 hb

theorem Follows.reach {a b : α} {l : List α} (h : L.Follows a l)
    (hb : Relation.TransGen L.Step a b) : b ∈ l := by
  induction hb using Relation.TransGen.head_induction_on generalizing l with
  | single hs =>
    cases l with
    | nil => exact absurd (hs.symm.trans h) (by simp)
    | cons c l =>
      cases hs.symm.trans h.1
      exact List.mem_cons_self
  | head hs _ ih =>
    cases l with
    | nil => exact absurd (hs.symm.trans h) (by simp)
    | cons c l =>
      cases hs.symm.trans h.1
      exact List.mem_cons_of_mem _ (ih h.2)

/-- Finite following lists leave no room for a cycle. -/
theorem Wf.acyclic (hL : L.Wf) (a : α) : ¬ Relation.TransGen L.Step a a := by
  intro h
  obtain ⟨l, hl⟩ := hL.finite a
  exact hl.not_mem (hl.reach h)

theorem Wf.next_ne_self (hL : L.Wf) (a : α) : L.next a ≠ some a :=
  fun h => hL.acyclic a (.single h)

theorem Wf.prev_ne_self (hL : L.Wf) (a : α) : L.prev a ≠ some a :=
  fun h => hL.next_ne_self a ((hL.next_iff_prev a a).mpr h)

theorem Wf.next_ne (hL : L.Wf) {a b : α} (h : L.prev b ≠ some a) : L.next a ≠ some b :=
  fun e => h ((hL.next_iff_prev a b).mp e)

theorem Wf.prev_ne (hL : L.Wf) {a b : α} (h : L.next a ≠ some b) : L.prev b ≠ some a :=
  fun e => h ((hL.next_iff_prev a b).mpr e)

theorem Wf.of_unlinked (h : ∀ a, L.Unlinked a) : L.Wf :=
  ⟨fun a b => by simp [(h a).1, (h b).2], fun a => ⟨[], (h a).1⟩⟩

section Operations

variable [DecidableEq α]

def setNext (L : Links α) (a : α) (b : Option α) : Links α :=
  { L with next := Function.update L.next a b }

def setPrev (L : Links α) (a : α) (b : Option α) : Links α :=
  { L with prev := Function.update L.prev a b }

/-- A write through a link that may be null. -/
def setNextIf (L : Links α) (a : Option α) (b : Option α) : Links α :=
  match a with
  | some a => L.setNext a b
  | none => L

def setPrevIf (L : Links α) (a : Option α) (b : Option α) : Links α :=
  match a with
  | some a => L.setPrev a b
  | none => L

/-- Insertion, in the order of the writes of a C implementation. -/
def insertAfter (L : Links α) (new after : α) : Links α :=
  let next := L.next after
  let L := L.setPrevIf next (some new)
  ((L.setNext after (some new)).setNext new next).setPrev new (some after)

/-- Removal, in the order of the writes of a C implementation: each write
reads the links left by the one before it. -/
def unlink (L : Links α) (del : α) : Links α :=
  let L := L.setNextIf (L.prev del) (L.next del)
  let L := L.setPrevIf (L.next del) (L.prev del)
  (L.setNext del none).setPrev del none

variable {new after : α}

theorem insertAfter_next (y : α) :
    (L.insertAfter new after).next y =
      if y = new then L.next after else if y = after then some new else L.next y := by
  cases h : L.next after <;>
    simp only [insertAfter, h, setPrevIf, setNext, setPrev, Function.update_apply]

theorem insertAfter_prev (y : α) :
    (L.insertAfter new after).prev y =
      if y = new then some after else if L.next after = some y then some new
      else L.prev y := by
  cases h : L.next after with
  | none => simp [insertAfter, h, setPrevIf, setNext, setPrev, Function.update_apply]
  | some n =>
    by_cases hy : y = n
    · subst hy; simp [insertAfter, h, setPrevIf, setNext, setPrev, Function.update_apply]
    · have hn : n ≠ y := fun e => hy e.symm
      simp [insertAfter, h, setPrevIf, setNext, setPrev, Function.update_apply, hy, hn]

/-- What insertion does to a following list. -/
def spliceAfter (new after : α) (l : List α) : List α :=
  l.flatMap fun x => if x = after then [after, new] else [x]

theorem mem_spliceAfter {x : α} {l : List α} :
    x ∈ spliceAfter new after l ↔ x ∈ l ∨ (x = new ∧ after ∈ l) := by
  induction l with
  | nil => simp [spliceAfter]
  | cons y l ih =>
    simp only [spliceAfter, List.flatMap_cons, List.mem_append, List.mem_cons] at ih ⊢
    rw [ih]
    by_cases hy : y = after
    · subst hy; simp; tauto
    · have hy' : after ≠ y := fun e => hy e.symm
      simp [hy, hy']; tauto

theorem spliceAfter_cons (x : α) (l : List α) :
    spliceAfter new after (x :: l) =
      (if x = after then [after, new] else [x]) ++ spliceAfter new after l := rfl

theorem spliceAfter_append (l m : List α) :
    spliceAfter new after (l ++ m) = spliceAfter new after l ++ spliceAfter new after m :=
  List.flatMap_append

theorem spliceAfter_of_not_mem {l : List α} (h : after ∉ l) : spliceAfter new after l = l := by
  induction l with
  | nil => rfl
  | cons x l ih =>
    have hx : x ≠ after := fun e => h (by simp [e])
    rw [spliceAfter_cons, ih (fun hm => h (List.mem_cons_of_mem _ hm))]
    simp [hx]

theorem insertAfter_follows (hL : L.Wf) (hnew : L.Unlinked new) (hne : new ≠ after)
    {y : α} {l : List α} (hy : y ≠ new) (h : L.Follows y l) :
    (L.insertAfter new after).Follows y
      (if y = after then new :: spliceAfter new after l else spliceAfter new after l) := by
  induction l generalizing y with
  | nil =>
    have hn : L.next y = none := h
    by_cases ha : y = after
    · subst ha
      simp [Follows, spliceAfter, insertAfter_next, hn, hne.symm]
    · simp [Follows, spliceAfter, insertAfter_next, hn, ha, hy]
  | cons x l ih =>
    obtain ⟨hx, hl⟩ := h
    have hxnew : x ≠ new := by
      rintro rfl
      exact absurd (hnew.2.symm.trans ((hL.next_iff_prev _ _).mp hx)) (by simp)
    have hrest := ih hxnew hl
    by_cases ha : y = after
    · subst ha
      have hxy : x ≠ y := fun e => hL.next_ne_self y (e ▸ hx)
      simp only [hxy, if_false] at hrest
      simp only [if_true, spliceAfter_cons, hxy, if_false, List.cons_append, List.nil_append]
      exact ⟨by simp [insertAfter_next, hne.symm],
        by simp [insertAfter_next, hx], hrest⟩
    · have hxn : (L.insertAfter new after).next y = some x := by
        simp [insertAfter_next, hy, ha, hx]
      by_cases hxa : x = after
      · subst hxa
        simpa [ha, spliceAfter_cons, Follows, hxn] using hrest
      · simpa [ha, spliceAfter_cons, Follows, hxn, hxa] using hrest

theorem insertAfter_follows_new (hL : L.Wf) (hnew : L.Unlinked new) (hne : new ≠ after)
    {l : List α} (h : L.Follows after l) :
    (L.insertAfter new after).Follows new l := by
  have h' := insertAfter_follows hL hnew hne hne.symm h
  rw [if_pos rfl, spliceAfter_of_not_mem h.not_mem] at h'
  exact h'.2

theorem insertAfter_wf (hL : L.Wf) (hnew : L.Unlinked new) (hne : new ≠ after) :
    (L.insertAfter new after).Wf := by
  constructor
  · intro a b
    have hiff := hL.next_iff_prev
    have hn := hnew.1
    have hp := hnew.2
    rw [insertAfter_next, insertAfter_prev]
    by_cases ha : a = new
    · subst ha
      have hb : L.prev b ≠ some a := hL.prev_ne (by simp [hn])
      have hself : L.next after ≠ some a := hL.next_ne (by simp [hp])
      by_cases hba : b = a <;> grind
    · by_cases hb : b = new
      · subst hb
        have h1 : L.next a ≠ some b := hL.next_ne (by simp [hp])
        grind
      · grind
  · intro a
    by_cases ha : a = new
    · subst ha
      obtain ⟨l, hl⟩ := hL.finite after
      exact ⟨l, insertAfter_follows_new hL hnew hne hl⟩
    · obtain ⟨l, hl⟩ := hL.finite a
      exact ⟨_, insertAfter_follows hL hnew hne ha hl⟩

/-- Insertion gives no neighbour to a node other than the two it is about. -/
theorem insertAfter_unlinked (hL : L.Wf) {a : α} (hnew : a ≠ new) (hafter : a ≠ after)
    (ha : L.Unlinked a) : (L.insertAfter new after).Unlinked a := by
  have hprev : L.next after ≠ some a := hL.next_ne (by simp [ha.2])
  exact ⟨by simp [insertAfter_next, hnew, hafter, ha.1],
    by simp [insertAfter_prev, hnew, hprev, ha.2]⟩

variable {del : α}

/-- The neighbours of the removed node are read once more after the first write,
which leaves them as they were. -/
theorem next_unlink (y : α) :
    (L.unlink del).next y =
      if y = del then none else if L.prev del = some y then L.next del else L.next y := by
  cases hp : L.prev del <;> cases hn : L.next del <;>
    simp [unlink, hp, hn, setNextIf, setPrevIf, setNext, setPrev, Function.update_apply,
      eq_comm (a := y)]

theorem prev_unlink (y : α) :
    (L.unlink del).prev y =
      if y = del then none else if L.next del = some y then L.prev del else L.prev y := by
  cases hp : L.prev del <;> cases hn : L.next del <;>
    simp [unlink, hp, hn, setNextIf, setPrevIf, setNext, setPrev, Function.update_apply,
      eq_comm (a := y)]

theorem unlink_next (hL : L.Wf) (y : α) :
    (L.unlink del).next y =
      if y = del then none else if L.next y = some del then L.next del else L.next y := by
  rw [next_unlink]
  simp only [hL.next_iff_prev]

theorem unlink_prev (hL : L.Wf) (y : α) :
    (L.unlink del).prev y =
      if y = del then none else if L.prev y = some del then L.prev del else L.prev y := by
  rw [prev_unlink]
  simp only [hL.next_iff_prev]

theorem unlink_unlinked (hL : L.Wf) : (L.unlink del).Unlinked del := by
  simp [Unlinked, unlink_next hL, unlink_prev hL]

theorem unlink_keeps_unlinked (hL : L.Wf) {a : α} (ha : L.Unlinked a) :
    (L.unlink del).Unlinked a := by
  simp [Unlinked, unlink_next hL, unlink_prev hL, ha.1, ha.2]

/-- Nodes whose following list avoids the removed node keep that list. -/
theorem unlink_follows_of_not_mem (hL : L.Wf) {y : α} {l : List α} (hy : y ≠ del)
    (hdel : del ∉ l) (h : L.Follows y l) : (L.unlink del).Follows y l := by
  induction l generalizing y with
  | nil =>
    have hn : L.next y = none := h
    simp [Follows, unlink_next hL, hn]
  | cons x l ih =>
    have hx : x ≠ del := fun e => hdel (by simp [e])
    refine ⟨?_, ih hx (fun e => hdel (List.mem_cons_of_mem _ e)) h.2⟩
    rw [unlink_next hL, if_neg hy, if_neg (by rw [h.1]; simpa using hx)]
    exact h.1

theorem unlink_follows (hL : L.Wf) {y : α} {l : List α} (hy : y ≠ del) (h : L.Follows y l) :
    (L.unlink del).Follows y (l.filter (· ≠ del)) := by
  induction l generalizing y with
  | nil => exact unlink_follows_of_not_mem hL hy (by simp) h
  | cons x l ih =>
    obtain ⟨hx, hl⟩ := h
    by_cases hxd : x = del
    · -- `x` leaves the list: `y` now points where `x` did
      subst hxd
      have hnot : x ∉ l := hl.not_mem
      have hfilter : (x :: l).filter (· ≠ x) = l := by
        rw [List.filter_cons_of_neg (by simp), List.filter_eq_self]
        intro z hz
        have hzx : z ≠ x := fun e => hnot (e ▸ hz)
        simpa using hzx
      rw [hfilter]
      have hyn : (L.unlink x).next y = L.next x := by
        rw [unlink_next hL, if_neg hy, if_pos hx]
      cases l with
      | nil => exact hyn.trans hl
      | cons z l =>
        have hz : z ≠ x := fun e => hnot (by simp [e])
        exact ⟨hyn.trans hl.1, unlink_follows_of_not_mem hL hz
          (fun e => hnot (List.mem_cons_of_mem _ e)) hl.2⟩
    · rw [List.filter_cons_of_pos (by simpa using hxd)]
      refine ⟨?_, ih hxd hl⟩
      rw [unlink_next hL, if_neg hy, if_neg (by rw [hx]; simpa using hxd)]
      exact hx

theorem unlink_wf (hL : L.Wf) : (L.unlink del).Wf := by
  constructor
  · intro a b
    have hiff := hL.next_iff_prev
    have hnext := hL.next_ne_self
    have hprev := hL.prev_ne_self
    rw [unlink_next hL, unlink_prev hL]
    by_cases had : L.next a = some del
    · have h1 := (hiff _ _).mp had
      grind
    · grind
  · intro a
    by_cases ha : a = del
    · subst ha
      exact ⟨[], (unlink_unlinked hL).1⟩
    · obtain ⟨l, hl⟩ := hL.finite a
      exact ⟨_, unlink_follows hL ha hl⟩

end Operations

end Links

end Tern.Lib
