import Tern.Lib.Links

/-! Linked lists as preorders of forests. Where every new node is inserted
right behind its parent, the descendants of a node are a first part of what
follows it. `Runs L D` says so of links `L` and a descent relation `D`; it is
kept by insertion and by removal of any set of nodes. -/

namespace Tern.Lib.Links

variable {α : Type*} {L L' : Links α} {D D' : α → α → Prop}

/-- The nodes descended from `a` are a first part of the nodes behind `a`. -/
def Runs (L : Links α) (D : α → α → Prop) : Prop :=
  ∀ a l, L.Follows a l → ∃ p r, l = p ++ r ∧ ∀ x, D a x ↔ x ∈ p

theorem Runs.congr (h : Runs L D) (hD : ∀ a x, D' a x ↔ D a x) : Runs L D' := by
  intro a l hl
  obtain ⟨p, r, rfl, hp⟩ := h a l hl
  exact ⟨p, r, rfl, fun x => (hD a x).trans (hp x)⟩

theorem Runs.of_none (h : ∀ a x, ¬ D a x) : Runs L D :=
  fun a l _ => ⟨[], l, rfl, fun x => by simp [h a x]⟩

/-- Related nodes have neighbours. -/
theorem Runs.linked (h : Runs L D) (hL : L.Wf) {a x : α} (hx : D a x) :
    ¬ L.Unlinked a ∧ ¬ L.Unlinked x := by
  obtain ⟨l, hl⟩ := hL.finite a
  obtain ⟨p, r, rfl, hp⟩ := h a l hl
  have hxp : x ∈ p ++ r := List.mem_append_left r ((hp x).mp hx)
  constructor
  · intro ha
    cases hpr : p ++ r with
    | nil => rw [hpr] at hxp; cases hxp
    | cons b m =>
      rw [hpr] at hl
      have hb := hl.1
      rw [ha.1] at hb
      cases hb
  · intro hux
    obtain ⟨c, hc⟩ := hl.prev_of_mem hL hxp
    rw [hux.2] at hc
    cases hc

variable [DecidableEq α]

/-- Descent after `new` was made from `parent`. -/
def Extended (D : α → α → Prop) (new parent : α) (a x : α) : Prop :=
  a ≠ new ∧ ((x = new ∧ (a = parent ∨ D a parent)) ∨ (x ≠ new ∧ D a x))

theorem Runs.insertAfter (h : Runs L D) (hL : L.Wf) {new parent : α} (hnew : L.Unlinked new)
    (hne : new ≠ parent) : Runs (L.insertAfter new parent) (Extended D new parent) := by
  intro a l hl
  by_cases ha : a = new
  · exact ⟨[], l, rfl, fun x => by simp [Extended, ha]⟩
  · obtain ⟨m, hm⟩ := hL.finite a
    obtain ⟨p, r, rfl, hp⟩ := h a m hm
    obtain rfl := hl.unique (insertAfter_follows hL hnew hne ha hm)
    have hnewp : new ∉ p := fun hmem => (h.linked hL ((hp new).mpr hmem)).2 hnew
    rw [spliceAfter_append]
    by_cases hpar : a = parent
    · -- the new node is the first of the run
      have hnot : parent ∉ p := fun hmem => hm.not_mem (List.mem_append_left r (hpar ▸ hmem))
      refine ⟨new :: p, spliceAfter new parent r, ?_, fun x => ?_⟩
      · simp [hpar, spliceAfter_of_not_mem hnot]
      · rw [List.mem_cons, ← hp]
        by_cases hx : x = new <;> simp [Extended, hpar, hx, hne.symm]
    · refine ⟨spliceAfter new parent p, spliceAfter new parent r, by simp [hpar], fun x => ?_⟩
      rw [mem_spliceAfter, ← hp, ← hp]
      by_cases hx : x = new
      · subst hx
        have hnot : ¬ D a x := fun hd => hnewp ((hp x).mp hd)
        simp [Extended, ha, hpar, hnot]
      · simp [Extended, ha, hx]

/-- Removal of any nodes, given by its effect on the following lists. -/
theorem Runs.filter {X : List α} (h : Runs L D) (hL : L.Wf)
    (hfollows : ∀ a l, a ∉ X → L.Follows a l → L'.Follows a (l.filter (· ∉ X))) :
    Runs L' fun a x => a ∉ X ∧ x ∉ X ∧ D a x := by
  intro a l hl
  by_cases ha : a ∈ X
  · exact ⟨[], l, rfl, fun x => by simp [ha]⟩
  · obtain ⟨m, hm⟩ := hL.finite a
    obtain ⟨p, r, rfl, hp⟩ := h a m hm
    obtain rfl := hl.unique (hfollows a _ ha hm)
    refine ⟨p.filter (· ∉ X), r.filter (· ∉ X), List.filter_append .., fun x => ?_⟩
    simp [ha, hp, and_comm]

end Tern.Lib.Links
