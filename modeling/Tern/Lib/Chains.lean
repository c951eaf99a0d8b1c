import Tern.Lib.Ring
import Mathlib.Data.List.Chain

/-! One null-terminated doubly linked list, whatever the rest of the structure
looks like. `IsList l` says that the nodes of `l` are linked in this order, with
no neighbour before the first and behind the last. Removing a node takes it out
of the list and touches no node off it. -/

namespace Tern.Lib

namespace Links

variable {α : Type*} (L : Links α)

structure IsList (l : List α) : Prop where
  nodup : l.Nodup
  joined : l.IsChain L.Joined
  first : ∀ a ∈ l.head?, L.prev a = none
  last : ∀ a ∈ l.getLast?, L.next a = none

variable {L}

section

variable {x y : α} {l m : List α}

/-- What follows a node of a list. -/
theorem IsList.next_eq (h : L.IsList (l ++ x :: m)) : L.next x = m.head? := by
  cases m with
  | nil => exact h.last x (by simp)
  | cons y m =>
    have hjoined := (List.isChain_append_cons_cons.mp h.joined).2.1
    exact hjoined.1

/-- What comes before a node of a list. -/
theorem IsList.prev_eq (h : L.IsList (l ++ x :: m)) : L.prev x = l.getLast? := by
  cases hl : l.getLast? with
  | none =>
    obtain rfl := List.getLast?_eq_none_iff.mp hl
    exact h.first x rfl
  | some y =>
    have hjoined := (List.isChain_append.mp h.joined).2.2 y hl x rfl
    exact hjoined.2

variable [DecidableEq α]

/-- Nodes off the list keep their links. -/
theorem IsList.unlink_outside (h : L.IsList (l ++ x :: m)) (hy : y ∉ l ++ x :: m) :
    (L.unlink x).next y = L.next y ∧ (L.unlink x).prev y = L.prev y := by
  simp only [List.mem_append, List.mem_cons, not_or] at hy
  have hnext : L.next x ≠ some y := by
    intro hn
    rw [h.next_eq] at hn
    exact hy.2.2 (List.mem_of_mem_head? hn)
  have hprev : L.prev x ≠ some y := by
    intro hp
    rw [h.prev_eq] at hp
    exact hy.1 (List.mem_of_mem_getLast? hp)
  exact ⟨by rw [next_unlink, if_neg hy.2.1, if_neg hprev],
    by rw [prev_unlink, if_neg hy.2.1, if_neg hnext]⟩

/-- Two neighbours that are not the removed node stay neighbours. -/
theorem IsList.unlink_joined {a b : α} (h : L.IsList (l ++ x :: m)) (hab : L.Joined a b)
    (ha : a ≠ x) (hb : b ≠ x) : (L.unlink x).Joined a b := by
  have hprev : L.prev x ≠ some a := by
    intro hp
    rw [h.prev_eq] at hp
    have hjoined := (List.isChain_append.mp h.joined).2.2 a hp x rfl
    exact hb (Option.some.inj (hab.1.symm.trans hjoined.1))
  have hnext : L.next x ≠ some b := by
    intro hn
    rw [h.next_eq] at hn
    have hjoined := (List.isChain_cons.mp (List.isChain_append.mp h.joined).2.1).1 b hn
    exact ha (Option.some.inj (hab.2.symm.trans hjoined.2))
  exact ⟨by rw [next_unlink, if_neg ha, if_neg hprev]; exact hab.1,
    by rw [prev_unlink, if_neg hb, if_neg hnext]; exact hab.2⟩

/-- Removal takes the node out of its list. -/
theorem IsList.unlink (h : L.IsList (l ++ x :: m)) : (L.unlink x).IsList (l ++ m) := by
  obtain ⟨hl, hxm, hcross⟩ := List.isChain_append.mp h.joined
  obtain ⟨hx, hm⟩ := List.isChain_cons.mp hxm
  have hnodup := h.nodup
  have hxl : ∀ y ∈ l, y ≠ x := fun y hy =>
    (List.nodup_append.mp hnodup).2.2 y hy x List.mem_cons_self
  have hxm : ∀ y ∈ m, y ≠ x := by
    rintro y hy rfl
    exact (List.nodup_cons.mp (List.nodup_append.mp hnodup).2.1).1 hy
  constructor
  · exact hnodup.sublist (List.Sublist.append (.refl l) (List.sublist_cons_self x m))
  · refine List.isChain_append.mpr ⟨?_, ?_, ?_⟩
    · exact hl.imp_of_mem_imp fun a b ha hb hab => h.unlink_joined hab (hxl a ha) (hxl b hb)
    · exact hm.imp_of_mem_imp fun a b ha hb hab => h.unlink_joined hab (hxm a ha) (hxm b hb)
    · -- the two neighbours of the removed node
      intro a ha b hb
      have hax := hcross a ha x rfl
      have hxb := hx b hb
      have hane := hxl a (List.mem_of_mem_getLast? ha)
      have hbne := hxm b (List.mem_of_mem_head? hb)
      exact ⟨by rw [next_unlink, if_neg hane, if_pos hax.2]; exact hxb.1,
        by rw [prev_unlink, if_neg hbne, if_pos hxb.1]; exact hax.2⟩
  · intro a ha
    rw [prev_unlink]
    split
    · rfl
    · next hax =>
      cases l with
      | nil => rw [if_pos (h.next_eq.trans ha)]; exact h.first x rfl
      | cons y l =>
        obtain rfl : y = a := Option.some.inj ha
        have hnext : L.next x ≠ some y := by
          rw [h.next_eq]
          intro hy
          exact (List.nodup_append.mp hnodup).2.2 y List.mem_cons_self y
            (List.mem_cons_of_mem x (List.mem_of_mem_head? hy)) rfl
        rw [if_neg hnext]
        exact h.first y rfl
  · intro a ha
    rw [next_unlink]
    split
    · rfl
    · next hax =>
      cases hm : m.getLast? with
      | none =>
        obtain rfl := List.getLast?_eq_none_iff.mp hm
        rw [List.append_nil] at ha
        rw [if_pos (h.prev_eq.trans ha)]
        exact h.next_eq
      | some y =>
        have hlast : (l ++ m).getLast? = some y := by rw [List.getLast?_append, hm]; rfl
        obtain rfl : y = a := Option.some.inj (hlast.symm.trans ha)
        have hprev : L.prev x ≠ some y := by
          rw [h.prev_eq]
          intro hy
          exact (List.nodup_append.mp hnodup).2.2 y (List.mem_of_mem_getLast? hy) y
            (List.mem_cons_of_mem x (List.mem_of_mem_getLast? hm)) rfl
        rw [if_neg hprev]
        refine h.last y ?_
        rw [List.getLast?_append, List.getLast?_cons, hm]
        rfl

theorem unlink_self (L : Links α) (x : α) : (L.unlink x).Unlinked x :=
  ⟨by rw [next_unlink, if_pos rfl], by rw [prev_unlink, if_pos rfl]⟩

end

end Links

end Tern.Lib
