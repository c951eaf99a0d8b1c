import Tern.Kernel
import Tern.Lib.Ledger

/-! What `append_to_list`, `pop_from_list` and `remove_from_list` do to lists that are
in order: `append_to_list` puts the new element right behind the list head, and
`pop_from_list` takes the element right behind the head. The record of the calls
says in which order the elements of every list came, and the lists hold them in
the opposite order. -/

namespace Tern

open Lib Lib.Ledger

/-- What the calls say about the order in which the elements of every list came. -/
def ledger {α : Type} [DecidableEq α] : List (ListOp α) → Ledger α α
  | [] => .new
  | .append new head :: ops => (ledger ops).enter head new
  | .pop x head :: ops => (ledger ops).serve head x
  | .remove entry :: ops => (ledger ops).depart entry

/-- The lists of the heads `H` are those of `Q`, as the calls have made them. -/
structure Listed {α : Type} [DecidableEq α] (L : Lists α) (H : α → Prop) (Q : α → List α) :
    Prop where
  rings : Rings L.toLinks H Q
  heads : ∀ a, ¬ H a → Q a = []
  recorded : Stacked Q (ledger L.ops)

namespace Listed

variable {α : Type} [DecidableEq α] {L L' : Lists α} {H : α → Prop} {Q : α → List α}
  {head x : α}

theorem update_heads (h : Listed L H Q) (hh : H head) (l : List α) :
    ∀ a, ¬ H a → Function.update Q head l a = [] := by
  intro a ha
  have hne : a ≠ head := fun e => ha (e ▸ hh)
  rw [Function.update_of_ne hne]
  exact h.heads a ha

/-- An element is in one list at most. -/
theorem apart (h : Listed L H Q) (hh : H head) (hx : x ∈ Q head) {p : α} (hp : p ≠ head) :
    x ∉ Q p := by
  intro hm
  by_cases hhp : H p
  · exact hp (h.rings.apart p head x hhp hh hm hx)
  · rw [h.heads p hhp] at hm
    cases hm

theorem append (h : Listed L H Q) (hh : H head) (hx : Rings.Free H Q x)
    (hL : appendToList L x head = .ok L') : Listed L' H (Function.update Q head (x :: Q head)) := by
  obtain ⟨next, hnext, rfl⟩ := appendToList_eq_ok.mp hL
  cases (h.rings.next_head hh).symm.trans hnext
  exact ⟨h.rings.push hh hx, h.update_heads hh _, h.recorded.enter (hx.2 head hh)⟩

theorem remove (h : Listed L H Q) (hh : H head) (hx : x ∈ Q head)
    (hL : removeFromList L x = .ok L') :
    Listed L' H (Function.update Q head ((Q head).erase x)) := by
  obtain ⟨p, n, hp, hn, rfl⟩ := removeFromList_eq_ok.mp hL
  obtain ⟨p', n', hp', hn', hrings⟩ := h.rings.remove hh hx
  cases hp.symm.trans hp'
  cases hn.symm.trans hn'
  exact ⟨hrings, h.update_heads hh _, h.recorded.depart fun _ hp => h.apart hh hx hp⟩

/-- Removing an element of no list, which is linked to itself, changes no list. -/
theorem remove_free (h : Listed L H Q) (hx : Rings.Free H Q x)
    (hL : removeFromList L x = .ok L') : Listed L' H Q := by
  obtain ⟨p, n, hp, hn, rfl⟩ := removeFromList_eq_ok.mp hL
  rcases h.rings.idle x hx.1 hx.2 with ⟨hnull, -⟩ | ⟨hself, hself'⟩
  · cases hn.symm.trans hnull
  · cases hn.symm.trans hself
    cases hp.symm.trans hself'
    have hsame : (L.removed x x x).toLinks = L.toLinks := Links.spliceOut_self hself hself'
    refine ⟨hsame ▸ h.rings, h.heads, h.recorded.depart_absent fun p hm => ?_⟩
    by_cases hp : H p
    · exact hx.2 p hp hm
    · rw [h.heads p hp] at hm
      cases hm

/-- What is popped is the head itself, or the first element. -/
theorem pop (h : Listed L H Q) (hh : H head) (hx : x ≠ head)
    (hL : popFromList L head = .ok (x, L')) :
    ∃ m, Q head = x :: m ∧ Listed L' H (Function.update Q head m) := by
  obtain ⟨hnext, L₁, hremove, rfl⟩ := popFromList_eq_ok.mp hL
  have hfirst := (h.rings.next_head hh).symm.trans hnext
  cases hQ : Q head with
  | nil =>
    rw [hQ] at hfirst
    exact absurd (Option.some.inj hfirst).symm hx
  | cons y m =>
    rw [hQ] at hfirst
    cases hfirst
    have hremoved := h.remove hh (show y ∈ Q head by simp [hQ]) hremove
    rw [hQ, List.erase_cons_head] at hremoved
    exact ⟨m, rfl, hremoved.rings, hremoved.heads, h.recorded.serve hQ⟩

end Listed

end Tern
