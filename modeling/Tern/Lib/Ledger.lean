import Mathlib.Data.List.Nodup
import Mathlib.Logic.Function.Basic

/-! The order of arrival at queues. A ledger remembers in which order the
elements of each queue came, whether all that were served had waited longest,
and whether all were the only ones there when they were served. Queues that
elements enter and are served from at the front hold the newest first; they
serve in order exactly as long as each element is served alone. -/

namespace Tern.Lib

structure Ledger (κ α : Type*) where
  /-- The waiting elements, the one that came first in front. -/
  arrived : κ → List α
  /-- Every element that was served had waited longest. -/
  inOrder : κ → Prop
  /-- Every element that was served was the only one there. -/
  alone : κ → Prop

namespace Ledger

variable {κ α : Type*}

def new : Ledger κ α := ⟨fun _ => [], fun _ => True, fun _ => True⟩

/-- The queues hold their elements newest first, and have served in order as
long as each was served alone. -/
structure Stacked (Q : κ → List α) (l : Ledger κ α) : Prop where
  newestFirst : ∀ q, Q q = (l.arrived q).reverse
  nodup : ∀ q, (Q q).Nodup
  inOrder_iff : ∀ q, l.inOrder q ↔ l.alone q

variable {Q Q' : κ → List α} {l l' : Ledger κ α} {q : κ} {x : α} {m : List α}

theorem Stacked.new : Stacked (fun _ => []) (new : Ledger κ α) :=
  ⟨fun _ => rfl, fun _ => List.nodup_nil, fun _ => Iff.rfl⟩

theorem Stacked.mem_arrived (h : Stacked Q l) : x ∈ l.arrived q ↔ x ∈ Q q := by
  rw [h.newestFirst q, List.mem_reverse]

/-- The front element, which came last, came first only if it is alone. -/
theorem Stacked.first_iff (h : Stacked Q l) (hq : Q q = x :: m) :
    (l.arrived q).head? = some x ↔ l.arrived q = [x] := by
  have harrived : l.arrived q = m.reverse ++ [x] := by
    rw [← List.reverse_reverse (l.arrived q), ← h.newestFirst q, hq, List.reverse_cons]
  have hnodup := h.nodup q
  rw [hq, List.nodup_cons] at hnodup
  rw [harrived]
  cases hm : m.reverse with
  | nil => simp
  | cons y m' =>
    have hy : y ∈ m := by
      rw [← List.mem_reverse, hm]
      exact List.mem_cons_self
    have hne : y ≠ x := fun e => hnodup.1 (e ▸ hy)
    simp [hne]

variable [DecidableEq κ]

def enter (l : Ledger κ α) (q : κ) (x : α) : Ledger κ α :=
  { l with arrived := Function.update l.arrived q (l.arrived q ++ [x]) }

theorem Stacked.enter (h : Stacked Q l) (hx : x ∉ Q q) :
    Stacked (Function.update Q q (x :: Q q)) (l.enter q x) where
  newestFirst p := by
    by_cases hp : p = q
    · subst hp
      simp [Ledger.enter, h.newestFirst p]
    · simp [Ledger.enter, hp, h.newestFirst p]
  nodup p := by
    by_cases hp : p = q
    · subst hp
      simpa using ⟨hx, h.nodup p⟩
    · simpa [hp] using h.nodup p
  inOrder_iff := h.inOrder_iff

variable [DecidableEq α]

def leave (l : Ledger κ α) (q : κ) (x : α) : Ledger κ α :=
  { l with arrived := Function.update l.arrived q ((l.arrived q).erase x) }

def serve (l : Ledger κ α) (q : κ) (x : α) : Ledger κ α :=
  { l.leave q x with
    inOrder := Function.update l.inOrder q (l.inOrder q ∧ (l.arrived q).head? = some x)
    alone := Function.update l.alone q (l.alone q ∧ l.arrived q = [x]) }

theorem Stacked.leave (h : Stacked Q l) (q : κ) (x : α) :
    Stacked (Function.update Q q ((Q q).erase x)) (l.leave q x) where
  newestFirst p := by
    by_cases hp : p = q
    · subst hp
      have hnodup : (l.arrived p).Nodup := by
        rw [← List.nodup_reverse, ← h.newestFirst p]
        exact h.nodup p
      simp only [Ledger.leave, Function.update_self, h.newestFirst p]
      rw [(List.nodup_reverse.mpr hnodup).erase_eq_filter, hnodup.erase_eq_filter,
        List.filter_reverse]
    · simp [Ledger.leave, hp, h.newestFirst p]
  nodup p := by
    by_cases hp : p = q
    · subst hp
      simpa using (h.nodup p).erase x
    · simpa [hp] using h.nodup p
  inOrder_iff := h.inOrder_iff

theorem Stacked.serve (h : Stacked Q l) (hq : Q q = x :: m) :
    Stacked (Function.update Q q m) (l.serve q x) := by
  have hleave := h.leave q x
  rw [hq, List.erase_cons_head] at hleave
  refine ⟨hleave.newestFirst, hleave.nodup, fun p => ?_⟩
  by_cases hp : p = q
  · subst hp
    simp only [Ledger.serve, Function.update_self, h.inOrder_iff p, h.first_iff hq]
  · simp only [Ledger.serve, Function.update_of_ne hp]
    exact h.inOrder_iff p

/-- The element leaves every queue. -/
def depart (l : Ledger κ α) (x : α) : Ledger κ α :=
  { l with arrived := fun q => (l.arrived q).erase x }

/-- An element that is in one queue at most departs. -/
theorem Stacked.depart (h : Stacked Q l) (hx : ∀ p, p ≠ q → x ∉ Q p) :
    Stacked (Function.update Q q ((Q q).erase x)) (l.depart x) := by
  have hleave := h.leave q x
  have harrived : (l.depart x).arrived = (l.leave q x).arrived := by
    funext p
    by_cases hp : p = q
    · subst hp
      simp [Ledger.depart, Ledger.leave]
    · have hnot : x ∉ l.arrived p := by
        exact fun hm => hx p hp (h.mem_arrived.mp hm)
      simp [Ledger.depart, Ledger.leave, hp, List.erase_of_not_mem hnot]
  exact ⟨harrived ▸ hleave.newestFirst, hleave.nodup, h.inOrder_iff⟩

/-- An element that is in no queue departs. -/
theorem Stacked.depart_absent (h : Stacked Q l) (hx : ∀ p, x ∉ Q p) : Stacked Q (l.depart x) := by
  have harrived : (l.depart x).arrived = l.arrived := by
    funext p
    exact List.erase_of_not_mem fun hm => hx p (h.mem_arrived.mp hm)
  exact ⟨harrived ▸ h.newestFirst, h.nodup, h.inOrder_iff⟩

end Ledger

end Tern.Lib
