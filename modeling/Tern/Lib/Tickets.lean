import Mathlib.Algebra.Order.Ring.Nat
import Mathlib.Data.List.Basic
import Mathlib.Data.Fintype.Card
import Mathlib.Logic.Function.Basic

/-! Tickets of a fixed width, handed out by one counter and called by another.
`Tickets` relates the two counters to the queue of those who hold a ticket that
was not called past; as long as the queue is shorter than the counters are wide,
the ticket that is called belongs to its first member alone. -/

namespace Tern.Lib

variable {α : Type*} {w : Nat} {ticket : α → BitVec w} {front back : BitVec w} {a b : α}
  {l : List α}

/-- The members of the list hold consecutive tickets, from `front` to just
before `back`. -/
def Issued (ticket : α → BitVec w) (back : BitVec w) : BitVec w → List α → Prop
  | front, [] => front = back
  | front, a :: l => ticket a = front ∧ Issued ticket back (front + 1#w) l

/-- The queue of a ticket counter: nobody is in it twice. -/
structure Tickets (ticket : α → BitVec w) (front back : BitVec w) (l : List α) : Prop where
  issued : Issued ticket back front l
  nodup : l.Nodup

theorem Issued.congr {ticket' : α → BitVec w} (h : Issued ticket back front l)
    (hsame : ∀ a ∈ l, ticket' a = ticket a) : Issued ticket' back front l := by
  induction l generalizing front with
  | nil => exact h
  | cons a l ih =>
    obtain ⟨ha, hl⟩ := h
    exact ⟨(hsame a List.mem_cons_self).trans ha,
      ih hl fun b hb => hsame b (List.mem_cons_of_mem a hb)⟩

theorem Issued.append (h : Issued ticket back front l) (ha : ticket a = back) :
    Issued ticket (back + 1#w) front (l ++ [a]) := by
  induction l generalizing front with
  | nil =>
    cases h
    exact ⟨ha, rfl⟩
  | cons b l ih => exact ⟨h.1, ih h.2⟩

/-- The ticket of a member, by its place in the queue. -/
theorem Issued.getElem (h : Issued ticket back front l) {i : Nat} (hi : i < l.length) :
    ticket l[i] = front + BitVec.ofNat w i := by
  induction l generalizing front i with
  | nil => cases hi
  | cons a l ih =>
    cases i with
    | zero => simpa using h.1
    | succ i =>
      have hsucc := ih h.2 (i := i) (by simpa using hi)
      rw [List.getElem_cons_succ, hsucc, BitVec.add_assoc, BitVec.ofNat_add, BitVec.add_comm 1#w]

namespace Tickets

theorem nil (ticket : α → BitVec w) (x : BitVec w) : Tickets ticket x x [] :=
  ⟨rfl, List.nodup_nil⟩

/-- A newcomer gets the ticket of the back. -/
theorem take [DecidableEq α] (h : Tickets ticket front back l) (ha : a ∉ l) :
    Tickets (Function.update ticket a back) front (back + 1#w) (l ++ [a]) where
  issued := by
    refine (h.issued.congr fun b hb => ?_).append (Function.update_self ..)
    refine Function.update_of_ne ?_ _ _
    rintro rfl
    exact ha hb
  nodup := by
    refine List.Nodup.append h.nodup (List.nodup_singleton a) ?_
    intro b hb hab
    obtain rfl := List.mem_singleton.mp hab
    exact ha hb

/-- The first one leaves, and the next ticket is called. -/
theorem leave (h : Tickets ticket front back (a :: l)) : Tickets ticket (front + 1#w) back l :=
  ⟨h.issued.2, (List.nodup_cons.mp h.nodup).2⟩

/-- Whoever holds the ticket that is called is the first one. -/
theorem first (h : Tickets ticket front back l) (hw : l.length ≤ 2 ^ w) (ha : a ∈ l)
    (hcalled : ticket a = front) : ∃ r, l = a :: r := by
  obtain ⟨i, hi, rfl⟩ := List.getElem_of_mem ha
  rw [h.issued.getElem hi] at hcalled
  have hzero : BitVec.ofNat w i = 0#w := by simpa using hcalled
  have hi0 : i = 0 := by
    have hnat := congrArg BitVec.toNat hzero
    simpa [Nat.mod_eq_of_lt (lt_of_lt_of_le hi hw)] using hnat
  subst hi0
  cases l with
  | nil => cases hi
  | cons b r => exact ⟨r, rfl⟩

theorem length_le [Fintype α] (h : Tickets ticket front back l) : l.length ≤ Fintype.card α :=
  h.nodup.length_le_card

end Tickets

end Tern.Lib
