import Tern.Precision
import Tern.Lib.Chains

/-! Revocation and deletion on one derivation list, without assumptions on slots
off the list: they return, take a block out behind the revoked slot, and leave
everything else as it was. -/

namespace Tern

open Lib Cdt

theorem Cte.eq_of_fields {c d : Cte} (hcap : c.cap = d.cap) (hnext : c.next = d.next)
    (hprev : c.prev = d.prev) : c = d := by
  cases c
  cases d
  simp_all

/-- `t` is `s` after the slots of `q` were emptied and unlinked; `l` is what is
left of their list. -/
structure CutOut (s t : Slots) (q l : List Word) : Prop where
  cap : ∀ x, (t x).cap = if x ∈ q then newNullCap else (s x).cap
  list : t.links.IsList l
  unlinked : ∀ x ∈ q, t.links.Unlinked x
  outside : ∀ x, x ∉ q → x ∉ l → t x = s x

/-- Each slot of `q` is a child of `c` or of a slot before it in `q`. -/
def ChildrenOf (s : Slots) (c : Word) (q : List Word) : Prop :=
  ∀ a x b, q = a ++ x :: b → ∃ p ∈ c :: a, isChildOf (s x).cap (s p).cap = true

/-- A block in the middle of a list without duplicates is apart from the rest. -/
theorem not_mem_of_middle {a q b l : List Word} (h : (a ++ (q ++ b)).Nodup)
    (hl : ∀ x ∈ l, x ∈ a ∨ x ∈ b) : ∀ x ∈ q, x ∉ l := by
  obtain ⟨-, hqb, hfront⟩ := List.nodup_append.mp h
  obtain ⟨-, -, hback⟩ := List.nodup_append.mp hqb
  intro x hx hmem
  rcases hl x hmem with ha | hb
  · exact hfront x ha x (List.mem_append_left _ hx) rfl
  · exact hback x hx x hb rfl

namespace CutOut

variable {s t u : Slots} {q q' l m : List Word} {x : Word}

theorem cap_of_not_mem (h : CutOut s t q l) (hx : x ∉ q) : (t x).cap = (s x).cap := by
  rw [h.cap, if_neg hx]

theorem cap_of_mem (h : CutOut s t q l) (hx : x ∈ q) : (t x).cap = newNullCap := by
  rw [h.cap, if_pos hx]

theorem refl (h : s.links.IsList l) : CutOut s s [] l :=
  ⟨fun _ => by simp, h, nofun, fun _ _ _ => rfl⟩

theorem congr (h : CutOut s t q l) (hq : ∀ x, x ∈ q ↔ x ∈ q') : CutOut s t q' l where
  cap x := by simp only [h.cap, hq]
  list := h.list
  unlinked x hx := h.unlinked x ((hq x).mpr hx)
  outside x hx hl := h.outside x (fun hm => hx ((hq x).mp hm)) hl

/-- Slots that the second removal leaves alone keep what the first one left. -/
theorem trans (h : CutOut s t q l) (h' : CutOut t u q' m) (hl : ∀ x, x ∈ l ↔ x ∈ q' ∨ x ∈ m)
    (hq : ∀ x ∈ q, x ∉ l) : CutOut s u (q ++ q') m := by
  constructor
  · intro x
    rw [h'.cap, h.cap]
    by_cases hxq : x ∈ q <;> by_cases hxq' : x ∈ q' <;> simp [hxq, hxq']
  · exact h'.list
  · intro x hx
    by_cases hxq' : x ∈ q'
    · exact h'.unlinked x hxq'
    · have hxq : x ∈ q := (List.mem_append.mp hx).resolve_right hxq'
      have hxl := hq x hxq
      rw [hl, not_or] at hxl
      have hsame := h'.outside x hxl.1 hxl.2
      have hun := h.unlinked x hxq
      simp only [Links.Unlinked, Slots.links_next, Slots.links_prev] at hun ⊢
      rwa [hsame]
  · intro x hx hxm
    rw [List.mem_append, not_or] at hx
    have hxl : x ∉ l := by
      rw [hl, not_or]
      exact ⟨hx.2, hxm⟩
    rw [h'.outside x hx.2 hxm, h.outside x hx.1 hxl]

/-- The last two steps of `delete_cap`. -/
theorem remove (h : s.links.IsList (l ++ x :: m)) : CutOut s (Cdt.remove s x) [x] (l ++ m) := by
  constructor
  · intro y
    simp
  · rw [remove_links]
    exact h.unlink
  · intro y hy
    cases List.mem_singleton.mp hy
    rw [remove_links]
    exact Links.unlink_self _ _
  · intro y hy hlm
    have hyx : y ≠ x := by simpa using hy
    have hout : y ∉ l ++ x :: m := by
      simp only [List.mem_append, List.mem_cons, not_or] at hlm ⊢
      exact ⟨hlm.1, hyx, hlm.2⟩
    obtain ⟨hnext, hprev⟩ := h.unlink_outside hout
    rw [← remove_links] at hnext hprev
    exact Cte.eq_of_fields (by simp [hyx]) hnext hprev

end CutOut

/-! ## The loop -/

/-- A block taken out in three parts: a child of `c`, that slot's own block, and
the block taken out behind it. -/
theorem ChildrenOf.concat {s t : Slots} {c m : Word} {q q' : List Word}
    (hm : isChildOf (s m).cap (s c).cap = true) (hq : ChildrenOf s m q) (hq' : ChildrenOf t c q')
    (hcap : ∀ x ∈ c :: q', (t x).cap = (s x).cap) : ChildrenOf s c (m :: (q ++ q')) := by
  intro a x b hsplit
  cases a with
  | nil =>
    obtain ⟨rfl, -⟩ := List.cons.inj hsplit
    exact ⟨c, List.mem_cons_self, hm⟩
  | cons m' a =>
    obtain ⟨rfl, htail⟩ := List.cons.inj hsplit
    have hbehind : ∀ d, q' = d ++ x :: b →
        ∃ p ∈ c :: m :: (q ++ d), isChildOf (s x).cap (s p).cap = true := by
      intro d hd
      obtain ⟨p, hp, hchild⟩ := hq' d x b hd
      have hp' : p = c ∨ p ∈ d := List.mem_cons.mp hp
      have hpq : p ∈ c :: q' := by
        rw [hd]
        rcases hp' with rfl | hp'
        · exact List.mem_cons_self
        · exact List.mem_cons_of_mem _ (List.mem_append_left _ hp')
      rw [hcap x (by rw [hd]; simp), hcap p hpq] at hchild
      exact ⟨p, by simp; tauto, hchild⟩
    rcases List.append_eq_append_iff.mp htail with ⟨d, rfl, hd⟩ | ⟨d, hd, hb⟩
    · exact hbehind d hd
    · cases d with
      | nil =>
        obtain ⟨p, hp, hchild⟩ := hbehind [] hb.symm
        exact ⟨p, by simpa [hd] using hp, hchild⟩
      | cons y d =>
        obtain ⟨rfl, hb⟩ := List.cons.inj hb
        obtain ⟨p, hp, hchild⟩ := hq a x d hd
        exact ⟨p, List.mem_cons_of_mem _ hp, hchild⟩

/-- With `2 * n + 1` fuel the loop runs through `n` slots. -/
theorem revokeCap_cutOut (n : Nat) : ∀ s c k l, s.links.IsList (k ++ c :: l) → l.length ≤ n →
    ∃ t q r, l = q ++ r ∧ revokeCap (2 * n + 1) s c = some t ∧ CutOut s t q (k ++ c :: r) ∧
      StopsBefore s c r ∧ ChildrenOf s c q := by
  induction n with
  | zero =>
    intro s c k l hl hn
    obtain rfl : l = [] := List.length_eq_zero_iff.mp (by omega)
    have hnext : (s c).next = none := hl.next_eq
    exact ⟨s, [], [], rfl, by simp [revokeCap, hnext], .refl hl, nofun, by simp [ChildrenOf]⟩
  | succ n ih =>
    intro s c k l hl hn
    have hnext : (s c).next = l.head? := hl.next_eq
    rw [show 2 * (n + 1) + 1 = 2 * n + 1 + 1 + 1 by omega, revokeCap, hnext]
    cases l with
    | nil => exact ⟨s, [], [], rfl, rfl, .refl hl, nofun, by simp [ChildrenOf]⟩
    | cons m l =>
      by_cases hc : isChildOf (s m).cap (s c).cap = true
      · -- `m` and its own block go first
        have hlm : s.links.IsList ((k ++ [c]) ++ m :: l) := by simpa using hl
        obtain ⟨t, q, r, rfl, ht, hcut, -, hchildren⟩ := ih s m (k ++ [c]) l hlm (by simpa using hn)
        have hlen : r.length ≤ n := by
          simp only [List.length_cons, List.length_append] at hn
          omega
        have hnodup : ((k ++ [c]) ++ ((m :: q) ++ r)).Nodup := by simpa using hl.nodup
        have hapart : ∀ x ∈ q, x ∉ k ++ [c] ++ m :: r :=
          not_mem_of_middle (a := k ++ [c] ++ [m]) (by simpa using hl.nodup) (by simp; tauto)
        have hcut' : CutOut s (Cdt.remove t m) (m :: q) (k ++ [c] ++ r) :=
          (hcut.trans (.remove hcut.list) (by simp; tauto) hapart).congr (by simp; tauto)
        -- then the loop goes on with what is left
        obtain ⟨u, q', r', rfl, hu, hcutu, hstop, hchildren'⟩ := ih (Cdt.remove t m) c k r
          (by simpa using hcut'.list) hlen
        have hkeeps : ∀ x ∈ c :: (q' ++ r'), (Cdt.remove t m x).cap = (s x).cap := by
          intro x hx
          apply hcut'.cap_of_not_mem
          intro hxq
          refine not_mem_of_middle hnodup ?_ x hxq hx
          simp only [List.mem_append, List.mem_cons]
          tauto
        refine ⟨u, m :: (q ++ q'), r', by simp, ?_, ?_, ?_, ?_⟩
        · have hdelete : deleteCap (2 * n + 1 + 1) s m = some (Cdt.remove t m) := by
            rw [deleteCap, ht]; rfl
          simp only [List.head?_cons, isChildCap, hc, if_true, hdelete]
          exact revokeCap_mono (by omega) hu
        · refine (hcut'.trans hcutu (by simp; tauto) ?_).congr (by simp)
          exact not_mem_of_middle hnodup fun x hx => List.mem_append.mp hx
        · intro z hz
          have hzr : z ∈ c :: (q' ++ r') :=
            List.mem_cons_of_mem _ (List.mem_append_right _ (List.mem_of_mem_head? hz))
          have hchild := hstop z hz
          rwa [hkeeps z hzr, hkeeps c List.mem_cons_self] at hchild
        · refine .concat hc hchildren hchildren' fun x hx => hkeeps x ?_
          rcases List.mem_cons.mp hx with rfl | hx
          · exact List.mem_cons_self
          · exact List.mem_cons_of_mem _ (List.mem_append_left _ hx)
      · refine ⟨s, [], m :: l, rfl, by simp [isChildCap, hc], .refl hl, ?_, by simp [ChildrenOf]⟩
        intro z hz
        cases hz
        simpa using hc

/-- On a finite doubly linked list, revocation of `c` returns and cuts out a block
of children behind it, and the next slot is no child; deletion does the same and
cuts out `c` too. -/
theorem revoke_delete_exact {s : Slots} {k l : List Word} {c : Word}
    (h : s.links.IsList (k ++ c :: l)) : ∃ q r, l = q ++ r ∧ ChildrenOf s c q ∧
      (∃ t, Revokes s c t ∧ CutOut s t q (k ++ c :: r) ∧ isChildCap t (t c).next c = false) ∧
      ∃ t, Deletes s c t ∧ CutOut s t (c :: q) (k ++ r) := by
  obtain ⟨t, q, r, rfl, ht, hcut, -, hchildren⟩ := revokeCap_cutOut l.length s c k l h le_rfl
  have hrevokes : Revokes s c t := ⟨_, ht⟩
  refine ⟨q, r, rfl, hchildren, ⟨t, hrevokes, hcut, hrevokes.stopped⟩,
    Cdt.remove t c, hrevokes.deletes, ?_⟩
  apply (hcut.trans (.remove hcut.list) ?_ ?_).congr
  · simp only [List.mem_append, List.mem_cons, List.not_mem_nil, or_false]
    tauto
  · simp only [List.mem_append, List.mem_cons, List.not_mem_nil, or_false]
    tauto
  · apply not_mem_of_middle (a := k ++ [c]) (b := r) (by simpa using h.nodup)
    simp only [List.mem_append, List.mem_cons]
    tauto

/-- A notification made from a boot-time untyped, and its copy. -/
theorem sharedNotification_list :
    sharedNotification.links.IsList ([initSlot 6] ++ initSlot 100 :: [initSlot 101]) := by
  refine ⟨by decide +kernel, ?_, ?_, ?_⟩
  · refine .cons_cons ⟨?_, ?_⟩ (.cons_cons ⟨?_, ?_⟩ (.singleton _)) <;> decide +kernel
  · intro a ha
    cases ha
    decide +kernel
  · intro a ha
    cases ha
    decide +kernel

theorem revoke_delete_exact_shared : ∃ t, Revokes sharedNotification (initSlot 100) t ∧
    CutOut sharedNotification t [initSlot 101] [initSlot 6, initSlot 100] := by
  obtain ⟨q, r, hqr, -, ⟨t, ht, hcut, hstop⟩, -⟩ := revoke_delete_exact sharedNotification_list
  rcases List.singleton_eq_append_iff.mp hqr with ⟨rfl, rfl⟩ | ⟨rfl, rfl⟩
  · -- the copy is a child
    have hnext := hcut.list.next_eq (l := [initSlot 6])
    rw [Slots.links_next] at hnext
    rw [hnext] at hstop
    exact absurd hstop (by
      simp only [List.head?_cons, isChildCap, hcut.cap_of_not_mem List.not_mem_nil]
      decide +kernel)
  · exact ⟨t, ht, hcut⟩

end Tern
