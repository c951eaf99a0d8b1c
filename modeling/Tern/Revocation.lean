import Tern.Operations

/-! Revocation and deletion on a well-formed derivation list: they terminate,
they empty the longest run of slots behind the revoked one that the child test
lets through, and they take exactly these slots out of every list. -/

namespace Tern

open Lib Cdt

/-- `t` is `s` after the slots of `X` were emptied and taken off the list. -/
structure Removed (s t : Slots) (X : List Word) : Prop where
  cap : ∀ x, (t x).cap = if x ∈ X then newNullCap else (s x).cap
  follows : ∀ y l, y ∉ X → s.links.Follows y l → t.links.Follows y (l.filter (· ∉ X))

namespace Removed

variable {s t u : Slots} {X Y : List Word}

theorem refl (s : Slots) : Removed s s [] :=
  ⟨fun _ => by simp, fun y l _ h => by simpa using h⟩

theorem congr (h : Removed s t X) (hXY : ∀ x, x ∈ X ↔ x ∈ Y) : Removed s t Y := by
  refine ⟨fun x => by simp [h.cap, hXY], fun y l hy hl => ?_⟩
  have hf := h.follows y l (fun hm => hy ((hXY y).mp hm)) hl
  simpa only [hXY] using hf

theorem trans (h : Removed s t X) (h' : Removed t u Y) : Removed s u (X ++ Y) := by
  constructor
  · intro x
    rw [h'.cap, h.cap]
    by_cases hX : x ∈ X <;> by_cases hY : x ∈ Y <;> simp [hX, hY]
  · intro y l hy hl
    rw [List.mem_append, not_or] at hy
    have hf := h'.follows y _ hy.2 (h.follows y l hy.1 hl)
    rw [List.filter_filter] at hf
    convert hf using 2
    funext x
    simp only [List.mem_append, not_or, Bool.decide_and]
    exact Bool.and_comm _ _

theorem remove (hs : WellLinked s) (c : Word) : Removed s (Cdt.remove s c) [c] := by
  refine ⟨fun x => by simp, fun y l hy hl => ?_⟩
  have hf := Links.unlink_follows hs.wf (show y ≠ c by simpa using hy) hl
  rw [remove_links]
  convert hf using 2
  funext x
  simp

theorem cap_of_not_mem (h : Removed s t X) {x : Word} (hx : x ∉ X) : (t x).cap = (s x).cap := by
  rw [h.cap, if_neg hx]

theorem cap_of_mem (h : Removed s t X) {x : Word} (hx : x ∈ X) : (t x).cap = newNullCap := by
  rw [h.cap, if_pos hx]

end Removed

/-! ## Fuel -/

/-- More fuel does not change a result. -/
theorem revokeCap_deleteCap_succ (fuel : Nat) :
    (∀ s c t, revokeCap fuel s c = some t → revokeCap (fuel + 1) s c = some t) ∧
    ∀ s c t, deleteCap fuel s c = some t → deleteCap (fuel + 1) s c = some t := by
  induction fuel with
  | zero => exact ⟨fun _ _ _ h => by simp [revokeCap] at h, fun _ _ _ h => by simp [deleteCap] at h⟩
  | succ fuel ih =>
    constructor
    · intro s c t h
      rw [revokeCap] at h ⊢
      cases hn : (s c).next with
      | none => rw [hn] at h; exact h
      | some n =>
        rw [hn] at h
        by_cases hc : isChildCap s (some n) c = true
        · simp only [hc, if_true] at h ⊢
          cases hd : deleteCap fuel s n with
          | none => rw [hd] at h; cases h
          | some u =>
            rw [hd] at h
            rw [ih.2 _ _ _ hd]
            exact ih.1 _ _ _ h
        · simp only [hc] at h ⊢
          exact h
    · intro s c t h
      rw [deleteCap] at h ⊢
      cases hr : revokeCap fuel s c with
      | none => rw [hr] at h; cases h
      | some u => rw [hr] at h; rw [ih.1 _ _ _ hr]; exact h

theorem revokeCap_mono {fuel fuel' : Nat} (hle : fuel ≤ fuel') {s t : Slots} {c : Word}
    (h : revokeCap fuel s c = some t) : revokeCap fuel' s c = some t := by
  induction hle with
  | refl => exact h
  | step _ ih => exact (revokeCap_deleteCap_succ _).1 _ _ _ ih

theorem Cdt.Revokes.unique {s t u : Slots} {c : Word} (ht : Revokes s c t) (hu : Revokes s c u) :
    t = u := by
  obtain ⟨f, hf⟩ := ht
  obtain ⟨g, hg⟩ := hu
  have hf' := revokeCap_mono (Nat.le_max_left f g) hf
  have hg' := revokeCap_mono (Nat.le_max_right f g) hg
  exact Option.some.inj (hf'.symm.trans hg')

theorem Cdt.Deletes.revokes {s t : Slots} {c : Word} (h : Deletes s c t) :
    ∃ u, Revokes s c u ∧ t = remove u c := by
  obtain ⟨fuel, h⟩ := h
  cases fuel with
  | zero => simp [deleteCap] at h
  | succ fuel =>
    rw [deleteCap] at h
    cases hr : revokeCap fuel s c with
    | none => rw [hr] at h; cases h
    | some u =>
      rw [hr] at h
      exact ⟨u, ⟨fuel, hr⟩, (Option.some.inj h).symm⟩

theorem Cdt.Revokes.deletes {s u : Slots} {c : Word} (h : Revokes s c u) :
    Deletes s c (remove u c) := by
  obtain ⟨fuel, h⟩ := h
  exact ⟨fuel + 1, by rw [deleteCap, h]; rfl⟩

/-! ## What is removed -/

/-- The first slot of `r`, if any, is no child of `c`. -/
def StopsBefore (s : Slots) (c : Word) (r : List Word) : Prop :=
  ∀ z ∈ r.head?, isChildOf (s z).cap (s c).cap = false

/-- With `2 * n + 1` fuel the loop runs through `n` slots: each round spends one
on itself and one on the deletion. -/
theorem revokeCap_spec (n : Nat) : ∀ s c l, WellLinked s → s.links.Follows c l → l.length ≤ n →
    ∃ t q r, l = q ++ r ∧ revokeCap (2 * n + 1) s c = some t ∧ Removed s t q ∧
      StopsBefore s c r := by
  induction n with
  | zero =>
    intro s c l _ hl hn
    have hnil : l = [] := List.length_eq_zero_iff.mp (by omega)
    subst hnil
    have hnext : (s c).next = none := hl
    exact ⟨s, [], [], rfl, by simp [revokeCap, hnext], .refl s, fun _ h => by cases h⟩
  | succ n ih =>
    intro s c l hs hl hn
    cases l with
    | nil =>
      have hnext : (s c).next = none := hl
      exact ⟨s, [], [], rfl, by simp [revokeCap, hnext], .refl s, fun _ h => by cases h⟩
    | cons m l =>
      have hnext : (s c).next = some m := hl.1
      have hnodup := hl.nodup
      simp only [List.nodup_cons, List.mem_cons, not_or] at hnodup
      obtain ⟨⟨hcm, hcl⟩, hml, hlnodup⟩ := hnodup
      rw [show 2 * (n + 1) + 1 = 2 * n + 1 + 1 + 1 by omega, revokeCap, hnext]
      by_cases hc : isChildCap s (some m) c = true
      · -- `m` and the run of its own children go first
        obtain ⟨t, q, r, rfl, ht, hrem, -⟩ := ih s m l hs hl.2 (by simpa using hn)
        have hwt : WellLinked t := WellLinked.revoke_delete.1 s m t ⟨_, ht⟩ hs
        have hrem' : Removed s (remove t m) (q ++ [m]) := hrem.trans (.remove hwt m)
        have hcq : c ∉ q ++ [m] := by
          simp only [List.mem_append, List.mem_singleton, not_or] at hcl ⊢
          exact ⟨hcl.1, hcm⟩
        have hrest : (m :: (q ++ r)).filter (· ∉ q ++ [m]) = r := by
          have hr : ∀ x ∈ r, x ∉ q ++ [m] := by
            intro x hx hmem
            rcases List.mem_append.mp hmem with h | h
            · exact (List.nodup_append.mp hlnodup).2.2 x h x hx rfl
            · exact hml (by simp_all)
          rw [List.filter_cons_of_neg (by simp), List.filter_append,
            List.filter_eq_nil_iff.mpr (by simp +contextual), List.nil_append,
            List.filter_eq_self.mpr (by simpa using hr)]
        have hfollows := hrem'.follows c _ hcq hl
        rw [hrest] at hfollows
        have hlen : r.length ≤ n := by
          simp only [List.length_cons, List.length_append] at hn
          omega
        -- then the loop goes on with what is left
        obtain ⟨u, q', r', rfl, hu, hremu, hstop⟩ :=
          ih (remove t m) c r (hwt.remove m) hfollows hlen
        have hstop' : StopsBefore s c r' := by
          intro z hz
          have hzr : z ∈ q' ++ r' := List.mem_append_right _ (List.mem_of_mem_head? hz)
          have hzq : z ∉ q ++ [m] := by
            have := List.mem_filter.mp (hrest ▸ hzr : z ∈ (m :: (q ++ (q' ++ r'))).filter _)
            simpa using this.2
          have := hstop z hz
          rwa [hrem'.cap_of_not_mem hzq, hrem'.cap_of_not_mem hcq] at this
        refine ⟨u, m :: (q ++ q'), r', by simp, ?_, (hrem'.trans hremu).congr ?_, hstop'⟩
        · have hdelete : deleteCap (2 * n + 1 + 1) s m = some (remove t m) := by
            rw [deleteCap, ht]; rfl
          simp only [hc, if_true, hdelete]
          exact revokeCap_mono (by omega) hu
        · intro x
          simp only [List.mem_append, List.mem_cons]
          tauto
      · refine ⟨s, [], m :: l, rfl, by simp [hc], .refl s, ?_⟩
        intro z hz
        cases hz
        simpa [isChildCap] using hc

theorem revokes_total {s : Slots} (hs : WellLinked s) (c : Word) : ∃ t, Revokes s c t := by
  obtain ⟨l, hl⟩ := hs.wf.finite c
  obtain ⟨t, _, _, _, ht, _⟩ := revokeCap_spec l.length s c l hs hl le_rfl
  exact ⟨t, _, ht⟩

/-- `revoke_cap` empties a prefix of the slots behind `c` and stops before the
first that is no child. -/
theorem Cdt.Revokes.spec {s t : Slots} {c : Word} {l : List Word} (h : Revokes s c t)
    (hs : WellLinked s) (hl : s.links.Follows c l) :
    ∃ q r, l = q ++ r ∧ Removed s t q ∧ StopsBefore s c r := by
  obtain ⟨u, q, r, hqr, hu, hrem, hstop⟩ := revokeCap_spec l.length s c l hs hl le_rfl
  obtain rfl := h.unique ⟨_, hu⟩
  exact ⟨q, r, hqr, hrem, hstop⟩

theorem Cdt.Revokes.removed {s t : Slots} {c : Word} (h : Revokes s c t) (hs : WellLinked s) :
    ∃ X, Removed s t X := by
  obtain ⟨l, hl⟩ := hs.wf.finite c
  obtain ⟨q, _, _, hrem, _⟩ := h.spec hs hl
  exact ⟨q, hrem⟩

theorem Cdt.Deletes.removed {s t : Slots} {c : Word} (h : Deletes s c t) (hs : WellLinked s) :
    ∃ X, Removed s t X := by
  obtain ⟨u, hu, rfl⟩ := h.revokes
  obtain ⟨X, hX⟩ := hu.removed hs
  exact ⟨_, hX.trans (.remove (WellLinked.revoke_delete.1 s c u hu hs) c)⟩

/-- A run of children is removed as a whole. -/
theorem StopsBefore.mem_of_children {s : Slots} {c : Word} {p m q r : List Word}
    (hstop : StopsBefore s c r) (h : p ++ m = q ++ r)
    (hp : ∀ x ∈ p, isChildOf (s x).cap (s c).cap = true) {x : Word} (hx : x ∈ p) : x ∈ q := by
  rcases List.append_eq_append_iff.mp h with ⟨a, rfl, -⟩ | ⟨a, rfl, hr⟩
  · exact List.mem_append_left _ hx
  · cases a with
    | nil => simpa using hx
    | cons z a =>
      have hz := hstop z (by simp [hr])
      rw [hp z (by simp)] at hz
      cases hz

end Tern
