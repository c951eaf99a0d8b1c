import Mathlib.Data.Set.Basic
import Mathlib.Data.List.Pairwise

/-! Patches of a store. A patch sets a region; what it may disturb reaches further, and
there it leaves values that it does not choose. After a list of patches every region is as
it was set, provided that no later patch reaches into it; one that is reached into, and not
set again, is left with a value that nobody chose. -/

namespace Tern.Lib

variable {A B : Type*}

structure Patch (A B : Type*) where
  region : Set A
  reach : Set A
  value : A → B

/-- From `v` to `v'` the patch was applied; `fresh` are the values it may leave where it
reaches without setting anything. -/
structure Patch.Applied (p : Patch A B) (fresh : B → Prop) (v v' : A → B) : Prop where
  set : ∀ a ∈ p.region, v' a = p.value a
  fresh : ∀ a ∈ p.reach, a ∉ p.region → fresh (v' a)
  kept : ∀ a, a ∉ p.reach → v' a = v a

/-- The patches were applied one after the other. -/
inductive Patched (fresh : B → Prop) : List (Patch A B) → (A → B) → (A → B) → Prop
  | nil (v : A → B) : Patched fresh [] v v
  | cons {p : Patch A B} {ps : List (Patch A B)} {v v₁ v' : A → B} :
      p.Applied fresh v v₁ → Patched fresh ps v₁ v' → Patched fresh (p :: ps) v v'

namespace Patched

variable {fresh : B → Prop} {p q : Patch A B} {ps : List (Patch A B)} {v v' : A → B} {a : A}

/-- What no patch reaches is kept. -/
theorem kept (h : Patched fresh ps v v') (ha : ∀ q ∈ ps, a ∉ q.reach) : v' a = v a := by
  induction h with
  | nil => rfl
  | cons happlied _ ih =>
    rw [ih fun q hq => ha q (List.mem_cons_of_mem _ hq), happlied.kept a (ha _ List.mem_cons_self)]

/-- Regions that no later patch reaches into are as they were set. -/
theorem set (h : Patched fresh ps v v')
    (hapart : ps.Pairwise fun p q => ∀ a ∈ p.region, a ∉ q.reach) (hp : p ∈ ps)
    (ha : a ∈ p.region) : v' a = p.value a := by
  induction h with
  | nil => cases hp
  | cons happlied hrest ih =>
    obtain ⟨hfirst, hlater⟩ := List.pairwise_cons.mp hapart
    rcases List.mem_cons.mp hp with rfl | hp
    · rw [hrest.kept fun q hq => hfirst q hq a ha, happlied.set a ha]
    · exact ih hlater hp

/-- A value that nobody chose stays one until the place is set. -/
theorem fresh_of_fresh (h : Patched fresh ps v v') (hv : fresh (v a))
    (hset : ∀ q ∈ ps, a ∉ q.region) : fresh (v' a) := by
  induction h with
  | nil => exact hv
  | @cons p _ _ v₁ _ happlied _ ih =>
    refine ih ?_ fun q hq => hset q (List.mem_cons_of_mem _ hq)
    by_cases hreach : a ∈ p.reach
    · exact happlied.fresh a hreach (hset p List.mem_cons_self)
    · rwa [happlied.kept a hreach]

theorem fresh_of_mem (h : Patched fresh ps v v') (hq : q ∈ ps) (ha : a ∈ q.reach)
    (hset : ∀ r ∈ ps, a ∉ r.region) : fresh (v' a) := by
  induction h with
  | nil => cases hq
  | cons happlied hrest ih =>
    rcases List.mem_cons.mp hq with rfl | hq
    · exact hrest.fresh_of_fresh (happlied.fresh a ha (hset _ List.mem_cons_self))
        fun r hr => hset r (List.mem_cons_of_mem _ hr)
    · exact ih hq fun r hr => hset r (List.mem_cons_of_mem _ hr)

/-- A place that `p` sets and that the later `q` reaches is lost, if it is set once. -/
theorem spoiled (h : Patched fresh ps v v') (hpq : [p, q].Sublist ps)
    (hapart : ps.Pairwise fun p q => ∀ a ∈ p.region, a ∉ q.region) (ha : a ∈ p.region)
    (hq : a ∈ q.reach) : fresh (v' a) := by
  induction h with
  | nil => cases hpq
  | cons _ hrest ih =>
    obtain ⟨hfirst, hlater⟩ := List.pairwise_cons.mp hapart
    cases hpq with
    | cons _ hpq => exact ih hpq hlater
    | cons_cons _ hpq =>
      exact hrest.fresh_of_mem (List.singleton_sublist.mp hpq) hq fun r hr => hfirst r hr a ha

end Patched

end Tern.Lib
