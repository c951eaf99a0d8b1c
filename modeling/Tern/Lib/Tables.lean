import Mathlib.Data.List.Basic

/-! Multi-level tables. `leads t i u` says that entry `i` of table `t` leads to
table `u`; a walk follows entries down the levels. Where no table is led to by
two entries, the tables form a forest, and walks of equal length that end at
one table are the same. -/

namespace Tern.Lib.Tables

variable {T I : Type*} {leads leads' : T → I → T → Prop} {level : Nat → T → Prop}

inductive Walk (leads : T → I → T → Prop) : T → List I → T → Prop
  | nil (t : T) : Walk leads t [] t
  | cons {t u v : T} {i : I} {path : List I} (h : leads t i u) (hrest : Walk leads u path v) :
      Walk leads t (i :: path) v

/-- Entries lead from each level to the one below. -/
def Levelled (leads : T → I → T → Prop) (level : Nat → T → Prop) : Prop :=
  ∀ n t i u, level (n + 1) t → leads t i u → level n u

/-- No table is led to by two entries. -/
def Forest (leads : T → I → T → Prop) : Prop :=
  ∀ t i t' i' u, leads t i u → leads t' i' u → t = t' ∧ i = i'

/-- `leads` and one entry more. -/
def With (leads : T → I → T → Prop) (t₀ : T) (i₀ : I) (u₀ : T) (t : T) (i : I) (u : T) : Prop :=
  leads t i u ∨ (t = t₀ ∧ i = i₀ ∧ u = u₀)

/-- A walk goes down one level with each entry. -/
theorem Walk.end_level (hleads : Levelled leads level) {t u : T} {path : List I}
    (h : Walk leads t path u) : ∀ n, level (n + path.length) t → level n u := by
  induction h with
  | nil t => exact fun n ht => ht
  | @cons t u v i path h _ ih =>
    intro n ht
    have hu : level (n + path.length) u := hleads _ t i u ht h
    exact ih n hu

/-- In a forest the end of a walk and its length tell where it came from. -/
theorem Forest.walk_unique (hforest : Forest leads) {t t' u : T} {path path' : List I}
    (h : Walk leads t path u) (h' : Walk leads t' path' u) (hlen : path.length = path'.length) :
    t = t' ∧ path = path' := by
  induction h generalizing t' path' with
  | nil t =>
    cases h' with
    | nil => exact ⟨rfl, rfl⟩
    | cons => cases hlen
  | cons h _ ih =>
    cases h' with
    | nil => cases hlen
    | cons h' hrest' =>
      obtain ⟨rfl, rfl⟩ := ih hrest' (Nat.succ.inj hlen)
      obtain ⟨rfl, rfl⟩ := hforest _ _ _ _ _ h h'
      exact ⟨rfl, rfl⟩

/-- One entry more keeps the levels, if it leads from a level to the one below. -/
theorem Levelled.insert (hleads : Levelled leads level) {t₀ u₀ : T} {i₀ : I}
    (h : ∀ n, level (n + 1) t₀ → level n u₀) : Levelled (With leads t₀ i₀ u₀) level := by
  rintro n t i u ht (hu | ⟨rfl, -, rfl⟩)
  · exact hleads n t i u ht hu
  · exact h n ht

/-- One entry more keeps the forest, if nothing led to its table. -/
theorem Forest.insert (hforest : Forest leads) {t₀ u₀ : T} {i₀ : I}
    (hfresh : ∀ t i, ¬ leads t i u₀) : Forest (With leads t₀ i₀ u₀) := by
  rintro t i t' i' u (h | ⟨rfl, rfl, rfl⟩) (h' | ⟨rfl, rfl, hu⟩)
  · exact hforest t i t' i' u h h'
  · exact absurd (hu ▸ h) (hfresh t i)
  · exact absurd h' (hfresh t' i')
  · exact ⟨rfl, rfl⟩

end Tern.Lib.Tables
