import Mathlib.Data.List.Basic
import Mathlib.Data.List.Induction
import Mathlib.Order.Nat

/-! Trees given by their entries. `next t i` is what entry `i` of `t` leads to, if
anything; `descend` follows a path of entries from a root. A tree of depth `n`
reaches nothing by two paths of at most `n` entries. One entry more, to something
that was not reached, changes where a single path leads. -/

namespace Tern.Lib.Trees

variable {T I : Type*}

/-- Where the path leads from `t`. -/
def descend (next : T → I → Option T) : T → List I → Option T
  | t, [] => some t
  | t, i :: is => (next t i).bind fun u => descend next u is

/-- The entries that are missing on the path, the last ones. -/
def missing (next : T → I → Option T) : T → List I → Nat
  | _, [] => 0
  | t, i :: is =>
    match next t i with
    | none => is.length + 1
    | some u => missing next u is

/-- Reached by a path of at most `n` entries. -/
def Reaches (next : T → I → Option T) (root : T) (n : Nat) (t : T) : Prop :=
  ∃ is, is.length ≤ n ∧ descend next root is = some t

/-- Reached by one path only. -/
def Tree (next : T → I → Option T) (root : T) (n : Nat) : Prop :=
  ∀ t is js, is.length ≤ n → js.length ≤ n →
    descend next root is = some t → descend next root js = some t → is = js

section

variable {next next' : T → I → Option T} {root t u : T} {n m : Nat} {p is js : List I} {i : I}

@[simp] theorem descend_nil : descend next t [] = some t := rfl

theorem descend_cons : descend next t (i :: is) = (next t i).bind fun u => descend next u is := rfl

theorem descend_append :
    descend next t (is ++ js) = (descend next t is).bind fun u => descend next u js := by
  induction is generalizing t with
  | nil => rfl
  | cons i is ih =>
    rw [List.cons_append, descend_cons, descend_cons]
    cases next t i with
    | none => rfl
    | some u => exact ih

theorem descend_snoc : descend next t (is ++ [i]) = (descend next t is).bind fun u => next u i := by
  rw [descend_append]
  congr 1
  funext u
  cases h : next u i <;> simp [descend, h]

theorem descend_snoc_of (h : descend next t is = some u) : descend next t (is ++ [i]) = next u i := by
  rw [descend_snoc, h, Option.bind_some]

theorem Reaches.refl : Reaches next root n root := ⟨[], Nat.zero_le n, rfl⟩

theorem Reaches.mono (h : Reaches next root m t) (hle : m ≤ n) : Reaches next root n t := by
  obtain ⟨is, hlen, his⟩ := h
  exact ⟨is, hlen.trans hle, his⟩

/-- Only the entries that are passed matter. -/
theorem descend_congr (h : ∀ t i, Reaches next root n t → next' t i = next t i)
    (hlen : is.length ≤ n + 1) : descend next' root is = descend next root is := by
  induction is using List.reverseRecOn with
  | nil => rfl
  | append_singleton is i ih =>
    have hle : is.length ≤ n := by simpa using hlen
    rw [descend_snoc, descend_snoc, ih (by omega)]
    cases his : descend next root is with
    | none => rfl
    | some t => exact h t i ⟨is, hle, his⟩

theorem missing_of_leaf (h : ∀ i, next t i = none) : missing next t is = is.length := by
  cases is with
  | nil => rfl
  | cons i is => rw [missing, h, List.length_cons]

theorem missing_le (t : T) (is : List I) : missing next t is ≤ is.length := by
  induction is generalizing t with
  | nil => exact le_rfl
  | cons i is ih =>
    unfold missing
    cases next t i with
    | none => exact le_rfl
    | some u => exact (ih u).trans (Nat.le_succ _)

theorem missing_append (h : descend next t is = some u) :
    missing next t (is ++ js) = missing next u js := by
  induction is generalizing t with
  | nil =>
    obtain rfl := Option.some.inj h
    rfl
  | cons i is ih =>
    obtain ⟨v, hv, hrest⟩ := Option.bind_eq_some_iff.mp h
    rw [List.cons_append, missing, hv]
    exact ih hrest

/-! ## One entry more -/

/-- `next'` is `next` with an entry from the end of `p` to `u`, which was not
reached. What is not reached may have changed. -/
structure Inserts (next next' : T → I → Option T) (root : T) (n : Nat) (p : List I) (i : I)
    (u : T) : Prop where
  short : p.length < n
  absent : (descend next root p).bind (next · i) = none
  fresh : ¬ Reaches next root n u
  added : (descend next root p).bind (next' · i) = some u
  leaf : ∀ j, next' u j = none
  kept : ∀ t j, Reaches next root n t → ¬ (descend next root p = some t ∧ j = i) →
    next' t j = next t j

variable [DecidableEq I]

/-- The new entry makes one path longer. -/
theorem Inserts.descend_eq (h : Inserts next next' root n p i u) (htree : Tree next root n)
    (hlen : is.length ≤ n) :
    descend next' root is = if is = p ++ [i] then some u else descend next root is := by
  obtain ⟨t₀, hp, hadded⟩ := Option.bind_eq_some_iff.mp h.added
  have habsent := h.absent
  rw [hp, Option.bind_some] at habsent
  induction is using List.reverseRecOn with
  | nil => rw [if_neg (by simp), descend_nil, descend_nil]
  | append_singleton is j ih =>
    have hle : is.length < n := by simpa [Nat.succ_le_iff] using hlen
    rw [descend_snoc, descend_snoc, ih hle.le]
    by_cases hend : is = p ++ [i]
    · -- nothing lies behind the new entry, nor did before
      have hne : is ++ [j] ≠ p ++ [i] := by
        intro he
        have hlength := congrArg List.length he
        simp [hend] at hlength
      rw [if_pos hend, if_neg hne, hend, descend_snoc_of hp, habsent, Option.bind_some, h.leaf]
      rfl
    · rw [if_neg hend]
      cases his : descend next root is with
      | none =>
        have hne : is ++ [j] ≠ p ++ [i] := by
          intro he
          rw [(List.append_inj_left' he rfl), hp] at his
          cases his
        rw [if_neg hne]
        rfl
      | some t =>
        rw [Option.bind_some, Option.bind_some]
        by_cases hentry : t = t₀ ∧ j = i
        · obtain ⟨rfl, rfl⟩ := hentry
          rw [htree t is p hle.le h.short.le his hp, if_pos rfl, hadded]
        · have hne : is ++ [j] ≠ p ++ [i] := by
            intro he
            obtain ⟨rfl, hj⟩ := List.append_inj' he rfl
            rw [his] at hp
            exact hentry ⟨Option.some.inj hp, List.singleton_inj.mp hj⟩
          rw [if_neg hne]
          refine h.kept t j ⟨is, hle.le, his⟩ fun he => hentry ⟨?_, he.2⟩
          rw [hp] at he
          exact (Option.some.inj he.1).symm

theorem Inserts.tree (h : Inserts next next' root n p i u) (htree : Tree next root n) :
    Tree next' root n := by
  intro t is js his hjs ht ht'
  rw [h.descend_eq htree his] at ht
  rw [h.descend_eq htree hjs] at ht'
  split_ifs at ht ht' with hi hj hj
  · exact hi.trans hj.symm
  · obtain rfl := Option.some.inj ht
    exact absurd ⟨js, hjs, ht'⟩ h.fresh
  · obtain rfl := Option.some.inj ht'
    exact absurd ⟨is, his, ht⟩ h.fresh
  · exact htree t is js his hjs ht ht'

/-- Nothing but `u` is reached newly. -/
theorem Inserts.reaches (h : Inserts next next' root n p i u) (htree : Tree next root n)
    (ht : Reaches next' root n t) : t = u ∨ Reaches next root n t := by
  obtain ⟨is, hlen, his⟩ := ht
  rw [h.descend_eq htree hlen] at his
  split_ifs at his with he
  · exact .inl (Option.some.inj his).symm
  · exact .inr ⟨is, hlen, his⟩

end

end Tern.Lib.Trees
