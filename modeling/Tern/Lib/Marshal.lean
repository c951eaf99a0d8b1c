import Mathlib.Logic.Function.Basic

/-! Calls marshalled into two register files. A parameter is a scalar, which
passes through a register of words, or a handle, which means one thing to the
caller and another to the callee. Scalars and handles are numbered separately,
each from 0, in the order of the parameter list. -/

namespace Tern.Lib

/-- A type of scalars that survive the passage through a word. -/
structure Scalar (W : Type) where
  Val : Type
  toWord : Val → W
  ofWord : W → Val
  ofWord_toWord : ∀ v, ofWord (toWord v) = v

inductive Param (W : Type)
  | scalar (s : Scalar W)
  | handle

variable {W α β : Type}

/-- The arguments of a parameter list, where handles are of type `α`. -/
abbrev Args (α : Type) : List (Param W) → Type
  | [] => Unit
  | .scalar s :: ps => s.Val × Args α ps
  | .handle :: ps => α × Args α ps

namespace Args

def scalars : {ps : List (Param W)} → Args α ps → List W
  | [], _ => []
  | .scalar s :: _, (v, args) => s.toWord v :: scalars args
  | .handle :: _, (_, args) => scalars args

def handles : {ps : List (Param W)} → Args α ps → List α
  | [], _ => []
  | .scalar _ :: _, (_, args) => handles args
  | .handle :: _, (a, args) => a :: handles args

def map (f : α → β) : {ps : List (Param W)} → Args α ps → Args β ps
  | [], _ => ()
  | .scalar _ :: _, (v, args) => (v, map f args)
  | .handle :: _, (a, args) => (f a, map f args)

/-- Read arguments back: the scalars from `mr`, the handles from `cap`. -/
def read (mr : Nat → W) (cap : Nat → α) : (ps : List (Param W)) → Args α ps
  | [] => ()
  | .scalar s :: ps => (s.ofWord (mr 0), read (fun i => mr (i + 1)) cap ps)
  | .handle :: ps => (cap 0, read mr (fun i => cap (i + 1)) ps)

/-- What the caller wrote is what the callee reads, with the handles translated. -/
theorem read_eq_map {f : α → β} {ps : List (Param W)} {args : Args α ps} {mr : Nat → W}
    {cap : Nat → β} (hmr : ∀ i (h : i < args.scalars.length), mr i = args.scalars[i])
    (hcap : ∀ i (h : i < args.handles.length), cap i = f args.handles[i]) :
    read mr cap ps = args.map f := by
  induction ps generalizing mr cap with
  | nil => rfl
  | cons p ps ih =>
    cases p with
    | scalar s =>
      obtain ⟨v, args⟩ := args
      have hv : s.ofWord (mr 0) = v := by
        rw [hmr 0 (Nat.zero_lt_succ _)]
        exact s.ofWord_toWord v
      have htail := ih (fun i h => hmr (i + 1) (Nat.succ_lt_succ h)) hcap
      simp only [read, map, hv, htail]
    | handle =>
      obtain ⟨a, args⟩ := args
      have ha : cap 0 = f a := hcap 0 (Nat.zero_lt_succ _)
      have htail := ih hmr (fun i h => hcap (i + 1) (Nat.succ_lt_succ h))
      simp only [read, map, ha, htail]

end Args

/-! ## Register files -/

/-- Write `xs` into consecutive registers, from `base` on. -/
def store (file : Nat → W) (base : Nat) : List W → Nat → W
  | [] => file
  | x :: xs => store (Function.update file base x) (base + 1) xs

theorem store_of_lt {file : Nat → W} {base i : Nat} {xs : List W} (h : i < base) :
    store file base xs i = file i := by
  induction xs generalizing file base with
  | nil => rfl
  | cons x xs ih =>
    rw [store, ih (by omega), Function.update_of_ne (by omega)]

theorem store_add {file : Nat → W} {base i : Nat} {xs : List W} (h : i < xs.length) :
    store file base xs (base + i) = xs[i] := by
  induction xs generalizing file base i with
  | nil => exact absurd h (Nat.not_lt_zero i)
  | cons x xs ih =>
    cases i with
    | zero =>
      rw [Nat.add_zero, store, store_of_lt (Nat.lt_succ_self base), Function.update_self]
      rfl
    | succ i =>
      rw [store, show base + (i + 1) = base + 1 + i by omega]
      exact ih (Nat.lt_of_succ_lt_succ h)

end Tern.Lib
