import Mathlib.Logic.Relation

/-! Labelled transition systems. `ReachedBy ok` are the states of the runs
whose every step meets the condition `ok` on the state before it and on its
label; `ReachedBy.invariant` is the induction that carries an invariant along
such a run. -/

namespace Tern.Lib

/-- A start predicate and a labelled step relation. -/
structure Transition (State Label : Type*) where
  start : State → Prop
  step : State → Label → State → Prop

namespace Transition

variable {S L : Type*} (T : Transition S L)

/-- States of the runs whose steps all meet `ok`. -/
inductive ReachedBy (ok : S → L → Prop) : S → Prop
  | start {s : S} : T.start s → ReachedBy ok s
  | step {s t : S} {l : L} : ReachedBy ok s → ok s l → T.step s l t → ReachedBy ok t

/-- States of all runs. -/
def Reached : S → Prop := T.ReachedBy fun _ _ => True

/-- The same steps from another start. -/
def startingAt (s : S) : Transition S L := { T with start := fun t => t = s }

variable {T} {ok ok' : S → L → Prop}

theorem ReachedBy.invariant {I : S → Prop} (hstart : ∀ s, T.start s → I s)
    (hstep : ∀ s l t, I s → ok s l → T.step s l t → I t) {s : S}
    (h : T.ReachedBy ok s) : I s := by
  induction h with
  | start h => exact hstart _ h
  | step _ hok hs ih => exact hstep _ _ _ ih hok hs

theorem ReachedBy.mono (hok : ∀ s l, ok s l → ok' s l) {s : S}
    (h : T.ReachedBy ok s) : T.ReachedBy ok' s := by
  induction h with
  | start h => exact .start h
  | step _ hl hs ih => exact .step ih (hok _ _ hl) hs

theorem ReachedBy.reached {s : S} (h : T.ReachedBy ok s) : T.Reached s :=
  h.mono fun _ _ _ => trivial

end Transition

end Tern.Lib
