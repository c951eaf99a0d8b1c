import Mathlib.Logic.Basic

/-! Loops whose test has effects of its own. `whileLoop` runs on fuel; `none`
means that the fuel ran out or that the body did not return. Three rules: what an
invariant gives when the loop ends, a variant that makes it end, and a condition
under which it never ends. -/

namespace Tern.Lib

variable {S : Type} {test : S → Bool × S} {body : S → Option S} {s s' : S} {fuel : Nat}

/-- `while (test) body`. -/
def whileLoop (test : S → Bool × S) (body : S → Option S) : Nat → S → Option S
  | 0, _ => none
  | fuel + 1, s =>
    match test s with
    | (false, s) => some s
    | (true, s) => (body s).bind (whileLoop test body fuel)

theorem whileLoop_of_false {s₁ : S} (h : test s = (false, s₁)) :
    whileLoop test body (fuel + 1) s = some s₁ := by
  simp [whileLoop, h]

theorem whileLoop_of_true {s₁ : S} (h : test s = (true, s₁)) :
    whileLoop test body (fuel + 1) s = (body s₁).bind (whileLoop test body fuel) := by
  simp [whileLoop, h]

/-- More fuel changes nothing once the loop has ended. -/
theorem whileLoop_mono {fuel' : Nat} (h : whileLoop test body fuel s = some s')
    (hle : fuel ≤ fuel') : whileLoop test body fuel' s = some s' := by
  induction fuel generalizing s fuel' with
  | zero => cases h
  | succ fuel ih =>
    obtain ⟨fuel', rfl⟩ := Nat.exists_eq_add_of_le' (Nat.zero_lt_of_lt hle)
    rcases htest : test s with ⟨b, s₁⟩
    cases b with
    | false =>
      rw [whileLoop_of_false htest] at h ⊢
      exact h
    | true =>
      rw [whileLoop_of_true htest] at h ⊢
      obtain ⟨s₂, hs₂, h⟩ := Option.bind_eq_some_iff.mp h
      rw [hs₂, Option.bind_some]
      exact ih h (Nat.le_of_succ_le_succ hle)

/-- What holds of the start and is kept by each round gives what holds when the
test fails. -/
theorem whileLoop_inv {I Q : S → Prop}
    (hbody : ∀ s s₁ s₂, I s → test s = (true, s₁) → body s₁ = some s₂ → I s₂)
    (hexit : ∀ s s₁, I s → test s = (false, s₁) → Q s₁)
    (hs : I s) (h : whileLoop test body fuel s = some s') : Q s' := by
  induction fuel generalizing s with
  | zero => cases h
  | succ fuel ih =>
    rcases htest : test s with ⟨b, s₁⟩
    cases b with
    | false =>
      rw [whileLoop_of_false htest] at h
      cases h
      exact hexit s s' hs htest
    | true =>
      rw [whileLoop_of_true htest] at h
      obtain ⟨s₂, hs₂, h⟩ := Option.bind_eq_some_iff.mp h
      exact ih (hbody s s₁ s₂ hs htest hs₂) h

/-- A loop ends if its body returns and makes a number smaller. -/
theorem whileLoop_returns {I : S → Prop} (variant : S → Nat)
    (hbody : ∀ s s₁, I s → test s = (true, s₁) →
      ∃ s₂, body s₁ = some s₂ ∧ I s₂ ∧ variant s₂ < variant s)
    (hs : I s) (hfuel : variant s < fuel) : ∃ s', whileLoop test body fuel s = some s' := by
  induction fuel generalizing s with
  | zero => exact absurd hfuel (Nat.not_lt_zero _)
  | succ fuel ih =>
    rcases htest : test s with ⟨b, s₁⟩
    cases b with
    | false => exact ⟨s₁, whileLoop_of_false htest⟩
    | true =>
      obtain ⟨s₂, hs₂, hI, hless⟩ := hbody s s₁ hs htest
      obtain ⟨s', hs'⟩ := ih hI (by omega)
      exact ⟨s', by rw [whileLoop_of_true htest, hs₂, Option.bind_some, hs']⟩

/-- A loop never ends if its test succeeds now and after every round. -/
theorem whileLoop_stuck {J : S → Prop}
    (hround : ∀ s, J s → ∃ s₁, test s = (true, s₁) ∧ ∀ s₂, body s₁ = some s₂ → J s₂)
    (hs : J s) : whileLoop test body fuel s = none := by
  induction fuel generalizing s with
  | zero => rfl
  | succ fuel ih =>
    obtain ⟨s₁, htest, hnext⟩ := hround s hs
    rw [whileLoop_of_true htest]
    cases hbody : body s₁ with
    | none => rfl
    | some s₂ => exact ih (hnext s₂ hbody)

end Tern.Lib
