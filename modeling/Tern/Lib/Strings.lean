import Mathlib.Data.BitVec
import Mathlib.Data.List.TakeWhile
import Tern.Lib.While

/-! Strings that end with a terminator, in a memory whose addresses wrap around. A loop
that goes on while the characters pass a test folds its step over the longest prefix of
such characters. -/

namespace Tern.Lib

variable {w : Nat} {β : Type} {memory : BitVec w → β} {nul : β} {p q : BitVec w}
  {s t : List β} {c : β}

/-- The string `s`, and the terminator behind it, are at address `p`. -/
def StringAt (memory : BitVec w → β) (nul : β) : BitVec w → List β → Prop
  | p, [] => memory p = nul
  | p, c :: s => memory p = c ∧ c ≠ nul ∧ StringAt memory nul (p + 1#w) s

namespace StringAt

instance decidable [DecidableEq β] : (p : BitVec w) → (s : List β) →
    Decidable (StringAt memory nul p s)
  | p, [] => inferInstanceAs (Decidable (memory p = nul))
  | p, c :: s =>
    haveI := decidable (p + 1#w) s
    inferInstanceAs (Decidable (memory p = c ∧ c ≠ nul ∧ StringAt memory nul (p + 1#w) s))

/-- The character at `p`; at the end of the string it is the terminator. -/
theorem head (h : StringAt memory nul p s) : memory p = s.head?.getD nul := by
  cases s with
  | nil => exact h
  | cons c s => exact h.1

theorem drop (h : StringAt memory nul p s) {i : Nat} (hi : i ≤ s.length) :
    StringAt memory nul (p + BitVec.ofNat w i) (s.drop i) := by
  induction i generalizing p s with
  | zero => simpa using h
  | succ i ih =>
    cases s with
    | nil => exact absurd hi (Nat.not_succ_le_zero i)
    | cons c s =>
      have hnext := ih h.2.2 (Nat.le_of_succ_le_succ hi)
      rw [List.drop_succ_cons, Nat.add_comm i 1, BitVec.ofNat_add, ← BitVec.add_assoc]
      exact hnext

theorem apply (h : StringAt memory nul p s) {i : Nat} (hi : i ≤ s.length) :
    memory (p + BitVec.ofNat w i) = s[i]?.getD nul := by
  rw [(h.drop hi).head, List.head?_drop]

theorem ne_nul (h : StringAt memory nul p s) (hc : c ∈ s) : c ≠ nul := by
  induction s generalizing p with
  | nil => cases hc
  | cons a s ih =>
    rcases List.mem_cons.mp hc with rfl | hc
    · exact h.2.1
    · exact ih h.2.2 hc

theorem unique (hs : StringAt memory nul p s) (ht : StringAt memory nul p t) : s = t := by
  induction s generalizing p t with
  | nil =>
    cases t with
    | nil => rfl
    | cons c t => exact absurd (ht.1.symm.trans hs) ht.2.1
  | cons a s ih =>
    cases t with
    | nil => exact absurd (hs.1.symm.trans ht) hs.2.1
    | cons c t => rw [← hs.1, ← ht.1, ih hs.2.2 ht.2.2]

/-- A string is shorter than the memory: it does not run into itself. -/
theorem length_lt (h : StringAt memory nul p s) : s.length < 2 ^ w := by
  by_contra hge
  have hmod : s.length % 2 ^ w < s.length :=
    (Nat.mod_lt _ (Nat.two_pow_pos w)).trans_le (Nat.not_lt.mp hge)
  have hplace : p + BitVec.ofNat w (s.length % 2 ^ w) = p + BitVec.ofNat w s.length := by
    congr 1
    apply BitVec.eq_of_toNat_eq
    simp only [BitVec.toNat_ofNat, Nat.mod_mod]
  have hchar := h.apply hmod.le
  rw [hplace, h.apply le_rfl, List.getElem?_eq_none le_rfl,
    List.getElem?_eq_getElem hmod] at hchar
  exact h.ne_nul (List.getElem_mem hmod) hchar.symm

/-- With a terminator anywhere in the memory there is a string at every address. -/
theorem exists_string (hq : memory q = nul) (p : BitVec w) : ∃ s, StringAt memory nul p s := by
  have hplace : p + BitVec.ofNat w (q - p).toNat = q := by
    rw [BitVec.ofNat_toNat, BitVec.setWidth_eq, BitVec.add_comm, BitVec.sub_add_cancel]
  rw [← hplace] at hq
  generalize (q - p).toNat = d at hq
  clear hplace
  induction d generalizing p with
  | zero => exact ⟨[], by simpa [StringAt] using hq⟩
  | succ d ih =>
    by_cases hp : memory p = nul
    · exact ⟨[], hp⟩
    · have hnext : p + BitVec.ofNat w (d + 1) = p + 1#w + BitVec.ofNat w d := by
        rw [Nat.add_comm, BitVec.ofNat_add, BitVec.add_assoc]
      obtain ⟨s, hs⟩ := ih (p + 1#w) (hnext ▸ hq)
      exact ⟨memory p :: s, rfl, hp, hs⟩

end StringAt

/-- A scan: one step for each character of the longest prefix that passes the test. -/
theorem whileLoop_string {S : Type} {pos : S → BitVec w} {next : S → β → S}
    {test : β → Bool} {fuel : Nat} {a : S} (hpos : ∀ a c, pos (next a c) = pos a + 1#w)
    (hnul : test nul = false) (h : StringAt memory nul (pos a) s) (hfuel : s.length < fuel) :
    whileLoop (fun a => (test (memory (pos a)), a)) (fun a => some (next a (memory (pos a))))
      fuel a = some ((s.takeWhile test).foldl next a) := by
  induction fuel generalizing s a with
  | zero => exact absurd hfuel (Nat.not_lt_zero _)
  | succ fuel ih =>
    cases s with
    | nil =>
      rw [whileLoop_of_false (by rw [h.head, List.head?_nil, Option.getD_none, hnul])]
      rfl
    | cons c s =>
      cases hc : test c with
      | false =>
        rw [whileLoop_of_false (by rw [h.1, hc]), List.takeWhile_cons_of_neg (by simp [hc])]
        rfl
      | true =>
        rw [whileLoop_of_true (by rw [h.1, hc]), List.takeWhile_cons_of_pos hc, Option.bind_some,
          h.1, List.foldl_cons]
        exact ih (by rw [hpos]; exact h.2.2) (Nat.lt_of_succ_lt_succ hfuel)

theorem foldl_next (l : List β) (p : BitVec w) :
    l.foldl (fun p _ => p + 1#w) p = p + BitVec.ofNat w l.length := by
  induction l generalizing p with
  | nil => exact (BitVec.add_zero p).symm
  | cons c l ih =>
    rw [List.foldl_cons, ih, List.length_cons, Nat.add_comm, BitVec.ofNat_add, BitVec.add_assoc]

end Tern.Lib
