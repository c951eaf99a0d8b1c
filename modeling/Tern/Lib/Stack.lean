import Mathlib.Data.BitVec
import Mathlib.Logic.Function.Basic

/-! A stack in a memory of 64-bit words, which grows down. `Holds l` says that the
words of `l` lie at the stack pointer and above it. Registers that were pushed in a
row are found there in the opposite order, and popping them in that order brings
them back. -/

namespace Tern.Lib

/-- The part of a processor that pushes and pops touch. -/
@[ext]
structure StackMachine (R : Type*) where
  regs : R → BitVec 64
  sp : BitVec 64
  memory : BitVec 64 → BitVec 64

namespace StackMachine

variable {R : Type*} {s s' : StackMachine R} {l l' : List (BitVec 64)}

/-- The words of `l` lie in memory from `a` on. -/
def Lies (memory : BitVec 64 → BitVec 64) : BitVec 64 → List (BitVec 64) → Prop
  | _, [] => True
  | a, v :: l => memory a = v ∧ Lies memory (a + 8#64) l

def Holds (s : StackMachine R) (l : List (BitVec 64)) : Prop := Lies s.memory s.sp l

def push (s : StackMachine R) (v : BitVec 64) : StackMachine R :=
  { s with sp := s.sp - 8#64, memory := Function.update s.memory (s.sp - 8#64) v }

def pop [DecidableEq R] (s : StackMachine R) (r : R) : StackMachine R :=
  { s with regs := Function.update s.regs r (s.memory s.sp), sp := s.sp + 8#64 }

def pushAll (s : StackMachine R) (l : List (BitVec 64)) : StackMachine R := l.foldl push s

def popAll [DecidableEq R] (s : StackMachine R) (rs : List R) : StackMachine R := rs.foldl pop s

@[simp] theorem push_regs (s : StackMachine R) (v : BitVec 64) : (s.push v).regs = s.regs := rfl

/-! ## Words in memory -/

theorem Lies.append {memory : BitVec 64 → BitVec 64} {a : BitVec 64} :
    Lies memory a (l ++ l') ↔
      Lies memory a l ∧ Lies memory (a + BitVec.ofNat 64 (8 * l.length)) l' := by
  induction l generalizing a with
  | nil => simp [Lies]
  | cons v l ih =>
    have haddr : a + 8#64 + BitVec.ofNat 64 (8 * l.length) =
        a + BitVec.ofNat 64 (8 * (v :: l).length) := by
      rw [List.length_cons, Nat.mul_succ, Nat.add_comm, BitVec.ofNat_add, BitVec.add_assoc]
    rw [List.cons_append, Lies, Lies, ih, haddr, and_assoc]

/-- What lies in memory depends on its own words only. -/
theorem Lies.congr {memory memory' : BitVec 64 → BitVec 64} {a : BitVec 64}
    (h : ∀ i < l.length, memory' (a + BitVec.ofNat 64 (8 * i)) = memory (a + BitVec.ofNat 64 (8 * i)))
    (hl : Lies memory a l) : Lies memory' a l := by
  induction l generalizing a with
  | nil => trivial
  | cons v l ih =>
    refine ⟨?_, ih (fun i hi => ?_) hl.2⟩
    · have hfirst := h 0 (Nat.zero_lt_succ _)
      simp only [Nat.mul_zero, BitVec.add_zero] at hfirst
      exact hfirst.trans hl.1
    · have haddr : a + 8#64 + BitVec.ofNat 64 (8 * i) = a + BitVec.ofNat 64 (8 * (i + 1)) := by
        rw [Nat.mul_succ, Nat.add_comm, BitVec.ofNat_add, BitVec.add_assoc]
      rw [haddr]
      exact h (i + 1) (Nat.succ_lt_succ hi)

/-- A word below the others is none of them. -/
theorem below_ne {a : BitVec 64} {i n : Nat} (hi : i < n) (hn : n < 2 ^ 60) :
    a + BitVec.ofNat 64 (8 * i) ≠ a - 8#64 := by
  intro h
  have hzero : BitVec.ofNat 64 (8 * i) = -8#64 := by
    rw [BitVec.sub_eq_add_neg] at h
    exact (BitVec.add_right_inj a).mp h
  have hnat := congrArg BitVec.toNat hzero
  rw [BitVec.toNat_ofNat, show (-8#64 : BitVec 64).toNat = 2 ^ 64 - 8 by decide] at hnat
  omega

/-! ## Pushing -/

theorem Holds.push (h : s.Holds l) (v : BitVec 64) (hl : l.length < 2 ^ 60) :
    (s.push v).Holds (v :: l) := by
  refine ⟨Function.update_self .., ?_⟩
  show Lies (s.push v).memory (s.sp - 8#64 + 8#64) l
  rw [BitVec.sub_add_cancel]
  refine Lies.congr (fun i hi => ?_) h
  exact Function.update_of_ne (below_ne hi hl) ..

theorem pushAll_append (s : StackMachine R) (l l' : List (BitVec 64)) :
    s.pushAll (l ++ l') = (s.pushAll l).pushAll l' :=
  List.foldl_append ..

theorem pushAll_regs (s : StackMachine R) (l : List (BitVec 64)) : (s.pushAll l).regs = s.regs := by
  induction l generalizing s with
  | nil => rfl
  | cons v l ih => exact ih (s.push v)

/-- Pushes do not look at the registers. -/
theorem pushAll_congr (s s' : StackMachine R) (hsp : s'.sp = s.sp) (hmemory : s'.memory = s.memory)
    (l : List (BitVec 64)) :
    (s'.pushAll l).sp = (s.pushAll l).sp ∧ (s'.pushAll l).memory = (s.pushAll l).memory := by
  induction l generalizing s s' with
  | nil => exact ⟨hsp, hmemory⟩
  | cons v l ih => exact ih _ _ (congrArg (· - 8#64) hsp) (by rw [push, push, hsp, hmemory])

/-- What was pushed last lies lowest. -/
theorem Holds.pushAll (h : s.Holds l) (l' : List (BitVec 64)) (hl : l.length + l'.length < 2 ^ 60) :
    (s.pushAll l').Holds (l'.reverse ++ l) := by
  induction l' generalizing s l with
  | nil => exact h
  | cons v l' ih =>
    rw [List.length_cons] at hl
    have hpush := h.push v (by omega)
    have hrest := ih hpush (by rw [List.length_cons]; omega)
    rw [List.reverse_cons, List.append_assoc]
    exact hrest

/-- Pushes leave everything alone but the words below the stack pointer. -/
theorem pushAll_memory {a : BitVec 64}
    (h : ∀ i < l.length, a ≠ s.sp - BitVec.ofNat 64 (8 * (i + 1))) :
    (s.pushAll l).memory a = s.memory a := by
  induction l generalizing s with
  | nil => rfl
  | cons v l ih =>
    have hfirst : a ≠ s.sp - 8#64 := h 0 (Nat.zero_lt_succ _)
    have hrest : ∀ i < l.length, a ≠ (s.push v).sp - BitVec.ofNat 64 (8 * (i + 1)) := by
      intro i hi
      have hnext := h (i + 1) (Nat.succ_lt_succ hi)
      rw [Nat.mul_succ (n := 8) (m := i + 1), Nat.add_comm, BitVec.ofNat_add] at hnext
      simpa only [push, BitVec.sub_eq_add_neg, BitVec.neg_add, BitVec.add_assoc] using hnext
    exact (ih hrest).trans (Function.update_of_ne hfirst ..)

/-! ## Popping -/

variable [DecidableEq R] {rs : List R}

theorem popAll_sp (s : StackMachine R) (rs : List R) :
    (s.popAll rs).sp = s.sp + BitVec.ofNat 64 (8 * rs.length) := by
  induction rs generalizing s with
  | nil => simp [popAll]
  | cons r rs ih =>
    have hstep : (s.popAll (r :: rs)).sp = ((s.pop r).popAll rs).sp := rfl
    rw [hstep, ih, pop, List.length_cons, Nat.mul_succ, Nat.add_comm, BitVec.ofNat_add,
      BitVec.add_assoc]

theorem popAll_memory (s : StackMachine R) (rs : List R) : (s.popAll rs).memory = s.memory := by
  induction rs generalizing s with
  | nil => rfl
  | cons r rs ih => exact ih (s.pop r)

theorem popAll_of_not_mem {r : R} (h : r ∉ rs) : (s.popAll rs).regs r = s.regs r := by
  induction rs generalizing s with
  | nil => rfl
  | cons q rs ih =>
    rw [List.mem_cons, not_or] at h
    exact (ih h.2).trans (Function.update_of_ne h.1 ..)

/-- Words that lie in memory are popped into the registers in their order. -/
theorem Holds.popAll {value : R → BitVec 64} (h : s.Holds (rs.map value ++ l)) (hrs : rs.Nodup) :
    (∀ r ∈ rs, (s.popAll rs).regs r = value r) ∧ (s.popAll rs).Holds l := by
  induction rs generalizing s with
  | nil => exact ⟨fun r hr => absurd hr List.not_mem_nil, h⟩
  | cons q rs ih =>
    obtain ⟨hq, hnodup⟩ := List.nodup_cons.mp hrs
    obtain ⟨hfirst, hrest⟩ := h
    have htail := ih (s := s.pop q) hrest hnodup
    refine ⟨fun r hr => ?_, htail.2⟩
    rcases List.mem_cons.mp hr with rfl | hr
    · show ((s.pop r).popAll rs).regs r = value r
      rw [popAll_of_not_mem hq]
      exact (Function.update_self ..).trans hfirst
    · exact htail.1 r hr

end StackMachine

end Tern.Lib
