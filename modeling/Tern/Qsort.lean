import Mathlib.Algebra.Order.Ring.Nat
import Mathlib.Data.Vector.Basic
import Tern.Basic
import Tern.Lib.Partition
import Tern.Lib.While

/-! The sorting function of the library. Its two scans run without a bound: in the first
round the pivot itself stops them, later the elements of the last swap do. -/

namespace Tern

open Lib

/-- The memory, and the addresses of the elements that were compared or swapped. -/
structure SortState where
  memory : Word → BitVec 8
  touched : List Word

abbrev Element (size : Word) := Vector (BitVec 8) size.toNat

/-- The bytes of the element at an address. -/
def element (memory : Word → BitVec 8) (size p : Word) : Element size :=
  Vector.ofFn fun i => memory (p + BitVec.ofNat 64 i)

def swapByte (left right : Word) (memory : Word → BitVec 8) (i : Nat) : Word → BitVec 8 :=
  let tmp := memory (left + BitVec.ofNat 64 i)
  let memory :=
    Function.update memory (left + BitVec.ofNat 64 i) (memory (right + BitVec.ofNat 64 i))
  Function.update memory (right + BitVec.ofNat 64 i) tmp

/-- The loop that swaps two elements. -/
def swapBytes (memory : Word → BitVec 8) (size left right : Word) : Word → BitVec 8 :=
  (List.range size.toNat).foldl (swapByte left right) memory

namespace Qsort

/-- The local variables of `qsort`. -/
structure Locals where
  left : Word
  right : Word
  pivot : Word
  state : SortState

section

variable {size : Word} (compare : Element size → Element size → Int)

/-- `compare (p, q)`. -/
def compareAt (p q : Word) (s : SortState) : Int × SortState :=
  (compare (element s.memory size p) (element s.memory size q),
    { s with touched := p :: q :: s.touched })

def scanLeft (fuel : Nat) (a : Locals) : Option Locals :=
  whileLoop
    (fun a =>
      let (order, state) := compareAt compare a.left a.pivot a.state
      (order < 0, { a with state }))
    (fun a => some { a with left := a.left + size }) fuel a

def scanRight (fuel : Nat) (a : Locals) : Option Locals :=
  whileLoop
    (fun a =>
      let (order, state) := compareAt compare a.right a.pivot a.state
      (order > 0, { a with state }))
    (fun a => some { a with right := a.right - size }) fuel a

def swapElements (size : Word) (a : Locals) : Locals where
  left := a.left + size
  right := a.right - size
  pivot := if a.left = a.pivot then a.right else if a.right = a.pivot then a.left else a.pivot
  state :=
    { memory := swapBytes a.state.memory size a.left a.right
      touched := a.left :: a.right :: a.state.touched }

/-- The body of the outer loop. -/
def partitionRound (fuel : Nat) (a : Locals) : Option Locals := do
  let a ← scanLeft compare fuel a
  let a ← scanRight compare fuel a
  some (if a.left ≤ a.right then swapElements size a else a)

def partition (fuel : Nat) (a : Locals) : Option Locals :=
  whileLoop (fun a => (a.left ≤ a.right, a)) (partitionRound compare fuel) fuel a

end

end Qsort

open Qsort

def qsort {size : Word} (compare : Element size → Element size → Int) :
    Nat → Word → Word → SortState → Option SortState
  | 0, _, _, _ => none
  | fuel + 1, base, num, s =>
    if num < 2#64 then some s
    else do
      let baseEnd := base + num * size
      let a ← partition compare fuel
        { left := base, right := baseEnd - size, pivot := base + num / 2#64 * size, state := s }
      let s ← qsort compare fuel base ((a.right - base) / size + 1#64) a.state
      qsort compare fuel a.left ((baseEnd - a.left) / size) s

/-! ## Arrays -/

namespace Qsort

/-- The address of the element with this number. -/
def slot (base size : Word) (k : Nat) : Word := base + BitVec.ofNat 64 (k * size.toNat)

def elements (memory : Word → BitVec 8) (size base : Word) (n : Nat) : List (Element size) :=
  (List.range n).map fun k => element memory size (slot base size k)

/-- An array with its elements in memory, and with an address for its end. -/
structure Fits (base size : Word) (n : Nat) : Prop where
  size_pos : 0 < size.toNat
  lt : base.toNat + n * size.toNat < 2 ^ 64

section

variable {memory memory' : Word → BitVec 8} {base size q : Word} {n i j k l r : Nat}

theorem mul_size_le (size : Word) (h : k ≤ n) : k * size.toNat ≤ n * size.toNat :=
  Nat.mul_le_mul_right _ h

theorem slot_toNat (h : Fits base size n) (hk : k ≤ n) :
    (slot base size k).toNat = base.toNat + k * size.toNat := by
  have hle := mul_size_le size hk
  have hlt := h.lt
  rw [slot, BitVec.toNat_add, BitVec.toNat_ofNat]
  omega

theorem slot_le_iff (h : Fits base size n) (hj : j ≤ n) (hk : k ≤ n) :
    slot base size j ≤ slot base size k ↔ j ≤ k := by
  rw [BitVec.le_def, slot_toNat h hj, slot_toNat h hk, Nat.add_le_add_iff_left]
  exact Nat.mul_le_mul_right_iff h.size_pos

theorem slot_inj (h : Fits base size n) (hj : j ≤ n) (hk : k ≤ n) :
    slot base size j = slot base size k ↔ j = k := by
  refine ⟨fun heq => ?_, fun heq => by rw [heq]⟩
  exact Nat.le_antisymm ((slot_le_iff h hj hk).mp (BitVec.le_of_eq heq))
    ((slot_le_iff h hk hj).mp (BitVec.le_of_eq heq.symm))

theorem slot_succ (base size : Word) (k : Nat) : slot base size (k + 1) = slot base size k + size := by
  rw [slot, slot, Nat.succ_mul, BitVec.ofNat_add, BitVec.ofNat_toNat, BitVec.setWidth_eq,
    BitVec.add_assoc]

theorem slot_pred (base size : Word) (hk : 0 < k) : slot base size k - size = slot base size (k - 1) := by
  obtain ⟨k, rfl⟩ := Nat.exists_eq_add_of_le' hk
  rw [slot_succ, BitVec.add_sub_cancel, Nat.add_sub_cancel]

theorem slot_zero (base size : Word) : slot base size 0 = base := by
  rw [slot, Nat.zero_mul, BitVec.add_zero]

theorem slot_slot (base size : Word) (j k : Nat) :
    slot (slot base size j) size k = slot base size (j + k) := by
  rw [slot, slot, slot, Nat.add_mul, BitVec.ofNat_add, BitVec.add_assoc]

theorem slot_eq_add_mul (base size : Word) (num : Word) :
    base + num * size = slot base size num.toNat := by
  rw [slot, BitVec.ofNat_mul, BitVec.ofNat_toNat, BitVec.ofNat_toNat, BitVec.setWidth_eq,
    BitVec.setWidth_eq]

/-- The number of elements between two addresses. -/
theorem slot_sub_div (h : Fits base size n) (hjk : j ≤ k) (hk : k ≤ n) :
    ((slot base size k - slot base size j) / size).toNat = k - j := by
  have hle := mul_size_le size hjk
  have hj := slot_toNat h (hjk.trans hk)
  have hsub : (slot base size k - slot base size j).toNat = (k - j) * size.toNat := by
    rw [BitVec.toNat_sub_of_le (by rw [BitVec.le_def, hj, slot_toNat h hk]; omega), hj,
      slot_toNat h hk, Nat.sub_mul]
    omega
  rw [BitVec.toNat_udiv, hsub, Nat.mul_div_cancel _ h.size_pos]

/-- A part of an array. -/
theorem Fits.part (h : Fits base size n) (hjk : j + k ≤ n) : Fits (slot base size j) size k where
  size_pos := h.size_pos
  lt := by
    have hle := mul_size_le size hjk
    have hlt := h.lt
    rw [slot_toNat h (Nat.le_of_add_right_le hjk), Nat.add_assoc, ← Nat.add_mul]
    omega

theorem byte_toNat (h : Fits base size n) (hk : k < n) (hi : i < size.toNat) :
    (slot base size k + BitVec.ofNat 64 i).toNat = base.toNat + k * size.toNat + i := by
  have hle := mul_size_le size (Nat.succ_le_of_lt hk)
  have hlt := h.lt
  rw [Nat.succ_mul] at hle
  rw [BitVec.toNat_add, slot_toNat h hk.le, BitVec.toNat_ofNat]
  omega

theorem byte_inj {i' k' : Nat} (h : Fits base size n) (hk : k < n) (hk' : k' < n)
    (hi : i < size.toNat) (hi' : i' < size.toNat) :
    slot base size k + BitVec.ofNat 64 i = slot base size k' + BitVec.ofNat 64 i' ↔
      k = k' ∧ i = i' := by
  refine ⟨fun heq => ?_, fun ⟨hk, hi⟩ => by rw [hk, hi]⟩
  have hnat := congrArg BitVec.toNat heq
  rw [byte_toNat h hk hi, byte_toNat h hk' hi', Nat.add_assoc, Nat.add_assoc,
    Nat.add_right_inj] at hnat
  have hkk : k = k' := by
    have hdiv := congrArg (· / size.toNat) hnat
    simpa [Nat.mul_comm _ size.toNat, Nat.mul_add_div h.size_pos, Nat.div_eq_of_lt hi,
      Nat.div_eq_of_lt hi'] using hdiv
  subst hkk
  exact ⟨rfl, Nat.add_left_cancel hnat⟩

/-- The address is outside of the array. -/
def Outside (base size : Word) (n : Nat) (q : Word) : Prop :=
  q.toNat < base.toNat ∨ base.toNat + n * size.toNat ≤ q.toNat

theorem Outside.ne_byte (hq : Outside base size n q) (h : Fits base size n) (hk : k < n)
    (hi : i < size.toNat) : q ≠ slot base size k + BitVec.ofNat 64 i := by
  rintro rfl
  have hle := mul_size_le size (Nat.succ_le_of_lt hk)
  rw [Nat.succ_mul] at hle
  rw [Outside, byte_toNat h hk hi] at hq
  omega

theorem swapByte_byte {m : Nat} (h : Fits base size n) (hl : l < n) (hr : r < n) (hj : j < n)
    (hm : m < size.toNat) (hi : i < size.toNat) (memory : Word → BitVec 8) :
    swapByte (slot base size l) (slot base size r) memory m (slot base size j + BitVec.ofNat 64 i) =
      if j = r ∧ i = m then memory (slot base size l + BitVec.ofNat 64 m)
      else if j = l ∧ i = m then memory (slot base size r + BitVec.ofNat 64 m)
      else memory (slot base size j + BitVec.ofNat 64 i) := by
  simp only [swapByte, Function.update_apply, byte_inj h hj hr hi hm, byte_inj h hj hl hi hm]

theorem Outside.part (hq : Outside base size n q) (h : Fits base size n) (hjk : j + k ≤ n) :
    Outside (slot base size j) size k q := by
  have hle := mul_size_le size hjk
  rw [Outside, slot_toNat h (Nat.le_of_add_right_le hjk), Nat.add_assoc, ← Nat.add_mul]
  rcases hq with hq | hq
  · exact Or.inl (by omega)
  · exact Or.inr (by omega)

/-- An address in one part is outside of a part next to it. -/
theorem outside_of_not {c d : Nat} (h : Fits base size n) (hi : i + c ≤ n) (hj : j + d ≤ n)
    (hapart : i + c ≤ j ∨ j + d ≤ i) (hq : ¬Outside (slot base size i) size c q) :
    Outside (slot base size j) size d q := by
  rw [Outside, slot_toNat h (Nat.le_of_add_right_le hi), Nat.add_assoc, ← Nat.add_mul] at hq
  rw [Outside, slot_toNat h (Nat.le_of_add_right_le hj), Nat.add_assoc, ← Nat.add_mul]
  rcases hapart with hapart | hapart
  · have hle := mul_size_le size hapart
    exact Or.inl (by omega)
  · have hle := mul_size_le size hapart
    exact Or.inr (by omega)

/-- The first `m` bytes of two elements have changed places. -/
theorem foldl_swapByte (h : Fits base size n) (hl : l < n) (hr : r < n) {m : Nat}
    (hm : m ≤ size.toNat) (memory : Word → BitVec 8) :
    let memory' := (List.range m).foldl (swapByte (slot base size l) (slot base size r)) memory
    (∀ j < n, ∀ i < size.toNat, memory' (slot base size j + BitVec.ofNat 64 i) =
      memory (slot base size (if i < m then Equiv.swap l r j else j) + BitVec.ofNat 64 i)) ∧
    ∀ q, Outside base size n q → memory' q = memory q := by
  induction m with
  | zero => exact ⟨fun j _ i _ => by simp, fun q _ => rfl⟩
  | succ m ih =>
    have hm' : m < size.toNat := hm
    obtain ⟨hin, hout⟩ := ih hm'.le
    rw [List.range_succ, List.foldl_append, List.foldl_cons, List.foldl_nil]
    generalize (List.range m).foldl (swapByte (slot base size l) (slot base size r)) memory = mid
      at hin hout
    refine ⟨fun j hj i hi => ?_, fun q hq => ?_⟩
    · rw [swapByte_byte h hl hr hj hm' hi]
      by_cases hright : j = r ∧ i = m
      · obtain ⟨rfl, rfl⟩ := hright
        rw [if_pos ⟨rfl, rfl⟩, hin l hl i hm', if_neg (Nat.lt_irrefl i), if_pos (Nat.lt_succ_self i),
          Equiv.swap_apply_right]
      · rw [if_neg hright]
        by_cases hleft : j = l ∧ i = m
        · obtain ⟨rfl, rfl⟩ := hleft
          rw [if_pos ⟨rfl, rfl⟩, hin r hr i hm', if_neg (Nat.lt_irrefl i),
            if_pos (Nat.lt_succ_self i), Equiv.swap_apply_left]
        · rw [if_neg hleft, hin j hj i hi]
          -- only byte `m` of the two elements is new
          by_cases him : i = m
          · subst him
            rw [if_neg (Nat.lt_irrefl i), if_pos (Nat.lt_succ_self i),
              Equiv.swap_apply_of_ne_of_ne (fun h => hleft ⟨h, rfl⟩) fun h => hright ⟨h, rfl⟩]
          · rw [if_congr (show i < m ↔ i < m + 1 by omega) rfl rfl]
    · rw [swapByte, Function.update_of_ne (hq.ne_byte h hr hm'), Function.update_of_ne (hq.ne_byte h hl hm')]
      exact hout q hq

theorem element_swapBytes (h : Fits base size n) (hl : l < n) (hr : r < n) (hj : j < n) :
    element (swapBytes memory size (slot base size l) (slot base size r)) size (slot base size j) =
      element memory size (slot base size (Equiv.swap l r j)) := by
  apply Vector.ext
  intro i hi
  simp only [element, Vector.getElem_ofFn]
  rw [swapBytes, (foldl_swapByte h hl hr le_rfl memory).1 j hj i hi, if_pos hi]

theorem swapBytes_outside (h : Fits base size n) (hl : l < n) (hr : r < n)
    (hq : Outside base size n q) :
    swapBytes memory size (slot base size l) (slot base size r) q = memory q :=
  (foldl_swapByte h hl hr le_rfl memory).2 q hq

theorem elements_add (memory : Word → BitVec 8) (size base : Word) (j k : Nat) :
    elements memory size base (j + k) =
      elements memory size base j ++ elements memory size (slot base size j) k := by
  simp only [elements, List.range_add, List.map_append, List.map_map, Function.comp_def, slot_slot]

theorem mem_elements {e : Element size} : e ∈ elements memory size (slot base size j) n ↔
    ∃ k < n, element memory size (slot base size (j + k)) = e := by
  simp only [elements, List.mem_map, List.mem_range, slot_slot]

/-- An array that nothing was written to. -/
theorem elements_congr (h : Fits base size n)
    (hsame : ∀ q, ¬Outside base size n q → memory' q = memory q) :
    elements memory' size base n = elements memory size base n := by
  refine List.map_congr_left fun k hk => Vector.ext fun i hi => ?_
  simp only [element, Vector.getElem_ofFn]
  refine hsame _ fun hout => ?_
  exact hout.ne_byte h (List.mem_range.mp hk) hi rfl

end

/-! ## The scans -/

/-- What `compare` is to be: a total preorder, the same from both sides. -/
structure TotalPreorder {size : Word} (compare : Element size → Element size → Int) : Prop where
  swap : ∀ a b, 0 ≤ compare a b ↔ compare b a ≤ 0
  trans : ∀ a b c, compare a b ≤ 0 → compare b c ≤ 0 → compare a c ≤ 0

section

variable {base size : Word} {compare : Element size → Element size → Int} {n p l r k fuel : Nat}
  {x : Element size} {P : Word → Prop} {a : Locals}

/-- The value with this number in the array at `base`. -/
def value (base : Word) (a : Locals) (k : Nat) : Element size :=
  element a.state.memory size (slot base size k)

/-- The part of the locals that the scans leave alone. -/
structure Pivoted (base : Word) (n : Nat) (P : Word → Prop) (x : Element size) (p : Nat)
    (a : Locals) : Prop where
  pivot_eq : a.pivot = slot base size p
  pivot_lt : p < n
  value_eq : value base a p = x
  touched : ∀ q ∈ a.state.touched, P q

theorem Pivoted.compared (h : Pivoted base n P x p a) (hP : ∀ k < n, P (slot base size k))
    (hk : k < n) (left right : Word) :
    Pivoted base n P x p { a with left, right, state :=
      { a.state with touched := slot base size k :: a.pivot :: a.state.touched } } where
  pivot_eq := h.pivot_eq
  pivot_lt := h.pivot_lt
  value_eq := h.value_eq
  touched q hq := by
    rcases List.mem_cons.mp hq with rfl | hq
    · exact hP k hk
    · rcases List.mem_cons.mp hq with rfl | hq
      · rw [h.pivot_eq]
        exact hP p h.pivot_lt
      · exact h.touched q hq

/-- The left scan stops at the first value that is not below the pivot. -/
theorem scanLeft_spec (htotal : TotalPreorder compare) (hP : ∀ k < n, P (slot base size k))
    (ha : Pivoted base n P x p a) (hleft : a.left = slot base size l)
    (hparted : Parted (fun b c => compare b c ≤ 0) x (value base a) n l r)
    (hlk : l ≤ k) (hkn : k < n) (hk : compare x (value base a k) ≤ 0) (hfuel : k < l + fuel) :
    ∃ l' a', scanLeft compare fuel a = some a' ∧ l ≤ l' ∧ l' ≤ k ∧ Pivoted base n P x p a' ∧
      a'.left = slot base size l' ∧ a'.right = a.right ∧ a'.state.memory = a.state.memory ∧
      compare x (value base a l') ≤ 0 ∧
      Parted (fun b c => compare b c ≤ 0) x (value base a) n l' r := by
  induction fuel generalizing a l with
  | zero => omega
  | succ fuel ih =>
    have hln : l < n := hlk.trans_lt hkn
    have horder : compare (element a.state.memory size a.left)
        (element a.state.memory size a.pivot) = compare (value base a l) x := by
      rw [hleft, ha.pivot_eq, ← ha.value_eq]
      rfl
    have hnext := ha.compared hP hln a.left a.right
    rw [← hleft] at hnext
    by_cases hlow : compare (value base a l) x < 0
    · have hne : l ≠ k := by
        rintro rfl
        have := (htotal.swap (value base a l) x).mpr hk
        omega
      obtain ⟨l', a', hscan, hl', hk', ha', hrest⟩ := ih (a := { a with
          left := a.left + size, state :=
            { a.state with touched := a.left :: a.pivot :: a.state.touched } })
        ⟨hnext.pivot_eq, hnext.pivot_lt, hnext.value_eq, hnext.touched⟩ (l := l + 1)
        (by rw [slot_succ, ← hleft]) (hparted.left hlow.le) (by omega) hk (by omega)
      refine ⟨l', a', ?_, by omega, hk', ha', hrest⟩
      rw [scanLeft, whileLoop_of_true (by simp only [compareAt, horder, hlow, decide_true]; rfl)]
      exact hscan
    · refine ⟨l, _, ?_, le_rfl, hlk, hnext, hleft, rfl, rfl,
        (htotal.swap _ _).mp (Int.not_lt.mp hlow), hparted⟩
      rw [scanLeft, whileLoop_of_false (by simp only [compareAt, horder, hlow, decide_false]; rfl)]

/-- The right scan stops at the first value from behind that is not above the pivot. -/
theorem scanRight_spec (htotal : TotalPreorder compare) (hP : ∀ k < n, P (slot base size k))
    (ha : Pivoted base n P x p a) (hright : a.right = slot base size r)
    (hparted : Parted (fun b c => compare b c ≤ 0) x (value base a) n l r)
    (hkr : k ≤ r) (hrn : r < n) (hk : compare (value base a k) x ≤ 0) (hfuel : r < k + fuel) :
    ∃ r' a', scanRight compare fuel a = some a' ∧ k ≤ r' ∧ r' ≤ r ∧ Pivoted base n P x p a' ∧
      a'.right = slot base size r' ∧ a'.left = a.left ∧ a'.state.memory = a.state.memory ∧
      compare (value base a r') x ≤ 0 ∧
      Parted (fun b c => compare b c ≤ 0) x (value base a) n l r' := by
  induction fuel generalizing a r with
  | zero => omega
  | succ fuel ih =>
    have horder : compare (element a.state.memory size a.right)
        (element a.state.memory size a.pivot) = compare (value base a r) x := by
      rw [hright, ha.pivot_eq, ← ha.value_eq]
      rfl
    have hnext := ha.compared hP hrn a.left a.right
    rw [← hright] at hnext
    by_cases hhigh : compare (value base a r) x > 0
    · have hne : k ≠ r := by
        rintro rfl
        exact absurd hk (Int.not_le.mpr hhigh)
      obtain ⟨r, rfl⟩ := Nat.exists_eq_add_of_le' (show 1 ≤ r by omega)
      obtain ⟨r', a', hscan, hk', hr', ha', hrest⟩ := ih (a := { a with
          right := a.right - size, state :=
            { a.state with touched := a.right :: a.pivot :: a.state.touched } })
        ⟨hnext.pivot_eq, hnext.pivot_lt, hnext.value_eq, hnext.touched⟩ (r := r)
        (by rw [hright, slot_pred base size (Nat.succ_pos r)]; rfl)
        (hparted.right ((htotal.swap _ _).mp hhigh.le)) (by omega) (by omega) hk (by omega)
      refine ⟨r', a', ?_, hk', by omega, ha', hrest⟩
      rw [scanRight, whileLoop_of_true (by simp only [compareAt, horder, hhigh, decide_true]; rfl)]
      exact hscan
    · refine ⟨r, _, ?_, hkr, le_rfl, hnext, hright, rfl, rfl, Int.not_lt.mp hhigh, hparted⟩
      rw [scanRight, whileLoop_of_false (by simp only [compareAt, horder, hhigh, decide_false]; rfl)]

/-! ## The partition -/

/-- Between the rounds: where the locals are, and what was done to the array since `s`. -/
structure Partitioning (compare : Element size → Element size → Int) (base : Word) (n : Nat)
    (P : Word → Prop) (x : Element size) (s : SortState) (a : Locals) (l r : Nat) : Prop where
  pivoted : ∃ p, Pivoted base n P x p a ∧ (l = 0 → l ≤ p ∧ p ≤ r ∧ 0 < p)
  left_eq : a.left = slot base size l
  right_eq : a.right = slot base size r
  left_le : l ≤ n
  right_lt : r < n
  parted : Parted (fun b c => compare b c ≤ 0) x (value base a) n l r
  /-- After a swap the elements that were swapped stop the scans. -/
  swapped : l = 0 ∨ r + 1 < n
  perm : (elements a.state.memory size base n).Perm (elements s.memory size base n)
  frame : ∀ q, Outside base size n q → a.state.memory q = s.memory q

theorem value_congr {a' : Locals} (h : a'.state.memory = a.state.memory) :
    (value base a' : Nat → Element size) = value base a := by
  funext k
  rw [value, h, value]

theorem TotalPreorder.refl (htotal : TotalPreorder compare) (x : Element size) :
    compare x x ≤ 0 := by
  have hswap := htotal.swap x x
  omega

/-- Both scans have something to stop at: the pivot in the first round, then the elements
of the last swap. -/
theorem Partitioning.stops {s : SortState} (htotal : TotalPreorder compare)
    (h : Partitioning compare base n P x s a l r) (hlr : l ≤ r) :
    ∃ i j, (l ≤ i ∧ i < n ∧ compare x (value base a i) ≤ 0) ∧
      (j ≤ r ∧ compare (value base a j) x ≤ 0) ∧ (l = 0 → i ≤ j ∧ 0 < j) := by
  obtain ⟨p, hp, hfirst⟩ := h.pivoted
  rcases Nat.eq_zero_or_pos l with hl | hl
  · obtain ⟨hlp, hpr, hpos⟩ := hfirst hl
    have hrefl := htotal.refl x
    exact ⟨p, p, ⟨hlp, hp.pivot_lt, by rw [hp.value_eq]; exact hrefl⟩,
      ⟨hpr, by rw [hp.value_eq]; exact hrefl⟩, fun _ => ⟨le_rfl, hpos⟩⟩
  · have hr := h.swapped.resolve_left hl.ne'
    exact ⟨r + 1, l - 1, ⟨by omega, hr, h.parted.high _ (Nat.lt_succ_self r) hr⟩,
      ⟨by omega, h.parted.low _ (by omega)⟩, fun hzero => absurd hzero hl.ne'⟩

theorem Pivoted.swapElements (hfit : Fits base size n) (hP : ∀ k < n, P (slot base size k))
    (ha : Pivoted base n P x p a) (hleft : a.left = slot base size l)
    (hright : a.right = slot base size r) (hl : l < n) (hr : r < n) :
    Pivoted base n P x (Equiv.swap l r p) (swapElements size a) := by
  have hpivot : Equiv.swap l r p < n := by
    have hp := ha.pivot_lt
    rw [Equiv.swap_apply_def]
    split_ifs <;> assumption
  refine ⟨?_, hpivot, ?_, ?_⟩
  · simp only [Qsort.swapElements, hleft, hright, ha.pivot_eq, slot_inj hfit hl.le ha.pivot_lt.le,
      slot_inj hfit hr.le ha.pivot_lt.le, Equiv.swap_apply_def, eq_comm (a := p)]
    split_ifs <;> rfl
  · rw [value, Qsort.swapElements, hleft, hright, element_swapBytes hfit hl hr hpivot,
      Equiv.swap_apply_self]
    exact ha.value_eq
  · intro q hq
    simp only [Qsort.swapElements, List.mem_cons] at hq
    rcases hq with rfl | rfl | hq
    · exact hleft ▸ hP l hl
    · exact hright ▸ hP r hr
    · exact ha.touched q hq

/-- A round with something left between the scans comes closer to their meeting. -/
theorem partitionRound_spec {s : SortState} (htotal : TotalPreorder compare)
    (hfit : Fits base size n) (hP : ∀ k < n, P (slot base size k))
    (h : Partitioning compare base n P x s a l r) (hlr : l ≤ r) (hfuel : n < fuel) :
    ∃ l' r' a', partitionRound compare fuel a = some a' ∧
      Partitioning compare base n P x s a' l' r' ∧ 0 < l' ∧ r' + 1 + l < r + 1 + l' := by
  have hrn := h.right_lt
  obtain ⟨p, hp, hfirst⟩ := h.pivoted
  obtain ⟨i, j, ⟨hli, hin, hi⟩, ⟨hjr, hj⟩, hmeet⟩ := h.stops htotal hlr
  obtain ⟨l₁, a₁, hscan₁, hl₁, hl₁', hp₁, hleft₁, hright₁, hmem₁, hhigh, hparted₁⟩ :=
    scanLeft_spec htotal hP hp h.left_eq h.parted hli hin hi (show i < l + fuel by omega)
  rw [← value_congr hmem₁] at hj hparted₁ hhigh
  obtain ⟨r₁, a₂, hscan₂, hr₁, hr₁', hp₂, hright₂, hleft₂, hmem₂, hlow, hparted₂⟩ :=
    scanRight_spec htotal hP hp₁ (hright₁.trans h.right_eq) hparted₁ hjr hrn hj
      (show r < j + fuel by omega)
  rw [← value_congr hmem₂] at hparted₂ hhigh hlow
  rw [hleft₁] at hleft₂
  have hl₁n := hl₁'.trans_lt hin
  have hr₁n := hr₁'.trans_lt hrn
  have hmem := hmem₂.trans hmem₁
  have htest : a₂.left ≤ a₂.right ↔ l₁ ≤ r₁ := by
    rw [hleft₂, hright₂, slot_le_iff hfit hl₁n.le hr₁n.le]
  have hround : partitionRound compare fuel a =
      some (if a₂.left ≤ a₂.right then swapElements size a₂ else a₂) := by
    rw [partitionRound, hscan₁, Option.bind_eq_bind, Option.bind_some, hscan₂]
    rfl
  by_cases hcross : l₁ ≤ r₁
  · rw [if_pos (htest.mpr hcross)] at hround
    have hr₁pos : 0 < r₁ := by
      rcases Nat.eq_zero_or_pos l with hzero | hpos
      · have hj := (hmeet hzero).2
        omega
      · omega
    have hvalues : ∀ k < n, value base (swapElements size a₂) k =
        (value base a₂ ∘ Equiv.swap l₁ r₁) k := fun k hk => by
      rw [value, swapElements, hleft₂, hright₂]
      exact element_swapBytes hfit hl₁n hr₁n hk
    refine ⟨l₁ + 1, r₁ - 1, swapElements size a₂, hround, ⟨?_, ?_, ?_, hl₁n, by omega, ?_,
      Or.inr (by omega), ?_, ?_⟩, by omega, by omega⟩
    · exact ⟨_, hp₂.swapElements hfit hP hleft₂ hright₂ hl₁n hr₁n, fun hzero => by omega⟩
    · rw [swapElements, hleft₂, slot_succ]
    · rw [swapElements, hright₂, slot_pred base size hr₁pos]
    · exact (hparted₂.swap hcross hhigh hlow).congr hl₁n hvalues
    · have hswap : elements (swapElements size a₂).state.memory size base n =
          (List.range n).map (value base a₂ ∘ Equiv.swap l₁ r₁) :=
        List.map_congr_left fun k hk => hvalues k (List.mem_range.mp hk)
      have hsame : (List.range n).map (value base a₂) = elements a.state.memory size base n := by
        rw [value_congr hmem]
        rfl
      rw [hswap]
      exact (map_swap_perm _ hl₁n hr₁n).trans (hsame ▸ h.perm)
    · intro q hq
      rw [swapElements, hleft₂, hright₂]
      exact (swapBytes_outside hfit hl₁n hr₁n hq).trans ((congrFun hmem q).trans (h.frame q hq))
  · rw [if_neg (htest.not.mpr hcross)] at hround
    have hpos : 0 < l := by
      rw [Nat.pos_iff_ne_zero]
      intro hzero
      have := hmeet hzero
      omega
    refine ⟨l₁, r₁, a₂, hround, ⟨⟨p, hp₂, fun hzero => by omega⟩, hleft₂, hright₂, hl₁n.le, hr₁n,
      hparted₂, Or.inr ?_, ?_, ?_⟩, by omega, by omega⟩
    · have hswapped := h.swapped.resolve_left hpos.ne'
      omega
    · rw [hmem]
      exact h.perm
    · rw [hmem]
      exact h.frame

/-- The loop ends with the scans past each other: each round brings them closer. -/
theorem partition_spec {s : SortState} {rounds : Nat} (htotal : TotalPreorder compare)
    (hfit : Fits base size n) (hP : ∀ k < n, P (slot base size k))
    (h : Partitioning compare base n P x s a l r) (hl : 0 < l ∨ l ≤ r) (hfuel : n < fuel)
    (hrounds : r + 1 - l < rounds) :
    ∃ l' r' a', whileLoop (fun a => (a.left ≤ a.right, a)) (partitionRound compare fuel) rounds a =
        some a' ∧ Partitioning compare base n P x s a' l' r' ∧ 0 < l' ∧ r' < l' := by
  induction rounds generalizing a l r with
  | zero => exact absurd hrounds (Nat.not_lt_zero _)
  | succ rounds ih =>
    have htest : a.left ≤ a.right ↔ l ≤ r := by
      rw [h.left_eq, h.right_eq, slot_le_iff hfit h.left_le h.right_lt.le]
    by_cases hlr : l ≤ r
    · obtain ⟨l₁, r₁, a₁, hround, h₁, hpos, hless⟩ := partitionRound_spec htotal hfit hP h hlr hfuel
      rw [whileLoop_of_true (by rw [decide_eq_true (htest.mpr hlr)]), hround, Option.bind_some]
      exact ih h₁ (Or.inl hpos) (by omega)
    · refine ⟨l, r, a, ?_, h, hl.resolve_right hlr, Nat.not_le.mp hlr⟩
      rw [whileLoop_of_false (by rw [decide_eq_false (htest.not.mpr hlr)])]

/-- What `qsort` starts the partition with. -/
theorem Partitioning.start {s : SortState} {num : Word} (hnum : 2 ≤ num.toNat)
    (hs : ∀ q ∈ s.touched, P q) :
    ∃ x, Partitioning compare base num.toNat P x s
      { left := base, right := base + num * size - size, pivot := base + num / 2#64 * size,
        state := s } 0 (num.toNat - 1) := by
  have hhalf : (num / 2#64).toNat = num.toNat / 2 := BitVec.toNat_udiv
  refine ⟨element s.memory size (slot base size (num.toNat / 2)),
    ⟨num.toNat / 2, ⟨?_, by omega, rfl, hs⟩, fun _ => by omega⟩, (slot_zero base size).symm, ?_,
    Nat.zero_le _, by omega, Parted.start .., Or.inl rfl, List.Perm.refl _, fun _ _ => rfl⟩
  · exact (slot_eq_add_mul base size (num / 2#64)).trans (by rw [hhalf])
  · rw [slot_eq_add_mul, slot_pred base size (by omega)]

/-- What sorting does to an array: its elements in order, nothing else, and no look at
anything else. -/
structure Sorted (compare : Element size → Element size → Int) (base : Word) (n : Nat)
    (P : Word → Prop) (s s' : SortState) : Prop where
  perm : (elements s'.memory size base n).Perm (elements s.memory size base n)
  pairwise : (elements s'.memory size base n).Pairwise fun b c => compare b c ≤ 0
  frame : ∀ q, Outside base size n q → s'.memory q = s.memory q
  touched : ∀ q ∈ s'.touched, P q

/-- The two parts sorted on their own. -/
theorem Sorted.join {s s₁ s₂ : SortState} {l r : Nat} (htotal : TotalPreorder compare)
    (hfit : Fits base size n) (h : Partitioning compare base n P x s a l r) (hlr : r < l)
    (hlow : Sorted compare base (r + 1) P a.state s₁)
    (hhigh : Sorted compare (slot base size l) (n - l) P s₁ s₂) : Sorted compare base n P s s₂ := by
  obtain ⟨m, hm⟩ := Nat.exists_eq_add_of_le (Nat.succ_le_of_lt hlr)
  obtain ⟨t, ht⟩ := Nat.exists_eq_add_of_le h.left_le
  have hnl : n - l = t := by omega
  rw [hnl] at hhigh
  rw [← slot_zero base size] at hlow
  have hlown : 0 + (r + 1) ≤ n := by omega
  have hmidn : r + 1 + m ≤ n := by omega
  have hsplit : ∀ memory, elements memory size base n =
      elements memory size (slot base size 0) (r + 1) ++
        elements memory size (slot base size (r + 1)) m ++
        elements memory size (slot base size l) t := fun memory => by
    rw [slot_zero, ht, elements_add, hm, elements_add]
  -- what the calls leave alone
  have hlow₂ : elements s₂.memory size (slot base size 0) (r + 1) =
      elements s₁.memory size (slot base size 0) (r + 1) :=
    elements_congr (hfit.part hlown) fun q hq =>
      hhigh.frame q (outside_of_not hfit hlown ht.ge (Or.inl (by omega)) hq)
  have hmid₂ : elements s₂.memory size (slot base size (r + 1)) m =
      elements a.state.memory size (slot base size (r + 1)) m :=
    elements_congr (hfit.part hmidn) fun q hq =>
      (hhigh.frame q (outside_of_not hfit hmidn ht.ge (Or.inl hm.ge) hq)).trans
        (hlow.frame q (outside_of_not hfit hmidn hlown (Or.inr (by omega)) hq))
  have hhigh₁ : elements s₁.memory size (slot base size l) t =
      elements a.state.memory size (slot base size l) t :=
    elements_congr (hfit.part ht.ge) fun q hq =>
      hlow.frame q (outside_of_not hfit ht.ge hlown (Or.inr (by omega)) hq)
  have hperm := hhigh.perm
  rw [hhigh₁] at hperm
  refine ⟨?_, ?_, fun q hq => ?_, hhigh.touched⟩
  · refine List.Perm.trans ?_ h.perm
    rw [hsplit, hsplit, hlow₂, hmid₂]
    exact (hlow.perm.append_right _).append hperm
  · rw [hsplit, hlow₂, hmid₂]
    refine pairwise_of_parts (x := x) htotal.trans hlow.pairwise hhigh.pairwise (fun e he => ?_)
      (fun e he => ?_) (fun e he => ?_)
    · obtain ⟨k, hk, rfl⟩ := mem_elements.mp (hlow.perm.mem_iff.mp he)
      exact h.parted.low _ (by omega)
    · obtain ⟨k, hk, rfl⟩ := mem_elements.mp he
      exact ⟨h.parted.low _ (by omega), h.parted.high _ (by omega) (by omega)⟩
    · obtain ⟨k, hk, rfl⟩ := mem_elements.mp (hperm.mem_iff.mp he)
      exact h.parted.high _ (by omega) (by omega)
  · exact (hhigh.frame q (hq.part hfit ht.ge)).trans ((hlow.frame q (hq.part hfit hlown)).trans
      (h.frame q hq))

/-- Nothing to do. -/
theorem Sorted.short {s : SortState} (hn : n < 2) (hs : ∀ q ∈ s.touched, P q) :
    Sorted compare base n P s s where
  perm := List.Perm.refl _
  pairwise := by
    have hlen : (elements s.memory size base n).length = n := by simp [elements]
    match hlist : elements s.memory size base n with
    | [] => exact List.Pairwise.nil
    | [e] => exact List.pairwise_singleton _ e
    | _ :: _ :: rest =>
      rw [hlist] at hlen
      simp only [List.length_cons] at hlen
      omega
  frame _ _ := rfl
  touched := hs

/-- By induction on the fuel: both calls are for fewer elements. -/
theorem qsort_sorts (htotal : TotalPreorder compare) {num : Word} {s : SortState}
    (hfit : Fits base size num.toNat) (hP : ∀ k < num.toNat, P (slot base size k))
    (hs : ∀ q ∈ s.touched, P q) (hfuel : num.toNat + 1 < fuel) :
    ∃ s', qsort compare fuel base num s = some s' ∧ Sorted compare base num.toNat P s s' := by
  induction fuel generalizing base num s with
  | zero => exact absurd hfuel (Nat.not_lt_zero _)
  | succ fuel ih =>
    by_cases hnum : num < 2#64
    · exact ⟨s, by rw [qsort, if_pos hnum], .short hnum hs⟩
    · have htwo : 2 ≤ num.toNat := Nat.not_lt.mp hnum
      have hlt := num.isLt
      obtain ⟨x, hstart⟩ := @Partitioning.start base size compare P s num htwo hs
      obtain ⟨l, r, a, hpartition, ha, hpos, hrl⟩ :=
        partition_spec htotal hfit hP hstart (Or.inr (Nat.zero_le _)) (show num.toNat < fuel by omega)
          (show num.toNat - 1 + 1 - 0 < fuel by omega)
      have hln := ha.left_le
      have hrn := ha.swapped.resolve_left hpos.ne'
      have hlow : ((a.right - base) / size + 1#64).toNat = r + 1 := by
        have hdiv := slot_sub_div hfit (Nat.zero_le r) (by omega)
        rw [slot_zero, ← ha.right_eq] at hdiv
        rw [BitVec.toNat_add, hdiv, BitVec.toNat_ofNat]
        omega
      have hhigh : ((base + num * size - a.left) / size).toNat = num.toNat - l := by
        rw [slot_eq_add_mul, ha.left_eq]
        exact slot_sub_div hfit hln le_rfl
      have hfit₁ : Fits base size ((a.right - base) / size + 1#64).toNat := by
        rw [hlow]
        exact slot_zero base size ▸ hfit.part (by omega)
      have hfit₂ : Fits a.left size ((base + num * size - a.left) / size).toNat := by
        rw [hhigh, ha.left_eq]
        exact hfit.part (by omega)
      obtain ⟨s₁, hrun₁, hsorted₁⟩ := ih hfit₁ (fun k hk => hP k (by omega))
        ha.pivoted.choose_spec.1.touched (by omega)
      obtain ⟨s₂, hrun₂, hsorted₂⟩ := ih hfit₂
        (fun k hk => by rw [ha.left_eq, slot_slot]; exact hP _ (by omega)) hsorted₁.touched
        (by omega)
      rw [hlow] at hsorted₁
      rw [hhigh, ha.left_eq] at hsorted₂
      refine ⟨s₂, ?_, hsorted₁.join htotal hfit ha hrl hsorted₂⟩
      rw [qsort, if_neg hnum]
      dsimp only
      rw [partition, hpartition, Option.bind_eq_bind, Option.bind_some, hrun₁, Option.bind_eq_bind,
        Option.bind_some, hrun₂]

end

end Qsort

open Qsort

/-- `qsort` returns, with the elements of the array in order and no others, and has compared
and swapped elements of the array only. -/
theorem qsort_spec {size : Word} {compare : Element size → Element size → Int}
    (htotal : TotalPreorder compare) (memory : Word → BitVec 8) {base num : Word}
    (hfit : Fits base size num.toNat) :
    ∀ fuel, num.toNat + 1 < fuel → ∃ s, qsort compare fuel base num ⟨memory, []⟩ = some s ∧
      (elements s.memory size base num.toNat).Perm (elements memory size base num.toNat) ∧
      (elements s.memory size base num.toNat).IsChain (fun a b => compare a b ≤ 0) ∧
      (∀ p ∈ s.touched, ∃ k < num.toNat, p = slot base size k) ∧
      ∀ p, Outside base size num.toNat p → s.memory p = memory p := by
  intro fuel hfuel
  have hstart : ∀ p ∈ (⟨memory, []⟩ : SortState).touched, ∃ k < num.toNat, p = slot base size k :=
    fun p hp => absurd hp List.not_mem_nil
  obtain ⟨s, hrun, hsorted⟩ := qsort_sorts htotal hfit (fun k hk => ⟨k, hk, rfl⟩) hstart hfuel
  exact ⟨s, hrun, hsorted.perm, hsorted.pairwise.isChain, hsorted.touched, hsorted.frame⟩

/-- Bytes by their values. -/
def compareBytes (a b : Element 1#64) : Int := (a[0].toNat : Int) - b[0].toNat

/-- The bytes 3, 1 and 2 are sorted. -/
theorem qsort_spec_bytes : ∃ s, qsort compareBytes 5 16#64 3#64
      ⟨fun p => if p = 16#64 then 3 else if p = 17#64 then 1 else 2, []⟩ = some s ∧
    (elements s.memory 1#64 16#64 3).IsChain fun a b => compareBytes a b ≤ 0 := by
  have htotal : TotalPreorder compareBytes :=
    ⟨fun a b => by unfold compareBytes; omega, fun a b c => by unfold compareBytes; omega⟩
  have hfit : Fits 16#64 1#64 (3#64).toNat := ⟨by decide, by decide⟩
  obtain ⟨s, hrun, -, hchain, -⟩ := qsort_spec htotal
    (fun p => if p = 16#64 then 3 else if p = 17#64 then 1 else 2) hfit 5 (by decide)
  exact ⟨s, hrun, hchain⟩

end Tern
