import Mathlib.Data.Nat.Digits.Defs
import Tern.Basic
import Tern.Lib.Strings

/-! The number parser of the library against the grammar of its numbers. The parser goes
past the white space, the sign and a prefix before it has seen a digit, and does not come
back when there is none. -/

namespace Tern

open Lib

def isdigit (c : BitVec 8) : Bool := 0x30#8 ≤ c && c ≤ 0x39#8

def isspace (c : BitVec 8) : Bool :=
  c == 0x20#8 || c == 0x09#8 || c == 0x0A#8 || c == 0x0D#8 || c == 0x0C#8 || c == 0x0B#8

def isxdigit (c : BitVec 8) : Bool :=
  isdigit c || (0x61#8 ≤ c && c ≤ 0x66#8) || (0x41#8 ≤ c && c ≤ 0x46#8)

/-- The `digit` of the loop, in the largest base; `none` leaves the loop. A byte from 128
on is a negative `char`, and in no range either. -/
def charDigit (c : BitVec 8) : Option Nat :=
  if 0x30#8 ≤ c && c ≤ 0x39#8 then some (c.toNat - 0x30)
  else if 0x41#8 ≤ c && c ≤ 0x5A#8 then some (c.toNat - 0x41 + 10)
  else if 0x61#8 ≤ c && c ≤ 0x7A#8 then some (c.toNat - 0x61 + 10)
  else none

/-- The loop goes on at this character. -/
def isDigit (base : Nat) (c : BitVec 8) : Bool := (charDigit c).any (· < base)

def digitValue (c : BitVec 8) : Nat := (charDigit c).getD 0

section

variable (memory : Word → BitVec 8)

/-- `while (isspace (*nptr)) nptr++`. -/
def skipSpaces (fuel : Nat) (nptr : Word) : Option Word :=
  whileLoop (fun nptr => (isspace (memory nptr), nptr)) (fun nptr => some (nptr + 1#64)) fuel nptr

/-- `sign` and `nptr` behind it. -/
def detectSign (nptr : Word) : Word × Word :=
  if memory nptr == 0x2D#8 then (-1#64, nptr + 1#64)
  else if memory nptr == 0x2B#8 then (1#64, nptr + 1#64)
  else (1#64, nptr)

/-- `base` and `nptr` behind the prefix. -/
def detectBase (base : Nat) (nptr : Word) : Nat × Word :=
  if base = 0 then
    if memory nptr == 0x30#8 then
      if memory (nptr + 1#64) ||| 32#8 == 0x78#8 then (16, nptr + 2#64) else (8, nptr)
    else (10, nptr)
  else if base = 16 ∧ memory nptr == 0x30#8 ∧ memory (nptr + 1#64) ||| 32#8 == 0x78#8 then
    (16, nptr + 2#64)
  else (base, nptr)

/-- One round of the loop on `result` and `nptr`. -/
def addDigit (base : Nat) (a : Word × Word) (c : BitVec 8) : Word × Word :=
  (a.1 * BitVec.ofNat 64 base + BitVec.ofNat 64 (digitValue c), a.2 + 1#64)

def readDigits (base fuel : Nat) (a : Word × Word) : Option (Word × Word) :=
  whileLoop (fun a => (isDigit base (memory a.2), a)) (fun a => some (addDigit base a (memory a.2)))
    fuel a

/-- The value returned and `*endptr`. A `long` that overflows wraps. -/
def strtol (fuel : Nat) (nptr : Word) (base : Nat) : Option (Word × Word) := do
  let nptr ← skipSpaces memory fuel nptr
  let (sign, nptr) := detectSign memory nptr
  let (base, nptr) := detectBase memory base nptr
  let (result, nptr) ← readDigits memory base fuel (0#64, nptr)
  some (result * sign, nptr)

end

/-! ## The grammar -/

namespace Numeral

def spaces (s : List (BitVec 8)) : List (BitVec 8) := s.takeWhile isspace

/-- The text behind the white space. -/
def signed (s : List (BitVec 8)) : List (BitVec 8) := s.dropWhile isspace

def negative (s : List (BitVec 8)) : Bool := (signed s).head? == some 0x2D#8

def hasSign (s : List (BitVec 8)) : Bool := negative s || (signed s).head? == some 0x2B#8

/-- The text behind the white space and the sign. -/
def body (s : List (BitVec 8)) : List (BitVec 8) := if hasSign s then (signed s).tail else signed s

/-- Text that starts with `0x` or `0X`. -/
def startsHex : List (BitVec 8) → Bool
  | z :: x :: _ => z == 0x30#8 && (x == 0x78#8 || x == 0x58#8)
  | _ => false

/-- `0x` or `0X` in a base that has the prefix, with a digit behind it. -/
def hasPrefix (base : Nat) (body : List (BitVec 8)) : Bool :=
  (base == 0 || base == 16) && startsHex body && (body[2]?.any isxdigit)

/-- The same without a digit behind it. -/
def danglingPrefix (base : Nat) (body : List (BitVec 8)) : Bool :=
  (base == 0 || base == 16) && startsHex body && !(body[2]?.any isxdigit)

/-- The base of the digits. -/
def radix (base : Nat) (body : List (BitVec 8)) : Nat :=
  if base ≠ 0 then base
  else if hasPrefix base body then 16
  else if body.head? == some 0x30#8 then 8
  else 10

/-- The longest run of digits behind the prefix. -/
def digits (base : Nat) (body : List (BitVec 8)) : List (BitVec 8) :=
  (body.drop (if hasPrefix base body then 2 else 0)).takeWhile (isDigit (radix base body))

def value (base : Nat) (s : List (BitVec 8)) : Int :=
  (if negative s then -1 else 1) *
    (Nat.ofDigits (radix base (body s)) ((digits base (body s)).map digitValue).reverse : Nat)

/-- The number of characters up to the end of the digits. -/
def length (base : Nat) (s : List (BitVec 8)) : Nat :=
  (spaces s).length + (if hasSign s then 1 else 0) + (if hasPrefix base (body s) then 2 else 0) +
    (digits base (body s)).length

/-- What `strtol` is to return for the string `s` at `nptr`: a number that fits `long` and the
place behind it, or nothing read if there is no digit. -/
def Parses (base : Nat) (s : List (BitVec 8)) (nptr : Word) (r : Word × Word) : Prop :=
  if digits base (body s) = [] then r = (0#64, nptr)
  else -2 ^ 63 ≤ value base s ∧ value base s < 2 ^ 63 →
    r.1.toInt = value base s ∧ r.2 = nptr + BitVec.ofNat 64 (length base s)

/-- Some digit can be read, or there is nothing in front of where it is missing. -/
def DigitsFollow (base : Nat) (s : List (BitVec 8)) : Prop :=
  danglingPrefix base (body s) = false ∧
    ((body s).head?.any (isDigit (if base = 0 then 10 else base)) ∨ body s = s)

end Numeral

/-! ## What the parser does on a string -/

section

variable {memory : Word → BitVec 8} {fuel base : Nat} {nptr p : Word} {s t : List (BitVec 8)}

theorem charDigit_zero : charDigit 0#8 = none := rfl

theorem skipSpaces_eq (h : StringAt memory 0#8 p s) (hfuel : s.length < fuel) :
    skipSpaces memory fuel p = some (p + BitVec.ofNat 64 (Numeral.spaces s).length) := by
  have hpos : ∀ (p : Word) (c : BitVec 8), id ((fun p _ => p + 1#64) p c) = id p + 1#64 := fun _ _ => rfl
  have hscan := whileLoop_string hpos (show isspace 0#8 = false from rfl) h hfuel
  rw [foldl_next] at hscan
  exact hscan

theorem Numeral.spaces_length_le (s : List (BitVec 8)) :
    (Numeral.spaces s).length ≤ s.length :=
  (List.takeWhile_prefix isspace).length_le

theorem Numeral.drop_spaces (s : List (BitVec 8)) :
    s.drop (Numeral.spaces s).length = Numeral.signed s := by
  have hsplit : s = Numeral.spaces s ++ Numeral.signed s :=
    List.takeWhile_append_dropWhile.symm
  exact (congrArg (List.drop (Numeral.spaces s).length) hsplit).trans List.drop_left

theorem stringAt_signed (h : StringAt memory 0#8 p s) :
    StringAt memory 0#8 (p + BitVec.ofNat 64 (Numeral.spaces s).length) (Numeral.signed s) := by
  rw [← Numeral.drop_spaces]
  exact h.drop (Numeral.spaces_length_le s)

/-- A character other than the terminator is the head of the string. -/
theorem head_beq (h : StringAt memory 0#8 p t) {c : BitVec 8} (hc : c ≠ 0#8) :
    (memory p == c) = (t.head? == some c) := by
  rw [h.head]
  cases t with
  | nil => simpa using hc.symm
  | cons a t => simp

theorem detectSign_eq (h : StringAt memory 0#8 p (Numeral.signed s)) :
    detectSign memory p = (if Numeral.negative s then -1#64 else 1#64,
      p + BitVec.ofNat 64 (if Numeral.hasSign s then 1 else 0)) := by
  rw [detectSign, head_beq h (by decide), head_beq h (by decide)]
  by_cases hminus : (Numeral.signed s).head? = some 0x2D#8
  · simp [Numeral.hasSign, Numeral.negative, hminus]
  · by_cases hplus : (Numeral.signed s).head? = some 0x2B#8
    · simp [Numeral.hasSign, Numeral.negative, hplus]
    · simp [Numeral.hasSign, Numeral.negative, hminus, hplus]

/-- How far the body is behind the start. -/
def Numeral.skipped (s : List (BitVec 8)) : Nat :=
  (Numeral.spaces s).length + if Numeral.hasSign s then 1 else 0

theorem Numeral.drop_skipped (s : List (BitVec 8)) : s.drop (Numeral.skipped s) = Numeral.body s := by
  rw [Numeral.skipped, ← List.drop_drop, Numeral.drop_spaces, Numeral.body]
  split
  · exact List.drop_one
  · rfl

theorem Numeral.skipped_le_length (s : List (BitVec 8)) : Numeral.skipped s ≤ s.length := by
  have hsplit : (Numeral.signed s).length = s.length - (Numeral.spaces s).length := by
    rw [← Numeral.drop_spaces, List.length_drop]
  have hspaces := Numeral.spaces_length_le s
  rw [Numeral.skipped]
  cases hsign : Numeral.hasSign s with
  | false => simpa using hspaces
  | true =>
    have hpos : 0 < (Numeral.signed s).length := by
      rw [List.length_pos_iff]
      intro hnil
      simp [Numeral.hasSign, Numeral.negative, hnil] at hsign
    simp only [if_true]
    omega

theorem Numeral.skipped_eq_zero_iff : Numeral.skipped s = 0 ↔ Numeral.body s = s := by
  rw [← Numeral.drop_skipped]
  refine ⟨fun h => by rw [h, List.drop_zero], fun h => ?_⟩
  have hlen := congrArg List.length h
  have hle := Numeral.skipped_le_length s
  rw [List.length_drop] at hlen
  omega

theorem Numeral.length_body (s : List (BitVec 8)) :
    (Numeral.body s).length = s.length - Numeral.skipped s := by
  rw [← Numeral.drop_skipped, List.length_drop]

theorem stringAt_body (h : StringAt memory 0#8 p s) :
    StringAt memory 0#8 (p + BitVec.ofNat 64 (Numeral.skipped s)) (Numeral.body s) := by
  rw [← Numeral.drop_skipped]
  exact h.drop (Numeral.skipped_le_length s)

theorem Numeral.body_suffix (s : List (BitVec 8)) : Numeral.body s <:+ s := by
  rw [← Numeral.drop_skipped]
  exact List.drop_suffix _ s

theorem foldl_addDigit (base : Nat) (l : List (BitVec 8)) (n : Nat) (p : Word) :
    l.foldl (addDigit base) (BitVec.ofNat 64 n, p) =
      (BitVec.ofNat 64 ((l.map digitValue).foldl (fun n d => d + base * n) n),
        p + BitVec.ofNat 64 l.length) := by
  induction l generalizing n p with
  | nil => simp
  | cons c l ih =>
    have hstep : addDigit base (BitVec.ofNat 64 n, p) c =
        (BitVec.ofNat 64 (digitValue c + base * n), p + 1#64) := by
      rw [addDigit, ← BitVec.ofNat_mul, ← BitVec.ofNat_add, Nat.add_comm, Nat.mul_comm n]
    rw [List.foldl_cons, hstep, ih, List.map_cons, List.foldl_cons, List.length_cons,
      Nat.add_comm l.length, BitVec.ofNat_add, BitVec.add_assoc]

theorem readDigits_eq (h : StringAt memory 0#8 p t) (hfuel : t.length < fuel) :
    readDigits memory base fuel (0#64, p) =
      some (BitVec.ofNat 64
          (Nat.ofDigits base ((t.takeWhile (isDigit base)).map digitValue).reverse),
        p + BitVec.ofNat 64 (t.takeWhile (isDigit base)).length) := by
  have hpos : ∀ a c, (addDigit base a c).2 = a.2 + 1#64 := fun _ _ => rfl
  have hnul : isDigit base 0#8 = false := by simp [isDigit, charDigit_zero]
  have hstart : StringAt memory 0#8 (0#64, p).2 t := h
  have hscan := whileLoop_string hpos hnul hstart hfuel
  rw [readDigits, hscan, foldl_addDigit base _ 0, Nat.ofDigits_eq_foldr, List.foldr_reverse]
  rfl

theorem strtol_eq (h : StringAt memory 0#8 nptr s) (hfuel : s.length < fuel) :
    strtol memory fuel nptr base =
      let d := detectBase memory base (nptr + BitVec.ofNat 64 (Numeral.skipped s))
      (readDigits memory d.1 fuel (0#64, d.2)).map
        fun a => (a.1 * (if Numeral.negative s then -1#64 else 1#64), a.2) := by
  simp only [strtol, skipSpaces_eq h hfuel, detectSign_eq (stringAt_signed h), Numeral.skipped,
    BitVec.ofNat_add, BitVec.add_assoc, bind, Option.bind_some, Option.map_eq_bind,
    Function.comp_def]

theorem or_32_eq_x : ∀ c : BitVec 8, (c ||| 32#8 == 0x78#8) = (c == 0x78#8 || c == 0x58#8) := by
  decide

theorem startsHex_eq (h : StringAt memory 0#8 p t) :
    (memory p == 0x30#8 && memory (p + 1#64) ||| 32#8 == 0x78#8) = Numeral.startsHex t := by
  match t with
  | [] =>
    have hend : memory p = 0#8 := h
    simp [hend, Numeral.startsHex]
  | [c] =>
    have hend : memory (p + 1#64) = 0#8 := h.2.2
    simp [hend, Numeral.startsHex]
  | c :: d :: t => rw [h.1, h.2.2.1, or_32_eq_x, Numeral.startsHex]

theorem detectBase_eq (h : StringAt memory 0#8 p t) : detectBase memory base p =
    if (base == 0 || base == 16) && Numeral.startsHex t then (16, p + 2#64)
    else (if base ≠ 0 then base else if t.head? == some 0x30#8 then 8 else 10, p) := by
  rw [← startsHex_eq h, ← head_beq h (by decide), detectBase]
  by_cases hzero : base = 0
  · by_cases hhead : memory p = 0x30#8
    · by_cases hx : memory (p + 1#64) ||| 32#8 = 0x78#8
      · simp [hzero, hhead, hx]
      · simp [hzero, hhead, hx]
    · simp [hzero, hhead]
  · simp [hzero]

theorem Numeral.startsHex_cases (h : Numeral.startsHex t = true) :
    ∃ x u, t = 0x30#8 :: x :: u ∧ (x = 0x78#8 ∨ x = 0x58#8) := by
  match t with
  | [] => cases h
  | [_] => cases h
  | z :: x :: u =>
    rw [Numeral.startsHex, Bool.and_eq_true_iff, Bool.or_eq_true_iff] at h
    simp only [beq_iff_eq] at h
    exact ⟨x, u, by rw [h.1], h.2⟩

theorem Numeral.two_le_length (h : Numeral.startsHex t = true) : 2 ≤ t.length := by
  obtain ⟨x, u, rfl, -⟩ := Numeral.startsHex_cases h
  exact Nat.le_add_left 2 u.length

theorem Numeral.hasPrefix_cases (h : Numeral.hasPrefix base t = true) :
    (base = 0 ∨ base = 16) ∧ Numeral.startsHex t = true ∧ t[2]?.any isxdigit = true := by
  simp only [Numeral.hasPrefix, Bool.and_eq_true, Bool.or_eq_true, beq_iff_eq] at h
  exact ⟨h.1.1, h.1.2, h.2⟩

theorem Numeral.prefix_le_length (base : Nat) (t : List (BitVec 8)) :
    (if Numeral.hasPrefix base t then 2 else 0) ≤ t.length := by
  split
  · rename_i h
    exact Numeral.two_le_length (Numeral.hasPrefix_cases h).2.1
  · exact Nat.zero_le _

/-- Without a dangling prefix the parser sees the base and the digits of the grammar. -/
theorem detectBase_of_not_dangling (h : StringAt memory 0#8 p t)
    (hdangling : Numeral.danglingPrefix base t = false) : detectBase memory base p =
      (Numeral.radix base t, p + BitVec.ofNat 64 (if Numeral.hasPrefix base t then 2 else 0)) := by
  rw [detectBase_eq h]
  simp only [Numeral.danglingPrefix, Numeral.radix, Numeral.hasPrefix] at hdangling ⊢
  rcases Bool.eq_false_or_eq_true ((base == 0 || base == 16) && Numeral.startsHex t) with hhex | hhex
  · rw [hhex, Bool.true_and, Bool.not_eq_false'] at hdangling
    obtain ⟨hbase, hstarts⟩ := Bool.and_eq_true_iff.mp hhex
    rcases Bool.or_eq_true_iff.mp hbase with hbase | hbase
    · simp [hstarts, hdangling, beq_iff_eq.mp hbase]
    · simp [hstarts, hdangling, beq_iff_eq.mp hbase]
  · simp [hhex]

theorem ofInt_value : BitVec.ofInt 64 (Numeral.value base s) =
    BitVec.ofNat 64 (Nat.ofDigits (Numeral.radix base (Numeral.body s))
      ((Numeral.digits base (Numeral.body s)).map digitValue).reverse) *
      (if Numeral.negative s then -1#64 else 1#64) := by
  rw [Numeral.value, BitVec.ofInt_mul, BitVec.ofInt_natCast, BitVec.mul_comm]
  cases Numeral.negative s with
  | false => rfl
  | true => rfl

theorem strtol_of_not_dangling (h : StringAt memory 0#8 nptr s) (hfuel : s.length < fuel)
    (hdangling : Numeral.danglingPrefix base (Numeral.body s) = false) :
    strtol memory fuel nptr base = some (BitVec.ofInt 64 (Numeral.value base s),
      nptr + BitVec.ofNat 64 (Numeral.length base s)) := by
  have hbody := stringAt_body h
  have hdigits : StringAt memory 0#8 (nptr + BitVec.ofNat 64 (Numeral.skipped s) +
      BitVec.ofNat 64 (if Numeral.hasPrefix base (Numeral.body s) then 2 else 0))
      ((Numeral.body s).drop (if Numeral.hasPrefix base (Numeral.body s) then 2 else 0)) :=
    hbody.drop (Numeral.prefix_le_length base _)
  have hshort : ((Numeral.body s).drop
      (if Numeral.hasPrefix base (Numeral.body s) then 2 else 0)).length < fuel :=
    ((List.drop_suffix _ _).trans (Numeral.body_suffix s)).length_le.trans_lt hfuel
  rw [strtol_eq h hfuel, detectBase_of_not_dangling hbody hdangling]
  dsimp only
  rw [readDigits_eq hdigits hshort, Option.map_some, ofInt_value]
  simp only [Numeral.length, Numeral.skipped, Numeral.digits, BitVec.ofNat_add, BitVec.add_assoc]

/-- What is read is part of the string. -/
theorem Numeral.length_le (base : Nat) (s : List (BitVec 8)) :
    Numeral.length base s ≤ s.length := by
  have hmarked := Numeral.prefix_le_length base (Numeral.body s)
  have hdigits : (Numeral.digits base (Numeral.body s)).length ≤ _ :=
    (List.takeWhile_prefix _).length_le
  have hbody := Numeral.length_body s
  have hskipped := Numeral.skipped_le_length s
  rw [List.length_drop] at hdigits
  simp only [Numeral.length, ← Numeral.skipped.eq_1]
  omega

theorem isDigit_16 : ∀ c : BitVec 8, isDigit 16 c = isxdigit c := by
  decide

theorem takeWhile_eq_nil_iff_head {α : Type} {test : α → Bool} {l : List α} :
    l.takeWhile test = [] ↔ l.head?.any test = false := by
  cases l with
  | nil => simp
  | cons c l => simp [List.takeWhile_cons]

/-- A dangling prefix is taken for the number. -/
theorem strtol_of_dangling (h : StringAt memory 0#8 nptr s) (hfuel : s.length < fuel)
    (hdangling : Numeral.danglingPrefix base (Numeral.body s) = true) :
    strtol memory fuel nptr base =
      some (0#64, nptr + BitVec.ofNat 64 (Numeral.skipped s + 2)) := by
  have hbody := stringAt_body h
  simp only [Numeral.danglingPrefix, Bool.and_eq_true, Bool.not_eq_true'] at hdangling
  obtain ⟨⟨hbase, hstarts⟩, hnone⟩ := hdangling
  have hdigits := hbody.drop (Numeral.two_le_length hstarts)
  have hshort : ((Numeral.body s).drop 2).length < fuel :=
    ((List.drop_suffix _ _).trans (Numeral.body_suffix s)).length_le.trans_lt hfuel
  have hrun : ((Numeral.body s).drop 2).takeWhile (isDigit 16) = [] := by
    rw [takeWhile_eq_nil_iff_head, List.head?_drop, funext isDigit_16]
    exact hnone
  rw [strtol_eq h hfuel, detectBase_eq hbody, hstarts, Bool.and_true, if_pos hbase]
  dsimp only
  rw [readDigits_eq hdigits hshort, hrun, Option.map_some]
  simp [BitVec.ofNat_add, BitVec.add_assoc]

/-- The zero of the prefix is a digit itself. -/
theorem Numeral.hasPrefix_head (h : Numeral.hasPrefix base t = true) :
    t.head?.any (isDigit (if base = 0 then 10 else base)) = true := by
  obtain ⟨hbase, hstarts, -⟩ := Numeral.hasPrefix_cases h
  obtain ⟨x, u, rfl, -⟩ := Numeral.startsHex_cases hstarts
  rcases hbase with rfl | rfl
  · rfl
  · rfl

theorem Numeral.digits_eq_nil_iff (base : Nat) (t : List (BitVec 8)) :
    Numeral.digits base t = [] ↔
      t.head?.any (isDigit (if base = 0 then 10 else base)) = false := by
  rw [Numeral.digits, takeWhile_eq_nil_iff_head, List.head?_drop]
  cases hmarked : Numeral.hasPrefix base t with
  | true =>
    obtain ⟨hbase, -, hdigit⟩ := Numeral.hasPrefix_cases hmarked
    have hradix : Numeral.radix base t = 16 := by
      rcases hbase with rfl | rfl
      · simp [Numeral.radix, hmarked]
      · rfl
    rw [if_pos rfl, hradix, funext isDigit_16, hdigit, Numeral.hasPrefix_head hmarked]
  | false =>
    rw [if_neg Bool.false_ne_true, ← List.head?_eq_getElem?, Numeral.radix]
    by_cases hbase : base = 0
    · rw [hmarked, if_neg (not_not_intro hbase), if_neg Bool.false_ne_true, if_pos hbase]
      by_cases hhead : t.head? = some 0x30#8
      · simp [hhead, isDigit, charDigit]
      · simp [hhead]
    · rw [if_pos hbase, if_neg hbase]

/-- The digits of a dangling prefix: the zero in front of the `x`. -/
theorem Numeral.digits_of_dangling (hdangling : Numeral.danglingPrefix base t = true) :
    Numeral.digits base t = [0x30#8] ∧ Numeral.hasPrefix base t = false := by
  simp only [Numeral.danglingPrefix, Bool.and_eq_true, Bool.or_eq_true, beq_iff_eq,
    Bool.not_eq_true'] at hdangling
  obtain ⟨⟨hbase, hstarts⟩, hnone⟩ := hdangling
  have hmarked : Numeral.hasPrefix base t = false := by
    rw [Numeral.hasPrefix, hnone, Bool.and_false]
  refine ⟨?_, hmarked⟩
  obtain ⟨x, u, rfl, hx⟩ := Numeral.startsHex_cases hstarts
  have hradix : Numeral.radix base (0x30#8 :: x :: u) = 8 ∨
      Numeral.radix base (0x30#8 :: x :: u) = 16 := by
    rcases hbase with rfl | rfl
    · simp [Numeral.radix, hmarked]
    · exact Or.inr rfl
  rw [Numeral.digits, hmarked]
  rcases hradix with hradix | hradix <;> rcases hx with rfl | rfl <;>
    simp [hradix, isDigit, charDigit]

theorem strtol_mono {fuel' : Nat} {r : Word × Word} (h : strtol memory fuel nptr base = some r)
    (hle : fuel ≤ fuel') : strtol memory fuel' nptr base = some r := by
  obtain ⟨p, hspaces, h⟩ := Option.bind_eq_some_iff.mp h
  obtain ⟨a, hdigits, h⟩ := Option.bind_eq_some_iff.mp h
  exact Option.bind_eq_some_iff.mpr ⟨p, whileLoop_mono hspaces hle,
    Option.bind_eq_some_iff.mpr ⟨a, whileLoop_mono hdigits hle, h⟩⟩

end

/-- `strtol` parses the string by its grammar if and only if some digit can be read or
nothing stands in front of where it is missing. -/
theorem strtol_parses_iff (memory : Word → BitVec 8) {nptr : Word} {s : List (BitVec 8)} (base : Nat)
    (hs : StringAt memory 0#8 nptr s) :
    ∃ r, (∀ fuel, s.length < fuel → strtol memory fuel nptr base = some r) ∧
      (Numeral.Parses base s nptr r ↔ Numeral.DigitsFollow base s) := by
  have hlt := hs.length_lt
  have hskipped := Numeral.skipped_le_length s
  cases hdangling : Numeral.danglingPrefix base (Numeral.body s) with
  | false =>
    refine ⟨_, fun fuel hfuel => strtol_of_not_dangling hs hfuel hdangling, ?_⟩
    rw [Numeral.Parses, Numeral.DigitsFollow, hdangling]
    by_cases hnone : Numeral.digits base (Numeral.body s) = []
    · -- nothing is read: the place is right if nothing was skipped
      have hhead := (Numeral.digits_eq_nil_iff base _).mp hnone
      have hmarked : Numeral.hasPrefix base (Numeral.body s) = false := by
        by_contra h
        rw [Numeral.hasPrefix_head (Bool.not_eq_false _ ▸ h)] at hhead
        cases hhead
      have hplace : Numeral.length base s = Numeral.skipped s := by
        simp [Numeral.length, Numeral.skipped, hnone, hmarked]
      have hvalue : Numeral.value base s = 0 := by
        simp [Numeral.value, hnone]
      rw [if_pos hnone, hplace, hvalue, hhead]
      rw [← Numeral.skipped_eq_zero_iff, Prod.mk.injEq, BitVec.add_right_eq_self]
      simp only [Bool.false_eq_true, false_or, true_and]
      refine ⟨fun h => ?_, fun h => ⟨rfl, by rw [h]⟩⟩
      have hzero := congrArg BitVec.toNat h.2
      rwa [BitVec.toNat_ofNat, Nat.mod_eq_of_lt (hskipped.trans_lt hlt)] at hzero
    · rw [if_neg hnone]
      refine iff_of_true (fun hfits => ⟨?_, rfl⟩) ⟨rfl, Or.inl ?_⟩
      · exact BitVec.toInt_ofInt_eq_self (by decide) hfits.1 hfits.2
      · rw [← Bool.not_eq_false, ← Numeral.digits_eq_nil_iff]
        exact hnone
  | true =>
    refine ⟨_, fun fuel hfuel => strtol_of_dangling hs hfuel hdangling, ?_⟩
    obtain ⟨hdigits, hmarked⟩ := Numeral.digits_of_dangling hdangling
    have hvalue : Numeral.value base s = 0 := by
      rw [Numeral.value, hdigits]
      simp [digitValue, charDigit]
    have hlength : Numeral.length base s = Numeral.skipped s + 1 := by
      simp only [Numeral.length, hmarked, hdigits, Numeral.skipped]
      rfl
    have hplace : nptr + BitVec.ofNat 64 (Numeral.skipped s + 2) ≠
        nptr + BitVec.ofNat 64 (Numeral.skipped s + 1) := by
      rw [BitVec.ofNat_add, BitVec.ofNat_add, ne_eq, BitVec.add_right_inj, BitVec.add_right_inj]
      decide
    refine iff_of_false (fun hparses => ?_) (fun hfollow => ?_)
    · rw [Numeral.Parses, if_neg (by rw [hdigits]; exact List.cons_ne_nil _ _), hvalue,
        hlength] at hparses
      exact hplace (hparses ⟨by decide, by decide⟩).2
    · rw [Numeral.DigitsFollow, hdangling] at hfollow
      exact absurd hfollow.1 Bool.true_eq_false_eq_False

/-- A memory that holds the text at address 0 and terminators elsewhere. -/
def textMemory (text : List (BitVec 8)) (p : Word) : BitVec 8 := text[p.toNat]?.getD 0#8

/-- `0x1F` in base 16. -/
theorem strtol_parses_iff_hex :
    ∃ r, strtol (textMemory [0x30#8, 0x78#8, 0x31#8, 0x46#8]) 5 0#64 16 = some r ∧
      Numeral.Parses 16 [0x30#8, 0x78#8, 0x31#8, 0x46#8] 0#64 r := by
  have htext : StringAt (textMemory [0x30#8, 0x78#8, 0x31#8, 0x46#8]) 0#8 0#64
      [0x30#8, 0x78#8, 0x31#8, 0x46#8] := by decide
  obtain ⟨r, hrun, hparses⟩ := strtol_parses_iff _ 16 htext
  exact ⟨r, hrun 5 (by decide), hparses.mpr ⟨by decide, Or.inl (by decide)⟩⟩

/-- A sign alone: nothing is read, and the place returned is behind the sign. -/
theorem strtol_sign_alone :
    ∃ (memory : Word → BitVec 8) (nptr : Word) (s : List (BitVec 8)) (base : Nat) (r : Word × Word),
      StringAt memory 0#8 nptr s ∧ (base = 0 ∨ 2 ≤ base ∧ base ≤ 36) ∧
        (∀ fuel, s.length < fuel → strtol memory fuel nptr base = some r) ∧
        Numeral.digits base (Numeral.body s) = [] ∧ r.2 ≠ nptr ∧
        ¬Numeral.Parses base s nptr r := by
  have htext : StringAt (textMemory [0x2D#8]) 0#8 0#64 [0x2D#8] := by decide
  have hnone : Numeral.digits 8 (Numeral.body [0x2D#8]) = [] := rfl
  refine ⟨textMemory [0x2D#8], 0#64, [0x2D#8], 8, (0#64, 1#64), htext, by decide,
    fun fuel hfuel => strtol_of_not_dangling htext hfuel rfl, hnone, by decide, fun h => ?_⟩
  rw [Numeral.Parses, if_pos hnone] at h
  exact absurd h (by decide)

end Tern
