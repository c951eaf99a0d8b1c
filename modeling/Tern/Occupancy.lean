import Tern.Updates
import Tern.Provenance
import Tern.Arguments

/-! Which operations overwrite a capability. All copies look whether their
destination is empty; `untyped_retype` and `x86_64_io_port_control_issue` do not. -/

namespace Tern

open Cdt

/-- Every capability of `s` is still in its slot in `t`; the slots in `exempt`
may have got another badge. -/
def KeepsOccupied (exempt : Word → Prop) (s t : Slots) : Prop :=
  ∀ x, (s x).cap.type ≠ .null →
    (t x).cap = (s x).cap ∨ (exempt x ∧ SameButBadge (s x).cap (t x).cap)

section

variable {exempt : Word → Prop} {s t u : Slots}

theorem KeepsOccupied.refl (s : Slots) : KeepsOccupied exempt s s := fun _ _ => .inl rfl

theorem KeepsOccupied.trans (h : KeepsOccupied (fun _ => False) s t)
    (h' : KeepsOccupied (fun _ => False) t u) : KeepsOccupied exempt s u := by
  intro x hx
  have ht := (h x hx).resolve_right (fun hf => hf.1)
  rcases h' x (ht ▸ hx) with hu | hf
  · exact .inl (hu.trans ht)
  · exact hf.1.elim

/-- Installing a capability in an empty slot. -/
theorem KeepsOccupied.install {dest : Word} {c : Cap} (hdest : (s dest).cap.type = .null) :
    KeepsOccupied exempt s (s.setCap dest c) := by
  intro x hx
  have hne : x ≠ dest := fun e => hx (e ▸ hdest)
  simp [hne]

theorem copyCap_keeps (s : Slots) (dest src mask : Word) :
    KeepsOccupied exempt s (copyCap s dest src mask).2 := by
  rcases copyCap_cases s dest src mask with ⟨r, hr, -, -⟩ | ⟨hdest, -, hr⟩ <;> rw [hr]
  · exact .refl s
  · intro x hx
    have hkept : KeepsOccupied exempt s (s.setCap dest (copied (s src).cap mask)) :=
      .install hdest
    simpa using hkept x hx

end

/-! ## The rounds of a retype -/

section

variable (dm : DirectMap) (objSize dest usable : Word)

/-- Round `i` of `create_objects` writes the capability in `x`: its memory is
cleared, or the new capability goes there. -/
def WritesCap (i : Nat) (x : Word) : Prop :=
  inMemory (objPtr dm objSize usable i) objSize x = true ∨ x = destSlot dest i

/-- Round `i` is the last of `n` rounds to write the capability in `x`. -/
structure LastWrite (n i : Nat) (x : Word) : Prop where
  lt : i < n
  writes : WritesCap dm objSize dest usable i x
  last : ∀ j < n, WritesCap dm objSize dest usable j x → j ≤ i

/-- What the first `n` rounds leave for a new capability in `x` to build on. -/
def foundCap (s : Slots) (n : Nat) (x : Word) : Cap :=
  if (List.range n).any fun i => inMemory (objPtr dm objSize usable i) objSize x then {}
  else (s x).cap

variable (type : CapType) (sizeBits : Word)

/-- What round `i` puts into `x`. -/
def madeCap (s : Slots) (i : Nat) (x : Word) : Cap :=
  newCap (foundCap dm objSize usable s (i + 1) x) type sizeBits (objPtr dm objSize usable i)

end

section

variable {dm : DirectMap} {untyped : Word} {type : CapType} {sizeBits objSize dest usable : Word}

theorem newCap_congr {c d : Cap} (hdevice : c.isDevice = d.isDevice)
    (hreserved : c.reserved = d.reserved) (p : Word) :
    newCap c type sizeBits p = newCap d type sizeBits p := by
  simp [newCap, Cap.retyped, Cap.withPtr, hdevice, hreserved]

theorem foundCap_succ (s : Slots) (n : Nat) (x : Word) :
    foundCap dm objSize usable s (n + 1) x =
      if inMemory (objPtr dm objSize usable n) objSize x then {}
      else foundCap dm objSize usable s n x := by
  simp only [foundCap, List.range_succ, List.any_append, List.any_cons, List.any_nil, Bool.or_false]
  cases inMemory (objPtr dm objSize usable n) objSize x <;> simp

theorem LastWrite.succ_of_not {n i : Nat} {x : Word} (h : LastWrite dm objSize dest usable n i x)
    (hn : ¬ WritesCap dm objSize dest usable n x) : LastWrite dm objSize dest usable (n + 1) i x where
  lt := Nat.lt_succ_of_lt h.lt
  writes := h.writes
  last j hj hw := by
    rcases Nat.lt_succ_iff_lt_or_eq.mp hj with hlt | rfl
    · exact h.last j hlt hw
    · exact absurd hw hn

theorem LastWrite.of_writes {n : Nat} {x : Word} (h : WritesCap dm objSize dest usable n x) :
    LastWrite dm objSize dest usable (n + 1) n x :=
  ⟨Nat.lt_succ_self n, h, fun _ hj _ => Nat.lt_succ_iff.mp hj⟩

theorem LastWrite.unique {n i j : Nat} {x : Word} (hi : LastWrite dm objSize dest usable n i x)
    (hj : LastWrite dm objSize dest usable n j x) : i = j :=
  Nat.le_antisymm (hj.last i hi.lt hi.writes) (hi.last j hj.lt hj.writes)

/-- After `n` rounds a slot is as before if none of them wrote it, and else as
the last of these left it. -/
structure RoundsLeave (dm : DirectMap) (type : CapType) (sizeBits objSize dest usable : Word)
    (s : Slots) (x : Word) (n : Nat) (t : Slots) : Prop where
  device : (t x).cap.isDevice = (foundCap dm objSize usable s n x).isDevice
  reserved : (t x).cap.reserved = (foundCap dm objSize usable s n x).reserved
  cap : ((∀ i < n, ¬ WritesCap dm objSize dest usable i x) ∧ (t x).cap = (s x).cap) ∨
    ∃ i, LastWrite dm objSize dest usable n i x ∧ (t x).cap =
      if x = destSlot dest i then madeCap dm objSize usable type sizeBits s i x else {}

theorem createObjects_leave {s t : Slots} {n : Nat}
    (h : createObjects dm untyped type sizeBits objSize dest usable n s = .ok t) (x : Word) :
    RoundsLeave dm type sizeBits objSize dest usable s x n t := by
  refine createObjects_rule (P := RoundsLeave dm type sizeBits objSize dest usable s x)
    ⟨rfl, rfl, .inl ⟨fun i hi => absurd hi (Nat.not_lt_zero i), rfl⟩⟩ ?_ h
  intro n u v _ hu hv
  obtain ⟨-, rfl⟩ := createObject_eq_ok.mp hv
  have hfound : foundCap dm objSize usable s (n + 1) x =
      if inMemory (objPtr dm objSize usable n) objSize x then {}
      else foundCap dm objSize usable s n x := foundCap_succ s n x
  -- what the round finds in the slot, up to the fields that `create_objects` sets
  have hcleared : (clearMemory u (objPtr dm objSize usable n) objSize x).cap =
      if inMemory (objPtr dm objSize usable n) objSize x then {} else (u x).cap := rfl
  have hdevice : (clearMemory u (objPtr dm objSize usable n) objSize x).cap.isDevice =
      (foundCap dm objSize usable s (n + 1) x).isDevice := by
    rw [hcleared, hfound]
    split
    · rfl
    · exact hu.device
  have hreserved : (clearMemory u (objPtr dm objSize usable n) objSize x).cap.reserved =
      (foundCap dm objSize usable s (n + 1) x).reserved := by
    rw [hcleared, hfound]
    split
    · rfl
    · exact hu.reserved
  have hv : (insertCteAfter ((clearMemory u (objPtr dm objSize usable n) objSize).setCap
      (destSlot dest n) (newCap (clearMemory u (objPtr dm objSize usable n) objSize
        (destSlot dest n)).cap type sizeBits (objPtr dm objSize usable n))) (destSlot dest n)
      untyped x).cap = if x = destSlot dest n then
        newCap (clearMemory u (objPtr dm objSize usable n) objSize x).cap type sizeBits
          (objPtr dm objSize usable n)
      else (clearMemory u (objPtr dm objSize usable n) objSize x).cap := by
    rw [insertCteAfter_cap, Slots.setCap_cap]
    split
    · next hx => rw [hx]
    · rfl
  show RoundsLeave dm type sizeBits objSize dest usable s x (n + 1) (insertCteAfter _ _ _)
  by_cases hx : x = destSlot dest n
  · rw [if_pos hx] at hv
    refine ⟨?_, ?_, .inr ⟨n, .of_writes (.inr hx), ?_⟩⟩
    · exact (congrArg Cap.isDevice hv).trans hdevice
    · exact (congrArg Cap.reserved hv).trans hreserved
    · rw [if_pos hx]
      exact hv.trans (newCap_congr hdevice hreserved _)
  · rw [if_neg hx] at hv
    refine ⟨?_, ?_, ?_⟩
    · exact (congrArg Cap.isDevice hv).trans hdevice
    · exact (congrArg Cap.reserved hv).trans hreserved
    · by_cases hm : inMemory (objPtr dm objSize usable n) objSize x = true
      · refine .inr ⟨n, .of_writes (.inl hm), ?_⟩
        rw [if_neg hx]
        exact hv.trans (by rw [hcleared, if_pos hm])
      · have hnot : ¬ WritesCap dm objSize dest usable n x := by
          rintro (h | h)
          · exact hm h
          · exact hx h
        have hsame := hv.trans (by rw [hcleared, if_neg hm])
        rcases hu.cap with ⟨hnone, hcap⟩ | ⟨i, hi, hcap⟩
        · refine .inl ⟨fun i hi => ?_, hsame.trans hcap⟩
          rcases Nat.lt_succ_iff_lt_or_eq.mp hi with hlt | rfl
          · exact hnone i hlt
          · exact hnot
        · exact .inr ⟨i, hi.succ_of_not hnot, hsame.trans hcap⟩

end

/-! ## A whole retype -/

section

variable {P : Platform} {fuel : Nat} {k k' : Kernel} {slot : Word} {mr cap : Nat → Word}
  {m : Method} {r : Reply} {exempt : Word → Prop}

theorem Effects.keeps (h : Effects k k') : KeepsOccupied exempt k.slots k'.slots := by
  induction h generalizing exempt with
  | refl => exact .refl _
  | @tail k₁ k₂ _ hstep ih =>
    refine ih.trans ?_
    cases hstep with
    | notifications | interrupts => exact .refl _
    | message hstep =>
      cases hstep with
      | update hstep => exact hstep.slots ▸ .refl _
      | copy dest src => exact copyCap_keeps _ _ _ _

end

/-- The boot thread asks for a capability of the ports 0x60 to 0x64 in slot
`index`; it holds the right to in slot 5, and its root CNode in slot 2. -/
def issueKernel (index : Word) : Kernel :=
  { exampleKernel [] [(2, ({ type := .cnode, sizeBits := 12 } : Cap).withPtr initCnode),
      (5, { type := .x86IoPortControl })] with
    buffers := fun _ i =>
      if i = 0 then 0x60#64 else if i = 1 then 0x64#64 else if i = 2 then index
      else if i = 3 then 64#64 else if i = capsOrBadges 0 then 2#64 else 0#64 }

def issueFrame : Frame := callFrame 2 5 { emptyTag with length := 4, extraCaps := 1, label := 23 }

def issueEntry : Entry := .syscall issueFrame

/-- What the slot holds afterwards. -/
def issued (index : Word) (i : Nat) : Result Cap :=
  (issueEntry.enter examplePlatform 0 (issueKernel index)).map fun k => (k.slots (initSlot i)).cap

end Tern
