import Tern.Basic
import Tern.Lib.Links

/-! Capabilities and the slots (`struct cte`) that hold them. The pointer of a
capability is the 44-bit field between bits 4 and 47 of its first word;
`capPtr` sign-extends it as `bits_pointer` does. The slots of all CNodes and
TCBs are one table, indexed by the address of the slot. -/

namespace Tern

/-- `enum object_type`. -/
inductive CapType
  | null | endpoint | reply | notification | cnode | tcb | untyped
  | x86IoPort | x86IoPortControl | x86Pml4 | x86Pdpt | x86Pd | x86Pt
  | x86Page | x86HugePage | irqControl | irqHandler
  deriving DecidableEq, Repr

/-- The enumerator with a given value; `none` from `MAX_CAP_TYPE` on. -/
def CapType.ofWord? (w : Word) : Option CapType :=
  [.null, .endpoint, .reply, .notification, .cnode, .tcb, .untyped, .x86IoPort,
    .x86IoPortControl, .x86Pml4, .x86Pdpt, .x86Pd, .x86Pt, .x86Page,
    .x86HugePage, .irqControl, .irqHandler][w.toNat]?

/-- `union capability`, by its bit-fields. -/
structure Cap where
  isOriginal : Bool := false
  isDevice : Bool := false
  reserved : BitVec 2 := 0
  ptr : BitVec 44 := 0
  sizeBits : BitVec 6 := 0
  rights : BitVec 5 := 0
  type : CapType := .null
  badge : Word := 0
  deriving DecidableEq, Repr

def capRightsAll : Word := 0x1F#64

/-- `is_safe_cap_ptr`. -/
def isSafeCapPtr (p : Word) : Bool :=
  p &&& 0xF#64 == 0#64 && (p >>> 47 == 0x1FFFF#64 || p >>> 47 == 0#64)

/-- `bits_pointer`: bit 47 is copied into the 16 bits above it. -/
def bitsPointer (ptr : BitVec 44) : Word := ((ptr ++ 0#4 : BitVec 48)).signExtend 64

def capPtr (c : Cap) : Word := bitsPointer c.ptr

/-- `cap_set_ptr`, without its assertion. -/
def Cap.withPtr (c : Cap) (p : Word) : Cap := { c with ptr := p.extractLsb' 4 44 }

def capSetPtr (c : Cap) (p : Word) : Result Cap := do
  assert (isSafeCapPtr p)
  return c.withPtr p

/-- `cap_size`. -/
def capSize (c : Cap) : Word := bit (c.sizeBits.setWidth 64)

/-- `cap_set_rights`: the mask is cut to the 5-bit field. -/
def Cap.withRights (c : Cap) (rights : Word) : Cap := { c with rights := rights.setWidth 5 }

def capRights (c : Cap) : Word := c.rights.setWidth 64

def newNullCap : Cap := {}

def newUntypedCap (paddr : Word) (sizeBits : BitVec 6) : Result Cap :=
  capSetPtr { type := .untyped, sizeBits } paddr

/-- `new_x86_64_io_port_cap`: the ports go into the pointer field and the badge. -/
def newX86IoPortCap (firstPort lastPort : BitVec 16) : Cap :=
  { type := .x86IoPort, ptr := firstPort.setWidth 44, badge := lastPort.setWidth 64 }

def newIrqHandlerCap (irq : Word) : Cap := { type := .irqHandler, sizeBits := irq.setWidth 6 }

/-- Two capabilities refer to the same kernel object. -/
def SameObject (c d : Cap) : Prop := c.type = d.type ∧ capPtr c = capPtr d

instance (c d : Cap) : Decidable (SameObject c d) := inferInstanceAs (Decidable (_ ∧ _))

/-- `struct cte`; a null link is `none`. -/
structure Cte where
  cap : Cap := {}
  next : Option Word := none
  prev : Option Word := none
  deriving DecidableEq, Repr

/-- All slots, by address. -/
abbrev Slots := Word → Cte

namespace Slots

variable (s : Slots)

def setCap (a : Word) (c : Cap) : Slots := Function.update s a { s a with cap := c }
def setNext (a : Word) (b : Option Word) : Slots := Function.update s a { s a with next := b }
def setPrev (a : Word) (b : Option Word) : Slots := Function.update s a { s a with prev := b }

/-- A write through a link that may be null. -/
def setNextIf (a b : Option Word) : Slots :=
  match a with
  | some a => s.setNext a b
  | none => s

def setPrevIf (a b : Option Word) : Slots :=
  match a with
  | some a => s.setPrev a b
  | none => s

/-- The derivation list's links. -/
def links : Lib.Links Word where
  next a := (s a).next
  prev a := (s a).prev

@[simp] theorem links_next (a : Word) : s.links.next a = (s a).next := rfl
@[simp] theorem links_prev (a : Word) : s.links.prev a = (s a).prev := rfl

@[simp] theorem setCap_cap (a x : Word) (c : Cap) :
    (s.setCap a c x).cap = if x = a then c else (s x).cap := by
  by_cases h : x = a <;> simp [setCap, h]

@[simp] theorem setCap_links (a : Word) (c : Cap) : (s.setCap a c).links = s.links := by
  simp only [links, Lib.Links.mk.injEq]
  constructor <;> funext x <;> by_cases h : x = a <;> simp [setCap, h]

@[simp] theorem setNext_cap (a x : Word) (b : Option Word) :
    (s.setNext a b x).cap = (s x).cap := by
  by_cases h : x = a <;> simp [setNext, h]

@[simp] theorem setPrev_cap (a x : Word) (b : Option Word) :
    (s.setPrev a b x).cap = (s x).cap := by
  by_cases h : x = a <;> simp [setPrev, h]

@[simp] theorem setNext_links (a : Word) (b : Option Word) :
    (s.setNext a b).links = s.links.setNext a b := by
  simp only [links, Lib.Links.setNext, Lib.Links.mk.injEq]
  constructor <;> funext x <;> by_cases h : x = a <;> simp [setNext, h]

@[simp] theorem setPrev_links (a : Word) (b : Option Word) :
    (s.setPrev a b).links = s.links.setPrev a b := by
  simp only [links, Lib.Links.setPrev, Lib.Links.mk.injEq]
  constructor <;> funext x <;> by_cases h : x = a <;> simp [setPrev, h]

@[simp] theorem setNextIf_cap (a b : Option Word) (x : Word) :
    (s.setNextIf a b x).cap = (s x).cap := by
  cases a <;> simp [setNextIf]

@[simp] theorem setPrevIf_cap (a b : Option Word) (x : Word) :
    (s.setPrevIf a b x).cap = (s x).cap := by
  cases a <;> simp [setPrevIf]

@[simp] theorem setNextIf_links (a b : Option Word) :
    (s.setNextIf a b).links = s.links.setNextIf a b := by
  cases a <;> simp [setNextIf, Lib.Links.setNextIf]

@[simp] theorem setPrevIf_links (a b : Option Word) :
    (s.setPrevIf a b).links = s.links.setPrevIf a b := by
  cases a <;> simp [setPrevIf, Lib.Links.setPrevIf]

end Slots

/-! ## The pointer field -/

theorem getLsbD_of_aligned {p : Word} (h : p &&& 0xF#64 = 0#64) {i : Nat} (hi : i < 4) :
    p.getLsbD i = false := by
  have hbit := congrArg (fun w : Word => w.getLsbD i) h
  have hmask : (0xF#64).getLsbD i = true := by
    have : ∀ j < 4, (0xF#64).getLsbD j = true := by decide
    exact this i hi
  simpa [BitVec.getLsbD_and, hmask] using hbit

theorem getLsbD_of_canonical {p : Word} (h : p >>> 47 = 0x1FFFF#64 ∨ p >>> 47 = 0#64)
    {i : Nat} (hlow : 47 ≤ i) (hhigh : i < 64) : p.getLsbD i = p.getLsbD 47 := by
  have hbit : ∀ j, (p >>> 47).getLsbD j = p.getLsbD (47 + j) :=
    fun j => BitVec.getLsbD_ushiftRight ..
  have hi := hbit (i - 47)
  rw [show 47 + (i - 47) = i by omega] at hi
  rw [← hi, ← hbit 0]
  rcases h with h | h
  · have hones : ∀ j < 17, (0x1FFFF#64).getLsbD j = true := by decide
    rw [h, hones _ (by omega), hones 0 (by omega)]
  · simp [h]

/-- A capability pointer is read back as it was stored. -/
theorem capPtr_withPtr (c : Cap) (p : Word) (hp : isSafeCapPtr p = true) :
    capPtr (c.withPtr p) = p := by
  simp only [isSafeCapPtr, Bool.and_eq_true, beq_iff_eq, Bool.or_eq_true] at hp
  obtain ⟨hlow, hhigh⟩ := hp
  apply BitVec.eq_of_getLsbD_eq
  intro i hi
  simp only [capPtr, bitsPointer, Cap.withPtr, BitVec.getLsbD_signExtend, BitVec.msb_append,
    BitVec.getLsbD_append, BitVec.getLsbD_extractLsb', hi, decide_true, Bool.true_and]
  by_cases h4 : i < 4
  · simp [h4, getLsbD_of_aligned hlow h4]; omega
  · by_cases h48 : i < 48
    · simp [h4, h48, show 4 + (i - 4) = i by omega]; omega
    · simp [h48, BitVec.msb_eq_getLsbD_last,
        getLsbD_of_canonical hhigh (show 47 ≤ i by omega) hi]

theorem capSetPtr_eq_ok (c d : Cap) (p : Word) :
    capSetPtr c p = .ok d ↔ isSafeCapPtr p = true ∧ d = c.withPtr p := by
  simp only [capSetPtr, bind_eq_ok, assert_eq_ok, pure_eq_ok, exists_const]
  exact and_congr_right fun _ => eq_comm

end Tern
