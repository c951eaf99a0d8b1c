import Mathlib.Data.BitVec

/-! Machine words, error codes, message tags and the two ways a kernel
function can end: normally, or with the machine stopped. -/

namespace Tern

/-- `word_t`, `uintptr_t`, `size_t` and all pointers other than list links. -/
abbrev Word := BitVec 64

/-- Ways the kernel stops for good. `panic` is a failed assertion or a call of
`panic`, `halted` is `halt_forever` (the end of every exception handler, the
breakpoint of `debug_trap` included), `fault` a null pointer dereference or an
access outside of an array. The model's own `outOfFuel` ends a recursion that was given too little fuel. -/
inductive Halt
  | panic | halted | fault | outOfFuel
  deriving DecidableEq, Repr

abbrev Result (α : Type) := Except Halt α

/-- `assert (x)`. -/
def assert (x : Bool) : Result Unit := if x then .ok () else .error .panic

@[simp] theorem assert_eq_ok (x : Bool) (u : Unit) : assert x = .ok u ↔ x = true := by
  cases x <;> simp [assert]

@[simp] theorem bind_eq_ok {α β : Type} (x : Result α) (f : α → Result β) (b : β) :
    (x >>= f) = .ok b ↔ ∃ a, x = .ok a ∧ f a = .ok b := by
  cases x <;> simp [bind, Except.bind]

theorem bind_eq_error {α β : Type} {x : Result α} {f : α → Result β} {e : Halt} :
    (x >>= f) = .error e ↔ x = .error e ∨ ∃ a, x = .ok a ∧ f a = .error e := by
  cases x <;> simp [bind, Except.bind]

@[simp] theorem pure_eq_ok {α : Type} (a b : α) :
    ((pure a : Result α) = .ok b) ↔ a = b := by
  simp [pure, Except.pure]

/-- `BIT (x)`: a 64-bit left shift, whose count the processor takes modulo 64. -/
def bit (x : Word) : Word := 1#64 <<< (x.toNat % 64)

theorem bit_toNat (x : Word) : (bit x).toNat = 2 ^ (x.toNat % 64) := by
  have hlt : 2 ^ (x.toNat % 64) < 2 ^ 64 :=
    Nat.pow_lt_pow_right (by decide) (Nat.mod_lt _ (by decide))
  rw [bit, BitVec.toNat_shiftLeft, Nat.shiftLeft_eq]
  simpa using hlt

/-- `ALIGN_UP (x, a)`. -/
def alignUp (x a : Word) : Word := (x + a - 1#64) &&& ~~~(a - 1#64)

inductive ErrorCode
  | noError | alignmentError | deleteFirst | failedLookup | illegalOperation
  | invalidArgument | invalidCapability | invalidSyscall | invalidRoot
  | notEnoughMemory | rangeError | revokeFirst | truncatedMessage
  | unknownMessage | wouldBlock
  deriving DecidableEq, Repr

/-- The value of the C enumerator. -/
def ErrorCode.toWord : ErrorCode → Word
  | .noError => 0 | .alignmentError => 1 | .deleteFirst => 2 | .failedLookup => 3
  | .illegalOperation => 4 | .invalidArgument => 5 | .invalidCapability => 6
  | .invalidSyscall => 7 | .invalidRoot => 8 | .notEnoughMemory => 9
  | .rangeError => 10 | .revokeFirst => 11 | .truncatedMessage => 12
  | .unknownMessage => 13 | .wouldBlock => 14

/-- `message_tag_t`, low bits first: length, caps_unwrapped, extra_caps, label. -/
structure MessageTag where
  length : BitVec 9
  capsUnwrapped : BitVec 3
  extraCaps : BitVec 2
  label : BitVec 50
  deriving DecidableEq, Repr

namespace MessageTag

def ofWord (w : Word) : MessageTag where
  length := w.extractLsb' 0 9
  capsUnwrapped := w.extractLsb' 9 3
  extraCaps := w.extractLsb' 12 2
  label := w.extractLsb' 14 50

def toWord (t : MessageTag) : Word := t.label ++ t.extraCaps ++ t.capsUnwrapped ++ t.length

/-- `msg_noreturn ()`: the internal mark that no result is delivered. -/
def noreturn : MessageTag := ofWord (BitVec.allOnes 64)

def isNoreturn (t : MessageTag) : Bool := t.toWord == BitVec.allOnes 64

end MessageTag

/-- What a method handler answers: the label of the tag and the words that
`set_mr` left in message registers 0, 1, ..., whose number is the tag's length. -/
structure Reply where
  label : ErrorCode
  mrs : List Word
  deriving DecidableEq, Repr

namespace Reply

def ok : Reply := ⟨.noError, []⟩
def okWith (mrs : List Word) : Reply := ⟨.noError, mrs⟩
def rangeError (min max : Word) : Reply := ⟨.rangeError, [min, max]⟩
def truncatedMessage (expected provided : Word) : Reply :=
  ⟨.truncatedMessage, [expected, provided]⟩
def deleteFirst : Reply := ⟨.deleteFirst, []⟩
def revokeFirst : Reply := ⟨.revokeFirst, []⟩
def invalidArgument (argumentNumber : Word) : Reply := ⟨.invalidArgument, [argumentNumber]⟩
def invalidRoot : Reply := ⟨.invalidRoot, []⟩
def notEnoughMemory (availableMemory : Word) : Reply := ⟨.notEnoughMemory, [availableMemory]⟩
def failedLookup (level : Word) : Reply := ⟨.failedLookup, [level]⟩
def illegalOperation : Reply := ⟨.illegalOperation, []⟩

def isOk (r : Reply) : Bool := r.label == .noError

/-- `new_message_tag (label, 0, 0, registers)`. -/
def tag (r : Reply) : MessageTag where
  length := BitVec.ofNat 9 r.mrs.length
  capsUnwrapped := 0
  extraCaps := 0
  label := r.label.toWord.truncate 50

end Reply

end Tern
