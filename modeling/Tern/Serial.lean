import Tern.Lib.While
import Tern.Lib.Transition
import Tern.Stubs

/-! The serial driver. On an interrupt it moves bytes from the UART to a buffer of
fixed size, on a read request it sends the buffer to the reader. The UART gives
bytes when it likes: some may arrive before each access to its ports. -/

namespace Tern.Serial

open Lib

abbrev Byte := BitVec 8

def uartData : BitVec 16 := 0
def uartLineStatus : BitVec 16 := 5

/-- The receiving half of the UART: the bytes it holds and, access by access, the
bytes that arrive before its next ports are read or written. -/
structure Uart where
  received : List Byte
  arriving : List (List Byte)
  deriving DecidableEq, Repr

namespace Uart

def access (u : Uart) : Uart := ⟨u.received ++ u.arriving.headD [], u.arriving.tail⟩

/-- A read of a port, relative to the UART's first. -/
def read (u : Uart) (port : BitVec 16) : Byte × Uart :=
  let u := u.access
  if port = uartData then (u.received.headD 0, { u with received := u.received.tail })
  else if port = uartLineStatus then (if u.received.isEmpty then 0x60 else 0x61, u)
  else (0, u)

end Uart

def serialBufferSize : Nat := 256

/-- `buffer` up to `buffer_size`. -/
structure Buffer where
  bytes : List Byte
  fits : bytes.length ≤ serialBufferSize
  deriving DecidableEq

namespace Buffer

def empty : Buffer := ⟨[], Nat.zero_le _⟩

def size (b : Buffer) : Nat := b.bytes.length

/-- `buffer[buffer_size++] = x`. -/
def push (b : Buffer) (x : Byte) (h : b.size < serialBufferSize) : Buffer :=
  ⟨b.bytes ++ [x], by rw [List.length_append]; exact h⟩

@[simp] theorem push_bytes (b : Buffer) (x : Byte) (h : b.size < serialBufferSize) :
    (b.push x h).bytes = b.bytes ++ [x] := rfl

@[simp] theorem push_size (b : Buffer) (x : Byte) (h : b.size < serialBufferSize) :
    (b.push x h).size = b.size + 1 := by
  simp [size]

end Buffer

/-- What the driver does to the outside: a reply with its message registers, a
signal on the read notification, an acknowledged interrupt, a write to a port. -/
inductive Output
  | reply (tag : MessageTag) (mrs : List Word)
  | readSignal
  | irqAck
  | portWrite (port : BitVec 16) (value : Byte)
  deriving DecidableEq, Repr

/-- The driver with its device. `taken` are the bytes read from the data port so
far, which nothing in the driver looks at. -/
structure Driver where
  uart : Uart
  buffer : Buffer
  taken : List Byte
  outputs : List Output
  deriving DecidableEq

/-- A message or notification received: badge, tag and message registers. -/
structure Message where
  badge : Word
  info : MessageTag
  mrs : Nat → Word

def serialDriverWrite : BitVec 50 := 1
def serialDriverRead : BitVec 50 := 2

namespace Driver

def did (d : Driver) (o : Output) : Driver := { d with outputs := d.outputs ++ [o] }

def portRead (d : Driver) (port : BitVec 16) : Byte × Driver :=
  let (b, uart) := d.uart.read port
  (b, { d with uart, taken := if port = uartData then d.taken ++ [b] else d.taken })

def portWrite (d : Driver) (port : BitVec 16) (value : Byte) : Driver :=
  { d with uart := d.uart.access }.did (.portWrite port value)

def isDataAvailable (d : Driver) : Bool × Driver :=
  let (status, d) := d.portRead uartLineStatus
  (status &&& 1 != 0, d)

/-- The test of the inner loop of `handle_irq`. -/
def canTake (d : Driver) : Bool × Driver :=
  let (available, d) := d.isDataAvailable
  (available && decide (d.buffer.size < serialBufferSize), d)

/-- The body of the inner loop, which does not return from a write past the end. -/
def take (d : Driver) : Option Driver :=
  let (b, d) := d.portRead uartData
  if h : d.buffer.size < serialBufferSize then some { d with buffer := d.buffer.push b h }
  else none

/-- The body of the outer loop. -/
def drain (fuel : Nat) (d : Driver) : Option Driver :=
  (whileLoop canTake take fuel d).map (·.did .readSignal)

def handleIrq (fuel : Nat) (d : Driver) : Option Driver :=
  (whileLoop isDataAvailable (drain fuel) fuel d).map (·.did .irqAck)

def writeUart (d : Driver) (m : Message) : Option Driver :=
  -- the local array has 128 elements
  if 128 < m.info.length.toNat then none
  else some ((List.range m.info.length.toNat).foldl
    (fun d i => d.portWrite uartData ((m.mrs i).setWidth 8)) d)

/-- `char` is signed, so that `set_mr` extends its sign. -/
def readUart (d : Driver) : Driver :=
  if d.buffer.size = 0 then d.did (.reply (newMessageTag ErrorCode.wouldBlock.toWord 0 0 0) [])
  else
    let mrs := (d.buffer.bytes.take messageMaxLength).map (BitVec.signExtend 64)
    { d with buffer := .empty }.did
      (.reply (newMessageTag 0 0 0 (BitVec.ofNat 64 mrs.length)) mrs)

/-- One round of the loop of `driver_thread_main`. -/
def handle (fuel : Nat) (d : Driver) (m : Message) : Option Driver :=
  if m.badge = 0xFFFF#64 then d.handleIrq fuel
  else if m.info.label = serialDriverWrite then d.writeUart m
  else if m.info.label = serialDriverRead then some d.readUart
  else some d

end Driver

/-- The driver from its initialisation on, with any UART. -/
def serialSystem : Transition Driver Message where
  start d := d.buffer = .empty ∧ d.taken = [] ∧ d.outputs = []
  step d m d' := ∃ fuel, d.handle fuel m = some d'

/-! ## What the UART offers -/

namespace Uart

/-- What is still to be taken and to arrive. -/
def size (u : Uart) : Nat :=
  u.received.length + u.arriving.flatten.length + u.arriving.length

theorem access_received_ne_nil {u : Uart} (h : u.received ≠ []) : u.access.received ≠ [] := by
  simp [access, h]

theorem access_size_le (u : Uart) : u.access.size ≤ u.size := by
  cases h : u.arriving <;> simp [access, size, h]
  omega

theorem read_data (u : Uart) : u.read uartData =
    (u.access.received.headD 0, { u.access with received := u.access.received.tail }) := by
  simp [read]

theorem read_data_size_lt {u : Uart} (h : u.received ≠ []) : (u.read uartData).2.size < u.size := by
  have hne := List.length_pos_iff.mpr (access_received_ne_nil h)
  have hle := u.access_size_le
  simp only [read_data, size, List.length_tail] at hle ⊢
  omega

/-- The bytes that a driver without a limit to its buffer takes in `handle_irq`,
from the check of its outer loop on, or from that of its inner loop. -/
def burst (inner : Bool) (u : Uart) : List Byte :=
  match inner with
  | false => if u.access.received = [] then [] else burst true u.access
  | true =>
    if u.access.received = [] then burst false u.access
    else (u.access.read uartData).1 :: burst true (u.access.read uartData).2
termination_by (u.size, if inner then (if u.received = [] then 2 else 0) else 1)
decreasing_by
  · rename_i hne
    rcases (access_size_le u).lt_or_eq with hlt | heq
    · exact Prod.Lex.left _ _ hlt
    · simp [heq, hne, Prod.Lex.right]
  · rename_i hnil
    have hnil' : u.received = [] := by
      by_contra h
      exact access_received_ne_nil h hnil
    rcases (access_size_le u).lt_or_eq with hlt | heq
    · exact Prod.Lex.left _ _ hlt
    · simp [heq, hnil', Prod.Lex.right]
  · rename_i hne
    exact Prod.Lex.left _ _ ((read_data_size_lt hne).trans_le (access_size_le u))

theorem burst_outer (u : Uart) :
    u.burst false = if u.access.received = [] then [] else u.access.burst true := by
  rw [burst.eq_def]

theorem burst_inner (u : Uart) : u.burst true =
    if u.access.received = [] then u.access.burst false
    else (u.access.read uartData).1 :: (u.access.read uartData).2.burst true := by
  rw [burst.eq_def]

/-- If no more bytes arrive, the waiting ones are on offer. -/
theorem burst_idle (inner : Bool) (bs : List Byte) : burst inner ⟨bs, []⟩ = bs := by
  have hinner : burst true ⟨bs, []⟩ = bs := by
    induction bs with
    | nil => simp [burst_inner, burst_outer, access]
    | cons b bs ih =>
      have hread : (access ⟨b :: bs, []⟩).read uartData = (b, ⟨bs, []⟩) := by
        simp [access, read]
      rw [burst_inner, if_neg (by simp [access]), hread, ih]
  cases inner with
  | true => exact hinner
  | false =>
    have haccess : access ⟨bs, []⟩ = ⟨bs, []⟩ := by simp [access]
    rw [burst_outer, haccess, hinner]
    simp

/-- With bytes waiting, something is taken. -/
theorem burst_outer_pos {u : Uart} (h : u.received ≠ []) : 0 < (u.burst false).length := by
  have h₁ := access_received_ne_nil h
  rw [burst_outer, if_neg h₁, burst_inner, if_neg (access_received_ne_nil h₁)]
  exact Nat.succ_pos _

end Uart

/-- The bytes that a reply carries: the low bytes of the words of its length. -/
def Output.bytes : Output → List Byte
  | .reply tag mrs => (mrs.take tag.length.toNat).map (BitVec.setWidth 8)
  | _ => []

namespace Driver

/-- How many bytes a driver without a limit would hold after `handle_irq`, counted
at a check of the inner or of the outer loop. -/
def load (inner : Bool) (d : Driver) : Nat := d.buffer.size + (d.uart.burst inner).length

/-- The bytes held and those offered fit into the buffer. -/
def Fits (d : Driver) : Prop := d.load false ≤ serialBufferSize

/-- The bytes returned by all replies. -/
def returned (d : Driver) : List Byte := d.outputs.flatMap Output.bytes

/-- Nothing taken from the UART is lost, doubled or out of order. -/
def Lossless (d : Driver) : Prop := d.returned ++ d.buffer.bytes = d.taken

/-! ## One interrupt -/

variable {fuel : Nat} {d d' d₁ : Driver} {m : Message}

/-- The driver once its UART was looked at. -/
def accessed (d : Driver) : Driver := { d with uart := d.uart.access }

theorem isDataAvailable_eq (d : Driver) :
    d.isDataAvailable = (decide (d.uart.access.received ≠ []), d.accessed) := by
  have hport : uartLineStatus ≠ uartData := by decide
  by_cases h : d.uart.access.received = [] <;>
    simp [isDataAvailable, portRead, Uart.read, hport, h, accessed]

theorem isDataAvailable_true : d.isDataAvailable = (true, d₁) ↔
    d.uart.access.received ≠ [] ∧ d₁ = d.accessed := by
  rw [isDataAvailable_eq, Prod.mk.injEq, decide_eq_true_eq, eq_comm (a := d₁)]

theorem canTake_true : d.canTake = (true, d₁) ↔
    (d.uart.access.received ≠ [] ∧ d.buffer.size < serialBufferSize) ∧ d₁ = d.accessed := by
  simp only [canTake, isDataAvailable_eq, Prod.mk.injEq, Bool.and_eq_true, decide_eq_true_eq,
    eq_comm (a := d₁)]
  rfl

theorem canTake_false : d.canTake = (false, d₁) ↔
    (d.uart.access.received ≠ [] → serialBufferSize ≤ d.buffer.size) ∧ d₁ = d.accessed := by
  simp only [canTake, isDataAvailable_eq, Prod.mk.injEq, eq_comm (a := d₁)]
  by_cases hroom : d.buffer.size < serialBufferSize
  · simp [accessed, hroom, Nat.not_le.mpr hroom]
  · simp [accessed, hroom, Nat.not_lt.mp hroom]

/-- A round of the inner loop takes the first of the bytes on offer. -/
theorem take_spec (htest : d.canTake = (true, d₁)) : ∃ d₂, d₁.take = some d₂ ∧
    d₂.buffer.size = d.buffer.size + 1 ∧ d₂.load true = d.load true := by
  obtain ⟨⟨hne, hroom⟩, rfl⟩ := canTake_true.mp htest
  have htake : d.accessed.take = some { d.accessed with
      uart := (d.uart.access.read uartData).2
      buffer := d.buffer.push (d.uart.access.read uartData).1 hroom
      taken := d.taken ++ [(d.uart.access.read uartData).1] } := by
    simp [take, portRead, accessed, hroom]
  refine ⟨_, htake, Buffer.push_size _ _ hroom, ?_⟩
  have hburst := Uart.burst_inner d.uart
  rw [if_neg hne] at hburst
  simp only [load, hburst, Buffer.push_size, List.length_cons]
  omega

theorem fill_returns (d : Driver) (hfuel : serialBufferSize < fuel) :
    ∃ d', whileLoop canTake take fuel d = some d' := by
  apply whileLoop_returns (I := fun _ => True) (fun d => serialBufferSize - d.buffer.size)
  · intro d d₁ _ htest
    obtain ⟨d₂, hd₂, hsize, -⟩ := take_spec htest
    have hroom := (canTake_true.mp htest).1.2
    exact ⟨d₂, hd₂, trivial, by omega⟩
  · trivial
  · omega

/-- The inner loop stops at an empty UART with the load unchanged, or with a full
buffer when more is on offer. -/
theorem fill_load (h : whileLoop canTake take fuel d = some d') : d'.load false = d.load true ∨
    serialBufferSize < d'.load false ∧ serialBufferSize < d.load true := by
  apply whileLoop_inv (I := fun s => s.load true = d.load true)
    (Q := fun s => s.load false = d.load true ∨
      serialBufferSize < s.load false ∧ serialBufferSize < d.load true) _ _ rfl h
  · intro s s₁ s₂ hs htest hbody
    obtain ⟨s₂', hs₂, -, hload⟩ := take_spec htest
    cases hs₂.symm.trans hbody
    exact hload.trans hs
  · intro s s₁ hs htest
    obtain ⟨hstop, rfl⟩ := canTake_false.mp htest
    rw [← hs]
    have hburst := Uart.burst_inner s.uart
    by_cases hempty : s.uart.access.received = []
    · rw [if_pos hempty] at hburst
      left
      simp only [load, hburst, accessed]
    · rw [if_neg hempty] at hburst
      have hfull := hstop hempty
      have hmore := Uart.burst_outer_pos hempty
      right
      simp only [load, hburst, List.length_cons, accessed]
      omega

/-- The inner loop takes something if its first check succeeds. -/
theorem fill_takes (htest : d.canTake = (true, d₁)) (h : whileLoop canTake take fuel d = some d') :
    d.buffer.size < d'.buffer.size := by
  -- only the state before the first round has the old size, and it is not the last
  apply whileLoop_inv (I := fun s => s = d ∨ d.buffer.size < s.buffer.size)
    (Q := fun s => d.buffer.size < s.buffer.size) _ _ (.inl rfl) h
  · intro s s₁ s₂ hs htest hbody
    obtain ⟨s₂', hs₂, hsize, -⟩ := take_spec htest
    cases hs₂.symm.trans hbody
    rcases hs with rfl | hs
    · exact .inr (by omega)
    · exact .inr (by omega)
  · rintro s s₁ (rfl | hs) hend
    · cases htest.symm.trans hend
    · obtain ⟨-, rfl⟩ := canTake_false.mp hend
      exact hs

/-- A round of the outer loop keeps the load, or the load does not fit either way. -/
theorem drain_load (htest : d.isDataAvailable = (true, d₁)) (h : d₁.drain fuel = some d') :
    d'.load false = d.load false ∨
      serialBufferSize < d'.load false ∧ serialBufferSize < d.load false := by
  obtain ⟨hne, rfl⟩ := isDataAvailable_true.mp htest
  obtain ⟨d₂, hfill, rfl⟩ := Option.map_eq_some_iff.mp h
  have hburst := Uart.burst_outer d.uart
  rw [if_neg hne] at hburst
  have hload := fill_load hfill
  simp only [load, accessed] at hload
  simp only [load, hburst]
  exact hload

/-- If the load fits, every round of the outer loop leaves fewer bytes on offer. -/
theorem drain_takes (hfits : d.Fits) (htest : d.isDataAvailable = (true, d₁))
    (h : d₁.drain fuel = some d') : (d'.uart.burst false).length < (d.uart.burst false).length := by
  have hload := drain_load htest h
  obtain ⟨hne, rfl⟩ := isDataAvailable_true.mp htest
  obtain ⟨d₂, hfill, rfl⟩ := Option.map_eq_some_iff.mp h
  have hburst := Uart.burst_outer d.uart
  have hmore : d.uart.access.access.received ≠ [] := Uart.access_received_ne_nil hne
  rw [if_neg hne, Uart.burst_inner, if_neg hmore] at hburst
  have hroom : d.buffer.size < serialBufferSize := by
    simp only [Fits, load, hburst, List.length_cons] at hfits
    omega
  have hcan : d.accessed.canTake = (true, d.accessed.accessed) :=
    canTake_true.mpr ⟨⟨hmore, hroom⟩, rfl⟩
  have htakes : d.accessed.buffer.size < d₂.buffer.size := fill_takes hcan hfill
  simp only [Fits, load, did, accessed] at *
  omega

theorem handleIrq_returns (h : d.Fits) : ∃ fuel d', d.handleIrq fuel = some d' := by
  let fuel := serialBufferSize + (d.uart.burst false).length + 1
  obtain ⟨d', hd'⟩ : ∃ d', whileLoop isDataAvailable (drain fuel) fuel d = some d' := by
    apply whileLoop_returns (I := Fits) (fun d => (d.uart.burst false).length)
    · intro s s₁ hs htest
      obtain ⟨s₂, hs₂⟩ : ∃ d', whileLoop canTake take fuel s₁ = some d' :=
        fill_returns s₁ (by omega)
      have hdrain : s₁.drain fuel = some (s₂.did .readSignal) := by simp [drain, hs₂]
      have hload := drain_load htest hdrain
      refine ⟨_, hdrain, ?_, drain_takes hs htest hdrain⟩
      unfold Fits at *
      omega
    · exact h
    · omega
  exact ⟨fuel, d'.did .irqAck, by simp [handleIrq, hd']⟩

theorem handleIrq_stuck (h : ¬ d.Fits) (fuel : Nat) : d.handleIrq fuel = none := by
  have hloop : whileLoop isDataAvailable (drain fuel) fuel d = none := by
    refine whileLoop_stuck (J := fun s => ¬ s.Fits) ?_ h
    intro s hs
    have hne : s.uart.access.received ≠ [] := by
      intro hempty
      apply hs
      simp only [Fits, load, Uart.burst_outer, if_pos hempty]
      exact s.buffer.fits
    have htest := isDataAvailable_true.mpr ⟨hne, rfl⟩
    refine ⟨_, htest, fun s₂ hs₂ => ?_⟩
    have hload := drain_load htest hs₂
    unfold Fits at *
    omega
  rw [handleIrq, hloop]
  rfl

/-! ## What is returned -/

theorem Lossless.did {o : Output} (h : d.Lossless) (ho : o.bytes = []) : (d.did o).Lossless := by
  have hreturned : (d.did o).returned = d.returned := by simp [returned, Driver.did, ho]
  rw [Lossless, hreturned]
  exact h

theorem Lossless.accessed (h : d.Lossless) : d.accessed.Lossless := h

theorem Lossless.take (h : d.Lossless) (ht : d.take = some d') : d'.Lossless := by
  simp only [Driver.take, portRead, if_pos] at ht
  split at ht
  · cases ht
    show d.returned ++ (d.buffer.bytes ++ [_]) = d.taken ++ [_]
    rw [← List.append_assoc, h]
  · cases ht

theorem Lossless.drain (h : d.Lossless) (hd : d.drain fuel = some d') : d'.Lossless := by
  obtain ⟨d₂, hfill, rfl⟩ := Option.map_eq_some_iff.mp hd
  have h₂ : d₂.Lossless := by
    apply whileLoop_inv (I := Lossless) (Q := Lossless) _ _ h hfill
    · intro s s₁ s₂ hs htest hbody
      obtain ⟨-, rfl⟩ := canTake_true.mp htest
      exact hs.accessed.take hbody
    · intro s s₁ hs htest
      obtain ⟨-, rfl⟩ := canTake_false.mp htest
      exact hs.accessed
  exact h₂.did rfl

theorem Lossless.handleIrq (h : d.Lossless) (hd : d.handleIrq fuel = some d') : d'.Lossless := by
  obtain ⟨d₂, hloop, rfl⟩ := Option.map_eq_some_iff.mp hd
  have h₂ : d₂.Lossless := by
    apply whileLoop_inv (I := Lossless) (Q := Lossless) _ _ h hloop
    · intro s s₁ s₂ hs htest hbody
      obtain ⟨-, rfl⟩ := isDataAvailable_true.mp htest
      exact hs.accessed.drain hbody
    · intro s s₁ hs htest
      rw [isDataAvailable_eq, Prod.mk.injEq] at htest
      rw [← htest.2]
      exact hs.accessed
  exact h₂.did rfl

/-- The words of a reply say how many they are and which bytes they carry. -/
theorem reply_bytes {bs : List Byte} (h : bs.length ≤ serialBufferSize) :
    (Output.reply (newMessageTag 0 0 0 (BitVec.ofNat 64 bs.length))
      (bs.map (BitVec.signExtend 64))).bytes = bs := by
  have hlength : bs.length ≤ bs.length % 512 := by
    simp only [serialBufferSize] at h
    omega
  have hbyte : ∀ b : Byte, (b.signExtend 64).setWidth 8 = b := by decide
  simp [Output.bytes, newMessageTag, hlength, Function.comp_def, hbyte]

/-- The reply to a read request carries the whole buffer. -/
theorem readUart_bytes (d : Driver) :
    d.readUart.returned = d.returned ++ d.buffer.bytes ∧ d.readUart.buffer.bytes = [] := by
  have hfits := d.buffer.fits
  unfold readUart
  split
  · next h =>
    have hnil : d.buffer.bytes = [] := List.length_eq_zero_iff.mp h
    simp [returned, Driver.did, Output.bytes, hnil]
  · have hall : d.buffer.bytes.take messageMaxLength = d.buffer.bytes :=
      List.take_of_length_le (hfits.trans (by decide))
    refine ⟨?_, rfl⟩
    simp only [returned, Driver.did, hall, List.flatMap_append, List.flatMap_singleton,
      List.length_map, reply_bytes hfits]

theorem Lossless.readUart (h : d.Lossless) : d.readUart.Lossless := by
  obtain ⟨hreturned, hbytes⟩ := readUart_bytes d
  have htaken : d.readUart.taken = d.taken := by
    unfold Driver.readUart
    split <;> rfl
  rw [Lossless, hreturned, hbytes, htaken, List.append_nil]
  exact h

theorem Lossless.portWrite {port : BitVec 16} {value : Byte} (h : d.Lossless) :
    (d.portWrite port value).Lossless :=
  did (d := d.accessed) h.accessed rfl

theorem Lossless.writeUart (h : d.Lossless) (hd : d.writeUart m = some d') : d'.Lossless := by
  unfold Driver.writeUart at hd
  split at hd
  · cases hd
  · cases hd
    generalize List.range m.info.length.toNat = is
    induction is generalizing d with
    | nil => exact h
    | cons i is ih => exact ih h.portWrite

theorem Lossless.handle (h : d.Lossless) (hd : d.handle fuel m = some d') : d'.Lossless := by
  unfold Driver.handle at hd
  split at hd
  · exact h.handleIrq hd
  · split at hd
    · exact h.writeUart hd
    · split at hd
      · cases hd
        exact h.readUart
      · cases hd
        exact h

end Driver

/-- In every run the bytes returned and those in the buffer are the bytes read from
the data port, in order, and an interrupt is handled to its end exactly if the bytes
that it finds fit into the buffer with those already there. -/
theorem serial_driver_lossless {d : Driver} (hd : serialSystem.Reached d) :
    d.returned ++ d.buffer.bytes = d.taken ∧ ((∃ fuel d', d.handleIrq fuel = some d') ↔ d.Fits) := by
  constructor
  · apply hd.invariant (I := Driver.Lossless)
    · rintro d ⟨hbuffer, htaken, houtputs⟩
      simp [Driver.Lossless, Driver.returned, hbuffer, htaken, houtputs, Buffer.empty]
    · rintro d m d' h - ⟨fuel, hstep⟩
      exact h.handle hstep
  · constructor
    · rintro ⟨fuel, d', h⟩
      by_contra hfits
      cases (Driver.handleIrq_stuck hfits fuel).symm.trans h
    · exact Driver.handleIrq_returns

/-- The driver at its start, with this UART. -/
def startDriver (uart : Uart) : Driver := ⟨uart, .empty, [], []⟩

def interrupt : Message := ⟨0xFFFF#64, MessageTag.ofWord 0, fun _ => 0#64⟩
def readRequest : Message := ⟨0#64, newMessageTag 2 0 0 0, fun _ => 0#64⟩

/-- Two bytes are waiting, a third arrives while they are read, then all are sent. -/
theorem serial_driver_lossless_three :
    ∃ d, serialSystem.Reached d ∧ d.returned = [104, 105, 33] ∧
      d.returned ++ d.buffer.bytes = d.taken ∧ ∃ fuel d', d.handleIrq fuel = some d' := by
  have hrun : ((startDriver ⟨[104, 105], [[], [], [33]]⟩).handle 5 interrupt).bind
      (fun d => (d.handle 5 readRequest).map fun d => (d.returned, d.uart)) =
        some ([104, 105, 33], ⟨[], []⟩) := by decide
  simp only [Option.bind_eq_some_iff, Option.map_eq_some_iff, Prod.mk.injEq] at hrun
  obtain ⟨d₁, h₁, d₂, h₂, hreturned, huart⟩ := hrun
  have hd : serialSystem.Reached d₂ :=
    .step (.step (.start ⟨rfl, rfl, rfl⟩) trivial ⟨5, h₁⟩) trivial ⟨5, h₂⟩
  have hboth := serial_driver_lossless hd
  refine ⟨d₂, hd, hreturned, hboth.1, hboth.2.mpr ?_⟩
  rw [Driver.Fits, Driver.load, huart, Uart.burst_idle]
  exact d₂.buffer.fits

/-- 257 bytes before the first request: the buffer is full and never read. -/
theorem full_buffer_hangs :
    ¬ ∀ d, serialSystem.Reached d → ∃ fuel d', d.handleIrq fuel = some d' := by
  intro h
  obtain ⟨fuel, d', hd'⟩ := h (startDriver ⟨List.replicate 257 65, []⟩) (.start ⟨rfl, rfl, rfl⟩)
  have hfits : ¬ (startDriver ⟨List.replicate 257 65, []⟩).Fits := by
    rw [Driver.Fits, Driver.load, startDriver, Uart.burst_idle, List.length_replicate]
    decide
  cases (Driver.handleIrq_stuck hfits fuel).symm.trans hd'

end Tern.Serial
