import Mathlib.Data.Nat.Fib.Basic
import Tern.RemoteCalls

/-! The calculator: a server for sums that other processes call, and the boot process that
computes the Fibonacci numbers by calling it. -/

namespace Tern

open Lib

variable {P : Platform} {fuel : Nat} {k k' : Kernel} {v : View} {c s e cb sb : Word}

/-! ## The server -/

/-- The requests of `calculator_server.h`. -/
inductive CalculatorRequest
  | quit | ret42 | double | inc | add
  deriving DecidableEq, Repr

namespace CalculatorRequest

def ofLabel? (label : BitVec 50) : Option CalculatorRequest :=
  [.quit, .ret42, .double, .inc, .add][label.toNat]?

def label (r : CalculatorRequest) : Word := BitVec.ofNat 64 r.ctorIdx

end CalculatorRequest

def calculatorErrorUnknown : Word := 5#64

/-- The cases of the switch. -/
def calculatorCase (k : Kernel) : CalculatorRequest → Result Kernel
  | .quit => .ok k
  | .ret42 => setMr k 0 42#64
  | .double => do
    let x ← getMr k 0
    setMr k 0 (x * 2#64)
  | .inc => do
    let x ← getMr k 0
    setMr k 0 (x + 1#64)
  | .add => do
    let x ← getMr k 0
    let y ← getMr k 1
    setMr k 0 (x + y)

/-- The body of the loop up to the reply: the answer and `done`. -/
def calculatorBody (k : Kernel) (info : MessageTag) : Result (MessageTag × Bool × Kernel) :=
  match CalculatorRequest.ofLabel? info.label with
  | none => .ok (newMessageTag calculatorErrorUnknown 0 0 0, false, k)
  | some r => do
    let k ← calculatorCase k r
    return (newMessageTag (info.label.setWidth 64) 0 0 1, r == .quit, k)

/-- `_syscall2`, with whatever else is in the registers. -/
def Frame.asks (regs : Frame) (number a1 a2 : Word) : Frame :=
  { regs with rax := number, rdi := a1, rsi := a2, cs := userCs }

/-- The thread that runs goes through the loop once, with the tag in RAX. -/
def calculatorTurn (P : Platform) (fuel : Nat) (regs : Frame) (endpointCap : Word) (k : Kernel) :
    Result Kernel := do
  let s ← thisTcb k
  let (resp, done, k) ← calculatorBody k (MessageTag.ofWord (k.tcbs s).savedState.rax)
  if done then do
    let k ← syscallEntry P fuel k (regs.asks 8#64 0 resp.toWord)
    syscallEntry P fuel k (regs.asks 0#64 0 0)
  else syscallEntry P fuel k (regs.asks 9#64 endpointCap resp.toWord)

/-! ## Its clients -/

/-- The two processes: what else is in their registers, the endpoint in the CSpace of each, and
the strings that `printf` writes, before, for each number and at the end. -/
structure Session where
  P : Platform
  fuel : Nat
  client : Frame
  server : Frame
  clientCap : Word
  serverCap : Word
  heading : List (Word × Word)
  writes : Word → List (Word × Word)
  ending : List (Word × Word)

namespace Session

variable (m : Session)

/-- `call`, and the server's turn. -/
def call (k : Kernel) (tag : MessageTag) : Result Kernel := do
  let k ← syscallEntry m.P m.fuel k (m.client.asks 2#64 m.clientCap tag.toWord)
  calculatorTurn m.P m.fuel m.server m.serverCap k

def calcAdd (k : Kernel) (a b : Word) : Result (Word × Kernel) := do
  let buffer ← thisBuffer k
  let k ← setMr k 0 a
  let k ← setMr k 1 b
  let k ← m.call k (newMessageTag CalculatorRequest.add.label 0 0 2)
  return (k.buffers buffer 0, k)

/-- `write`, for each piece of a formatted text. -/
def write (k : Kernel) : List (Word × Word) → Result Kernel
  | [] => .ok k
  | (str, len) :: pieces => do
    let k ← syscallEntry m.P m.fuel k (m.client.asks 1#64 str len)
    write k pieces

/-- The loop of `calculate_fibonacci_numbers`, with the numbers that it prints. -/
def fibonacciLoop (upTo : Word) : Nat → Word → Word → Kernel → Result (List Word × Kernel)
  | 0, _, _, _ => .error .outOfFuel
  | n + 1, a, b, k => do
    let (tmp, k) ← m.calcAdd k a b
    let k ← m.write k (m.writes b)
    if upTo < b then return ([b], k)
    let (printed, k) ← fibonacciLoop upTo n b tmp k
    return (b :: printed, k)

def calculateFibonacciNumbers (upTo : Word) (rounds : Nat) (k : Kernel) :
    Result (List Word × Kernel) := do
  let k ← m.write k m.heading
  let (printed, k) ← m.fibonacciLoop upTo rounds 0 1 k
  let k ← m.write k m.ending
  return (printed, k)

end Session

/-! ## Clients and server connected -/

theorem Frame.asks_tag (regs : Frame) (number a1 : Word) (tag : MessageTag) :
    (regs.asks number a1 tag.toWord).tag = tag := MessageTag.ofWord_toWord tag

/-- A capability to the endpoint `e`, by its handle. -/
def HasEndpoint (s : Slots) (t cptr e : Word) : Prop :=
  ∃ slot, lookupCapSlot s (cspaceRootOf t) cptr 64#64 = .ok (.ok slot) ∧
    (s slot).cap.type = .endpoint ∧ capPtr (s slot).cap = e

/-- The client runs, the server waits first on the endpoint, and each has a buffer of its own and
a capability to the endpoint. -/
structure Session.Connected (m : Session) (k : Kernel) (c s e cb sb : Word) : Prop where
  serves : ∃ v, Serves k v s e
  current : k.currentTcb = some c
  clientBuffer : (k.tcbs c).ipcBuffer = some cb
  serverBuffer : (k.tcbs s).ipcBuffer = some sb
  apart : cb ≠ sb
  clientCap : HasEndpoint k.slots c m.clientCap e
  serverCap : HasEndpoint k.slots s m.serverCap e

namespace Session.Connected

variable {m : Session}

theorem ne (h : m.Connected k c s e cb sb) : c ≠ s := by
  rintro rfl
  exact h.apart (Option.some.inj (h.clientBuffer.symm.trans h.serverBuffer))

/-- User code writes to its own buffer. -/
theorem buffers (h : m.Connected k c s e cb sb) (buffers : Word → IpcBuffer) :
    m.Connected { k with buffers } c s e cb sb := by
  obtain ⟨v, hs⟩ := h.serves
  have hsame : SameView k { k with buffers } := .of_eq rfl rfl rfl rfl rfl
  exact ⟨⟨v, ⟨hsame.represents hs.represents, hs.consistent, hs.first, hs.receiving, hs.quiet⟩⟩,
    h.current, h.clientBuffer, h.serverBuffer, h.apart, h.clientCap, h.serverCap⟩

theorem own_buffer (h : m.Connected k c s e cb sb) : Tern.thisBuffer k = .ok cb := by
  simp only [Tern.thisBuffer, h.current, h.clientBuffer]

theorem setMr (h : m.Connected k c s e cb sb) (i : Nat) (x : Word) :
    Tern.setMr k i x = .ok (k.setBufferWord cb i x) ∧
      m.Connected (k.setBufferWord cb i x) c s e cb sb := by
  refine ⟨?_, h.buffers _⟩
  simp only [Tern.setMr, h.own_buffer, bind, Except.bind, pure, Except.pure]

end Session.Connected

/-! ## What the server computes -/

/-- How many words of the message a request is about. -/
def CalculatorRequest.operands : CalculatorRequest → Nat
  | .quit | .ret42 => 0
  | .double | .inc => 1
  | .add => 2

/-- The first word of the answer, from the words that the server finds in its buffer. -/
def CalculatorRequest.result (mr : Nat → Word) : CalculatorRequest → Word
  | .quit => mr 0
  | .ret42 => 42#64
  | .double => mr 0 * 2#64
  | .inc => mr 0 + 1#64
  | .add => mr 0 + mr 1

theorem calculatorCase_eq (hs : thisBuffer k = .ok sb) (r : CalculatorRequest) :
    calculatorCase k r = .ok (k.setBufferWord sb 0 (r.result (k.buffers sb))) := by
  have hmr : ∀ i, getMr k i = .ok (k.buffers sb i) := fun i => by
    simp only [getMr, hs, bind, Except.bind, pure, Except.pure]
  cases r with
  | quit =>
    have hsame : k.setBufferWord sb 0 (k.buffers sb 0) = k := by
      simp [Kernel.setBufferWord]
    exact congrArg Except.ok hsame.symm
  | ret42 | double | inc | add =>
    simp only [calculatorCase, hmr, setMr, hs, CalculatorRequest.result, bind, Except.bind, pure,
      Except.pure]

theorem CalculatorRequest.result_congr {mr mr' : Nat → Word} (r : CalculatorRequest)
    (h : ∀ i, i < r.operands → mr' i = mr i) (hr : r ≠ .quit) : r.result mr' = r.result mr := by
  cases r with
  | quit => exact absurd rfl hr
  | ret42 => rfl
  | double | inc => simp only [result, h 0 (by decide)]
  | add => simp only [result, h 0 (by decide), h 1 (by decide)]

/-- The tag of an answer, and its word if it has one. -/
def calculatorAnswer (tag : MessageTag) (mr : Nat → Word) : MessageTag × Option Word :=
  match CalculatorRequest.ofLabel? tag.label with
  | none => (newMessageTag calculatorErrorUnknown 0 0 0, none)
  | some r => (newMessageTag (tag.label.setWidth 64) 0 0 1, some (r.result mr))

/-- The first word of a buffer, if there is one to write. -/
def withWord (buffer : IpcBuffer) : Option Word → IpcBuffer
  | none => buffer
  | some x => Function.update buffer 0 x

/-- A thread has written to its own buffer. -/
def Kernel.withBuffer (k : Kernel) (p : Word) (buffer : IpcBuffer) : Kernel :=
  { k with buffers := Function.update k.buffers p buffer }

theorem calculatorBody_eq (hs : thisBuffer k = .ok sb) (tag : MessageTag) :
    calculatorBody k tag = .ok ((calculatorAnswer tag (k.buffers sb)).1,
      CalculatorRequest.ofLabel? tag.label == some .quit,
      k.withBuffer sb (withWord (k.buffers sb) (calculatorAnswer tag (k.buffers sb)).2)) := by
  unfold calculatorBody calculatorAnswer
  cases CalculatorRequest.ofLabel? tag.label with
  | none =>
    simp only [Kernel.withBuffer, withWord, Function.update_eq_self]
    rfl
  | some r =>
    simp only [calculatorCase_eq hs, bind, Except.bind, pure, Except.pure]
    cases r <;> rfl

theorem calculatorAnswer_length (tag : MessageTag) (mr : Nat → Word) :
    (calculatorAnswer tag mr).1.extraCaps = 0 ∧
      (calculatorAnswer tag mr).1.length.toNat =
        if (calculatorAnswer tag mr).2.isSome then 1 else 0 := by
  unfold calculatorAnswer
  cases CalculatorRequest.ofLabel? tag.label with
  | none => exact ⟨rfl, rfl⟩
  | some r => exact ⟨rfl, rfl⟩

/-- The client gets the answer's word, and nothing else of the server's buffer. -/
theorem copyMessage_answer (src dst : IpcBuffer) (tag : MessageTag) (mr : Nat → Word) :
    copyMessage (withWord src (calculatorAnswer tag mr).2) dst
        (calculatorAnswer tag mr).1.length.toNat =
      withWord dst (calculatorAnswer tag mr).2 := by
  rw [(calculatorAnswer_length tag mr).2]
  cases (calculatorAnswer tag mr).2 with
  | none => rfl
  | some x =>
    funext i
    by_cases hi : i = 0
    · simp [copyMessage, withWord, hi]
    · have hlt : ¬ i < 1 := by omega
      simp [copyMessage, withWord, hi, hlt]

/-! ## One call -/

/-- What a call of the client is about: its own words, and beyond the length of the message what
earlier calls have left in the server's buffer. -/
def requestWords (k : Kernel) (cb sb : Word) (tag : MessageTag) : Nat → Word :=
  copyMessage (k.buffers cb) (k.buffers sb) tag.length.toNat

theorem calculatorAnswer_received (buffers : Word → IpcBuffer) (cb sb badge : Word)
    (tag : MessageTag) (hquit : CalculatorRequest.ofLabel? tag.label ≠ some .quit) :
    calculatorAnswer tag (messageBuffers buffers cb sb badge tag.length.toNat sb) =
      calculatorAnswer tag (copyMessage (buffers cb) (buffers sb) tag.length.toNat) := by
  unfold calculatorAnswer
  cases hr : CalculatorRequest.ofLabel? tag.label with
  | none => rfl
  | some r =>
    simp only
    rw [r.result_congr (fun i hi => ?_) fun he => hquit (he ▸ hr)]
    have hlow : i ≠ senderBadge := by
      have : r.operands ≤ 2 := by cases r <;> decide
      rw [show senderBadge = 504 from rfl]
      omega
    simp only [messageBuffers, Function.update_self, Function.update_of_ne hlow]

namespace Session.Connected

variable {m : Session}

/-- The frame of a call or of an answer on the endpoint. -/
theorem onObject {slots : Slots} {t cptr : Word} (h : HasEndpoint slots t cptr e) (regs : Frame)
    (number : Word) {n : SyscallNumber} (hn : SyscallNumber.ofInt? (number.setWidth 32) = some n)
    (tag : MessageTag) :
    ∃ slot, OnObject slots .endpoint t (regs.asks number cptr tag.toWord) n slot e := by
  obtain ⟨slot, hfound, htype, hobj⟩ := h
  exact ⟨slot, rfl, hn, hfound, htype, hobj⟩

/-- Every request but QUIT is answered: the client goes on with the answer's tag in RAX and its
word in the first message register, and both are where they were. -/
theorem answered (h : m.Connected k c s e cb sb) (tag : MessageTag) (hcaps : tag.extraCaps = 0)
    (hquit : CalculatorRequest.ofLabel? tag.label ≠ some .quit) :
    ∃ k', m.call k tag = .ok k' ∧ m.Connected k' c s e cb sb ∧
      (k'.tcbs c).savedState.rax = (calculatorAnswer tag (requestWords k cb sb tag)).1.toWord ∧
      k'.buffers cb = Function.update
        (withWord (k.buffers cb) (calculatorAnswer tag (requestWords k cb sb tag)).2)
        senderBadge 0#64 := by
  obtain ⟨v, hs⟩ := h.serves
  obtain ⟨slotC, hf⟩ := onObject h.clientCap m.client 2#64 (n := .call) rfl tag
  obtain ⟨f, hfe⟩ : ∃ f, f = m.client.asks 2#64 m.clientCap tag.toWord := ⟨_, rfl⟩
  have hftag : f.tag = tag := hfe ▸ Frame.asks_tag m.client 2#64 m.clientCap tag
  rw [← hfe] at hf
  obtain ⟨k₁, hk₁, hcalled⟩ := hs.call_enters m.P m.fuel h.current h.clientBuffer
    h.serverBuffer hf (by rw [hftag]; exact hcaps)
  -- the server finds the words of the message
  have hcurrent₁ : k₁.currentTcb = some s := hcalled.represents.current
  have hbuffer₁ : Tern.thisBuffer k₁ = .ok sb := by
    simp only [Tern.thisBuffer, hcurrent₁, hcalled.server, h.serverBuffer]
  have hrax : MessageTag.ofWord (k₁.tcbs s).savedState.rax = tag := by
    rw [hcalled.server]
    show MessageTag.ofWord f.tag.toWord = tag
    rw [MessageTag.ofWord_toWord, hftag]
  have hwords : calculatorAnswer tag (k₁.buffers sb) =
      calculatorAnswer tag (requestWords k cb sb tag) := by
    rw [hcalled.buffers, hftag]
    exact calculatorAnswer_received k.buffers cb sb _ tag hquit
  obtain ⟨k₂, hk₂⟩ : ∃ k₂, k₂ = k₁.withBuffer sb
    (withWord (k₁.buffers sb) (calculatorAnswer tag (requestWords k cb sb tag)).2) := ⟨_, rfl⟩
  have hbody : calculatorBody k₁ tag =
      .ok ((calculatorAnswer tag (requestWords k cb sb tag)).1, false, k₂) := by
    rw [calculatorBody_eq hbuffer₁, hwords, ← hk₂, beq_false_of_ne hquit]
  have hsame : SameView k₁ k₂ := hk₂ ▸ .of_eq rfl rfl rfl rfl rfl
  have hwork : OwnWork k₁ k₂ s cb := by
    refine ⟨hsame, ?_, fun x _ => ?_, ?_, ?_⟩ <;> subst hk₂
    · rfl
    · rfl
    · exact id
    · exact Function.update_of_ne h.apart _ _
  -- its answer
  have hserverCap : HasEndpoint k₂.slots s m.serverCap e := by
    have hslots₂ : k₂.slots = k.slots := by
      rw [hk₂]
      exact hcalled.slots
    rw [hslots₂]
    exact h.serverCap
  obtain ⟨slotS, hg⟩ := onObject hserverCap m.server 9#64 (n := .replyrecv) rfl
    (calculatorAnswer tag (requestWords k cb sb tag)).1
  obtain ⟨g, hge⟩ : ∃ g, g = m.server.asks 9#64 m.serverCap
    (calculatorAnswer tag (requestWords k cb sb tag)).1.toWord := ⟨_, rfl⟩
  have hgtag : g.tag = (calculatorAnswer tag (requestWords k cb sb tag)).1 :=
    hge ▸ Frame.asks_tag m.server 9#64 m.serverCap _
  rw [← hge] at hg
  obtain ⟨k', hk', hdone⟩ := hs.round m.P m.fuel h.current h.clientBuffer
    h.serverBuffer hcalled hwork hg (by rw [hgtag]; exact (calculatorAnswer_length tag _).1)
  have hslots : k'.slots = k.slots := by
    rw [hdone.slots, hk₂]
    exact hcalled.slots
  refine ⟨k', ?_, ⟨?_, hdone.current, ?_, ?_, h.apart, ?_, ?_⟩, ?_, ?_⟩
  · simp only [Session.call, ← hfe, hk₁, calculatorTurn, thisTcb, hcurrent₁, deref, hrax, hbody,
      Bool.false_eq_true, if_false, ← hge, hk', bind, Except.bind]
  · obtain ⟨v', hs', -⟩ := hdone.serves
    exact ⟨v', hs'⟩
  · rw [hdone.caller]
    exact h.clientBuffer
  · rw [hdone.server]
    exact h.serverBuffer
  · rw [hslots]
    exact h.clientCap
  · rw [hslots]
    exact h.serverCap
  · rw [hdone.caller]
    show g.tag.toWord = _
    rw [hgtag]
  · have hown : k₂.buffers sb =
        withWord (k₁.buffers sb) (calculatorAnswer tag (requestWords k cb sb tag)).2 := by
      rw [hk₂]
      exact Function.update_self ..
    have hkept : k₂.buffers cb = k.buffers cb := by
      rw [hwork.buffer, hcalled.buffers]
      exact Function.update_of_ne h.apart _ _
    rw [hdone.buffers, messageBuffers, Function.update_self, hown, hkept, hgtag, copyMessage_answer]

end Session.Connected

/-! ## Fibonacci numbers -/

namespace Session.Connected

variable {m : Session}

/-- The server adds the two words of its client. -/
theorem calcAdd (h : m.Connected k c s e cb sb) (a b : Word) :
    ∃ k', m.calcAdd k a b = .ok (a + b, k') ∧ m.Connected k' c s e cb sb := by
  obtain ⟨hset₀, h₀⟩ := h.setMr 0 a
  obtain ⟨hset₁, h₁⟩ := h₀.setMr 1 b
  obtain ⟨k', hk', h', -, hbuffer⟩ := h₁.answered
    (newMessageTag CalculatorRequest.add.label 0 0 2) rfl (by decide)
  have hanswer : calculatorAnswer (newMessageTag CalculatorRequest.add.label 0 0 2)
      (requestWords ((k.setBufferWord cb 0 a).setBufferWord cb 1 b) cb sb
        (newMessageTag CalculatorRequest.add.label 0 0 2)) =
      (newMessageTag 4 0 0 1, some (a + b)) := by
    simp [calculatorAnswer, CalculatorRequest.result, requestWords, copyMessage,
      Kernel.setBufferWord]
    rfl
  refine ⟨k', ?_, h'⟩
  rw [hanswer] at hbuffer
  have hword : k'.buffers cb 0 = a + b := by
    rw [hbuffer, Function.update_of_ne (by decide), withWord, Function.update_self]
  simp only [Session.calcAdd, h.own_buffer, hset₀, hset₁, hk', hword, bind, Except.bind, pure,
    Except.pure]

/-- Writing for debugging comes back to the client at once. -/
theorem write (h : m.Connected k c s e cb sb) (pieces : List (Word × Word)) :
    ∃ k', m.write k pieces = .ok k' ∧ m.Connected k' c s e cb sb := by
  induction pieces generalizing k with
  | nil => exact ⟨k, rfl, h⟩
  | cons piece pieces ih =>
    obtain ⟨str, len⟩ := piece
    obtain ⟨f, hf⟩ : ∃ f, f = m.client.asks 1#64 str len := ⟨_, rfl⟩
    obtain ⟨v, hs⟩ := h.serves
    obtain ⟨k₁, hk₁⟩ : ∃ k₁, k₁ = (k.withFrame c f).modifyTcb c fun x =>
      { x with currentUserFrame := some { f with rax := msgOk.toWord } } := ⟨_, rfl⟩
    have hentry : syscallEntry m.P m.fuel k f = .ok k₁ := by
      have huser : f.cs = userCs := by rw [hf]; rfl
      have hn : SyscallNumber.ofInt? (f.rax.setWidth 32) = some .debugWrite := by rw [hf]; rfl
      have hno : msgOk.isNoreturn = false := by decide
      have hthis : thisTcb (k.withFrame c f) = .ok c := by
        simp only [thisTcb, Kernel.withFrame, Kernel.modifyTcb, h.current, deref]
      have hframe : ((k.withFrame c f).tcbs c).currentUserFrame = some f := by
        rw [Kernel.withFrame_self]
      have hset := setIpcResult_current (k := k.withFrame c f) (t := c) h.current hframe msgOk
      have hreturn : k₁.returnToTcb = k₁.currentTcb := by
        rw [hk₁]
        exact hs.represents.returnTo.trans
          (hs.consistent.returns.returnTo.trans hs.represents.current.symm)
      simp only [syscallEntry, saveFrameOnTcb_user h.current huser, doSyscall, opSyscall, hn,
        Option.bind_some, opSyscallPlain, hno, Bool.false_eq_true, if_false, hthis, hset, ← hk₁,
        bind, Except.bind]
      exact returnFromKernelCode_stays m.P.dm hreturn
    have hother : ∀ x, x ≠ c → k₁.tcbs x = k.tcbs x := fun x hx => by
      rw [hk₁, Kernel.modifyTcb_tcbs, if_neg hx, Kernel.withFrame_ne _ _ hx]
    have h₁ : m.Connected k₁ c s e cb sb := by
      have hview := SameView.modifyTcb (k.withFrame c f) c (fun x =>
        { x with currentUserFrame := some { f with rax := msgOk.toWord } }) (fun _ => rfl)
        (fun _ => rfl) (fun _ => rfl)
      rw [← hk₁] at hview
      refine ⟨⟨v, hview.represents (hs.represents.withFrame c f), hs.consistent, hs.first,
        hs.receiving, ?_⟩, ?_, ?_, ?_, h.apart, ?_, ?_⟩
      · intro n hn
        rw [hother s h.ne.symm] at hn
        rw [hk₁]
        exact hs.quiet n hn
      · rw [hk₁]
        exact h.current
      · rw [hk₁, Kernel.modifyTcb_tcbs, if_pos rfl, Kernel.withFrame_self]
        exact h.clientBuffer
      · rw [hother s h.ne.symm]
        exact h.serverBuffer
      · rw [hk₁]
        exact h.clientCap
      · rw [hk₁]
        exact h.serverCap
    obtain ⟨k', hk', h'⟩ := ih h₁
    exact ⟨k', by simp only [Session.write, ← hf, hentry, bind, Except.bind, hk'], h'⟩

end Session.Connected

/-- The Fibonacci numbers as far as 64 bits hold them. -/
def fibWord (n : Nat) : Word := BitVec.ofNat 64 (Nat.fib n)

theorem fibWord_add (n : Nat) : fibWord n + fibWord (n + 1) = fibWord (n + 2) := by
  simp only [fibWord, Nat.fib_add_two, BitVec.ofNat_add]

/-- The `j`th round from here on is the last one. -/
theorem Session.Connected.fibonacciLoop {m : Session} (h : m.Connected k c s e cb sb) (upTo : Word)
    (i j : Nat) (hgo : ∀ t, t < j → fibWord (i + 1 + t) ≤ upTo)
    (hlast : upTo < fibWord (i + 1 + j)) :
    ∃ k', m.Connected k' c s e cb sb ∧ ∀ n, j < n →
      m.fibonacciLoop upTo n (fibWord i) (fibWord (i + 1)) k =
        .ok ((List.range (j + 1)).map fun t => fibWord (i + 1 + t), k') := by
  induction j generalizing i k with
  | zero =>
    obtain ⟨k₁, hadd, h₁⟩ := h.calcAdd (fibWord i) (fibWord (i + 1))
    obtain ⟨k₂, hwrite, h₂⟩ := h₁.write (m.writes (fibWord (i + 1)))
    refine ⟨k₂, h₂, fun n hn => ?_⟩
    obtain ⟨n, rfl⟩ : ∃ n', n = n' + 1 := ⟨n - 1, by omega⟩
    simp only [Session.fibonacciLoop, hadd, hwrite, if_pos hlast, bind, Except.bind, pure,
      Except.pure]
    rfl
  | succ j ih =>
    obtain ⟨k₁, hadd, h₁⟩ := h.calcAdd (fibWord i) (fibWord (i + 1))
    obtain ⟨k₂, hwrite, h₂⟩ := h₁.write (m.writes (fibWord (i + 1)))
    have hshift : ∀ t, i + 1 + 1 + t = i + 1 + (t + 1) := by omega
    obtain ⟨k', h', hloop⟩ := ih h₂ (i + 1)
      (fun t ht => by rw [hshift]; exact hgo (t + 1) (by omega)) (by rw [hshift]; exact hlast)
    refine ⟨k', h', fun n hn => ?_⟩
    obtain ⟨n, rfl⟩ : ∃ n', n = n' + 1 := ⟨n - 1, by omega⟩
    have hmore : ¬ upTo < fibWord (i + 1) := by
      have := hgo 0 (by omega)
      rwa [Nat.add_zero, ← BitVec.not_lt] at this
    have hrest := hloop n (by omega)
    rw [fibWord_add] at hadd
    rw [List.range_succ_eq_map, List.map_cons, List.map_map]
    simp only [Session.fibonacciLoop, hadd, hwrite, if_neg hmore, hrest, bind, Except.bind, pure,
      Except.pure, hshift]
    rfl

/-- Without a number above the bound the loop goes on. -/
theorem Session.Connected.fibonacciLoop_on {m : Session} (h : m.Connected k c s e cb sb)
    (upTo : Word) (i n : Nat) (hgo : ∀ t, t < n → fibWord (i + 1 + t) ≤ upTo) :
    m.fibonacciLoop upTo n (fibWord i) (fibWord (i + 1)) k = .error .outOfFuel := by
  induction n generalizing i k with
  | zero => rfl
  | succ n ih =>
    obtain ⟨k₁, hadd, h₁⟩ := h.calcAdd (fibWord i) (fibWord (i + 1))
    obtain ⟨k₂, hwrite, h₂⟩ := h₁.write (m.writes (fibWord (i + 1)))
    have hshift : ∀ t, i + 1 + 1 + t = i + 1 + (t + 1) := by omega
    have hrest := ih h₂ (i + 1) fun t ht => by rw [hshift]; exact hgo (t + 1) (by omega)
    have hmore : ¬ upTo < fibWord (i + 1) := by
      have := hgo 0 (by omega)
      rwa [Nat.add_zero, ← BitVec.not_lt] at this
    rw [fibWord_add] at hadd
    simp only [Session.fibonacciLoop, hadd, hwrite, if_neg hmore, hrest, bind, Except.bind]

theorem fib_lt (n : Nat) (hn : n ≤ 93) : Nat.fib n < 2 ^ 64 :=
  (Nat.fib_mono hn).trans_lt (by decide +kernel)

theorem fibWord_toNat {n : Nat} (hn : n ≤ 93) : (fibWord n).toNat = Nat.fib n := by
  rw [fibWord, BitVec.toNat_ofNat, Nat.mod_eq_of_lt (fib_lt n hn)]

/-- The whole function, in words. -/
theorem Session.Connected.calculates {m : Session} (h : m.Connected k c s e cb sb) (upTo : Word)
    (j : Nat) (hgo : ∀ i, i < j → fibWord (i + 1) ≤ upTo) (hlast : upTo < fibWord (j + 1)) :
    ∃ k', m.Connected k' c s e cb sb ∧ ∀ rounds, j < rounds →
      m.calculateFibonacciNumbers upTo rounds k =
        .ok ((List.range (j + 1)).map fun i => fibWord (i + 1), k') := by
  obtain ⟨k₁, hheading, h₁⟩ := h.write m.heading
  have hshift : ∀ t, 0 + 1 + t = t + 1 := by omega
  obtain ⟨k₂, h₂, hloop⟩ := h₁.fibonacciLoop upTo 0 j (fun t ht => by rw [hshift]; exact hgo t ht)
    (by rw [hshift]; exact hlast)
  obtain ⟨k₃, hending, h₃⟩ := h₂.write m.ending
  refine ⟨k₃, h₃, fun rounds hr => ?_⟩
  have hrun : m.fibonacciLoop upTo rounds 0 1 k₁ = _ := hloop rounds hr
  simp only [Session.calculateFibonacciNumbers, hheading, hrun, hending, hshift, bind, Except.bind,
    pure, Except.pure]

/-- It ends only with a word above the bound. -/
theorem Session.Connected.calculates_only {m : Session} (h : m.Connected k c s e cb sb)
    {upTo : Word} {rounds : Nat} {printed : List Word}
    (hk : m.calculateFibonacciNumbers upTo rounds k = .ok (printed, k')) :
    ∃ j, (∀ i, i < j → fibWord (i + 1) ≤ upTo) ∧ upTo < fibWord (j + 1) ∧
      printed = (List.range (j + 1)).map fun i => fibWord (i + 1) := by
  by_cases hex : ∃ j, j < rounds ∧ upTo < fibWord (j + 1)
  · obtain ⟨hlt, hlast⟩ := Nat.find_spec hex
    have hfirst : ∀ i, i < Nat.find hex → fibWord (i + 1) ≤ upTo := fun i hi => by
      have hno := Nat.find_min hex hi
      rw [← BitVec.not_lt]
      exact fun habove => hno ⟨by omega, habove⟩
    obtain ⟨k₂, -, hrun⟩ := h.calculates upTo _ hfirst hlast
    cases hk.symm.trans (hrun rounds hlt)
    exact ⟨_, hfirst, hlast, rfl⟩
  · obtain ⟨k₁, hheading, h₁⟩ := h.write m.heading
    have hgo : ∀ t, t < rounds → fibWord (0 + 1 + t) ≤ upTo := fun t ht => by
      rw [← BitVec.not_lt, show 0 + 1 + t = t + 1 by omega]
      exact fun habove => hex ⟨t, ht, habove⟩
    have hrun : m.fibonacciLoop upTo rounds 0 1 k₁ = _ := h₁.fibonacciLoop_on upTo 0 rounds hgo
    simp only [Session.calculateFibonacciNumbers, hheading, hrun, bind, Except.bind] at hk
    cases hk

/-- `calculate_fibonacci_numbers` over the calculator prints the Fibonacci numbers up to the first
one above the bound, and comes to an end, for every bound below the largest Fibonacci number of 64
bits. For any other bound, if it ends at all, the 94th number that it prints is wrong. -/
theorem fibonacci_numbers {m : Session} (h : m.Connected k c s e cb sb) (upTo : Word) :
    (upTo.toNat < Nat.fib 93 → ∃ j k', (∀ i, i < j → Nat.fib (i + 1) ≤ upTo.toNat) ∧
      upTo.toNat < Nat.fib (j + 1) ∧ m.Connected k' c s e cb sb ∧
      ∀ rounds, j < rounds → ∃ printed,
        m.calculateFibonacciNumbers upTo rounds k = .ok (printed, k') ∧
        printed.map BitVec.toNat = (List.range (j + 1)).map fun i => Nat.fib (i + 1)) ∧
    (Nat.fib 93 ≤ upTo.toNat → ∀ rounds printed k',
      m.calculateFibonacciNumbers upTo rounds k = .ok (printed, k') →
        ∃ x, printed[93]? = some x ∧ x.toNat ≠ Nat.fib 94) := by
  refine ⟨fun hup => ?_, fun hup rounds printed k' hk' => ?_⟩
  · have hex : ∃ j, upTo.toNat < Nat.fib (j + 1) := ⟨92, hup⟩
    have hle : Nat.find hex ≤ 92 := Nat.find_min' hex hup
    have hfirst : ∀ i, i < Nat.find hex → Nat.fib (i + 1) ≤ upTo.toNat := fun i hi =>
      Nat.le_of_not_lt (Nat.find_min hex hi)
    obtain ⟨k', h', hrun⟩ := h.calculates upTo (Nat.find hex)
      (fun i hi => by
        rw [BitVec.le_def, fibWord_toNat (by omega)]
        exact hfirst i hi)
      (by
        rw [BitVec.lt_def, fibWord_toNat (by omega)]
        exact Nat.find_spec hex)
    refine ⟨_, k', hfirst, Nat.find_spec hex, h', fun rounds hr => ⟨_, hrun rounds hr, ?_⟩⟩
    rw [List.map_map]
    refine List.map_congr_left fun i hi => fibWord_toNat ?_
    have := List.mem_range.mp hi
    omega
  · obtain ⟨j, -, hlast, rfl⟩ := h.calculates_only hk'
    have hj : 93 ≤ j := by
      by_contra hlt
      have hfib := Nat.fib_mono (show j + 1 ≤ 93 by omega)
      rw [BitVec.lt_def, fibWord_toNat (by omega)] at hlast
      omega
    refine ⟨fibWord 94, ?_, by decide +kernel⟩
    rw [List.getElem?_map, List.getElem?_range (by omega)]
    rfl

/-- The worker has received on the endpoint, and the boot thread runs. -/
def exampleSession : Session where
  P := examplePlatform
  fuel := 0
  client := {}
  server := {}
  clientCap := 6
  serverCap := 6
  heading := [(0x1000#64, 11#64)]
  writes _ := [(0x2000#64, 4#64)]
  ending := []

theorem exampleSession_connected : ∃ k, exampleSession.Connected k initTcb workerTcb exampleEndpoint
    (initTcb + 0x1000#64) (workerTcb + 0x1000#64) := by
  obtain ⟨k, k', hmeeting, hs, hr⟩ := meeting_worker
  have hsame := hmeeting.same
  have hquiet : NothingPending k' workerTcb := by
    intro n hn
    rw [hsame.boundNotification] at hn
    rw [hsame.notifications]
    exact hmeeting.quiet n hn
  obtain ⟨k₁, v₁, -, hserves, hwaits, hbuffer⟩ := hmeeting.receiver.serves hmeeting.empty'
    (hsame.slots ▸ hmeeting.recv) hquiet examplePlatform 0
  have hcap : ∀ {t f n}, OnObject k.slots .endpoint t f n (initSlot 6) exampleEndpoint →
      HasEndpoint k₁.slots t f.rdi exampleEndpoint := by
    intro t f n h
    rw [hwaits.slots, hsame.slots]
    exact ⟨initSlot 6, h.found, h.type, h.object⟩
  exact ⟨k₁, ⟨v₁, hserves⟩, hwaits.current, hwaits.ipcBuffer.trans ((hsame.ipcBuffer _).trans hs),
    hbuffer.trans ((hsame.ipcBuffer _).trans hr), by decide, hcap hmeeting.send, hcap hmeeting.recv⟩

theorem fibonacci_numbers_ten : ∃ k k' printed,
    exampleSession.calculateFibonacciNumbers 10#64 7 k = .ok (printed, k') ∧
      printed.map BitVec.toNat = [1, 1, 2, 3, 5, 8, 13] := by
  obtain ⟨k, h⟩ := exampleSession_connected
  obtain ⟨j, k', hfirst, hlast, -, hrun⟩ := (fibonacci_numbers h 10#64).1 (by decide +kernel)
  have hj : j = 6 := by
    have hle : j ≤ 6 := by
      by_contra hgt
      exact absurd (hfirst 6 (by omega)) (by decide +kernel)
    have hge : 6 ≤ j := by
      by_contra hlt
      have hmono := Nat.fib_mono (show j + 1 ≤ 6 by omega)
      have height : Nat.fib 6 = 8 := rfl
      have hten : (10#64).toNat = 10 := rfl
      omega
    omega
  subst hj
  obtain ⟨printed, hprinted, hnumbers⟩ := hrun 7 (by decide)
  exact ⟨k, k', printed, hprinted, hnumbers.trans (by decide +kernel)⟩

/-! ## Any number of calls -/

/-- Requests one after the other, each with what the client has written to its buffer before, and
the tag and the buffer that it finds after each. -/
def Session.callAll (m : Session) :
    List (MessageTag × IpcBuffer) → Kernel → Result (List (MessageTag × IpcBuffer) × Kernel)
  | [], k => .ok ([], k)
  | (tag, words) :: requests, k => do
    let c ← thisTcb k
    let buffer ← thisBuffer k
    let k ← m.call (k.withBuffer buffer words) tag
    let answer := (MessageTag.ofWord (k.tcbs c).savedState.rax, k.buffers buffer)
    let (answers, k) ← m.callAll requests k
    return (answer :: answers, k)

/-- The message is as long as what the request is about, and the request is not to quit. -/
structure Carries (tag : MessageTag) : Prop where
  caps : tag.extraCaps = 0
  stays : CalculatorRequest.ofLabel? tag.label ≠ some .quit
  operands : ∀ r, CalculatorRequest.ofLabel? tag.label = some r → r.operands ≤ tag.length.toNat

/-- The answer as a function of the request alone. -/
def localAnswer (request : MessageTag × IpcBuffer) : MessageTag × IpcBuffer :=
  ((calculatorAnswer request.1 request.2).1,
    Function.update (withWord request.2 (calculatorAnswer request.1 request.2).2) senderBadge 0#64)

theorem Carries.answer {tag : MessageTag} (h : Carries tag) (words dst : IpcBuffer) :
    calculatorAnswer tag (copyMessage words dst tag.length.toNat) = calculatorAnswer tag words := by
  unfold calculatorAnswer
  cases hr : CalculatorRequest.ofLabel? tag.label with
  | none => rfl
  | some r =>
    have hlt : ∀ i, i < r.operands → copyMessage words dst tag.length.toNat i = words i :=
      fun i hi => if_pos (lt_of_lt_of_le hi (h.operands r hr))
    simp only
    rw [r.result_congr hlt fun he => h.stays (he ▸ hr)]

/-- Any number of requests, in any order, whatever else is in the registers and on the run queue:
the calls are a function of the requests, applied to each; nothing of one call shows in another. -/
theorem calculator_answers {m : Session} (h : m.Connected k c s e cb sb)
    (requests : List (MessageTag × IpcBuffer)) (hall : ∀ r ∈ requests, Carries r.1) :
    ∃ k', m.callAll requests k = .ok (requests.map localAnswer, k') ∧
      m.Connected k' c s e cb sb := by
  induction requests generalizing k with
  | nil => exact ⟨k, rfl, h⟩
  | cons request requests ih =>
    obtain ⟨tag, words⟩ := request
    have hcarries : Carries tag := hall _ List.mem_cons_self
    have hown : m.Connected (k.withBuffer cb words) c s e cb sb := h.buffers _
    have hwords : (k.withBuffer cb words).buffers cb = words := Function.update_self ..
    obtain ⟨k₁, hcall, h₁, hrax, hbuffer⟩ := hown.answered tag hcarries.caps hcarries.stays
    obtain ⟨k', hrest, h'⟩ := ih h₁ fun r hr => hall r (List.mem_cons_of_mem _ hr)
    have hanswer : calculatorAnswer tag (requestWords (k.withBuffer cb words) cb sb tag) =
        calculatorAnswer tag words := by
      rw [requestWords, hwords]
      exact hcarries.answer words _
    rw [hanswer] at hrax
    rw [hanswer, hwords] at hbuffer
    refine ⟨k', ?_, h'⟩
    simp only [Session.callAll, thisTcb, h.current, deref, h.own_buffer, hcall, hrest, hrax,
      hbuffer, MessageTag.ofWord_toWord, bind, Except.bind, pure, Except.pure]
    rfl

/-- Two requests of the boot thread. -/
theorem calculator_answers_two : ∃ k k', exampleSession.callAll
    [(newMessageTag 3 0 0 1, fun _ => 41#64), (newMessageTag 9 0 0 1, fun _ => 7#64)] k =
      .ok ([localAnswer (newMessageTag 3 0 0 1, fun _ => 41#64),
        localAnswer (newMessageTag 9 0 0 1, fun _ => 7#64)], k') := by
  obtain ⟨k, h⟩ := exampleSession_connected
  obtain ⟨k', hk', -⟩ := calculator_answers h
    [(newMessageTag 3 0 0 1, fun _ => 41#64), (newMessageTag 9 0 0 1, fun _ => 7#64)] (by
      intro r hr
      simp only [List.mem_cons, List.not_mem_nil, or_false] at hr
      rcases hr with rfl | rfl
      · refine ⟨rfl, by decide, fun r hr => ?_⟩
        have hinc : r = .inc := (Option.some.inj (hr.symm.trans (by rfl)))
        rw [hinc]
        decide
      · refine ⟨rfl, by decide, fun r hr => ?_⟩
        cases hr.symm.trans (show _ = none by rfl))
  exact ⟨k, k', hk'⟩

end Tern
