import Tern.PciManager
import Tern.Serial

/-! The local arrays of two user servers. How far `write_uart` goes is up to its
client, and how far `handle_enumerate` goes to the devices on the bus; neither
compares it with the size of its array. -/

namespace Tern

open Lib

/-! ## Local arrays -/

/-- `x[i]`. -/
def localGet {α : Type} {n : Nat} (x : Vector α n) (i : Nat) : Result α :=
  if h : i < n then .ok x[i] else .error .fault

/-- `x[i] = a`. -/
def localSet {α : Type} {n : Nat} (x : Vector α n) (i : Nat) (a : α) : Result (Vector α n) :=
  if h : i < n then .ok (x.set i a) else .error .fault

theorem localGet_isOk {α : Type} {n i : Nat} {x : Vector α n} (h : i < n) :
    ∃ a, localGet x i = .ok a :=
  ⟨x[i], dif_pos h⟩

theorem localSet_isOk {α : Type} {n i : Nat} {x : Vector α n} {a : α} (h : i < n) :
    ∃ x', localSet x i a = .ok x' :=
  ⟨x.set i a, dif_pos h⟩

theorem localSet_fault {α : Type} {n i : Nat} {x : Vector α n} {a : α} (h : n ≤ i) :
    localSet x i a = .error .fault :=
  dif_neg (Nat.not_lt.mpr h)

section

variable {S : Type} {f : S → Nat → Result S} {cap n : Nat}

/-- A loop whose rounds below `cap` go through. -/
theorem foldlM_range_isOk (hin : ∀ s i, i < cap → ∃ s', f s i = .ok s') (h : n ≤ cap) (s : S) :
    ∃ s', (List.range n).foldlM f s = .ok s' := by
  induction n with
  | zero => exact ⟨s, rfl⟩
  | succ n ih =>
    obtain ⟨s₁, hs₁⟩ := ih (by omega)
    obtain ⟨s₂, hs₂⟩ := hin s₁ n (by omega)
    refine ⟨s₂, ?_⟩
    rw [List.range_succ, List.foldlM_append, hs₁]
    show f s₁ n >>= pure = _
    rw [hs₂]
    rfl

/-- The loop does not get past `cap`. -/
theorem foldlM_range_fault (hin : ∀ s i, i < cap → ∃ s', f s i = .ok s')
    (hout : ∀ s, f s cap = .error .fault) (h : cap < n) (s : S) :
    (List.range n).foldlM f s = .error .fault := by
  induction n with
  | zero => omega
  | succ n ih =>
    rw [List.range_succ, List.foldlM_append]
    rcases (Nat.le_of_lt_succ h).lt_or_eq with hlt | rfl
    · rw [ih hlt]
      rfl
    · obtain ⟨s₁, hs₁⟩ := foldlM_range_isOk hin le_rfl s
      rw [hs₁]
      show (f s₁ cap >>= pure) = _
      rw [hout]
      rfl

end

/-! ## The serial driver -/

namespace Serial

/-- `write_uart`; the array is not initialised. -/
def writeUartLocal (d : Driver) (m : Message) (buffer : Vector Byte 128) : Result Driver := do
  let length := m.info.length.toNat
  let buffer ← (List.range length).foldlM
    (fun buffer i => localSet buffer i ((m.mrs i).setWidth 8)) buffer
  (List.range length).foldlM (fun d i => do
    let value ← localGet buffer i
    return d.portWrite uartData value) d

section

variable {d : Driver} {m : Message} {buffer : Vector Byte 128}

theorem writeUartLocal_set (buffer : Vector Byte 128) (i : Nat) (hi : i < 128) :
    ∃ buffer', localSet buffer i ((m.mrs i).setWidth 8) = .ok buffer' :=
  localSet_isOk hi

theorem writeUartLocal_isOk (hfits : m.info.length.toNat ≤ 128) :
    ∃ d', writeUartLocal d m buffer = .ok d' := by
  obtain ⟨filled, hfilled⟩ := foldlM_range_isOk writeUartLocal_set hfits buffer
  have hget : ∀ (d : Driver) i, i < 128 → ∃ d',
      (localGet filled i >>= fun value => (pure (d.portWrite uartData value) : Result Driver)) =
        .ok d' := by
    intro d i hi
    obtain ⟨value, hvalue⟩ := localGet_isOk (x := filled) hi
    exact ⟨_, by rw [hvalue]; rfl⟩
  obtain ⟨d', hd'⟩ := foldlM_range_isOk hget hfits d
  exact ⟨d', by rw [writeUartLocal, hfilled]; exact hd'⟩

/-- The first loop fills the array up to the length. -/
theorem writeUartLocal_filled {n : Nat} (hn : n ≤ 128) : ∃ filled : Vector Byte 128,
    (List.range n).foldlM (fun buffer i => localSet buffer i ((m.mrs i).setWidth 8)) buffer =
      .ok filled ∧ ∀ i (hi : i < 128), i < n → filled[i] = (m.mrs i).setWidth 8 := by
  induction n with
  | zero => exact ⟨buffer, rfl, fun i _ hlt => absurd hlt (Nat.not_lt_zero i)⟩
  | succ n ih =>
    obtain ⟨filled, hfilled, hvalues⟩ := ih (by omega)
    refine ⟨filled.set n ((m.mrs n).setWidth 8), ?_, fun i hi hlt => ?_⟩
    · rw [List.range_succ, List.foldlM_append, hfilled]
      show (localSet filled n _ >>= pure) = _
      rw [localSet, dif_pos (show n < 128 by omega)]
      rfl
    · rcases eq_or_ne i n with rfl | hne
      · rw [Vector.getElem_set_self]
      · rw [Vector.getElem_set_ne _ _ (Ne.symm hne)]
        exact hvalues i hi (by omega)

theorem writeUartLocal_fault (hlong : 128 < m.info.length.toNat) :
    writeUartLocal d m buffer = .error .fault := by
  rw [writeUartLocal, foldlM_range_fault writeUartLocal_set (fun _ => localSet_fault le_rfl) hlong]
  rfl

/-- What the two loops do, where they do not leave the array. -/
theorem writeUartLocal_eq : (writeUartLocal d m buffer).toOption = d.writeUart m := by
  rcases Nat.lt_or_ge 128 m.info.length.toNat with hlong | hfits
  · rw [writeUartLocal_fault hlong, Driver.writeUart, if_pos hlong]
    rfl
  · obtain ⟨filled, hfilled, hvalues⟩ := writeUartLocal_filled (m := m) hfits
    have hwrite : ∀ l : List Nat, (∀ i ∈ l, i < m.info.length.toNat) → ∀ d : Driver,
        l.foldlM (fun d i => do
          let value ← localGet filled i
          return d.portWrite uartData value) d =
          (.ok (l.foldl (fun d i => d.portWrite uartData ((m.mrs i).setWidth 8)) d) :
            Result Driver) := by
      intro l
      induction l with
      | nil => exact fun _ _ => rfl
      | cons i l ih =>
        intro hl d
        have hi : i < m.info.length.toNat := hl i List.mem_cons_self
        have hget : localGet filled i = .ok ((m.mrs i).setWidth 8) := by
          rw [localGet, dif_pos (show i < 128 by omega), hvalues i (by omega) hi]
        rw [List.foldlM_cons, hget, List.foldl_cons]
        exact ih (fun j hj => hl j (List.mem_cons_of_mem i hj)) _
    rw [writeUartLocal, hfilled, Driver.writeUart, if_neg (Nat.not_lt.mpr hfits)]
    exact congrArg Except.toOption (hwrite _ (fun i hi => List.mem_range.mp hi) d)

end

end Serial

/-! ## The PCI manager -/

namespace Pci

/-- `mrs` and `mr`. -/
structure Enumeration where
  mrs : Vector Word 64
  mr : Nat

/-- No device answers at an address that reads as all ones. -/
def noDevice : Word := 0xFFFFFFFF#64

/-- The body of the innermost loop of `handle_enumerate`; the result tells whether it is
left for `done`. -/
def enumerateFunction (P : Platform) (fuel : Nat) (bus dev func : BitVec 8)
    (s : Enumeration × Kernel) : Result (Bool × Enumeration × Kernel) := do
  let (found, k) := s
  let addr := pciAddr bus dev func 0#16
  let (info, k) ← pciRead P fuel .l k addr
  let found : Enumeration ←
    if info ≠ noDevice then do
      let mrs ← localSet found.mrs found.mr (addr.setWidth 64 <<< 32 ||| info)
      pure ⟨mrs, found.mr + 1⟩
    else pure found
  return (decide (messageMaxLength ≤ found.mr), found, k)

/-- The loops over `dev` and `func`. -/
def pciFunctions : List (BitVec 8 × BitVec 8) :=
  (List.range 32).flatMap fun dev => (List.range 8).map fun func =>
    (BitVec.ofNat 8 dev, BitVec.ofNat 8 func)

def enumerateBus (P : Platform) (fuel : Nat) (bus : BitVec 8) :
    List (BitVec 8 × BitVec 8) → Enumeration × Kernel → Result (Bool × Enumeration × Kernel)
  | [], s => .ok (false, s)
  | (dev, func) :: rest, s => do
    let (done, s) ← enumerateFunction P fuel bus dev func s
    if done then return (true, s) else enumerateBus P fuel bus rest s

/-- The loop over `bus`. -/
def enumerateBuses (P : Platform) (fuel : Nat) :
    List (BitVec 8) → Enumeration × Kernel → Result (Enumeration × Kernel)
  | [], s => .ok s
  | bus :: rest, (found, k) => do
    let (info, k) ← pciRead P fuel .l k (pciAddr bus 0#8 0#8 0#16)
    if info = noDevice then enumerateBuses P fuel rest (found, k)
    else
      let (done, s) ← enumerateBus P fuel bus pciFunctions (found, k)
      if done then return s else enumerateBuses P fuel rest s

def pciBuses : List (BitVec 8) := (List.range 256).map (BitVec.ofNat 8)

/-- `set_mr (i, x)`, whose array ends at `MESSAGE_MAX_LENGTH`. -/
def setMrChecked (k : Kernel) (i : Nat) (x : Word) : Result Kernel :=
  if i < messageMaxLength then setMr k i x else .error .fault

/-- `handle_enumerate`; the array is not initialised. -/
def handleEnumerate (P : Platform) (fuel : Nat) (k : Kernel) (badge : Word) (mrs : Vector Word 64) :
    Result (MessageTag × Kernel) := do
  if badge ≠ 0#64 then return (newMessageTag ErrorCode.illegalOperation.toWord 0 0 0, k)
  let (found, k) ← enumerateBuses P fuel pciBuses (⟨mrs, 0⟩, k)
  let k ← (List.range found.mr).foldlM (fun k i => do
    let x ← localGet found.mrs i
    setMrChecked k i x) k
  return (newMessageTag ErrorCode.noError.toWord 0 0 (BitVec.ofNat 64 found.mr), k)

/-! ## The devices on the bus -/

/-- The mechanism of PCI: the data port gives the word at the address written last. -/
def ConfigAccess (P : Platform) (config : BitVec 32 → BitVec 32) : Prop :=
  ∀ addr history, P.portValue (⟨0xCF8#16, 4, some addr⟩ :: history) 0xCFC#16 = config addr

/-- Something is there. -/
def answers (config : BitVec 32 → BitVec 32) (addr : BitVec 32) : Bool :=
  config addr != 0xFFFFFFFF#32

/-- The addresses of a bus's functions that answer. -/
def answeringOn (config : BitVec 32 → BitVec 32) (bus : BitVec 8)
    (functions : List (BitVec 8 × BitVec 8)) : List (BitVec 32) :=
  (functions.map fun f => pciAddr bus f.1 f.2 0#16).filter (answers config)

/-- The functions that answer, on the buses whose first device does. -/
def answering (config : BitVec 32 → BitVec 32) (buses : List (BitVec 8)) : List (BitVec 32) :=
  (buses.filter fun bus => answers config (pciAddr bus 0#8 0#8 0#16)).flatMap fun bus =>
    answeringOn config bus pciFunctions

section

variable {P : Platform} {fuel : Nat} {k : Kernel} {p buffer : Word} {config : BitVec 32 → BitVec 32}
  {found : Enumeration}

theorem pciRead_config (h : Manager k p buffer) (hP : ConfigAccess P config) (fuel : Nat)
    (addr : BitVec 32) :
    ∃ k', pciRead P fuel .l k addr = .ok ((config addr).setWidth 64, k') ∧ Manager k' p buffer := by
  have hfirst : 0xCF8#64 ≤ pciConfigAddress := by decide
  have hlast : 0xCF8#64 ≤ pciConfigData := by decide
  obtain ⟨k₁, hk₁, h₁, hout⟩ := h.portOut P fuel .l (addr.setWidth 64) hfirst (by decide)
  obtain ⟨k₂, hk₂, h₂, -, hword⟩ := h₁.portIn P fuel .l hlast (by decide)
  have hvalue : P.portValue k₁.portAccesses (pciConfigData.setWidth 16) = config addr := by
    rw [hout, lowBytes_addr]
    exact hP addr _
  have hall : ∀ x : BitVec 32, lowBytes x Width.l.bytes = x := by
    intro x
    have hones : BitVec.ofNat 32 (2 ^ (8 * Width.l.bytes) - 1) = BitVec.allOnes 32 := by decide
    rw [lowBytes, hones, BitVec.and_allOnes]
  rw [hvalue, hall] at hword
  have hcut : Width.l.cut ((config addr).setWidth 64) = (config addr).setWidth 64 := by
    simp [Width.cut, Width.bytes]
  refine ⟨k₂, ?_, h₂⟩
  simp [pciRead, hk₁, hk₂, h₂.getMr, hword, hcut, bind, Except.bind, pure, Except.pure]

theorem answers_iff (addr : BitVec 32) :
    answers config addr = true ↔ (config addr).setWidth 64 ≠ noDevice := by
  rw [answers, bne_iff_ne, ne_eq, ne_eq, not_iff_not]
  constructor
  · intro h
    rw [h]
    rfl
  · intro h
    have htrunc := congrArg (BitVec.setWidth 32) h
    simpa [noDevice] using htrunc

/-- The enumeration has come to `n` entries, if there is room for them, and did not
survive otherwise. -/
def Enumerates (p buffer : Word) (r : Result (Bool × Enumeration × Kernel)) (n : Nat) : Prop :=
  (n ≤ 64 → ∃ found k, r = .ok (false, found, k) ∧ found.mr = n ∧ Manager k p buffer) ∧
    (64 < n → r = .error .fault)

theorem enumerateFunction_spec (h : Manager k p buffer) (hP : ConfigAccess P config)
    (hmr : found.mr ≤ 64) (bus dev func : BitVec 8) :
    Enumerates p buffer (enumerateFunction P fuel bus dev func (found, k))
      (found.mr + (answeringOn config bus [(dev, func)]).length) := by
  obtain ⟨k₁, hread, h₁⟩ := pciRead_config h hP fuel (pciAddr bus dev func 0#16)
  have hroom : ∀ n, n ≤ 64 → decide (messageMaxLength ≤ n) = false := by
    intro n hn
    rw [decide_eq_false_iff_not]
    show ¬504 ≤ n
    omega
  cases hanswers : answers config (pciAddr bus dev func 0#16) with
  | false =>
    have hnone : (config (pciAddr bus dev func 0#16)).setWidth 64 = noDevice := by
      by_contra hne
      rw [(answers_iff _).mpr hne] at hanswers
      cases hanswers
    have hlength : (answeringOn config bus [(dev, func)]).length = 0 := by
      simp [answeringOn, hanswers]
    rw [hlength]
    refine ⟨fun _ => ⟨found, k₁, ?_, rfl, h₁⟩, fun hlt => by omega⟩
    simp [enumerateFunction, hread, hnone, hroom found.mr hmr, bind, Except.bind, pure, Except.pure]
  | true =>
    have hthere := (answers_iff _).mp hanswers
    have hlength : (answeringOn config bus [(dev, func)]).length = 1 := by
      simp [answeringOn, hanswers]
    rw [hlength]
    constructor
    · intro hle
      obtain ⟨mrs, hmrs⟩ := localSet_isOk (x := found.mrs)
        (a := (pciAddr bus dev func 0#16).setWidth 64 <<< 32 |||
          (config (pciAddr bus dev func 0#16)).setWidth 64) (show found.mr < 64 by omega)
      refine ⟨⟨mrs, found.mr + 1⟩, k₁, ?_, rfl, h₁⟩
      simp [enumerateFunction, hread, hthere, hmrs, hroom _ hle, bind, Except.bind, pure, Except.pure]
    · intro hlt
      simp [enumerateFunction, hread, hthere, localSet_fault (show 64 ≤ found.mr by omega), bind,
        Except.bind]

theorem answeringOn_cons (config : BitVec 32 → BitVec 32) (bus : BitVec 8) (f : BitVec 8 × BitVec 8)
    (l : List (BitVec 8 × BitVec 8)) : (answeringOn config bus (f :: l)).length =
      (answeringOn config bus [f]).length + (answeringOn config bus l).length := by
  rw [answeringOn, answeringOn, answeringOn, ← List.length_append, ← List.filter_append,
    ← List.map_append]
  rfl

theorem enumerateBus_spec (h : Manager k p buffer) (hP : ConfigAccess P config)
    (hmr : found.mr ≤ 64) (bus : BitVec 8) (l : List (BitVec 8 × BitVec 8)) :
    Enumerates p buffer (enumerateBus P fuel bus l (found, k))
      (found.mr + (answeringOn config bus l).length) := by
  induction l generalizing found k with
  | nil =>
    refine ⟨fun _ => ⟨found, k, rfl, rfl, h⟩, fun hlt => ?_⟩
    rw [answeringOn, List.map_nil, List.filter_nil, List.length_nil] at hlt
    omega
  | cons f l ih =>
    obtain ⟨hin, hout⟩ := enumerateFunction_spec h hP hmr bus f.1 f.2
    rw [answeringOn_cons, ← Nat.add_assoc]
    rcases Nat.lt_or_ge 64 (found.mr + (answeringOn config bus [f]).length) with hfull | hroom
    · refine ⟨fun hle => by omega, fun _ => ?_⟩
      rw [enumerateBus, hout hfull]
      rfl
    · obtain ⟨found₁, k₁, hstep, hmr₁, h₁⟩ := hin hroom
      have hrest := ih h₁ (hmr₁ ▸ hroom)
      rw [hmr₁] at hrest
      rw [enumerateBus, hstep]
      exact hrest

theorem answering_cons (config : BitVec 32 → BitVec 32) (bus : BitVec 8) (buses : List (BitVec 8)) :
    (answering config (bus :: buses)).length =
      (if answers config (pciAddr bus 0#8 0#8 0#16) then (answeringOn config bus pciFunctions).length
        else 0) + (answering config buses).length := by
  rw [answering, answering, List.filter_cons]
  split
  · rw [List.flatMap_cons, List.length_append]
  · rw [Nat.zero_add]

theorem enumerateBuses_spec (h : Manager k p buffer) (hP : ConfigAccess P config)
    (hmr : found.mr ≤ 64) (buses : List (BitVec 8)) :
    (found.mr + (answering config buses).length ≤ 64 →
      ∃ found' k', enumerateBuses P fuel buses (found, k) = .ok (found', k') ∧
        found'.mr = found.mr + (answering config buses).length ∧ Manager k' p buffer) ∧
      (64 < found.mr + (answering config buses).length →
        enumerateBuses P fuel buses (found, k) = .error .fault) := by
  induction buses generalizing found k with
  | nil =>
    refine ⟨fun _ => ⟨found, k, rfl, rfl, h⟩, fun hlt => ?_⟩
    rw [answering, List.filter_nil, List.flatMap_nil, List.length_nil] at hlt
    omega
  | cons bus buses ih =>
    obtain ⟨k₁, hread, h₁⟩ := pciRead_config h hP fuel (pciAddr bus 0#8 0#8 0#16)
    rw [answering_cons]
    cases hanswers : answers config (pciAddr bus 0#8 0#8 0#16) with
    | false =>
      have hnone : (config (pciAddr bus 0#8 0#8 0#16)).setWidth 64 = noDevice := by
        by_contra hne
        rw [(answers_iff _).mpr hne] at hanswers
        cases hanswers
      have hskip : enumerateBuses P fuel (bus :: buses) (found, k) =
          enumerateBuses P fuel buses (found, k₁) := by
        simp [enumerateBuses, hread, hnone, bind, Except.bind]
      rw [hskip, if_neg Bool.false_ne_true, Nat.zero_add]
      exact ih h₁ hmr
    | true =>
      have hthere := (answers_iff _).mp hanswers
      have hscan : enumerateBuses P fuel (bus :: buses) (found, k) =
          (enumerateBus P fuel bus pciFunctions (found, k₁) >>= fun x =>
            if x.1 then pure x.2 else enumerateBuses P fuel buses x.2) := by
        simp [enumerateBuses, hread, hthere, bind, Except.bind]
      obtain ⟨hin, hout⟩ := enumerateBus_spec h₁ hP hmr bus pciFunctions
      rw [hscan, if_pos rfl, ← Nat.add_assoc]
      rcases Nat.lt_or_ge 64 (found.mr + (answeringOn config bus pciFunctions).length) with
        hfull | hroom
      · refine ⟨fun hle => by omega, fun _ => ?_⟩
        rw [hout hfull]
        rfl
      · obtain ⟨found₂, k₂, hstep, hmr₂, h₂⟩ := hin hroom
        have hrest := ih h₂ (hmr₂ ▸ hroom)
        rw [hmr₂] at hrest
        rw [hstep]
        exact hrest

/-- The words that were found are sent as far as the local array goes. -/
theorem sendFound_isOk (h : Manager k p buffer) (hmr : found.mr ≤ 64) :
    ∃ k', (List.range found.mr).foldlM (fun k i => do
      let x ← localGet found.mrs i
      setMrChecked k i x) k = .ok k' := by
  -- the induction keeps the manager running
  have hrounds : ∀ n ≤ 64, ∃ k', (List.range n).foldlM (fun k i => do
      let x ← localGet found.mrs i
      setMrChecked k i x) k = .ok k' ∧ Manager k' p buffer := by
    intro n hn
    induction n with
    | zero => exact ⟨k, rfl, h⟩
    | succ n ih =>
      obtain ⟨k₁, hk₁, h₁⟩ := ih (by omega)
      obtain ⟨x, hx⟩ := localGet_isOk (x := found.mrs) (show n < 64 by omega)
      have hroom : n < messageMaxLength := by
        show n < 504
        omega
      refine ⟨k₁.setBufferWord buffer n x, ?_, h₁.congr rfl rfl rfl⟩
      rw [List.range_succ, List.foldlM_append, hk₁]
      simp [hx, setMrChecked, hroom, setMr, h₁.thisBuffer, bind, Except.bind, pure, Except.pure]
  obtain ⟨k', hk', -⟩ := hrounds found.mr hmr
  exact ⟨k', hk'⟩

theorem handleEnumerate_unbadged (mrs : Vector Word 64) : handleEnumerate P fuel k 0#64 mrs =
    (enumerateBuses P fuel pciBuses (⟨mrs, 0⟩, k) >>= fun x =>
      (List.range x.1.mr).foldlM (fun k i => do
        let y ← localGet x.1.mrs i
        setMrChecked k i y) x.2 >>= fun k =>
      pure (newMessageTag ErrorCode.noError.toWord 0 0 (BitVec.ofNat 64 x.1.mr), k)) := by
  simp [handleEnumerate]

theorem handleEnumerate_isOk (h : Manager k p buffer) (hP : ConfigAccess P config)
    {badge : Word} (mrs : Vector Word 64)
    (hroom : badge ≠ 0#64 ∨ (answering config pciBuses).length ≤ 64) :
    ∃ tag k', handleEnumerate P fuel k badge mrs = .ok (tag, k') := by
  by_cases hbadge : badge = 0#64
  · have hle := hroom.resolve_left (absurd hbadge)
    have hempty : (⟨mrs, 0⟩ : Enumeration).mr ≤ 64 := Nat.zero_le _
    obtain ⟨found, k₁, hscan, hmr, h₁⟩ :=
      (enumerateBuses_spec h hP hempty pciBuses).1 (by rwa [Nat.zero_add])
    rw [Nat.zero_add] at hmr
    obtain ⟨k₂, hsend⟩ := sendFound_isOk h₁ (hmr ▸ hle)
    refine ⟨newMessageTag ErrorCode.noError.toWord 0 0 (BitVec.ofNat 64 found.mr), k₂, ?_⟩
    rw [hbadge, handleEnumerate_unbadged]
    simp only [bind_eq_ok, pure_eq_ok]
    exact ⟨(found, k₁), hscan, k₂, hsend, rfl⟩
  · refine ⟨newMessageTag ErrorCode.illegalOperation.toWord 0 0 0, k, ?_⟩
    simp [handleEnumerate, hbadge, pure, Except.pure]

theorem handleEnumerate_fault (h : Manager k p buffer) (hP : ConfigAccess P config)
    (mrs : Vector Word 64) (hlong : 64 < (answering config pciBuses).length) :
    handleEnumerate P fuel k 0#64 mrs = .error .fault := by
  have hroom : (⟨mrs, 0⟩ : Enumeration).mr ≤ 64 := Nat.zero_le _
  have hscan : enumerateBuses P fuel pciBuses (⟨mrs, 0⟩, k) = .error .fault :=
    (enumerateBuses_spec h hP hroom pciBuses).2 (by rwa [Nat.zero_add])
  rw [handleEnumerate_unbadged, hscan]
  rfl

end

end Pci

/-! ## Both servers -/

section

open Serial Pci

/-- `write_uart` stays in its array if and only if the message is no longer than it is,
and `handle_enumerate` if and only if it turns the client away or there are no more
devices than it has room for. -/
theorem local_buffers_iff (d : Driver) (m : Message) (local₁ : Vector Serial.Byte 128) {P : Platform}
    {k : Kernel} {p buffer : Word} {config : BitVec 32 → BitVec 32} (h : Manager k p buffer)
    (hP : ConfigAccess P config) (fuel : Nat) (badge : Word) (local₂ : Vector Word 64) :
    ((∃ d', writeUartLocal d m local₁ = .ok d') ↔ m.info.length.toNat ≤ 128) ∧
    ((∃ tag k', handleEnumerate P fuel k badge local₂ = .ok (tag, k')) ↔
      badge ≠ 0#64 ∨ (answering config pciBuses).length ≤ 64) := by
  refine ⟨⟨?_, writeUartLocal_isOk⟩, ⟨?_, handleEnumerate_isOk h hP local₂⟩⟩
  · rintro ⟨d', hok⟩
    by_contra hlong
    rw [writeUartLocal_fault (Nat.not_le.mp hlong)] at hok
    cases hok
  · rintro ⟨tag, k', hok⟩
    by_contra hnot
    rw [not_or, not_not, Nat.not_le] at hnot
    rw [hnot.1, handleEnumerate_fault h hP local₂ hnot.2] at hok
    cases hok

/-- On bus 0 all functions of the first eight devices answer. -/
def eightDevices (addr : BitVec 32) : BitVec 32 :=
  if addr - 0x80000000#32 < 0x4000#32 then 0x12378086#32 else 0xFFFFFFFF#32

/-- A data port that gives the word at the address written last. -/
def configPlatform (config : BitVec 32 → BitVec 32) : Platform :=
  { examplePlatform with
    portValue := fun history _ => match history with
      | ⟨_, _, some addr⟩ :: _ => config addr
      | _ => 0xFFFFFFFF#32 }

theorem eightDevices_answering : (answering eightDevices pciBuses).length = 64 := by
  decide +kernel

/-- 128 bytes are written, and 64 functions are enumerated. -/
theorem local_buffers_iff_full :
    (∃ d', writeUartLocal (startDriver ⟨[], []⟩) ⟨0#64, newMessageTag 1 0 0 128, fun _ => 0x41#64⟩
      (.replicate 128 0) = .ok d') ∧
    (answering eightDevices pciBuses).length = 64 ∧
    ∃ tag k', handleEnumerate (configPlatform eightDevices) 2 (managerKernel 0#64) 0#64
      (.replicate 64 0) = .ok (tag, k') := by
  have hconfig : ConfigAccess (configPlatform eightDevices) eightDevices := fun _ _ => rfl
  have hboth := local_buffers_iff (startDriver ⟨[], []⟩)
    ⟨0#64, newMessageTag 1 0 0 128, fun _ => 0x41#64⟩ (.replicate 128 0) (managerKernel_manager 0#64)
    hconfig 2 0#64 (.replicate 64 0)
  exact ⟨hboth.1.mpr (by decide), eightDevices_answering,
    hboth.2.mpr (.inr eightDevices_answering.le)⟩

/-- Where every function answers, one bus is too much. -/
theorem answering_all : 64 < (answering (fun _ => 0#32) pciBuses).length := by
  have hall : ∀ addr, answers (fun _ => 0#32) addr = true := fun _ => rfl
  obtain ⟨rest, hfirst⟩ : ∃ rest, pciBuses = 0#8 :: rest := by
    refine ⟨(List.range' 1 255).map (BitVec.ofNat 8), ?_⟩
    rw [pciBuses, List.range_eq_range', List.range'_succ]
    rfl
  have hbus : (answeringOn (fun _ => 0#32) 0#8 pciFunctions).length = 256 := by
    rw [answeringOn, List.filter_eq_self.mpr fun addr _ => hall addr, List.length_map]
    simp [pciFunctions]
  rw [hfirst, answering_cons, if_pos (hall _), hbus]
  omega

/-- The echo of a full read buffer, and a bus on which every function answers. -/
theorem local_buffers_overrun :
    writeUartLocal (startDriver ⟨[], []⟩) ⟨0#64, newMessageTag 1 0 0 256, fun _ => 0x41#64⟩
      (.replicate 128 0) = .error .fault ∧
    handleEnumerate examplePlatform 2 (managerKernel 0#64) 0#64 (.replicate 64 0) =
      .error .fault :=
  ⟨writeUartLocal_fault (by decide), handleEnumerate_fault (managerKernel_manager 0#64)
    (show ConfigAccess examplePlatform fun _ => 0#32 from fun _ _ => rfl) _ answering_all⟩

end

end Tern
