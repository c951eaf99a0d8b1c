import Tern.Lib.Stack
import Tern.Syscall

/-! The way into the kernel and back, instruction by instruction: what the processor
pushes, the stubs of the vectors, `interrupt_entry` and `syscall_entry`. What they
build on the kernel stack is a `frame_t` with the registers of the interrupted code,
for all vectors but two; what they restore is what that frame says. -/

namespace Tern.Trap

open Lib

/-! ## The processor -/

/-- The general registers but the stack pointer. -/
inductive Reg
  | rax | rcx | rdx | rbx | rbp | rsi | rdi | r8 | r9 | r10 | r11 | r12 | r13 | r14 | r15
  deriving DecidableEq, Repr

/-- The processor as far as these instructions save and restore it. What the kernel saves
nowhere is left out: the SSE and x87 registers, and the FS base that user code may
write itself. -/
@[ext]
structure Cpu extends StackMachine Reg where
  rip : Word
  rflags : Word
  cs : Word
  ss : Word
  gsBase : Word
  kernelGsBase : Word

def kernelCs : Word := 0x08#64
def kernelSs : Word := 0x10#64

def tssRsp2 : Word := 28#64
def tssStack : Word := 168#64

/-- The instructions of `syscall.S` and `isrs.S`; `maybeSwapgs` is the macro of three. -/
inductive Instr
  | push (r : Reg) | pushImm (v : Word) | pushGs (offset : Word)
  | pop (r : Reg) | popRsp
  | mov (src dst : Reg) | movFromRsp (dst : Reg) | movToRsp (src : Reg)
  | storeRsp (offset : Word) | loadRsp (offset : Word)
  | addRsp (n : Word)
  | swapgs | maybeSwapgs
  | iretq | sysretq

/-- The stacks that `init_int_stacks` puts into the TSS. -/
structure IntStacks where
  rsp0 : Word
  ist1 : Word

namespace Cpu

def swapgs (c : Cpu) : Cpu := { c with gsBase := c.kernelGsBase, kernelGsBase := c.gsBase }

/-- `MAYBE_SWAPGS`: a comparison with the selector that lies above two words. -/
def maybeSwapgs (alu : Word → Word → Word → Word) (c : Cpu) : Cpu :=
  let compared := { c with rflags := alu c.rflags (c.memory (c.sp + 24#64)) userCs }
  if c.memory (c.sp + 24#64) = userCs then compared.swapgs else compared

/-- The flags that `sysretq` takes from R11, and the one that is always set. -/
def sysretFlags (w : Word) : Word := (w &&& 0x3C7FD7#64) ||| 2#64

/-- One instruction. What an arithmetic one leaves in the flags is up to `alu`. The
selectors of `sysretq` are those that `init_syscall` put into `IA32_STAR`. -/
def exec (alu : Word → Word → Word → Word) (c : Cpu) : Instr → Cpu
  | .push r => { c with toStackMachine := c.push (c.regs r) }
  | .pushImm v => { c with toStackMachine := c.push v }
  | .pushGs offset => { c with toStackMachine := c.push (c.memory (c.gsBase + offset)) }
  | .pop r => { c with toStackMachine := c.pop r }
  | .popRsp => { c with sp := c.memory c.sp }
  | .mov src dst => { c with regs := Function.update c.regs dst (c.regs src) }
  | .movFromRsp dst => { c with regs := Function.update c.regs dst c.sp }
  | .movToRsp src => { c with sp := c.regs src }
  | .storeRsp offset => { c with memory := Function.update c.memory (c.gsBase + offset) c.sp }
  | .loadRsp offset => { c with sp := c.memory (c.gsBase + offset) }
  | .addRsp n => { c with sp := c.sp + n, rflags := alu c.rflags c.sp n }
  | .swapgs => c.swapgs
  | .maybeSwapgs => c.maybeSwapgs alu
  | .iretq =>
    { c with
      rip := c.memory c.sp
      cs := c.memory (c.sp + 8#64)
      rflags := c.memory (c.sp + 16#64)
      sp := c.memory (c.sp + 24#64)
      ss := c.memory (c.sp + 32#64) }
  | .sysretq =>
    { c with
      rip := c.regs .rcx
      rflags := sysretFlags (c.regs .r11)
      cs := userCs
      ss := userSs }

def run (alu : Word → Word → Word → Word) (c : Cpu) (code : List Instr) : Cpu :=
  code.foldl (exec alu) c

/-- The flags that the processor clears on its way through an interrupt gate. -/
def gateMask : Word := 0x34300#64

/-- The stack for a vector: that of its gate, else RSP 0 for user code and the current one,
aligned, for the kernel. The gate of the double fault names the second stack of the
table, but both `nmi_stack` and `df_stack` are stored as the first. -/
def stackFor (c : Cpu) (tss : IntStacks) (v : Nat) : Option Word :=
  if v = 8 then none
  else if v = 2 then some tss.ist1
  else if c.cs = userCs then some tss.rsp0
  else some (c.sp &&& ~~~15#64)

/-- The processor takes an interrupt or exception: it switches to the stack at `top`,
which is mapped, pushes what it needs to come back, and an error code with some
exceptions. -/
def deliver (c : Cpu) (top handler : Word) (err : Option Word) : Cpu :=
  { c with
    toStackMachine :=
      { c.toStackMachine with sp := top }.pushAll
        ([c.ss, c.sp, c.rflags, c.cs, c.rip] ++ err.toList)
    rip := handler
    rflags := c.rflags &&& ~~~gateMask
    cs := kernelCs
    ss := if c.cs = userCs then 0#64 else c.ss }

/-- `syscall`, with the values of `init_syscall`: TF and IF are masked. -/
def syscall (c : Cpu) (lstar : Word) : Cpu :=
  { c with
    regs := Function.update (Function.update c.regs .rcx c.rip) .r11 c.rflags
    rip := lstar
    rflags := c.rflags &&& ~~~0x300#64
    cs := kernelCs
    ss := kernelSs }

end Cpu

/-! ## The code -/

def pushedRegs : List Reg :=
  [.rax, .rcx, .rdx, .rbx, .rbp, .rsi, .rdi, .r8, .r9, .r10, .r11, .r12, .r13, .r14, .r15]

def poppedRegs : List Reg :=
  [.r15, .r14, .r13, .r12, .r11, .r10, .r9, .r8, .rdi, .rsi, .rbp, .rbx, .rdx, .rcx, .rax]

/-- `PUSH_ALL`. -/
def pushAll : List Instr := pushedRegs.map .push

/-- `POP_ALL`. -/
def popAll : List Instr := poppedRegs.map .pop

/-- The vectors whose stub is made by `isrerr`. -/
def isrErr : List Nat := [8, 10, 11, 12, 13, 14, 17, 30]

/-- The vectors with which the processor pushes an error code. -/
def pushesErrorCode : List Nat := [8, 10, 11, 12, 13, 14, 17, 21, 29, 30]

/-- The stub of a vector; there are some for 0 to 47 and for 255. -/
def isr (v : Nat) : List Instr :=
  if v ∈ isrErr then [.pushImm (BitVec.ofNat 64 v)] else [.pushImm 0#64, .pushImm (BitVec.ofNat 64 v)]

/-- `interrupt_entry`, up to `call c_interrupt_entry`. -/
def interruptEntry : List Instr := .maybeSwapgs :: pushAll ++ [.movFromRsp .rdi]

/-- `.return_from_interrupt`. -/
def returnFromInterrupt : List Instr := popAll ++ [.maybeSwapgs, .addRsp 16#64, .iretq]

def jumpToUserlandFrame : List Instr := .movToRsp .rdi :: returnFromInterrupt

/-- `syscall_entry`, up to `PUSH_ALL`: what the processor pushes on an interrupt. -/
def matchInterrupt : List Instr :=
  [.swapgs, .storeRsp tssRsp2, .loadRsp tssStack, .pushImm userSs, .pushGs tssRsp2, .push .r11,
    .pushImm userCs, .push .rcx, .pushImm 0#64, .pushImm 0#64]

/-- `syscall_entry`, up to `call c_syscall_entry`. -/
def syscallEntry : List Instr := matchInterrupt ++ (pushAll ++ [.mov .rax .rdx, .movFromRsp .rcx])

/-- The rest of `syscall_entry`. -/
def syscallReturn : List Instr :=
  popAll ++ [.addRsp 16#64, .pop .rcx, .addRsp 8#64, .pop .r11, .popRsp, .swapgs, .sysretq]

/-! ## Frames in memory -/

def regOf (f : Frame) : Reg → Word
  | .rax => f.rax | .rcx => f.rcx | .rdx => f.rdx | .rbx => f.rbx | .rbp => f.rbp | .rsi => f.rsi
  | .rdi => f.rdi | .r8 => f.r8 | .r9 => f.r9 | .r10 => f.r10 | .r11 => f.r11 | .r12 => f.r12
  | .r13 => f.r13 | .r14 => f.r14 | .r15 => f.r15

/-- The words of a `frame_t`. -/
def frameWords (f : Frame) : List Word :=
  [f.r15, f.r14, f.r13, f.r12, f.r11, f.r10, f.r9, f.r8, f.rdi, f.rsi, f.rbp, f.rbx, f.rdx, f.rcx,
    f.rax, f.intNo, f.errCode, f.rip, f.cs, f.rflags, f.rsp, f.ss]

/-- The frame of the code that `c` was executing. -/
def Cpu.frame (c : Cpu) (intNo errCode : Word) : Frame where
  r15 := c.regs .r15
  r14 := c.regs .r14
  r13 := c.regs .r13
  r12 := c.regs .r12
  r11 := c.regs .r11
  r10 := c.regs .r10
  r9 := c.regs .r9
  r8 := c.regs .r8
  rdi := c.regs .rdi
  rsi := c.regs .rsi
  rbp := c.regs .rbp
  rbx := c.regs .rbx
  rdx := c.regs .rdx
  rcx := c.regs .rcx
  rax := c.regs .rax
  intNo := intNo
  errCode := errCode
  rip := c.rip
  cs := c.cs
  rflags := c.rflags
  rsp := c.sp
  ss := c.ss

/-- The frame of a system call: `syscall` has put RIP and the flags into RCX and R11. -/
def Cpu.syscallFrame (c : Cpu) : Frame :=
  { c.frame 0#64 0#64 with rcx := c.rip, r11 := c.rflags, cs := userCs, ss := userSs }

/-- The flag of nested tasks, with which `iretq` faults. Interrupts clear it, `syscall`
does not: it is not in FMASK. -/
def Cpu.NestedTask (c : Cpu) : Prop := c.rflags &&& 0x4000#64 ≠ 0#64

/-- The processor with the registers of a frame, as `iretq` leaves it. -/
def Cpu.resumed (c : Cpu) (f : Frame) : Cpu where
  regs := regOf f
  sp := f.rsp
  memory := c.memory
  rip := f.rip
  rflags := f.rflags
  cs := f.cs
  ss := f.ss
  gsBase := if f.cs = userCs then c.kernelGsBase else c.gsBase
  kernelGsBase := if f.cs = userCs then c.gsBase else c.kernelGsBase

theorem Cpu.resumed_user (c : Cpu) {f : Frame} (h : f.cs = userCs) :
    c.resumed f = ⟨⟨regOf f, f.rsp, c.memory⟩, f.rip, f.rflags, f.cs, f.ss, c.kernelGsBase, c.gsBase⟩ :=
  Cpu.ext rfl rfl rfl rfl rfl rfl rfl (if_pos h) (if_pos h)

theorem frameWords_eq (f : Frame) :
    frameWords f = poppedRegs.map (regOf f) ++
      [f.intNo, f.errCode, f.rip, f.cs, f.rflags, f.rsp, f.ss] :=
  rfl

theorem regOf_frame (c : Cpu) (intNo errCode : Word) : regOf (c.frame intNo errCode) = c.regs := by
  funext r
  cases r <;> rfl

/-! ## The instructions in a row -/

section

variable {alu : Word → Word → Word → Word} {c c' : Cpu} {f : Frame} {l : List Word}

theorem run_append (c : Cpu) (code code' : List Instr) :
    c.run alu (code ++ code') = (c.run alu code).run alu code' :=
  List.foldl_append ..

theorem run_cons (c : Cpu) (i : Instr) (code : List Instr) :
    c.run alu (i :: code) = (c.exec alu i).run alu code :=
  rfl

theorem run_push (c : Cpu) (rs : List Reg) :
    c.run alu (rs.map .push) = { c with toStackMachine := c.pushAll (rs.map c.regs) } := by
  induction rs generalizing c with
  | nil => rfl
  | cons r rs ih => exact ih (c.exec alu (.push r))

theorem run_pop (c : Cpu) (rs : List Reg) :
    c.run alu (rs.map .pop) = { c with toStackMachine := c.popAll rs } := by
  induction rs generalizing c with
  | nil => rfl
  | cons r rs ih => exact ih (c.exec alu (.pop r))

theorem pushedRegs_reverse : pushedRegs.reverse = poppedRegs := rfl

/-- Where `MAYBE_SWAPGS` finds the selector of the interrupted code. -/
theorem selector_of_holds {v e rip cs : Word} (h : c.Holds (v :: e :: rip :: cs :: l)) :
    c.memory (c.sp + 24#64) = cs := by
  obtain ⟨-, -, -, hcs, -⟩ := h
  rwa [BitVec.add_assoc, BitVec.add_assoc] at hcs

/-- `POP_ALL` takes it apart. -/
theorem run_popAll (alu : Word → Word → Word → Word) (h : c.Holds (frameWords f)) :
    c.run alu popAll = { c with regs := regOf f, sp := c.sp + 120#64 } ∧
      StackMachine.Lies c.memory (c.sp + 120#64)
        [f.intNo, f.errCode, f.rip, f.cs, f.rflags, f.rsp, f.ss] := by
  rw [frameWords_eq] at h
  obtain ⟨hregs, hrest⟩ := StackMachine.Holds.popAll h (by decide)
  have hall : (c.popAll poppedRegs).regs = regOf f := by
    funext r
    exact hregs r (by cases r <;> decide)
  have hstack : c.popAll poppedRegs = ⟨regOf f, c.sp + 120#64, c.memory⟩ :=
    StackMachine.ext hall (StackMachine.popAll_sp ..) (StackMachine.popAll_memory ..)
  rw [hstack] at hrest
  rw [popAll, run_pop, hstack]
  exact ⟨rfl, hrest⟩

def Cpu.gs (c : Cpu) : Word × Word := (c.gsBase, c.kernelGsBase)

theorem maybeSwapgs_spec (alu : Word → Word → Word → Word) {cs : Word}
    (h : c.memory (c.sp + 24#64) = cs) :
    (c.maybeSwapgs alu).toStackMachine = c.toStackMachine ∧
      (c.maybeSwapgs alu).gs = if cs = userCs then c.gs.swap else c.gs := by
  subst h
  unfold Cpu.maybeSwapgs
  split <;> exact ⟨rfl, rfl⟩

/-! ## The way in -/

/-- The stack of `c`, moved to `top`, with `words` on it, the first one lowest. -/
def Cpu.onStack (c : Cpu) (top : Word) (words : List Word) : StackMachine Reg :=
  { c.toStackMachine with sp := top }.pushAll words.reverse

/-- The kernel's C code is called in `c'`: the frame `f` is on the stack at `top`, below
the words of `l`, and the base of the GS segment is the kernel's if the frame is one of
user code. -/
structure Called (c : Cpu) (top : Word) (f : Frame) (l : List Word) (c' : Cpu) : Prop where
  sp : c'.sp = (c.onStack top (frameWords f ++ l)).sp
  memory : c'.memory = (c.onStack top (frameWords f ++ l)).memory
  gs : c'.gs = if f.cs = userCs then c.gs.swap else c.gs

theorem Called.holds {top : Word} (h : Called c top f l c') (hl : l.length < 2 ^ 32) :
    c'.Holds (frameWords f ++ l) := by
  have hempty : ({ c.toStackMachine with sp := top } : StackMachine Reg).Holds [] := trivial
  have hlen : (frameWords f).length = 22 := rfl
  have hpush := hempty.pushAll (frameWords f ++ l).reverse (by simp [hlen]; omega)
  rw [List.reverse_reverse, List.append_nil] at hpush
  unfold StackMachine.Holds at hpush ⊢
  rw [h.sp, h.memory]
  exact hpush

/-- The words below `top` hold the frame, all others are as before. -/
theorem Called.untouched {top a : Word} (h : Called c top f [] c')
    (ha : ∀ i < 22, a ≠ top - BitVec.ofNat 64 (8 * (i + 1))) : c'.memory a = c.memory a := by
  rw [h.memory]
  exact StackMachine.pushAll_memory (by simpa [frameWords] using ha)

/-- What the processor and the stub of the vector push, if they agree on the error code. -/
theorem run_isr {v : Nat} {err : Option Word} (h : err.isSome = true ↔ v ∈ isrErr)
    (top handler : Word) :
    (c.deliver top handler err).run alu (isr v) =
      { c.deliver top handler none with
        toStackMachine := { c.toStackMachine with sp := top }.pushAll
          [c.ss, c.sp, c.rflags, c.cs, c.rip, err.getD 0#64, BitVec.ofNat 64 v] } := by
  unfold isr
  cases err with
  | none =>
    rw [if_neg (h.not.mp (by decide))]
    rfl
  | some e =>
    rw [if_pos (h.mp rfl)]
    rfl

/-- `interrupt_entry`, given the selector of the interrupted code. -/
theorem run_interruptEntry (alu : Word → Word → Word → Word) {cs : Word}
    (h : c.memory (c.sp + 24#64) = cs) :
    (c.run alu interruptEntry).sp = (c.pushAll (pushedRegs.map c.regs)).sp ∧
      (c.run alu interruptEntry).memory = (c.pushAll (pushedRegs.map c.regs)).memory ∧
      (c.run alu interruptEntry).gs = (if cs = userCs then c.gs.swap else c.gs) ∧
      (c.run alu interruptEntry).regs .rdi = (c.run alu interruptEntry).sp := by
  obtain ⟨hstack, hgs⟩ := maybeSwapgs_spec alu h
  have hrun : c.run alu interruptEntry =
      ((c.maybeSwapgs alu).run alu pushAll).exec alu (.movFromRsp .rdi) := by
    rw [interruptEntry, run_append, run_cons, run_cons]
    rfl
  rw [pushAll, run_push, hstack] at hrun
  generalize c.pushAll (pushedRegs.map c.regs) = s at hrun ⊢
  rw [hrun]
  exact ⟨rfl, rfl, hgs, by simp [Cpu.exec]⟩

/-- The frame is what `PUSH_ALL` makes of the words that the processor and the stub push. -/
theorem interruptEntry_called {v : Nat} {err : Option Word} {top handler : Word} (ws : List Word)
    (hstub : (c.deliver top handler err).run alu (isr v) = { c.deliver top handler none with
      toStackMachine := { c.toStackMachine with sp := top }.pushAll ws })
    (hws : ws.reverse = [f.intNo, f.errCode, f.rip, f.cs, f.rflags, f.rsp, f.ss] ++ l)
    (hlen : l.length < 2 ^ 32) (hregs : regOf f = c.regs) :
    let c' := (c.deliver top handler err).run alu (isr v ++ interruptEntry)
    Called c top f l c' ∧ c'.regs .rdi = c'.sp := by
  intro c'
  have hempty : ({ c.toStackMachine with sp := top } : StackMachine Reg).Holds [] := trivial
  have hcount : ws.length = 7 + l.length := by
    rw [← List.length_reverse, hws, List.length_append]
    rfl
  have hholds := hempty.pushAll ws (by rw [hcount]; simp; omega)
  rw [hws, List.append_nil] at hholds
  have hselector : ((c.deliver top handler err).run alu (isr v)).memory
      (((c.deliver top handler err).run alu (isr v)).sp + 24#64) = f.cs := by
    rw [hstub]
    exact selector_of_holds hholds
  obtain ⟨hsp, hmemory, hgs, hrdi⟩ := run_interruptEntry alu hselector
  have hwords : (frameWords f ++ l).reverse = ws ++ pushedRegs.map c.regs := by
    rw [frameWords_eq, hregs, List.append_assoc, ← hws, List.reverse_append, List.reverse_reverse,
      ← List.map_reverse, ← pushedRegs_reverse, List.reverse_reverse]
  have hpushed : ((c.deliver top handler err).run alu (isr v)).pushAll
      (pushedRegs.map ((c.deliver top handler err).run alu (isr v)).regs) =
        c.onStack top (frameWords f ++ l) := by
    rw [hstub, StackMachine.pushAll_regs, Cpu.onStack, hwords, StackMachine.pushAll_append]
  have hc' : c' = ((c.deliver top handler err).run alu (isr v)).run alu interruptEntry :=
    run_append ..
  rw [hpushed] at hsp hmemory
  rw [hc']
  refine ⟨⟨hsp, hmemory, hgs.trans ?_⟩, hrdi⟩
  rw [hstub]
  rfl

/-- The frame that is read where the processor pushed an error code and the stub does not
know of it: every word from RIP on is the one below it. -/
def Cpu.shiftedFrame (c : Cpu) (intNo err : Word) : Frame :=
  { c.frame intNo 0#64 with rip := err, cs := c.rip, rflags := c.cs, rsp := c.rflags, ss := c.sp }

theorem interruptEntry_shifted (alu : Word → Word → Word → Word) {v : Nat} {err : Option Word}
    (herr : err.isSome = true ↔ v ∈ pushesErrorCode) (hv : v = 21 ∨ v = 29) (top handler : Word) :
    let c' := (c.deliver top handler err).run alu (isr v ++ interruptEntry)
    Called c top (c.shiftedFrame (BitVec.ofNat 64 v) (err.getD 0#64)) [c.ss] c' ∧
      c'.regs .rdi = c'.sp := by
  have hpushes : v ∈ pushesErrorCode ∧ v ∉ isrErr := by rcases hv with rfl | rfl <;> decide
  obtain ⟨e, rfl⟩ := Option.isSome_iff_exists.mp (herr.mpr hpushes.1)
  refine interruptEntry_called [c.ss, c.sp, c.rflags, c.cs, c.rip, e, 0#64, BitVec.ofNat 64 v] ?_
    rfl (by simp) ?_
  · rw [isr, if_neg hpushes.2]
    rfl
  · exact regOf_frame c (BitVec.ofNat 64 v) 0#64

theorem interruptEntry_frame (alu : Word → Word → Word → Word) {v : Nat} {err : Option Word}
    (herr : err.isSome = true ↔ v ∈ pushesErrorCode) (hv : ¬ (v = 21 ∨ v = 29))
    (top handler : Word) :
    let c' := (c.deliver top handler err).run alu (isr v ++ interruptEntry)
    Called c top (c.frame (BitVec.ofNat 64 v) (err.getD 0#64)) [] c' ∧ c'.regs .rdi = c'.sp := by
  have hagree : v ∈ pushesErrorCode ↔ v ∈ isrErr := by
    simp only [pushesErrorCode, isrErr, List.mem_cons, List.not_mem_nil, or_false]
    omega
  exact interruptEntry_called _ (run_isr (herr.trans hagree) top handler) rfl (by decide)
    (regOf_frame c _ _)

/-- `c_interrupt_entry` is given the bottom of its stack, and the frame that lies there is
that of the interrupted code, for all vectors but #CP and #VC: their stubs push a
second error code. The double fault has no stack. -/
theorem interrupt_frame (alu : Word → Word → Word → Word) {v : Nat} {err : Option Word}
    (herr : err.isSome = true ↔ v ∈ pushesErrorCode) (tss : IntStacks) {top : Word}
    (_htop : c.stackFor tss v = some top) (handler : Word) :
    let c' := (c.deliver top handler err).run alu (isr v ++ interruptEntry)
    c'.regs .rdi = c'.sp ∧
    if v = 21 ∨ v = 29 then
      Called c top (c.shiftedFrame (BitVec.ofNat 64 v) (err.getD 0#64)) [c.ss] c'
    else Called c top (c.frame (BitVec.ofNat 64 v) (err.getD 0#64)) [] c' := by
  intro c'
  split
  · next hv => exact (interruptEntry_shifted alu herr hv top handler).symm
  · next hv => exact (interruptEntry_frame alu herr hv top handler).symm

/-- User code, with the kernel's GS base in reserve. -/
def userCpu : Cpu where
  regs _ := 5#64
  sp := 0x7000#64
  memory a := if a = tssStack then 0x9000#64 else 0#64
  rip := 0x400000#64
  rflags := 0x202#64
  cs := userCs
  ss := userSs
  gsBase := 0x1000#64
  kernelGsBase := 0#64

/-- It causes a page fault. -/
def faultedCpu : Cpu :=
  (userCpu.deliver 0x9000#64 0#64 (some 6#64)).run (fun flags _ _ => flags) (isr 14 ++ interruptEntry)

theorem page_fault_pushes : (some 6#64 : Option Word).isSome = true ↔ 14 ∈ pushesErrorCode := by decide

theorem interrupt_frame_page_fault : faultedCpu.regs .rdi = faultedCpu.sp ∧
    Called userCpu 0x9000#64 (userCpu.frame 14#64 6#64) [] faultedCpu :=
  interrupt_frame (fun flags _ _ => flags) page_fault_pushes ⟨0x9000#64, 0x5000#64⟩ rfl 0#64

/-- The stack is at `top` for system calls, and the word that keeps the user's stack
pointer is not on it. -/
structure SyscallStack (c : Cpu) (top : Word) : Prop where
  stack : c.memory (c.kernelGsBase + tssStack) = top
  apart : c.kernelGsBase + tssRsp2 ≠ top - 8#64

/-- The memory once the user's stack pointer is kept. -/
def Cpu.keepingRsp (c : Cpu) : Cpu :=
  { c with memory := Function.update c.memory (c.kernelGsBase + tssRsp2) c.sp }

/-- The processor where `syscall_entry` comes to `PUSH_ALL`. -/
def Cpu.matched (c : Cpu) (top lstar : Word) : Cpu :=
  { (c.syscall lstar).swapgs with
    toStackMachine :=
      { (c.syscall lstar).toStackMachine with sp := top, memory := c.keepingRsp.memory }.pushAll
        [userSs, c.sp, c.rflags, userCs, c.rip, 0#64, 0#64] }

theorem run_matchInterrupt {top : Word} (h : SyscallStack c top) (lstar : Word) :
    (c.syscall lstar).run alu matchInterrupt = c.matched top lstar := by
  have hne : c.kernelGsBase + tssStack ≠ c.kernelGsBase + tssRsp2 := by
    intro he
    exact absurd ((BitVec.add_right_inj _).mp he) (by decide)
  have hload : Function.update (c.syscall lstar).memory ((c.syscall lstar).kernelGsBase + tssRsp2)
      (c.syscall lstar).sp ((c.syscall lstar).kernelGsBase + tssStack) = top :=
    (Function.update_of_ne hne ..).trans h.stack
  have hkept : ((⟨(c.syscall lstar).regs, top, Function.update (c.syscall lstar).memory
      ((c.syscall lstar).kernelGsBase + tssRsp2) (c.syscall lstar).sp⟩ : StackMachine Reg).push
      userSs).memory ((c.syscall lstar).kernelGsBase + tssRsp2) = c.sp :=
    (Function.update_of_ne h.apart ..).trans (Function.update_self ..)
  have hrcx : (c.syscall lstar).regs .rcx = c.rip := by simp [Cpu.syscall]
  have hr11 : (c.syscall lstar).regs .r11 = c.rflags := by simp [Cpu.syscall]
  simp only [matchInterrupt, Cpu.run, List.foldl_cons, List.foldl_nil, Cpu.exec, Cpu.swapgs, hload,
    StackMachine.push_regs, hrcx, hr11, hkept]
  rfl

theorem frameWords_syscallFrame (c : Cpu) (lstar : Word) :
    (frameWords c.syscallFrame).reverse = [userSs, c.sp, c.rflags, userCs, c.rip, 0#64, 0#64] ++
      pushedRegs.map (c.syscall lstar).regs := by
  simp [frameWords, Cpu.syscallFrame, Cpu.frame, pushedRegs, Cpu.syscall]

/-- The frame that `c_syscall_entry` is given, and the arguments before it. -/
theorem syscallEntry_called (alu : Word → Word → Word → Word) {top : Word}
    (h : SyscallStack c top) (lstar : Word) :
    let c' := (c.syscall lstar).run alu syscallEntry
    Called c.keepingRsp top c.syscallFrame [] c' ∧ c'.regs .rdi = c.regs .rdi ∧
      c'.regs .rsi = c.regs .rsi ∧ c'.regs .rdx = c.regs .rax ∧ c'.regs .rcx = c'.sp := by
  intro c'
  have hregs : (c.matched top lstar).regs = (c.syscall lstar).regs := StackMachine.pushAll_regs ..
  have hpushed : (c.matched top lstar).pushAll (pushedRegs.map (c.matched top lstar).regs) =
      StackMachine.pushAll ⟨(c.syscall lstar).regs, top, c.keepingRsp.memory⟩
        (frameWords c.syscallFrame).reverse := by
    rw [hregs, frameWords_syscallFrame c lstar, StackMachine.pushAll_append]
    rfl
  have hrun : c' = (((c.matched top lstar).run alu pushAll).exec alu (.mov .rax .rdx)).exec alu
      (.movFromRsp .rcx) := by
    show (c.syscall lstar).run alu syscallEntry = _
    rw [syscallEntry, run_append, run_matchInterrupt h, run_append, run_cons, run_cons]
    rfl
  have hsame := StackMachine.pushAll_congr
    { c.keepingRsp.toStackMachine with sp := top }
    ⟨(c.syscall lstar).regs, top, c.keepingRsp.memory⟩ rfl rfl
    (frameWords c.syscallFrame).reverse
  have hkept := StackMachine.pushAll_regs
    ⟨(c.syscall lstar).regs, top, c.keepingRsp.memory⟩ (frameWords c.syscallFrame).reverse
  rw [pushAll, run_push, hpushed] at hrun
  generalize StackMachine.pushAll ⟨(c.syscall lstar).regs, top, c.keepingRsp.memory⟩
    (frameWords c.syscallFrame).reverse = s at hrun hsame hkept
  rw [hrun]
  refine ⟨⟨hsame.1, hsame.2, rfl⟩, ?_⟩
  simp [Cpu.exec, hkept, Cpu.syscall]

/-! ## The way back -/

/-- The end of `interrupt_entry` restores what the frame on the stack says, whoever put it
there. -/
theorem run_returnFromInterrupt (alu : Word → Word → Word → Word) (h : c.Holds (frameWords f)) :
    c.run alu returnFromInterrupt = c.resumed f := by
  obtain ⟨hrun, -, -, hrip, hcs, hflags, hrsp, hss, -⟩ := run_popAll alu h
  rw [returnFromInterrupt, run_append, hrun]
  generalize c.sp + 120#64 = p at hrip hcs hflags hrsp hss
  simp only [BitVec.add_assoc, BitVec.reduceAdd] at hrip hcs hflags hrsp hss
  simp only [Cpu.run, List.foldl_cons, List.foldl_nil, Cpu.exec, Cpu.maybeSwapgs, Cpu.resumed, hcs]
  by_cases huser : f.cs = userCs
  · simp [huser, Cpu.swapgs, BitVec.add_assoc, hrip, hcs, hflags, hrsp, hss]
  · simp [huser, BitVec.add_assoc, hrip, hcs, hflags, hrsp, hss]

/-- Where the kernel switches to another thread, it goes on with the saved frame. -/
theorem run_jumpToUserlandFrame (alu : Word → Word → Word → Word)
    (h : StackMachine.Lies c.memory (c.regs .rdi) (frameWords f)) :
    c.run alu jumpToUserlandFrame = c.resumed f := by
  have hholds : (c.exec alu (.movToRsp .rdi)).Holds (frameWords f) := h
  rw [jumpToUserlandFrame, run_cons, run_returnFromInterrupt alu hholds]
  rfl

/-- The processor after `sysretq` from a frame. -/
def Cpu.sysreturned (c : Cpu) (f : Frame) : Cpu where
  regs := Function.update (Function.update (regOf f) .rcx f.rip) .r11 f.rflags
  sp := f.rsp
  memory := c.memory
  rip := f.rip
  rflags := Cpu.sysretFlags f.rflags
  cs := userCs
  ss := userSs
  gsBase := c.kernelGsBase
  kernelGsBase := c.gsBase

theorem run_syscallReturn (alu : Word → Word → Word → Word) (h : c.Holds (frameWords f)) :
    c.run alu syscallReturn = c.sysreturned f := by
  obtain ⟨hrun, -, -, hrip, -, hflags, hrsp, -⟩ := run_popAll alu h
  rw [syscallReturn, run_append, hrun]
  generalize c.sp + 120#64 = p at hrip hflags hrsp
  simp only [BitVec.add_assoc, BitVec.reduceAdd] at hrip hflags hrsp
  simp [Cpu.run, Cpu.exec, StackMachine.pop, Cpu.swapgs, Cpu.sysreturned, BitVec.add_assoc, hrip,
    hflags, hrsp]

/-! ## There and back -/

/-- The C code was called in `c` and returns in `c'`: the stack pointer is where it was and
has the frame `f` above it, and so are the GS bases. -/
structure Returns (c c' : Cpu) (f : Frame) : Prop where
  frame : c'.Holds (frameWords f)
  gs : c'.gs = c.gs

theorem resumed_frame {intNo errCode : Word}
    (hgs : c'.gs = if c.cs = userCs then c.gs.swap else c.gs) :
    c'.resumed (c.frame intNo errCode) = { c with memory := c'.memory } := by
  have hregs := regOf_frame c intNo errCode
  by_cases huser : c.cs = userCs
  · rw [if_pos huser] at hgs
    obtain ⟨hbase, hkernel⟩ := Prod.mk.inj hgs
    exact Cpu.ext hregs rfl rfl rfl rfl rfl rfl ((if_pos huser).trans hkernel)
      ((if_pos huser).trans hbase)
  · rw [if_neg huser] at hgs
    obtain ⟨hbase, hkernel⟩ := Prod.mk.inj hgs
    exact Cpu.ext hregs rfl rfl rfl rfl rfl rfl ((if_neg huser).trans hbase)
      ((if_neg huser).trans hkernel)

/-- An interrupt or exception whose handler returns is transparent: the processor is as
before, in all of its registers, but for the words below the stack. -/
theorem interrupt_transparent {v : Nat} {err : Option Word}
    (herr : err.isSome = true ↔ v ∈ pushesErrorCode) (hv : ¬ (v = 21 ∨ v = 29))
    {top handler : Word}
    (h : Returns ((c.deliver top handler err).run alu (isr v ++ interruptEntry)) c'
      (c.frame (BitVec.ofNat 64 v) (err.getD 0#64))) :
    c'.run alu returnFromInterrupt = { c with memory := c'.memory } := by
  have hframe := (interruptEntry_frame alu (c := c) herr hv top handler).1
  rw [run_returnFromInterrupt alu h.frame]
  exact resumed_frame (h.gs.trans hframe.gs)

/-- The handler of the page fault returns at once. -/
theorem interrupt_transparent_page_fault :
    faultedCpu.run (fun flags _ _ => flags) returnFromInterrupt =
      { userCpu with memory := faultedCpu.memory } := by
  have hcalled := (interruptEntry_frame (c := userCpu) (fun flags _ _ => flags) page_fault_pushes
    (by decide) 0x9000#64 0#64).1
  have hholds := Called.holds hcalled (by decide)
  rw [List.append_nil] at hholds
  exact interrupt_transparent page_fault_pushes (by decide) ⟨hholds, rfl⟩

/-- A system call that returns to its caller: the registers are as before but for RAX,
which holds the word that the kernel put there, and RCX and R11; these three are what the
library's `_syscall2` declares to be overwritten. -/
theorem syscall_transparent {top lstar w : Word} (hstack : SyscallStack c top)
    (hcs : c.cs = userCs) (hss : c.ss = userSs) (hflags : Cpu.sysretFlags c.rflags = c.rflags)
    (h : Returns ((c.syscall lstar).run alu syscallEntry) c' { c.syscallFrame with rax := w }) :
    c'.run alu syscallReturn = { c with
      regs := Function.update (Function.update (Function.update c.regs .rax w) .rcx c.rip) .r11 c.rflags
      memory := c'.memory } := by
  have hcalled := (syscallEntry_called alu hstack lstar).1
  have hgs : c'.gs = c.gs.swap := h.gs.trans hcalled.gs
  obtain ⟨hbase, hkernel⟩ := Prod.mk.inj hgs
  have hregs : (c'.sysreturned { c.syscallFrame with rax := w }).regs =
      Function.update (Function.update (Function.update c.regs .rax w) .rcx c.rip) .r11 c.rflags := by
    funext r
    cases r <;> rfl
  rw [run_syscallReturn alu h.frame]
  exact Cpu.ext hregs rfl rfl rfl hflags hcs.symm hss.symm hkernel hbase

/-- The kernel leaves RAX as it is. -/
theorem syscall_transparent_same :
    ((userCpu.syscall 0#64).run (fun flags _ _ => flags) (syscallEntry ++ syscallReturn)).regs .rbx =
      5#64 := by
  have hstack : SyscallStack userCpu 0x9000#64 := ⟨rfl, by decide⟩
  have hcalled := (syscallEntry_called (fun flags _ _ => flags) hstack 0#64).1
  have hholds := Called.holds hcalled (by decide)
  rw [List.append_nil] at hholds
  have hrun := syscall_transparent (w := 5#64) hstack rfl rfl (by decide) ⟨hholds, rfl⟩
  rw [run_append, hrun]
  simp [userCpu]

end

end Tern.Trap
