import SalernOS.Lib.Memory
import SalernOS.Sysdeps.Syscall

/-! # `sysdeps/generic/thread.cpp`, `thread.S` and `sys_clone`

`sys_prepare_stack` leaves a frame at the end of a new stack, and the first
instructions of the thread take it apart again. Nothing rounds the size of the
stack, which decides where its end is.
-/
namespace SalernOS.Sysdeps.Thread
open SalernOS.Lib

abbrev Addr := BitVec 64

/-- The memory, and the addresses of the words that were written or popped. -/
structure Space where
  mem : Memory 64
  touched : List Addr

def Space.store (s : Space) (a : Addr) (v : BitVec 64) : Space :=
  ⟨s.mem.store64 a v, s.touched ++ [a]⟩

/-! ## `sys_prepare_stack` -/

def defaultStack : BitVec 64 := 0x400000

def mapFailed : Addr := -1

/-- What `mmap` returns, and `errno` behind it. -/
structure MmapReply where
  ptr : Addr
  errno : Int

/-- What the pointers of the caller point to. -/
structure Outs where
  stack : Addr
  stackSize : BitVec 64
  guardSize : BitVec 64
  stackBase : Addr

/-- `*--stack_it = v;` -/
def storeDown (v : BitVec 64) (p : Addr × Space) : Addr × Space := (p.1 - 8, p.2.store (p.1 - 8) v)

/-- What follows once the base is known. -/
def layFrame (outs : Outs) (entry arg tcb : BitVec 64) (s : Space) : Int × Outs × Space :=
  let stack := outs.stackBase + outs.stackSize
  let (stackIt, s) := storeDown entry (storeDown tcb (storeDown arg (stack, s)))
  (0, { outs with stack := stackIt }, s)

def sysPrepareStack (mmap : BitVec 64 → MmapReply) (outs : Outs) (entry arg tcb : BitVec 64)
    (s : Space) : Int × Outs × Space :=
  let outs := { outs with guardSize := 0 }
  let outs := { outs with
    stackSize := if outs.stackSize ≠ 0 then outs.stackSize else defaultStack }
  if outs.stack = 0 then
    let reply := mmap outs.stackSize
    let outs := { outs with stackBase := reply.ptr }
    if outs.stackBase = mapFailed then (reply.errno, outs, s)
    else layFrame outs entry arg tcb s
  else layFrame { outs with stackBase := outs.stack } entry arg tcb s

/-! ## `__mlibc_thread_entry` -/

inductive Symbol where
  | mlibcThreadEntry
  | mlibcThreadTrampoline
deriving DecidableEq, Repr

/-- The registers of the first three arguments, in this order. -/
inductive Reg where
  | rdi
  | rsi
  | rdx
deriving DecidableEq, Repr

inductive Instr where
  | pop (r : Reg)
  | call (f : Symbol)
deriving DecidableEq, Repr

structure Cpu where
  rsp : Addr
  regs : Reg → BitVec 64
  space : Space

def Cpu.pop (r : Reg) (c : Cpu) : Cpu where
  rsp := c.rsp + 8
  regs := Function.update c.regs r (c.space.mem.load64 c.rsp)
  space := { c.space with touched := c.space.touched ++ [c.rsp] }

def Cpu.push (v : BitVec 64) (c : Cpu) : Cpu where
  rsp := c.rsp - 8
  regs := c.regs
  space := c.space.store (c.rsp - 8) v

/-- A call: what is called, the machine at the instruction and the machine in
front of the first instruction of the function. -/
structure CallSite where
  target : Symbol
  caller : Cpu
  callee : Cpu

/-- The instructions up to the first call; `ret` is its return address. -/
def run (ret : Addr) : List Instr → Cpu → Option CallSite
  | [], _ => none
  | .pop r :: is, c => run ret is (c.pop r)
  | .call f :: _, c => some ⟨f, c, c.push ret⟩

def mlibcThreadEntry : List Instr :=
  [.pop .rdi, .pop .rsi, .pop .rdx, .call .mlibcThreadTrampoline]

/-- The arguments of the system call behind `sys_clone`. -/
structure CloneArgs where
  entry : Symbol
  stack : Addr

/-- What `sys_clone` asks the kernel for, what it returns and `*pid_out`. -/
def sysClone (reply : Reply Unit) (pidOut : BitVec 32) (stack : Addr) :
    CloneArgs × Int × BitVec 32 :=
  let args := ⟨.mlibcThreadEntry, stack⟩
  let regs := reply.regs
  if 0 ≠ regs.errno then (args, cint regs.errno, pidOut) else (args, 0, regs.ret.setWidth 32)

/-- The new thread, whose other registers hold anything. -/
def start (args : CloneArgs) (regs : Reg → BitVec 64) (s : Space) : Cpu := ⟨args.stack, regs, s⟩

/-! ## A thread that is set up -/

def effectiveSize (stackSize : BitVec 64) : BitVec 64 :=
  if stackSize ≠ 0 then stackSize else defaultStack

/-- The arguments of `sys_prepare_stack`, with an aligned stack that has room for
the frame, and what the thread finds. `MAP_FAILED` is not aligned, so the stack
is accepted. -/
structure Setup where
  mmap : BitVec 64 → MmapReply
  outs : Outs
  entry : BitVec 64
  arg : BitVec 64
  tcb : BitVec 64
  mem : Memory 64
  regs : Reg → BitVec 64
  clone : Reply Unit
  ret : Addr
  base : Addr
  chosen : base = if outs.stack = 0 then (mmap (effectiveSize outs.stackSize)).ptr else outs.stack
  aligned : base.toNat % 16 = 0
  large : 24 ≤ (effectiveSize outs.stackSize).toNat

namespace Setup

def size (s : Setup) : BitVec 64 := effectiveSize s.outs.stackSize

def prepared (s : Setup) : Int × Outs × Space :=
  sysPrepareStack s.mmap s.outs s.entry s.arg s.tcb ⟨s.mem, []⟩

/-- The thread up to its call. -/
def called (s : Setup) : Option CallSite :=
  run s.ret mlibcThreadEntry
    (start (sysClone s.clone 0 s.prepared.2.1.stack).1 s.regs s.prepared.2.2)

/-- The word lies in the stack. -/
def Inside (s : Setup) (a : Addr) : Prop := (a - s.base).toNat + 8 ≤ s.size.toNat

/-- The trampoline gets its arguments, and all words lie in the stack. -/
structure Delivers (s : Setup) (c : CallSite) : Prop where
  target : c.target = .mlibcThreadTrampoline
  entry : c.caller.regs .rdi = s.entry
  tcb : c.caller.regs .rsi = s.tcb
  arg : c.caller.regs .rdx = s.arg
  inside : ∀ a ∈ c.callee.space.touched, s.Inside a

/-- The stack is accepted, and the thread calls the trampoline as the ABI says. -/
def Starts (s : Setup) : Prop :=
  s.prepared.1 = 0 ∧ ∃ c, s.called = some c ∧ s.Delivers c ∧ c.caller.rsp.toNat % 16 = 0

end Setup

/-! ## The frame -/

theorem Setup.prepared_eq (s : Setup) : s.prepared =
    layFrame ⟨s.outs.stack, s.size, 0, s.base⟩ s.entry s.arg s.tcb ⟨s.mem, []⟩ := by
  have hbase : s.base ≠ mapFailed := by
    intro h
    have haligned := s.aligned
    rw [h] at haligned
    cases haligned
  have hchosen := s.chosen
  unfold Setup.prepared sysPrepareStack
  simp only
  by_cases hnull : s.outs.stack = 0
  · rw [if_pos hnull] at hchosen ⊢
    change (if (s.mmap s.size).ptr = mapFailed then _ else
      layFrame ⟨s.outs.stack, s.size, 0, (s.mmap s.size).ptr⟩ _ _ _ _) = _
    have hptr : (s.mmap s.size).ptr = s.base := hchosen.symm
    rw [hptr, if_neg hbase]
  · rw [if_neg hnull] at hchosen ⊢
    rw [hchosen]
    rfl

theorem sub_eight (top : Addr) : top - 8 - 8 = top - 16 ∧ top - 16 - 8 = top - 24 ∧
    top - 8 - 16 = top - 24 := by
  simp only [sub_sub]
  exact ⟨rfl, rfl, rfl⟩

/-- The words of the frame below `top`. -/
def frameMemory (mem : Memory 64) (top : Addr) (entry tcb arg : BitVec 64) : Memory 64 :=
  ((mem.store64 (top - 8) arg).store64 (top - 16) tcb).store64 (top - 24) entry

theorem layFrame_eq (outs : Outs) (entry arg tcb : BitVec 64) (mem : Memory 64) :
    let top := outs.stackBase + outs.stackSize
    layFrame outs entry arg tcb ⟨mem, []⟩ = (0, { outs with stack := top - 24 },
      ⟨frameMemory mem top entry tcb arg, [top - 8, top - 16, top - 24]⟩) := by
  intro top
  obtain ⟨h16, h24, -⟩ := sub_eight top
  change ((0 : Int), { outs with stack := top - 8 - 8 - 8 }, Space.mk
    (((mem.store64 (top - 8) arg).store64 (top - 8 - 8) tcb).store64 (top - 8 - 8 - 8) entry)
    [top - 8, top - 8 - 8, top - 8 - 8 - 8]) = _
  rw [h16, h24]
  rfl

/-- No word of the frame overwrites another one. -/
theorem load64_frameMemory (mem : Memory 64) (top : Addr) (entry tcb arg : BitVec 64) :
    let frame := frameMemory mem top entry tcb arg
    frame.load64 (top - 24) = entry ∧ frame.load64 (top - 16) = tcb ∧
      frame.load64 (top - 8) = arg := by
  obtain ⟨h16, h24, h24'⟩ := sub_eight top
  have below (m : Memory 64) (a v : BitVec 64) :
      (m.store64 (a - 8) v).load64 a = m.load64 a ∧
      (m.store64 (a - 16) v).load64 a = m.load64 a :=
    ⟨m.load64_store64_below a v (by decide) (by decide),
      m.load64_store64_below a v (by decide) (by decide)⟩
  have same (m : Memory 64) (a v : BitVec 64) : (m.store64 a v).load64 a = v :=
    m.load64_store64 a v (by decide)
  refine ⟨same _ _ _, ?_, ?_⟩
  · rw [frameMemory, ← h24, (below _ (top - 16) entry).1, same]
  · rw [frameMemory, ← h24', (below _ (top - 8) entry).2, ← h16, (below _ (top - 8) tcb).1, same]

/-- What the entry pops is what was stored last. -/
theorem run_layFrame (outs : Outs) (entry arg tcb : BitVec 64) (mem : Memory 64)
    (regs : Reg → BitVec 64) (ret : Addr) :
    let top := outs.stackBase + outs.stackSize
    let prepared := layFrame outs entry arg tcb ⟨mem, []⟩
    ∃ c, run ret mlibcThreadEntry ⟨prepared.2.1.stack, regs, prepared.2.2⟩ = some c ∧
      c.target = .mlibcThreadTrampoline ∧ c.caller.rsp = top ∧ c.caller.regs .rdi = entry ∧
      c.caller.regs .rsi = tcb ∧ c.caller.regs .rdx = arg ∧
      c.callee.space.touched = [top - 8, top - 16, top - 24, top - 24, top - 16, top - 8, top - 8] := by
  intro top prepared
  obtain ⟨h16, h24, -⟩ := sub_eight top
  have hup16 : top - 24 + 8 = top - 16 := by rw [← h24, sub_add_cancel]
  have hup8 : top - 16 + 8 = top - 8 := by rw [← h16, sub_add_cancel]
  have hup : top - 8 + 8 = top := sub_add_cancel top 8
  let frame := frameMemory mem top entry tcb arg
  obtain ⟨hentry, htcb, harg⟩ := load64_frameMemory mem top entry tcb arg
  rw [show prepared = _ from layFrame_eq outs entry arg tcb mem]
  refine ⟨_, rfl, rfl, ?_, hentry, ?_, ?_, ?_⟩
  · change top - 24 + 8 + 8 + 8 = top
    rw [hup16, hup8, hup]
  · change frame.load64 (top - 24 + 8) = tcb
    rw [hup16]
    exact htcb
  · change frame.load64 (top - 24 + 8 + 8) = arg
    rw [hup16, hup8]
    exact harg
  · change [top - 8, top - 16, top - 24, top - 24, top - 24 + 8, top - 24 + 8 + 8,
      top - 24 + 8 + 8 + 8 - 8] = _
    rw [hup16, hup8, hup]

/-- A word near the end of a stack that is large enough. -/
theorem Setup.inside_of_le (s : Setup) {d : BitVec 64} (hd : 8 ≤ d.toNat) (hle : d.toNat ≤ 24) :
    s.Inside (s.base + s.size - d) := by
  have hlarge : 24 ≤ s.size.toNat := s.large
  unfold Setup.Inside
  rw [add_sub_assoc, add_sub_cancel_left, BitVec.toNat_sub_of_le]
  · omega
  · rw [BitVec.le_def]
    omega

/-- The trampoline gets what it should from a stack of any size, and the stack
pointer at the call is the end of the stack. -/
theorem Setup.called_delivers (s : Setup) :
    s.prepared.1 = 0 ∧ ∃ c, s.called = some c ∧ s.Delivers c ∧ c.caller.rsp = s.base + s.size := by
  obtain ⟨c, hrun, htarget, hrsp, hrdi, hrsi, hrdx, htouched⟩ := run_layFrame
    ⟨s.outs.stack, s.size, 0, s.base⟩ s.entry s.arg s.tcb s.mem s.regs s.ret
  have hcalled : s.called = some c := by
    have hstack : (sysClone s.clone 0 s.prepared.2.1.stack).1.stack = s.prepared.2.1.stack := by
      unfold sysClone
      simp only
      split <;> rfl
    unfold Setup.called start
    rw [hstack, s.prepared_eq]
    exact hrun
  refine ⟨by rw [s.prepared_eq]; rfl, c, hcalled, ⟨htarget, hrdi, hrsi, hrdx, ?_⟩, hrsp⟩
  have h8 : s.Inside (s.base + s.size - 8) := s.inside_of_le (by decide) (by decide)
  have h16 : s.Inside (s.base + s.size - 16) := s.inside_of_le (by decide) (by decide)
  have h24 : s.Inside (s.base + s.size - 24) := s.inside_of_le (by decide) (by decide)
  rw [htouched]
  simpa only [List.forall_mem_cons, List.not_mem_nil, false_implies, implies_true, and_true] using
    ⟨h8, h16, h24, h24, h16, h8, h8⟩

/-- The end of the stack is as aligned as its size. -/
theorem Setup.aligned_iff (s : Setup) :
    (s.base + s.size).toNat % 16 = 0 ↔ s.size.toNat % 16 = 0 := by
  have haligned := s.aligned
  rw [BitVec.toNat_add]
  omega

/-- **When a thread starts as the ABI says.** Everything but the alignment holds
for a stack of any size. -/
theorem thread_starts_iff (s : Setup) : s.Starts ↔ s.size.toNat % 16 = 0 := by
  obtain ⟨hret, c, hcalled, hdelivers, hrsp⟩ := s.called_delivers
  rw [← s.aligned_iff, ← hrsp]
  constructor
  · rintro ⟨-, c', hcalled', -, haligned⟩
    obtain rfl : c = c' := Option.some.inj (hcalled.symm.trans hcalled')
    exact haligned
  · exact fun haligned => ⟨hret, c, hcalled, hdelivers, haligned⟩

/-- The caller's own stack, of the smallest size. -/
def smallest : Setup where
  mmap := fun _ => ⟨mapFailed, 12⟩
  outs := ⟨0x10000, 24, 0, 0⟩
  entry := 0x401000
  arg := 0
  tcb := 0x500000
  mem := fun _ => 0
  regs := fun _ => 0
  clone := .success 2 ()
  ret := 0x400010
  base := 0x10000
  chosen := rfl
  aligned := rfl
  large := by decide

/-- The call is made with a stack pointer that is eight bytes off. -/
theorem smallest_not_starts : ¬ smallest.Starts := by
  obtain ⟨-, c, hcalled, -, hrsp⟩ := smallest.called_delivers
  intro hstarts
  obtain ⟨-, c', hcalled', -, haligned⟩ := hstarts
  obtain rfl : c = c' := Option.some.inj (hcalled.symm.trans hcalled')
  rw [hrsp] at haligned
  exact absurd haligned (by decide)

end SalernOS.Sysdeps.Thread
