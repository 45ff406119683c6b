import SalernOS.Lib.Machine
import SalernOS.Lib.Objects

/-! # Allocation in `mlibc-salernos/stdlib.patched.cpp`

The allocator is a parameter. It hands out ranges that are apart from those that
a program holds, and leaves the bytes of these alone; how it aligns a range is
not said, as `posix_memalign` looks at that itself.
-/
namespace SalernOS.Libc.Allocation
open SalernOS.Lib

abbrev Addr := BitVec 64

/-- `getAllocator()`; `live` are the ranges that are held, and null is zero. -/
structure Allocator where
  allocate : (live : List (Range 64)) → Memory 64 → (size : BitVec 64) → Addr × Memory 64
  free : (live : List (Range 64)) → Memory 64 → Addr → Memory 64
  apart : ∀ live m size, (allocate live m size).1 ≠ 0 →
    ∀ r ∈ live, Range.Apart ⟨(allocate live m size).1, size⟩ r
  keeps : ∀ live m size, ∀ r ∈ live, ∀ x ∈ r, (allocate live m size).2 x = m x
  free_keeps : ∀ live m ptr, ∀ r ∈ live, ∀ x ∈ r, free live m ptr x = m x

structure Proc where
  memory : Memory 64
  errno : Int
  live : List (Range 64)

def enomem : Int := 12
def einval : Int := 22

section
variable (A : Allocator)

def malloc (size : BitVec 64) (p : Proc) : Addr × Proc :=
  let (ptr, memory) := A.allocate p.live p.memory size
  (ptr, { p with memory := memory })

def calloc (count size : BitVec 64) (p : Proc) : Addr × Proc :=
  if size ≠ 0 ∧ count > BitVec.allOnes 64 / size then (0, { p with errno := einval })
  else
    let (ptr, p) := malloc A (count * size) p
    if ptr = 0 then (0, p)
    else
      let zeros := List.replicate (count * size).toNat 0
      (ptr, { p with memory := p.memory.storeBytes ptr zeros })

/-- An error leaves `*out` alone; `none` is the failure of `__ensure`. -/
def posixMemalign (align size : BitVec 64) (p : Proc) : Option (Except Int Addr × Proc) :=
  if align < 8 then some (.error einval, p)
  else if align &&& (align - 1) ≠ 0 then some (.error einval, p)
  else
    let (ptr, memory) := A.allocate p.live p.memory (if align < size then size else align)
    let p := { p with memory := memory }
    if ptr = 0 then some (.error enomem, p)
    else if ptr &&& (align - 1) ≠ 0 then none
    else some (.ok ptr, p)

def alignedAlloc (alignment size : BitVec 64) (p : Proc) : Option (Addr × Proc) :=
  if alignment &&& (alignment - 1) ≠ 0 ∨ size &&& (alignment - 1) ≠ 0 then
    some (0, { p with errno := einval })
  else
    let alignment := if alignment < 8 then 8 else alignment
    (posixMemalign A alignment size p).map fun
      | (.error ret, p) => (0, { p with errno := ret })
      | (.ok ptr, p) => (ptr, p)

/-! ## Programs -/

/-- What a program does with the heap. Of the ranges that it holds it names one
by its place. -/
inductive Call where
  | malloc (size : BitVec 64)
  | calloc (count size : BitVec 64)
  | alignedAlloc (alignment size : BitVec 64)
  | posixMemalign (align size : BitVec 64)
  | free (i : Nat)
  | store (i k : Nat) (v : UInt8)
deriving DecidableEq, Repr

/-- The program holds what it has been given. -/
def Proc.take (size : BitVec 64) (ptr : Addr) (p : Proc) : Proc :=
  if ptr = 0 then p else { p with live := p.live ++ [⟨ptr, size⟩] }

def Proc.step (p : Proc) : Call → Option Proc
  | .malloc size =>
    let (ptr, p) := malloc A size p
    some (p.take size ptr)
  | .calloc count size =>
    let (ptr, p) := calloc A count size p
    some (p.take (count * size) ptr)
  | .alignedAlloc alignment size =>
    (alignedAlloc A alignment size p).map fun (ptr, p) => p.take size ptr
  | .posixMemalign align size =>
    (posixMemalign A align size p).map fun
      | (.error _, p) => p
      | (.ok ptr, p) => p.take size ptr
  | .free i =>
    p.live[i]?.map fun r =>
      let live := p.live.eraseIdx i
      { p with memory := A.free live p.memory r.addr, live := live }
  | .store i k v =>
    p.live[i]?.bind fun r =>
      if k < r.size.toNat then
        some { p with memory := Function.update p.memory (r.addr + BitVec.ofNat 64 k) v }
      else none

end

/-! ## What a program can rely on -/

/-- The objects that a program holds, as it knows them. -/
structure Heap where
  objects : List Object
  errno : Int

/-- The object that a call gives when all goes well; `none` where its arguments
are wrong. -/
def Call.promises : Call → Option Object
  | .malloc size => some ⟨1, List.replicate size.toNat none⟩
  | .calloc count size =>
    if count.toNat * size.toNat < 2 ^ 64 then
      some ⟨1, List.replicate (count.toNat * size.toNat) (some 0)⟩
    else none
  | .alignedAlloc alignment size =>
    if alignment.toNat.isPowerOfTwo ∧ alignment.toNat ∣ size.toNat ∨ alignment = 0 ∧ size = 0 then
      some ⟨max 8 alignment.toNat, List.replicate size.toNat none⟩
    else none
  | .posixMemalign align size =>
    if 8 ≤ align.toNat ∧ align.toNat.isPowerOfTwo then
      some ⟨align.toNat, List.replicate size.toNat none⟩
    else none
  | .free _ | .store _ _ _ => none

/-- `errno` behind a call that gives nothing, `old` before it. -/
def Call.refuses (old : Int) : Call → Option Int
  | .malloc _ | .posixMemalign _ _ => some old
  | .calloc count size => some (if (Call.calloc count size).promises = none then einval else old)
  | .alignedAlloc alignment size =>
    some (if (Call.alignedAlloc alignment size).promises = none then einval else enomem)
  | .free _ | .store _ _ _ => none

inductive Heap.Step : Heap → Call → Heap → Prop where
  | granted {h : Heap} {c : Call} {o : Object} (ho : c.promises = some o) :
    Step h c { h with objects := h.objects ++ [o] }
  | refused {h : Heap} {c : Call} {errno : Int} (he : c.refuses h.errno = some errno) :
    Step h c { h with errno := errno }
  | free {h : Heap} {i : Nat} (hi : i < h.objects.length) :
    Step h (.free i) { h with objects := h.objects.eraseIdx i }
  | store {h : Heap} {i k : Nat} {o : Object} (ho : h.objects[i]? = some o)
      (hk : k < o.bytes.length) (v : UInt8) :
    Step h (.store i k v)
      { h with objects := h.objects.set i { o with bytes := o.bytes.set k (some v) } }

/-- The memory has the objects. -/
structure Refines (p : Proc) (h : Heap) : Prop where
  represents : Represents p.memory p.live h.objects
  errno : p.errno = h.errno

variable {A : Allocator} {p q : Proc} {h : Heap} {ptr : Addr} {size : BitVec 64} {o : Object}

/-- A range has been found for an object. -/
structure Gives (p : Proc) (h : Heap) (ptr : Addr) (size : BitVec 64) (o : Object) : Prop where
  refines : Refines p h
  nonnull : ptr ≠ 0
  object : o.At p.memory ⟨ptr, size⟩
  apart : ∀ r ∈ p.live, Range.Apart ⟨ptr, size⟩ r

theorem Gives.take (hg : Gives p h ptr size o) :
    Refines (p.take size ptr) { h with objects := h.objects ++ [o] } := by
  rw [Proc.take, if_neg hg.nonnull]
  exact ⟨hg.refines.represents.grow hg.object hg.apart, hg.refines.errno⟩

/-- What a call that returns a pointer comes to: null and an error number, or an
object as promised. -/
def Answers (c : Call) (size : BitVec 64) (h : Heap) (r : Addr × Proc) : Prop :=
  (r.1 = 0 ∧ ∃ errno, c.refuses h.errno = some errno ∧ Refines r.2 { h with errno := errno }) ∨
    ∃ o, c.promises = some o ∧ Gives r.2 h r.1 size o

theorem Answers.take {c : Call} {r : Addr × Proc} (ha : Answers c size h r) :
    ∃ h', Heap.Step h c h' ∧ Refines (r.2.take size r.1) h' := by
  rcases ha with ⟨hnull, errno, he, hr⟩ | ⟨o, ho, hg⟩
  · refine ⟨_, .refused he, ?_⟩
    rw [Proc.take, if_pos hnull]
    exact hr
  · exact ⟨_, .granted ho, hg.take⟩

/-- Behind a call of the allocator the objects are as they were. -/
theorem Refines.allocate (hr : Refines p h) (A : Allocator) (size : BitVec 64) :
    Refines { p with memory := (A.allocate p.live p.memory size).2 } h where
  represents := hr.represents.congr (A.keeps p.live p.memory size)
  errno := hr.errno

/-- The two masks of `aligned_alloc`. -/
theorem aligned_iff (alignment size : BitVec 64) :
    ¬ (alignment &&& (alignment - 1) ≠ 0 ∨ size &&& (alignment - 1) ≠ 0) ↔
      alignment.toNat.isPowerOfTwo ∧ alignment.toNat ∣ size.toNat ∨ alignment = 0 ∧ size = 0 := by
  rw [not_or, not_not, not_not]
  by_cases ha : alignment = 0
  · have hzero : alignment.toNat = 0 := congrArg BitVec.toNat ha
    have hmask : size &&& (alignment - 1) = size := by
      rw [ha, show (0 : BitVec 64) - 1 = BitVec.allOnes 64 from rfl, BitVec.and_allOnes]
    have hself : alignment &&& (alignment - 1) = 0 := by rw [ha]; rfl
    have hnot : ¬ alignment.toNat.isPowerOfTwo := hzero ▸ Nat.not_isPowerOfTwo_zero
    rw [hmask]
    constructor
    · exact fun h => .inr ⟨ha, h.2⟩
    · rintro (⟨hpow, -⟩ | ⟨-, hz⟩)
      · exact absurd hpow hnot
      · exact ⟨hself, hz⟩
  · rw [powerOfTwo_iff ha]
    constructor
    · exact fun h => .inl ⟨h.1, (multiple_iff h.1 size).mp h.2⟩
    · rintro (⟨hpow, hdvd⟩ | ⟨hz, -⟩)
      · exact ⟨hpow, (multiple_iff hpow size).mpr hdvd⟩
      · exact absurd hz ha

def fresh : Proc := ⟨fun _ => 255, 0, []⟩

end SalernOS.Libc.Allocation
