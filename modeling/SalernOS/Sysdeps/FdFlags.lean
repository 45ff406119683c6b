import SalernOS.Lib.Descriptors
import SalernOS.Sysdeps.Syscall

/-! # Descriptors that are asked for with flags

`accept4`, `pipe2`, `dup` and `dup3` hand out descriptors, and their callers
may ask for a non-blocking one or for one that is closed on `exec`. A number of
a descriptor fits an `int`.
-/
namespace SalernOS.Sysdeps.FdFlags
open SalernOS.Lib SalernOS.Sysdeps

abbrev Fd := Nat

def oNonblock : BitVec 32 := 0x800
def oCloexec : BitVec 32 := 0x80000
def sockNonblock : BitVec 32 := 0x800
def sockCloexec : BitVec 32 := 0x80000
def fdCloexec : BitVec 32 := 1

/-- `flags & flag` as a condition. -/
def has (flags flag : BitVec 32) : Bool := flags &&& flag != 0

/-- The file status flags and the descriptor flags. -/
@[ext] structure Desc where
  status : BitVec 32
  fdFlags : BitVec 32
deriving DecidableEq, Repr

abbrev Table := Descriptors Desc

/-! ## The kernel -/

inductive Request where
  | getfl
  | setfl
  | getfd
  | setfd
deriving DecidableEq, Repr

/-- Which requests fail, and the status flags that `F_SETFL` does not change. -/
structure Kernel where
  refuses : Request → Option Errno
  fixed : BitVec 32
  fixed_nonblock : fixed &&& oNonblock = 0

def ebadf : Errno := ⟨9, by decide, by decide⟩

/-- The `FCNTL` system call: what it returns, and the table behind it. -/
def Kernel.fcntl (k : Kernel) (fd : Fd) (request : Request) (arg : BitVec 32) (t : Table) :
    Except Errno (BitVec 32 × Table) :=
  match k.refuses request, t.lookup fd with
  | some e, _ => .error e
  | none, none => .error ebadf
  | none, some d =>
    match request with
    | .getfl => .ok (d.status, t)
    | .setfl =>
      .ok (0, t.insert fd { d with status := d.status &&& k.fixed ||| arg &&& ~~~ k.fixed })
    | .getfd => .ok (d.fdFlags, t)
    | .setfd => .ok (0, t.insert fd { d with fdFlags := arg })

/-- What `ACCEPT` creates, at a number that is free. -/
structure Accepted (t : Table) where
  fd : {fd : Fd // fd ∉ t}
  desc : Desc
  blocking : desc.status &&& oNonblock = 0
  inherited : desc.fdFlags &&& fdCloexec = 0

/-- What `PIPE` creates, its two ends at different numbers. -/
structure Piped (t : Table) where
  reader : Accepted t
  writer : Accepted t
  ne : reader.fd.val ≠ writer.fd.val

/-- What `F_DUPFD` creates: it shares the status flags of `fd`. -/
structure Duplicate (t : Table) (fd : Fd) where
  newfd : {fd : Fd // fd ∉ t}
  desc : Desc
  shared : (t.lookup fd).map Desc.status = some desc.status
  inherited : desc.fdFlags &&& fdCloexec = 0

/-- What `DUP3` makes of its target before it applies the flags. -/
structure Replaced (t : Table) (fd : Fd) where
  desc : Desc
  shared : (t.lookup fd).map Desc.status = some desc.status
  inherited : desc.fdFlags &&& fdCloexec = 0

/-! ## `mlibc-salernos/sysdeps/generic/generic.cpp` -/

/-- `sys_fcntl`: its result, `*result` and the table behind it. -/
def sysFcntl (k : Kernel) (fd : Fd) (request : Request) (arg result : BitVec 32) (t : Table) :
    Int × BitVec 32 × Table :=
  match k.fcntl fd request arg t with
  | .error e => (cint e.code, result, t)
  | .ok (ret, t) => (0, ret, t)

/-- `fcntl_helper`; `sys_fcntl` is there. -/
def fcntlHelper (k : Kernel) (fd : Fd) (request : Request) (result arg : BitVec 32) (t : Table) :
    Int × BitVec 32 × Table :=
  sysFcntl k fd request arg result t

/-- Reads flags of a descriptor, and writes them back with one more; the results
of the two calls are dropped. -/
def addFlag (k : Kernel) (newfd : Fd) (get set : Request) (flag : BitVec 32) (t : Table) : Table :=
  let (_, fcntlRet, t) := fcntlHelper k newfd get 0 0 t
  (fcntlHelper k newfd set fcntlRet (fcntlRet ||| flag) t).2.2

/-- The branch of `sys_accept` for `SOCK_NONBLOCK`. -/
def addNonblock (k : Kernel) (newfd : Fd) (t : Table) : Table :=
  addFlag k newfd .getfl .setfl oNonblock t

/-- The branch of `sys_accept` for `SOCK_CLOEXEC`. -/
def addCloexec (k : Kernel) (newfd : Fd) (t : Table) : Table :=
  addFlag k newfd .getfd .setfd fdCloexec t

/-- What a call returns, the descriptors that it hands out, and the table behind
it. -/
structure Outcome where
  ret : Int
  handed : List Fd
  table : Table

variable {t : Table}

def sysAccept (k : Kernel) (flags : BitVec 32) (reply : Except Errno (Accepted t)) : Outcome :=
  match reply with
  | .error e => ⟨cint e.code, [], t⟩
  | .ok new =>
    let newfd := new.fd.val
    let t := t.insert newfd new.desc
    let t := if has flags sockNonblock then addNonblock k newfd t else t
    let t := if has flags sockCloexec then addCloexec k newfd t else t
    ⟨0, [newfd], t⟩

def sysPipe (_flags : BitVec 32) (reply : Except Errno (Piped t)) : Outcome :=
  match reply with
  | .error e => ⟨cint e.code, [], t⟩
  | .ok new =>
    let t : Table := t.insert new.reader.fd new.reader.desc
    ⟨0, [new.reader.fd, new.writer.fd], t.insert new.writer.fd new.writer.desc⟩

def sysDup {fd : Fd} (_flags : BitVec 32) (reply : Except Errno (Duplicate t fd)) : Outcome :=
  match reply with
  | .error e => ⟨cint e.code, [], t⟩
  | .ok new => ⟨0, [new.newfd], t.insert new.newfd new.desc⟩

/-- The kernel applies the flags of `DUP3`. -/
def sysDup2 {fd : Fd} (flags : BitVec 32) (newfd : Fd) (reply : Except Errno (Replaced t fd)) :
    Outcome :=
  match reply with
  | .error e => ⟨cint e.code, [], t⟩
  | .ok new =>
    let fdFlags :=
      if has flags oCloexec then new.desc.fdFlags ||| fdCloexec else new.desc.fdFlags
    ⟨0, [newfd], t.insert newfd { new.desc with fdFlags := fdFlags }⟩

/-! ## What is asked for -/

/-- A call, with what the kernel answers to it. -/
inductive Call (t : Table) where
  | accept (reply : Except Errno (Accepted t))
  | pipe (reply : Except Errno (Piped t))
  | dup (fd : Fd) (reply : Except Errno (Duplicate t fd))
  | dup2 (fd newfd : Fd) (reply : Except Errno (Replaced t fd))

def Call.run (k : Kernel) (flags : BitVec 32) : Call t → Outcome
  | .accept reply => sysAccept k flags reply
  | .pipe reply => sysPipe flags reply
  | .dup _ reply => sysDup flags reply
  | .dup2 _ newfd reply => sysDup2 flags newfd reply

/-- The descriptors that the kernel creates for a call. -/
def Call.created : Call t → List (Fd × Desc)
  | .accept (.ok new) => [(new.fd, new.desc)]
  | .pipe (.ok new) => [(new.reader.fd, new.reader.desc), (new.writer.fd, new.writer.desc)]
  | .dup _ (.ok new) => [(new.newfd, new.desc)]
  | .dup2 _ newfd (.ok new) => [(newfd, new.desc)]
  | _ => []

/-- Whether the caller asks for a non-blocking descriptor. -/
def Call.nonblock (flags : BitVec 32) : Call t → Bool
  | .accept _ => has flags sockNonblock
  | .pipe _ => has flags oNonblock
  | _ => false

/-- Whether the caller asks for close-on-exec. -/
def Call.cloexec (flags : BitVec 32) : Call t → Bool
  | .accept _ => has flags sockCloexec
  | _ => has flags oCloexec

/-- A descriptor as it was created, with the flags that were asked for. -/
def Desc.asked (d : Desc) (nonblock cloexec : Bool) : Desc where
  status := if nonblock then d.status ||| oNonblock else d.status
  fdFlags := if cloexec then d.fdFlags ||| fdCloexec else d.fdFlags

/-- A call that succeeds hands out what was created, with the flags asked for
and no others; one that fails leaves no descriptor behind. -/
def Honoured (c : Call t) (flags : BitVec 32) (o : Outcome) : Prop :=
  if o.ret = 0 then
    o.handed = c.created.map Prod.fst ∧
      ∀ p ∈ c.created,
        o.table.lookup p.1 = some (p.2.asked (c.nonblock flags) (c.cloexec flags))
  else o.table = t

/-- The flags reach the descriptors: `sys_accept` has no request refused that it
needs, and the others are not asked for what they do not pass on. -/
def Carried (k : Kernel) (flags : BitVec 32) : Call t → Prop
  | .accept (.ok new) =>
    (has flags sockNonblock = true → k.refuses .setfl = none ∧
      (k.refuses .getfl = none ∨ new.desc.status &&& ~~~ k.fixed = 0)) ∧
    (has flags sockCloexec = true → k.refuses .setfd = none ∧
      (k.refuses .getfd = none ∨ new.desc.fdFlags = 0))
  | .pipe (.ok _) => has flags oNonblock = false ∧ has flags oCloexec = false
  | .dup _ (.ok _) => has flags oCloexec = false
  | _ => True

/-! ## Flags as bits -/

section Bits

variable {w : Nat} {s fixed flag : BitVec w}

theorem getElem_of_and_eq_zero {x y : BitVec w} (h : x &&& y = 0) {i : Nat} (hi : i < w) :
    (x[i] && y[i]) = false := by
  rw [← BitVec.getElem_and, h]
  exact BitVec.getElem_zero hi

/-- Flags that are read, completed and written back. -/
theorem update_read (h : fixed &&& flag = 0) :
    s &&& fixed ||| (s ||| flag) &&& ~~~ fixed = s ||| flag := by
  ext i hi
  have hb := getElem_of_and_eq_zero h hi
  simp only [BitVec.getElem_or, BitVec.getElem_and, BitVec.getElem_not]
  cases hs : s[i] <;> cases hf : fixed[i] <;> cases hn : flag[i] <;> simp_all

/-- Flags that were not read are overwritten. -/
theorem update_unread (h : fixed &&& flag = 0) (hs : s &&& flag = 0) :
    s &&& fixed ||| (0 ||| flag) &&& ~~~ fixed = s ||| flag ↔ s &&& ~~~ fixed = 0 := by
  simp only [BitVec.eq_of_getElem_eq_iff, BitVec.getElem_or, BitVec.getElem_and,
    BitVec.getElem_not, BitVec.ofNat_eq_ofNat, BitVec.getElem_zero]
  refine forall₂_congr fun i hi => ?_
  have hb := getElem_of_and_eq_zero h hi
  have hb' := getElem_of_and_eq_zero hs hi
  cases hs : s[i] <;> cases hf : fixed[i] <;> cases hn : flag[i] <;> simp_all

theorem ne_or_of_and_eq_zero (hs : s &&& flag = 0) (hflag : flag ≠ 0) : s ≠ s ||| flag := by
  intro h
  have hmask : (s ||| flag) &&& flag = flag := by
    ext i hi
    simpa using fun h => Or.inr h
  exact hflag (by rw [← hmask, ← h, hs])

theorem or_eq_or_iff (hs : s &&& flag = 0) : 0 ||| flag = s ||| flag ↔ s = 0 := by
  have hzero : 0 &&& flag = 0 := BitVec.zero_and
  simpa using update_unread hzero hs

end Bits

/-! ## The branches of `sys_accept` -/

/-- What becomes of a descriptor in the branch for `SOCK_NONBLOCK`. -/
def Kernel.nonblocked (k : Kernel) (d : Desc) : Desc :=
  match k.refuses .setfl with
  | some _ => d
  | none =>
    let fcntlRet := if (k.refuses .getfl).isSome then 0 else d.status
    { d with status := d.status &&& k.fixed ||| (fcntlRet ||| oNonblock) &&& ~~~ k.fixed }

/-- What becomes of a descriptor in the branch for `SOCK_CLOEXEC`. -/
def Kernel.cloexeced (k : Kernel) (d : Desc) : Desc :=
  match k.refuses .setfd with
  | some _ => d
  | none =>
    let fcntlRet := if (k.refuses .getfd).isSome then 0 else d.fdFlags
    { d with fdFlags := fcntlRet ||| fdCloexec }

/-- What a request makes of the flags, when they are read and written back. -/
theorem fcntlHelper_insert (k : Kernel) (fd : Fd) (request : Request) (result arg : BitVec 32)
    (t : Table) (d : Desc) : fcntlHelper k fd request result arg (t.insert fd d) =
      match k.refuses request, request with
      | some e, _ => (cint e.code, result, t.insert fd d)
      | none, .getfl => (0, d.status, t.insert fd d)
      | none, .setfl =>
        (0, 0, t.insert fd { d with status := d.status &&& k.fixed ||| arg &&& ~~~ k.fixed })
      | none, .getfd => (0, d.fdFlags, t.insert fd d)
      | none, .setfd => (0, 0, t.insert fd { d with fdFlags := arg }) := by
  have hlook : (t.insert fd d).lookup fd = some d := Finmap.lookup_insert t
  unfold fcntlHelper sysFcntl Kernel.fcntl
  cases k.refuses request with
  | some e => rfl
  | none => cases request <;> simp [hlook, Finmap.insert_insert]

theorem addNonblock_insert (k : Kernel) (fd : Fd) (t : Table) (d : Desc) :
    addNonblock k fd (t.insert fd d) = t.insert fd (k.nonblocked d) := by
  unfold addNonblock addFlag Kernel.nonblocked
  rw [fcntlHelper_insert]
  cases hget : k.refuses .getfl <;> cases hset : k.refuses .setfl <;>
    simp only [fcntlHelper_insert, hset, Option.isSome_none, Option.isSome_some, if_true,
      Bool.false_eq_true, if_false]

theorem addCloexec_insert (k : Kernel) (fd : Fd) (t : Table) (d : Desc) :
    addCloexec k fd (t.insert fd d) = t.insert fd (k.cloexeced d) := by
  unfold addCloexec addFlag Kernel.cloexeced
  rw [fcntlHelper_insert]
  cases hget : k.refuses .getfd <;> cases hset : k.refuses .setfd <;>
    simp only [fcntlHelper_insert, hset, Option.isSome_none, Option.isSome_some, if_true,
      Bool.false_eq_true, if_false]

@[simp] theorem nonblocked_fdFlags (k : Kernel) (d : Desc) :
    (k.nonblocked d).fdFlags = d.fdFlags := by
  unfold Kernel.nonblocked
  split <;> rfl

@[simp] theorem cloexeced_status (k : Kernel) (d : Desc) :
    (k.cloexeced d).status = d.status := by
  unfold Kernel.cloexeced
  split <;> rfl

/-- The flag is set unless `F_SETFL` fails; what was set before survives a
failure of `F_GETFL` only where it cannot be changed. -/
theorem nonblocked_status_iff (k : Kernel) {d : Desc} (hd : d.status &&& oNonblock = 0) :
    (k.nonblocked d).status = d.status ||| oNonblock ↔
      k.refuses .setfl = none ∧ (k.refuses .getfl = none ∨ d.status &&& ~~~ k.fixed = 0) := by
  unfold Kernel.nonblocked
  cases hset : k.refuses .setfl with
  | some e => exact iff_of_false (ne_or_of_and_eq_zero hd (by simp [oNonblock])) (by simp)
  | none =>
    cases hget : k.refuses .getfl with
    | some e => simpa using update_unread k.fixed_nonblock hd
    | none => simpa using update_read k.fixed_nonblock

theorem cloexeced_fdFlags_iff (k : Kernel) {d : Desc} (hd : d.fdFlags &&& fdCloexec = 0) :
    (k.cloexeced d).fdFlags = d.fdFlags ||| fdCloexec ↔
      k.refuses .setfd = none ∧ (k.refuses .getfd = none ∨ d.fdFlags = 0) := by
  unfold Kernel.cloexeced
  cases hset : k.refuses .setfd with
  | some e => exact iff_of_false (ne_or_of_and_eq_zero hd (by simp [fdCloexec])) (by simp)
  | none =>
    cases hget : k.refuses .getfd with
    | some e => simpa using or_eq_or_iff hd
    | none => simp

/-- What `sys_accept` makes of the descriptor it is given. -/
def Kernel.accepted (k : Kernel) (flags : BitVec 32) (d : Desc) : Desc :=
  let d := if has flags sockNonblock then k.nonblocked d else d
  if has flags sockCloexec then k.cloexeced d else d

theorem sysAccept_ok (k : Kernel) (flags : BitVec 32) (new : Accepted t) :
    sysAccept k flags (.ok new) = ⟨0, [new.fd], t.insert new.fd (k.accepted flags new.desc)⟩ := by
  unfold sysAccept Kernel.accepted
  cases has flags sockNonblock <;> cases has flags sockCloexec <;>
    simp [addNonblock_insert, addCloexec_insert]

theorem accepted_iff (k : Kernel) (flags : BitVec 32) (new : Accepted t) :
    k.accepted flags new.desc =
        new.desc.asked (has flags sockNonblock) (has flags sockCloexec) ↔
      Carried k flags (.accept (.ok new)) := by
  have hstatus := nonblocked_status_iff k new.blocking
  have hfd : ∀ d : Desc, d.fdFlags = new.desc.fdFlags →
      ((k.cloexeced d).fdFlags = new.desc.fdFlags ||| fdCloexec ↔
        k.refuses .setfd = none ∧ (k.refuses .getfd = none ∨ new.desc.fdFlags = 0)) :=
    fun d h => h ▸ cloexeced_fdFlags_iff k (h ▸ new.inherited)
  unfold Kernel.accepted Desc.asked Carried
  rw [Desc.ext_iff]
  refine and_congr ?_ ?_
  · cases has flags sockNonblock <;> cases has flags sockCloexec <;> simp [hstatus]
  · cases has flags sockNonblock <;> cases has flags sockCloexec <;> simp [hfd]

/-! ## The four calls -/

/-- A failure hands out nothing and leaves the table as it was. -/
theorem honoured_error (c : Call t) (flags : BitVec 32) (e : Errno) :
    Honoured c flags ⟨cint e.code, [], t⟩ := by
  have hne : cint e.code ≠ 0 := Int.ne_of_gt e.cint_pos
  unfold Honoured
  rw [if_neg hne]

theorem honoured_ok {c : Call t} {flags : BitVec 32} {handed : List Fd} {table : Table} :
    Honoured c flags ⟨0, handed, table⟩ ↔
      handed = c.created.map Prod.fst ∧
        ∀ p ∈ c.created, table.lookup p.1 = some (p.2.asked (c.nonblock flags) (c.cloexec flags)) :=
  Iff.of_eq (if_pos rfl)

/-- A descriptor without a flag is not one that was asked to have it. -/
theorem eq_asked_cloexec_iff {d : Desc} (hf : d.fdFlags &&& fdCloexec = 0) (cloexec : Bool) :
    d = d.asked false cloexec ↔ cloexec = false := by
  have hfd := ne_or_of_and_eq_zero hf (by simp [fdCloexec])
  cases cloexec <;> simp [Desc.asked, Desc.ext_iff, hfd]

theorem eq_asked_iff {d : Desc} (hs : d.status &&& oNonblock = 0)
    (hf : d.fdFlags &&& fdCloexec = 0) (nonblock cloexec : Bool) :
    d = d.asked nonblock cloexec ↔ nonblock = false ∧ cloexec = false := by
  have hstatus := ne_or_of_and_eq_zero hs (by simp [oNonblock])
  cases nonblock with
  | false => simpa using eq_asked_cloexec_iff hf cloexec
  | true => simp [Desc.asked, Desc.ext_iff, hstatus]

/-- **When the flags are honoured.** Exactly when they are carried to the
descriptors: by `sys_dup2` always, by `sys_pipe` and `sys_dup` where none is asked
for, and by `sys_accept` where the requests that it makes are not refused. -/
theorem honoured_iff (k : Kernel) (flags : BitVec 32) (t : Table) (c : Call t) :
    Honoured c flags (c.run k flags) ↔ Carried k flags c := by
  rcases c with (e | new) | (e | new) | ⟨fd, e | new⟩ | ⟨fd, newfd, e | new⟩
  · exact iff_of_true (honoured_error _ flags e) trivial
  · rw [← accepted_iff]
    change Honoured _ flags (sysAccept k flags (.ok new)) ↔ _
    rw [sysAccept_ok, honoured_ok]
    simp [Call.created, Call.nonblock, Call.cloexec]
  · exact iff_of_true (honoured_error _ flags e) trivial
  · have hr := eq_asked_iff new.reader.blocking new.reader.inherited
    have hw := eq_asked_iff new.writer.blocking new.writer.inherited
    refine honoured_ok.trans ?_
    simp [Call.created, Call.nonblock, Call.cloexec, Carried, hr, hw,
      Finmap.lookup_insert_of_ne _ new.ne]
  · exact iff_of_true (honoured_error _ flags e) trivial
  · have hd := eq_asked_cloexec_iff new.inherited
    refine honoured_ok.trans ?_
    simp [Call.created, Call.nonblock, Call.cloexec, Carried, hd]
  · exact iff_of_true (honoured_error _ flags e) trivial
  · refine iff_of_true (honoured_ok.mpr ⟨rfl, ?_⟩) trivial
    cases hc : has flags oCloexec <;>
      simp [Call.created, Call.nonblock, Call.cloexec, Desc.asked, hc]

/-- A pipe is not closed on `exec` when that is asked for. -/
theorem pipe_cloexec_not_honoured :
    ∃ k : Kernel, ∃ c : Call (∅ : Table), ¬ Honoured c oCloexec (c.run k oCloexec) := by
  refine ⟨⟨fun _ => none, 0, rfl⟩, .pipe (.ok ⟨⟨⟨0, Finmap.notMem_empty⟩, ⟨0, 0⟩, rfl, rfl⟩,
    ⟨⟨1, Finmap.notMem_empty⟩, ⟨1, 0⟩, rfl, rfl⟩, Nat.zero_ne_one⟩), fun h => ?_⟩
  have hreader := (honoured_ok.mp h).2 _ List.mem_cons_self
  exact absurd hreader (by decide)

end SalernOS.Sysdeps.FdFlags
