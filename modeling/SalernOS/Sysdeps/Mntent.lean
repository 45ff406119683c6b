import SalernOS.Lib.Words
import SalernOS.Libc.Stdio

/-! # `mlibc-salernos/sysdeps/generic/mntent.cpp`

The mount table is a text with a line for each file system: four words and two
numbers. An entry is handed out as offsets into the line, which is cut in place.
-/
namespace SalernOS.Sysdeps.Mntent
open SalernOS.Lib SalernOS.Libc SalernOS.Libc.Stdio

def hash : UInt8 := 35
def tab : UInt8 := 9

/-- Which buffer a line is read into: `internal_buf`, which grows, or one of
`room + 1` bytes that the caller gives. -/
inductive LineBuf where
  | sentinel
  | caller (room : Nat) (pos : 0 < room)

def LineBuf.room : LineBuf → Option Nat
  | .sentinel => none
  | .caller room _ => some room

/-- `getline` or `fgets`. -/
def LineBuf.read : LineBuf → Stream → Bytes × Stream
  | .sentinel, f => getline f
  | .caller room _, f => fgets room f

/-- `struct mntent`; the strings are offsets into the line buffer. -/
structure Mnt where
  fsname : Nat
  dir : Nat
  type : Nat
  opts : Nat
  freq : BitVec 32
  passno : BitVec 32
deriving DecidableEq, Repr

/-- What `getmntent_r` returns, and `errno` where it sets it. -/
inductive Returned where
  | null
  | nullErange
  | entry (linebuf : Bytes) (mnt : Mnt)
deriving DecidableEq, Repr

/-- `" %n%*s%n %n%*s%n %n%*s%n %n%*s%n %d %d"` -/
def format : List Conv :=
  [.space, .count 0, .skipWord, .count 1, .space, .count 2, .skipWord, .count 3,
    .space, .count 4, .skipWord, .count 5, .space, .count 6, .skipWord, .count 7,
    .space, .int .first, .space, .int .second]

/-- The loop of `getmntent_r`; `numbers` are `mnt_freq` and `mnt_passno`. -/
def readLoop (linebuf : LineBuf) : Nat → Ints → Stream →
    Option (Returned × Stream)
  | 0, _, _ => none
  | fuel + 1, numbers, f =>
    let (buf, f) := linebuf.read f
    let line := stringAt nul buf 0
    if f.ended then some (.null, f)
    else if newline ∉ line then some (.nullErange, skipLine f)
    else
      let len := line.length
      let s := sscanf format ⟨0, line, Vector.replicate 8 len, numbers⟩
      let n := s.counts
      if buf[n[0]]? = some hash ∨ n[1] = len then readLoop linebuf fuel s.ints f
      else
        some (.entry (terminate nul buf [n[1], n[3], n[5], n[7]])
          ⟨n[0], n[2], n[4], n[6], s.ints.first, s.ints.second⟩, f)

/-- Each turn of the loop takes a byte or comes to the end of the file. -/
def getmntentR (linebuf : LineBuf) (f : Stream) : Option (Returned × Stream) :=
  readLoop linebuf (f.rest.length + 1) ⟨0, 0⟩ f

def getmntent (f : Stream) : Option (Returned × Stream) := getmntentR .sentinel f

/-! ## Entries as values -/

/-- An entry with the strings themselves. -/
structure Entry where
  fsname : Bytes
  dir : Bytes
  type : Bytes
  opts : Bytes
  freq : BitVec 32
  passno : BitVec 32
deriving DecidableEq, Repr

def Mnt.entry (linebuf : Bytes) (mnt : Mnt) : Entry where
  fsname := stringAt nul linebuf mnt.fsname
  dir := stringAt nul linebuf mnt.dir
  type := stringAt nul linebuf mnt.type
  opts := stringAt nul linebuf mnt.opts
  freq := mnt.freq
  passno := mnt.passno

/-- `"%s\t%s\t%s\t%s\t%d\t%d\n"` -/
def Entry.text (e : Entry) : Bytes :=
  e.fsname ++ tab :: (e.dir ++ tab :: (e.type ++ tab :: (e.opts ++ tab ::
    (ascii (toString e.freq.toInt) ++ tab :: (ascii (toString e.passno.toInt) ++ [newline])))))

/-- `addmntent` to a file that holds `content`: what it returns, and what the
file holds then. The flag is whether `fseek` succeeds; `written` is how many
bytes come through where `fprintf` fails. -/
def addmntent (seeks : Bool) (written : Option Nat) (content : Bytes) (e : Entry) : Int × Bytes :=
  if !seeks then (1, content)
  else
    match written with
    | some k => (1, content ++ e.text.take k)
    | none => (0, content ++ e.text)

/-! ## Many calls -/

/-- What a caller of `getmntent_r` gets to see. -/
inductive Answer where
  | null
  | erange
  | entry (e : Entry)
deriving DecidableEq, Repr

def Returned.answer : Returned → Answer
  | .null => .null
  | .nullErange => .erange
  | .entry linebuf mnt => .entry (mnt.entry linebuf)

/-- The answers of `k` calls. An entry is taken up before the next call, which
overwrites the buffer. -/
def answers (linebuf : LineBuf) : Nat → Stream → Option (List Answer)
  | 0, _ => some []
  | k + 1, f =>
    match getmntentR linebuf f with
    | none => none
    | some (r, f) => (answers linebuf k f).map (r.answer :: ·)

end SalernOS.Sysdeps.Mntent
