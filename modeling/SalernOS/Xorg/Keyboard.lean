import Mathlib.Data.BitVec
import SalernOS.Lib.Cursor

/-! # `salernos_kbd.c` of the patch of `xf86-input-keyboard`

A read delivers up to sixteen packets. Each key code is looked up in a table
that is as long as its last entry needs.
-/
namespace SalernOS.Xorg.Keyboard
open SalernOS.Lib

def keystateReleased : BitVec 32 := 2

/-- The codes of `atKeynames.h` that the table holds. -/
structure KeyNames where
  kpEnter : BitVec 32
  rCtrl : BitVec 32
  kpDivide : BitVec 32
  altLang : BitVec 32
  home : BitVec 32
  up : BitVec 32
  pgUp : BitVec 32
  left : BitVec 32
  right : BitVec 32
  endKey : BitVec 32
  down : BitVec 32
  pgDown : BitVec 32
  insert : BitVec 32
  delete : BitVec 32

/-- The designated entries of `G_SALERNOS_KEMAPS`. -/
def designated (names : KeyNames) : List (Nat × BitVec 32) := [
  (96, names.kpEnter), (97, names.rCtrl), (98, names.kpDivide), (100, names.altLang),
  (101, names.kpEnter), (102, names.home), (103, names.up), (104, names.pgUp),
  (105, names.left), (106, names.right), (107, names.endKey), (108, names.down),
  (109, names.pgDown), (110, names.insert), (111, names.delete)]

/-- One more than the last designated index. -/
def tableSize : Nat := 112

/-- `G_SALERNOS_KEMAPS`; what is not designated is zero. -/
def gSalernosKemaps (names : KeyNames) : Vector (BitVec 32) tableSize :=
  Vector.ofFn fun i => ((designated names).lookup i.val).getD 0

/-- The table is long enough for every designated entry, and holds it there. -/
theorem gSalernosKemaps_designated (names : KeyNames) : ∀ e ∈ designated names,
    ∃ h : e.1 < tableSize, (gSalernosKemaps names).get ⟨e.1, h⟩ = e.2 := by
  have hget : ∀ i, (gSalernosKemaps names).get i = ((designated names).lookup i.val).getD 0 := by
    intro i
    change (gSalernosKemaps names)[i.val] = _
    rw [gSalernosKemaps, Vector.getElem_ofFn]
  intro e he
  simp only [hget]
  simp only [designated, List.mem_cons, List.not_mem_nil, or_false] at he
  rcases he with rfl | rfl | rfl | rfl | rfl | rfl | rfl | rfl | rfl | rfl | rfl | rfl | rfl | rfl |
    rfl <;> exact ⟨Nat.le_of_ble_eq_true rfl, rfl⟩

/-- `struct key_packet`, without the fields that no one looks at. -/
structure KeyPacket where
  keycode : BitVec 32
  keystate : BitVec 32
deriving DecidableEq, Repr

def sizeofKeyPacket : Nat := 24

def maxPackets : Nat := 16

/-- What `PostEvent` is given. -/
structure KeyEvent where
  keycode : BitVec 32
  pressed : Bool
deriving DecidableEq, Repr

/-- What `read` comes to: an error, or whole packets, of which there may be none. -/
inductive Delivery where
  | failed (errno : Nat)
  | packets (ps : List KeyPacket) (le : ps.length ≤ maxPackets)

def Delivery.ret : Delivery → Int
  | .failed _ => -1
  | .packets ps _ => (ps.length * sizeofKeyPacket : Nat)

/-- The packets that were delivered. -/
def Delivery.read : Delivery → List KeyPacket
  | .failed _ => []
  | .packets ps _ => ps

/-- What the stack holds where `packets` is. -/
abbrev Buffer := Vector KeyPacket maxPackets

/-- The array `packets` behind the call. -/
def Delivery.fill (stale : Buffer) (d : Delivery) : List KeyPacket :=
  d.read ++ stale.toList.drop d.read.length

/-- `G_SALERNOS_KEMAPS[keycode]`, with a signed index. -/
def kemap (table : Vector (BitVec 32) tableSize) (keycode : BitVec 32) :
    Except Fault (BitVec 32) :=
  if h : 0 ≤ keycode.toInt ∧ keycode.toInt < tableSize then
    .ok (table.get ⟨keycode.toInt.toNat, by omega⟩)
  else .error .outOfBounds

/-- The body of the loop: the event for a packet. -/
def translate (table : Vector (BitVec 32) tableSize) (p : KeyPacket) : Except Fault KeyEvent := do
  let entry ← kemap table p.keycode
  let keycode := if 0 ≠ entry then entry else p.keycode
  return ⟨keycode, if keystateReleased = p.keystate then false else true⟩

/-- The loop from index `i` on, for the remaining number of rounds. -/
def readLoop (table : Vector (BitVec 32) tableSize) (packets : List KeyPacket) :
    Nat → Nat → List KeyEvent → Except Fault (List KeyEvent)
  | 0, _, posted => return posted
  | rounds + 1, i, posted => do
    let some p := packets[i]? | .error .outOfBounds
    let e ← translate table p
    readLoop table packets rounds (i + 1) (posted ++ [e])

/-- `ReadInput`, behind the events that were posted before. -/
def readInput (table : Vector (BitVec 32) tableSize) (d : Delivery) (stale : Buffer)
    (posted : List KeyEvent) : Except Fault (List KeyEvent) :=
  let result := d.ret
  if result > 0 then
    readLoop table (d.fill stale) (result / sizeofKeyPacket).toNat 0 posted
  else return posted

/-- A call of `ReadInput`: what its `read` delivers, and the stack before it. -/
abbrev Call := Delivery × Buffer

/-- Calls, one after the other. -/
def readInputs (table : Vector (BitVec 32) tableSize) :
    List Call → List KeyEvent → Except Fault (List KeyEvent)
  | [], posted => return posted
  | (d, stale) :: calls, posted => do
    let posted ← readInput table d stale posted
    readInputs table calls posted

/-! ## What should be posted -/

/-- The index is one of the table. -/
def InTable (p : KeyPacket) : Prop := 0 ≤ p.keycode.toInt ∧ p.keycode.toInt < tableSize

/-- The entry of a key code, where it has one that is not zero. -/
def entryOf (table : Vector (BitVec 32) tableSize) (keycode : BitVec 32) : Option (BitVec 32) :=
  if keycode.toInt < 0 then none
  else table[keycode.toInt.toNat]?.filter (· ≠ 0)

/-- The table's code for a key that has one, and the key's own for the others. -/
def eventOf (table : Vector (BitVec 32) tableSize) (p : KeyPacket) : KeyEvent :=
  ⟨(entryOf table p.keycode).getD p.keycode, p.keystate ≠ keystateReleased⟩

/-- The run stays inside the table, and posts the packets that were read, in
their order. -/
def Translates (table : Vector (BitVec 32) tableSize) (calls : List Call) : Prop :=
  readInputs table calls [] = .ok ((calls.flatMap fun c => c.1.read).map (eventOf table))

/-! ## One packet -/

instance (p : KeyPacket) : Decidable (InTable p) := inferInstanceAs (Decidable (_ ∧ _))

theorem kemap_eq (table : Vector (BitVec 32) tableSize) {p : KeyPacket} (h : InTable p) :
    ∃ entry, kemap table p.keycode = .ok entry ∧
      entryOf table p.keycode = if entry ≠ 0 then some entry else none := by
  refine ⟨_, dif_pos h, ?_⟩
  have hlt : p.keycode.toInt.toNat < tableSize := (Int.toNat_lt h.1).mpr h.2
  unfold entryOf
  rw [if_neg (Int.not_lt.mpr h.1), Vector.getElem?_eq_getElem hlt, Option.filter_some]
  simp only [decide_eq_true_eq, ne_eq]
  rfl

theorem translate_ok (table : Vector (BitVec 32) tableSize) {p : KeyPacket} (h : InTable p) :
    translate table p = .ok (eventOf table p) := by
  obtain ⟨entry, hkemap, hentry⟩ := kemap_eq table h
  have hcode : (if 0 ≠ entry then entry else p.keycode) =
      (entryOf table p.keycode).getD p.keycode := by
    rw [hentry]
    by_cases hzero : entry = 0
    · simp only [hzero, ne_eq, not_true, if_false, Option.getD_none]
    · simp only [hzero, Ne.symm hzero, ne_eq, not_false_iff, if_true, Option.getD_some]
  have hpressed : (if keystateReleased = p.keystate then false else true) =
      decide (p.keystate ≠ keystateReleased) := by
    by_cases hrel : keystateReleased = p.keystate
    · simp [hrel]
    · simp [hrel, Ne.symm hrel]
  unfold translate
  rw [hkemap]
  change Except.ok (KeyEvent.mk _ _) = _
  rw [hcode, hpressed]
  rfl

theorem translate_error (table : Vector (BitVec 32) tableSize) {p : KeyPacket} (h : ¬ InTable p) :
    translate table p = .error .outOfBounds := by
  have hkemap : kemap table p.keycode = .error .outOfBounds := dif_neg h
  unfold translate
  rw [hkemap]
  rfl

/-! ## Runs -/

/-- What reading these packets comes to, behind the events posted before. -/
def outcome (table : Vector (BitVec 32) tableSize) (ps : List KeyPacket) (posted : List KeyEvent) :
    Except Fault (List KeyEvent) :=
  if ∀ p ∈ ps, InTable p then .ok (posted ++ ps.map (eventOf table)) else .error .outOfBounds

theorem outcome_cons (table : Vector (BitVec 32) tableSize) (p : KeyPacket) (ps : List KeyPacket)
    (posted : List KeyEvent) : outcome table (p :: ps) posted =
      (translate table p).bind fun e => outcome table ps (posted ++ [e]) := by
  unfold outcome
  by_cases hp : InTable p
  · rw [translate_ok table hp]
    simp only [List.forall_mem_cons, hp, true_and, List.map_cons, Except.bind,
      List.append_assoc, List.singleton_append]
  · rw [translate_error table hp]
    simp only [List.forall_mem_cons, hp, false_and, if_false, Except.bind]

theorem outcome_append (table : Vector (BitVec 32) tableSize) (qs : List KeyPacket) :
    ∀ (ps : List KeyPacket) (posted : List KeyEvent), outcome table (ps ++ qs) posted =
      (outcome table ps posted).bind (outcome table qs)
  | [], posted => by simp [outcome, Except.bind]
  | p :: ps, posted => by
    rw [List.cons_append, outcome_cons, outcome_cons]
    cases translate table p with
    | error f => rfl
    | ok e => exact outcome_append table qs ps (posted ++ [e])

/-- The loop over the packets that were read, which are followed by old ones. -/
theorem readLoop_eq (table : Vector (BitVec 32) tableSize) (rest : List KeyPacket) :
    ∀ (ps pre : List KeyPacket) (posted : List KeyEvent),
      readLoop table (pre ++ (ps ++ rest)) ps.length pre.length posted = outcome table ps posted
  | [], _, posted => by simp [readLoop, outcome, pure, Except.pure]
  | p :: ps, pre, posted => by
    have hget : (pre ++ (p :: ps ++ rest))[pre.length]? = some p := by simp
    have hmore := readLoop_eq table rest ps (pre ++ [p])
    simp only [List.append_assoc, List.singleton_append, List.length_append,
      List.length_singleton] at hmore
    rw [List.length_cons, readLoop, hget, outcome_cons]
    simp only [List.cons_append, hmore]
    rfl

theorem readInput_eq (table : Vector (BitVec 32) tableSize) (d : Delivery) (stale : Buffer)
    (posted : List KeyEvent) : readInput table d stale posted = outcome table d.read posted := by
  unfold readInput
  cases d with
  | failed errno => simp [Delivery.ret, Delivery.read, outcome, pure, Except.pure]
  | packets ps le =>
    cases ps with
    | nil => simp [Delivery.ret, Delivery.read, outcome, pure, Except.pure]
    | cons p ps =>
      have hret : (Delivery.packets (p :: ps) le).ret =
          ((ps.length + 1) * sizeofKeyPacket : Nat) := rfl
      have hpos : (Delivery.packets (p :: ps) le).ret > 0 := by
        rw [hret]
        exact_mod_cast Nat.mul_pos (Nat.succ_pos _) (by decide)
      have hrounds : ((Delivery.packets (p :: ps) le).ret / sizeofKeyPacket).toNat =
          (p :: ps).length := by
        rw [hret, ← Int.natCast_ediv, Int.toNat_natCast]
        exact Nat.mul_div_cancel _ (by decide)
      simp only [if_pos hpos, hrounds]
      exact readLoop_eq table _ (p :: ps) [] posted

theorem readInputs_eq (table : Vector (BitVec 32) tableSize) :
    ∀ (calls : List Call) (posted : List KeyEvent), readInputs table calls posted =
      outcome table (calls.flatMap fun c => c.1.read) posted
  | [], posted => by simp [readInputs, outcome, pure, Except.pure]
  | (d, stale) :: calls, posted => by
    rw [readInputs, readInput_eq, List.flatMap_cons, outcome_append]
    cases outcome table d.read posted with
    | error f => rfl
    | ok posted => exact readInputs_eq table calls posted

/-- **When the keys are translated.** Exactly when every key code that is read
is an index of the table. -/
theorem translates_iff (names : KeyNames) (calls : List Call) :
    Translates (gSalernosKemaps names) calls ↔ ∀ c ∈ calls, ∀ p ∈ c.1.read, InTable p := by
  unfold Translates
  rw [readInputs_eq, outcome, List.nil_append]
  constructor
  · intro h c hc p hp
    by_contra hout
    rw [if_neg fun hall => hout (hall p (List.mem_flatMap.mpr ⟨c, hc, hp⟩))] at h
    cases h
  · intro h
    refine if_pos fun p hp => ?_
    obtain ⟨c, hc, hp⟩ := List.mem_flatMap.mp hp
    exact h c hc p hp

/-- The usual codes. -/
def usualNames : KeyNames where
  kpEnter := 0x64
  rCtrl := 0x65
  kpDivide := 0x68
  altLang := 0x69
  home := 0x59
  up := 0x5a
  pgUp := 0x5b
  left := 0x5c
  right := 0x5e
  endKey := 0x5f
  down := 0x60
  pgDown := 0x61
  insert := 0x62
  delete := 0x63

/-- The key behind the last one of the table is pressed. -/
def beyond : Call := (.packets [⟨112, 1⟩] (by decide), Vector.replicate maxPackets ⟨0, 0⟩)

/-- It is looked up behind the end of the table. -/
theorem beyond_not_translated : ¬ Translates (gSalernosKemaps usualNames) [beyond] := by
  unfold Translates
  rw [readInputs_eq]
  nofun

end SalernOS.Xorg.Keyboard
