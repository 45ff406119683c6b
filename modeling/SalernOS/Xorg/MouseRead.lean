import SalernOS.Lib.Bytes
import SalernOS.Xorg.Mouse

/-! # What the reads of the mouse driver post

`read` fills a packet on the stack as far as it goes, and what it returns is
compared with zero only.
-/
namespace SalernOS.Xorg.MouseRead
open SalernOS.Lib SalernOS.Xorg.Mouse

/-- `sizeof(struct salernos_mouse_data)`. -/
def packetSize : Nat := 24

/-- What the stack holds where `packet` is. -/
abbrev Buffer := Vector UInt8 packetSize

/-- What `read` comes to: an error, or bytes, of which there may be none. -/
inductive Delivery where
  | failed (errno : Nat)
  | bytes (bs : List UInt8) (le : bs.length ≤ packetSize)

def Delivery.ret : Delivery → Int
  | .failed _ => -1
  | .bytes bs _ => bs.length

/-- The bytes of `packet` behind the call. -/
def Delivery.fill (stale : Buffer) : Delivery → List UInt8
  | .failed _ => stale.toList
  | .bytes bs _ => bs ++ stale.toList.drop bs.length

/-- A field of four bytes. -/
def intAt (bs : List UInt8) (offset : Nat) : BitVec 32 :=
  BitVec.ofNat 32 (ofBytes ((bs.drop offset).take 4))

/-- The fields of `packet`; the reserved pointer is in front of them. -/
def packetOf (bs : List UInt8) : MouseData := ⟨intAt bs 8, intAt bs 12, intAt bs 16, intAt bs 20⟩

/-- The packet that was delivered, if it was a whole one. -/
def Delivery.packet : Delivery → Option MouseData
  | .failed _ => none
  | .bytes bs _ => if bs.length = packetSize then some (packetOf bs) else none

/-- A call of `salernosReadInput`: what its `read` delivers, and the stack before it. -/
abbrev Call := Delivery × Buffer

def readInput (mouse : MouseDev) (c : Call) : MouseDev :=
  salernosReadInput mouse c.1.ret (packetOf (c.1.fill c.2))

/-- The events that each of the calls posts. -/
def posts (mouse : MouseDev) : List Call → List (List Posted)
  | [] => []
  | c :: cs =>
    (readInput mouse c).events.drop mouse.events.length :: posts (readInput mouse c) cs

def dataMotion (d : MouseData) : BitVec 32 × BitVec 32 × BitVec 32 := (d.dx, d.dy, d.dz)

def postedMotion (e : Posted) : BitVec 32 × BitVec 32 × BitVec 32 := (e.dx, e.dy, e.dz)

/-- Each call posts the motion of the packet that it read, if it read one, and
the stack before it makes no difference. -/
structure FromPackets (mouse : MouseDev) (calls : List Call) : Prop where
  motions : (posts mouse calls).map (List.map postedMotion) =
    calls.map fun c => (c.1.packet.map dataMotion).toList
  independent : ∀ calls' : List Call, calls'.map Prod.fst = calls.map Prod.fst →
    posts mouse calls' = posts mouse calls

/-- The read delivers nothing, or a whole packet. -/
def Delivery.Whole (d : Delivery) : Prop := d.ret = 0 ∨ d.ret = packetSize

/-! ## One call -/

/-- What a call posts: one event, unless `read` returns zero. -/
theorem readInput_events (mouse : MouseDev) (c : Call) :
    ((readInput mouse c).events.drop mouse.events.length).map postedMotion =
      if c.1.ret ≠ 0 then [dataMotion (packetOf (c.1.fill c.2))] else [] := by
  unfold readInput salernosReadInput
  split
  · simp only [MouseDev.postEvent, List.drop_left]
    rfl
  · rw [List.drop_length, List.map_nil]

/-- A whole packet leaves nothing of the stack. -/
theorem fill_of_packet {d : Delivery} {p : MouseData} (h : d.packet = some p) (stale : Buffer) :
    packetOf (d.fill stale) = p ∧ d.ret = packetSize := by
  cases d with
  | failed errno => cases h
  | bytes bs le =>
    obtain ⟨hlen, hp⟩ := Option.ite_none_right_eq_some.mp h
    have hrest : stale.toList.drop bs.length = [] :=
      List.drop_eq_nil_of_le (by rw [hlen, Vector.length_toList])
    cases hp
    refine ⟨?_, congrArg Nat.cast hlen⟩
    simp only [Delivery.fill, hrest, List.append_nil]

theorem packet_eq_none {d : Delivery} (h : d.packet = none) : d.ret ≠ packetSize := by
  cases d with
  | failed errno => nofun
  | bytes bs le =>
    intro hret
    have hlen : bs.length = packetSize := Int.ofNat_inj.mp hret
    simp only [Delivery.packet, if_pos hlen] at h
    cases h

/-- A call posts what it should exactly when it reads nothing or a whole packet. -/
theorem call_iff (mouse : MouseDev) (c : Call) :
    ((readInput mouse c).events.drop mouse.events.length).map postedMotion =
      (c.1.packet.map dataMotion).toList ↔ c.1.Whole := by
  rw [readInput_events]
  cases hp : c.1.packet with
  | none =>
    have hret := packet_eq_none hp
    by_cases hzero : c.1.ret = 0
    · exact iff_of_true (if_neg (not_not.mpr hzero)) (.inl hzero)
    · rw [if_pos hzero]
      exact iff_of_false (List.cons_ne_nil _ _) fun h => h.elim hzero hret
  | some p =>
    obtain ⟨hfill, hret⟩ := fill_of_packet hp c.2
    have hne : c.1.ret ≠ 0 := by
      rw [hret]
      decide
    rw [if_pos hne, hfill]
    exact iff_of_true rfl (.inr hret)

/-- Such a call does not depend on the stack. -/
theorem readInput_of_whole (mouse : MouseDev) {d : Delivery} (h : d.Whole) (s t : Buffer) :
    readInput mouse (d, s) = readInput mouse (d, t) := by
  unfold readInput
  cases hp : d.packet with
  | none =>
    have hzero : d.ret = 0 := h.resolve_right (packet_eq_none hp)
    simp only [hzero, salernosReadInput]
    rfl
  | some p => rw [(fill_of_packet hp s).1, (fill_of_packet hp t).1]

/-! ## Runs -/

theorem motions_iff : ∀ (calls : List Call) (mouse : MouseDev),
    (posts mouse calls).map (List.map postedMotion) =
      (calls.map fun c => (c.1.packet.map dataMotion).toList) ↔ ∀ c ∈ calls, c.1.Whole
  | [], _ => iff_of_true rfl nofun
  | c :: cs, mouse => by
    rw [posts, List.map_cons, List.map_cons, List.cons.injEq, call_iff, List.forall_mem_cons,
      motions_iff cs (readInput mouse c)]

theorem posts_independent : ∀ (calls calls' : List Call) (mouse : MouseDev),
    (∀ c ∈ calls, c.1.Whole) → calls'.map Prod.fst = calls.map Prod.fst →
    posts mouse calls' = posts mouse calls
  | [], [], _, _, _ => rfl
  | (d, s) :: cs, (d', s') :: cs', mouse, hwhole, h => by
    obtain ⟨hd, hcs⟩ := List.cons.inj h
    obtain rfl : d' = d := hd
    obtain ⟨hc, hwhole⟩ := List.forall_mem_cons.mp hwhole
    rw [posts, posts, readInput_of_whole mouse hc s' s,
      posts_independent cs cs' (readInput mouse (d', s)) hwhole hcs]

/-- **When the events come from packets.** Exactly when no read fails and none
delivers a part of a packet. -/
theorem fromPackets_iff (mouse : MouseDev) (calls : List Call) :
    FromPackets mouse calls ↔ ∀ c ∈ calls, c.1.Whole := by
  constructor
  · exact fun h => (motions_iff calls mouse).mp h.motions
  · exact fun h => ⟨(motions_iff calls mouse).mpr h,
      fun calls' => posts_independent calls calls' mouse h⟩

/-- A device that has nothing to deliver, and a stack of zeros. -/
def blocked : Call := (.failed 11, Vector.replicate packetSize 0)

/-- An event is posted although nothing was read. -/
theorem blocked_not_fromPackets : ¬ FromPackets idle [blocked] := by
  intro h
  rcases (motions_iff [blocked] idle).mp h.motions blocked List.mem_cons_self with hret | hret
  · cases hret
  · cases hret

end SalernOS.Xorg.MouseRead
