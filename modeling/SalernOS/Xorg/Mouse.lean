import Mathlib.Data.List.Chain
import Mathlib.Data.BitVec

/-! # `salernos_mouse.c` of the patch of `xf86-input-mouse`

What is posted for a packet is mixed with what was posted before it.
-/
namespace SalernOS.Xorg.Mouse

def mouseRightbutton : BitVec 32 := 0x01
def mouseMidbutton : BitVec 32 := 0x02
def mouseLeftbutton : BitVec 32 := 0x04
def mouseButton4 : BitVec 32 := 0x08
def mouseButton5 : BitVec 32 := 0x10

/-- The five buttons. -/
def allButtons : BitVec 32 :=
  mouseRightbutton ||| mouseMidbutton ||| mouseLeftbutton ||| mouseButton4 ||| mouseButton5

/-- `struct salernos_mouse_data`, without its reserved pointer. -/
structure MouseData where
  buttons : BitVec 32
  dx : BitVec 32
  dy : BitVec 32
  dz : BitVec 32
deriving DecidableEq, Repr

/-- What `PostEvent` is given. -/
structure Posted where
  buttons : BitVec 32
  dx : BitVec 32
  dy : BitVec 32
  dz : BitVec 32
  dw : BitVec 32
deriving DecidableEq, Repr

/-- `MouseDevRec`, with the events that were posted. -/
structure MouseDev where
  lastButtons : BitVec 32
  events : List Posted
deriving DecidableEq, Repr

/-- `PostEvent` records the mask that it is given. -/
def MouseDev.postEvent (mouse : MouseDev) (e : Posted) : MouseDev := ⟨e.buttons, mouse.events ++ [e]⟩

/-- `salernosReadInput`, from what `read` returns and leaves in `packet`. -/
def salernosReadInput (mouse : MouseDev) (ret : Int) (packet : MouseData) : MouseDev :=
  if ret ≠ 0 then
    let b := mouse.lastButtons
    let b := b &&& ~~~0x7
    let b := b ||| packet.buttons
    mouse.postEvent ⟨b, packet.dx, packet.dy, packet.dz, 0⟩
  else mouse

def sizeofMouseData : Int := 24

/-- A packet that uses only the buttons that there are. -/
structure Packet extends MouseData where
  defined : buttons &&& allButtons = buttons

/-- Complete packets, one after the other. -/
def readPackets (mouse : MouseDev) (ps : List Packet) : MouseDev :=
  ps.foldl (fun mouse p => salernosReadInput mouse sizeofMouseData p.toMouseData) mouse

/-- No button is held. -/
def idle : MouseDev := ⟨0, []⟩

/-- Each packet is posted with the buttons that it has. -/
def Tracks (ps : List Packet) : Prop :=
  (readPackets idle ps).events.map Posted.buttons = ps.map (·.buttons)

/-- Neither of the last two buttons is let go. -/
def Keeps (a b : BitVec 32) : Prop := a &&& (mouseButton4 ||| mouseButton5) &&& ~~~b = 0#32

/-! ## One packet -/

theorem or_eq_right_iff {w : Nat} (a b : BitVec w) : a ||| b = b ↔ a &&& ~~~b = 0#w := by
  constructor
  · intro h
    ext i hi
    have hbit : (a ||| b)[i] = b[i] := by rw [h]
    rw [BitVec.getElem_or] at hbit
    rw [BitVec.getElem_and, BitVec.getElem_not, BitVec.getElem_zero]
    cases ha : a[i] <;> cases hb : b[i] <;> simp_all
  · intro h
    ext i hi
    have hbit : (a &&& ~~~b)[i] = (0#w)[i] := by rw [h]
    rw [BitVec.getElem_and, BitVec.getElem_not, BitVec.getElem_zero] at hbit
    rw [BitVec.getElem_or]
    cases ha : a[i] <;> cases hb : b[i] <;> simp_all

/-- The mask with which a packet is posted. -/
def mask (last b : BitVec 32) : BitVec 32 := last &&& ~~~0x7 ||| b

theorem mask_eq_iff {last : BitVec 32} (h : last &&& allButtons = last) (b : BitVec 32) :
    mask last b = b ↔ Keeps last b := by
  have hlast : last &&& ~~~0x7 = last &&& (mouseButton4 ||| mouseButton5) := by
    rw [← h, BitVec.and_assoc, BitVec.and_assoc]
    rfl
  rw [mask, or_eq_right_iff, hlast, Keeps]

theorem salernosReadInput_complete (mouse : MouseDev) (p : Packet) :
    salernosReadInput mouse sizeofMouseData p.toMouseData =
      mouse.postEvent ⟨mask mouse.lastButtons p.buttons, p.dx, p.dy, p.dz, 0⟩ := rfl

/-! ## All packets -/

/-- The masks that are posted, from the one before them on. -/
def masks (last : BitVec 32) : List Packet → List (BitVec 32)
  | [] => []
  | p :: ps => mask last p.buttons :: masks (mask last p.buttons) ps

theorem readPackets_masks : ∀ (ps : List Packet) (mouse : MouseDev),
    (readPackets mouse ps).events.map Posted.buttons =
      mouse.events.map Posted.buttons ++ masks mouse.lastButtons ps
  | [], mouse => (List.append_nil _).symm
  | p :: ps, mouse => by
    rw [readPackets, List.foldl_cons, salernosReadInput_complete]
    change (readPackets _ ps).events.map Posted.buttons = _
    rw [readPackets_masks ps, MouseDev.postEvent, List.map_append, List.append_assoc]
    rfl

/-- As long as the masks are those of the packets, the one before is the mask of
the packet before. -/
theorem masks_eq_iff : ∀ (ps : List Packet) (last : BitVec 32), last &&& allButtons = last →
    (masks last ps = ps.map (·.buttons) ↔ List.IsChain Keeps (last :: ps.map (·.buttons)))
  | [], last, _ => iff_of_true rfl (List.IsChain.singleton last)
  | p :: ps, last, h => by
    rw [masks, List.map_cons, List.cons.injEq, List.isChain_cons_cons, mask_eq_iff h]
    refine and_congr_right fun hkeep => ?_
    rw [(mask_eq_iff h p.buttons).mpr hkeep]
    exact masks_eq_iff ps p.buttons p.defined

/-- **When the buttons are tracked.** Exactly when no packet lets go of one of
the last two buttons that the packet before it held. -/
theorem tracks_iff (ps : List Packet) :
    Tracks ps ↔ List.IsChain Keeps (ps.map (·.buttons)) := by
  have h := masks_eq_iff ps 0 (by decide)
  rw [Tracks, readPackets_masks]
  refine h.trans ?_
  cases ps with
  | nil => exact iff_of_true (List.IsChain.singleton _) .nil
  | cons p ps =>
    rw [List.map_cons, List.isChain_cons_cons, and_iff_right]
    simp [Keeps]

/-- The fourth button is pressed and let go. -/
def click : List Packet := [⟨⟨mouseButton4, 0, 0, 0⟩, by decide⟩, ⟨⟨0, 0, 0, 0⟩, by decide⟩]

/-- It stays pressed. -/
theorem click_not_tracked : ¬ Tracks click := by
  unfold Tracks
  decide

end SalernOS.Xorg.Mouse
