import Mathlib.Data.List.Lex
import SalernOS.Lib.Memory

/-! # `memccpy` and `wcsncasecmp`

From `patches/mlibc`. Bytes are copied up to and with a given one, and strings
are compared without regard to case; `towlower` is a parameter.
-/
namespace SalernOS.Libc.Strings
open SalernOS.Lib

/-! ## `memccpy` -/

/-- The loop, with `n` turns left. -/
def memccpyLoop (t : UInt8) : (n : Nat) → (d s : BitVec 64) → Memory 64 →
    Option (BitVec 64) × Memory 64
  | 0, _, _, m => (none, m)
  | n + 1, d, s, m =>
    let v := m s
    let m := Function.update m d v
    if v = t then (some (d + 1), m) else memccpyLoop t n (d + 1) (s + 1) m

/-- `none` is `nullptr`. -/
def memccpy (dest src : BitVec 64) (c : BitVec 32) (n : BitVec 64) (m : Memory 64) :
    Option (BitVec 64) × Memory 64 :=
  memccpyLoop c.toNat.toUInt8 n.toNat dest src m

/-- The bytes up to and with the first `t`. -/
def upTo (t : UInt8) : List UInt8 → List UInt8
  | [] => []
  | v :: vs => if v = t then [v] else v :: upTo t vs

theorem upTo_length_le (t : UInt8) (vs : List UInt8) : (upTo t vs).length ≤ vs.length := by
  induction vs with
  | nil => exact Nat.le_refl 0
  | cons v vs ih =>
    rw [upTo]
    split
    · exact Nat.succ_le_succ (Nat.zero_le _)
    · exact Nat.succ_le_succ ih

/-- The range behind the source is apart from the bytes that are written. -/
def Apart (d s : BitVec 64) (n : Nat) : Prop := ∀ x, (x - s).toNat < n → n ≤ (x - d).toNat

theorem Apart.succ {d s : BitVec 64} {n : Nat} (h : Apart d s (n + 1)) :
    Apart (d + 1) (s + 1) n := by
  intro x hx
  have hle := Memory.toNat_sub_le_succ s x
  have hfar := h x (by omega)
  have hne : x ≠ d := by
    intro he
    rw [he, BitVec.sub_self] at hfar
    exact absurd hfar (Nat.not_succ_le_zero n)
  have hdist := Memory.toNat_sub_succ hne
  omega

theorem memccpyLoop_eq (t : UInt8) (n : Nat) : ∀ {d s : BitVec 64} {m : Memory 64},
    n < 2 ^ 64 → Apart d s n → memccpyLoop t n d s m =
      (if t ∈ m.loadBytes s n then some (d + BitVec.ofNat 64 (upTo t (m.loadBytes s n)).length)
        else none, m.storeBytes d (upTo t (m.loadBytes s n))) := by
  induction n with
  | zero => exact fun _ _ => rfl
  | succ n ih =>
    intro d s m hn hapart
    have hload : Memory.loadBytes (Function.update m d (m s)) (s + 1) n = m.loadBytes (s + 1) n := by
      refine Memory.loadBytes_congr n fun x hx => Function.update_of_ne (fun he => ?_) ..
      have hle := Memory.toNat_sub_le_succ s x
      have hfar := hapart x (by omega)
      rw [he, BitVec.sub_self] at hfar
      exact absurd hfar (Nat.not_succ_le_zero n)
    rw [memccpyLoop, Memory.loadBytes]
    by_cases hv : m s = t
    · rw [if_pos hv, if_pos (hv ▸ List.mem_cons_self ..), upTo, if_pos hv]
      rfl
    · have hmem : t ∈ m s :: m.loadBytes (s + 1) n ↔ t ∈ m.loadBytes (s + 1) n := by
        rw [List.mem_cons]
        exact or_iff_right fun he => hv he.symm
      have hlen : (upTo t (m.loadBytes (s + 1) n)).length ≤ n := by
        exact (upTo_length_le t _).trans (Memory.length_loadBytes m n (s + 1)).le
      rw [if_neg hv, ih (by omega) hapart.succ, hload, upTo, if_neg hv, Memory.storeBytes]
      refine Prod.ext ?_ (Memory.storeBytes_update m d (m s) _ ?_)
      · show (if _ then _ else _) = if _ then _ else _
        rw [List.length_cons]
        by_cases ht : t ∈ m.loadBytes (s + 1) n
        · rw [if_pos ht, if_pos (hmem.mpr ht), BitVec.add_assoc]
          congr 2
          rw [Nat.add_comm, BitVec.ofNat_add]
          rfl
        · rw [if_neg ht, if_neg (mt hmem.mp ht)]
      · rw [Memory.toNat_sub_self_succ]
        omega

/-- **`memccpy` is exact.** Where the two ranges do not overlap, the bytes up to
and with the first `c` among `n` come to the destination, and nothing else
changes; the result points behind them, or is null where there is no `c`. -/
theorem memccpy_exact (dest src : BitVec 64) (c : BitVec 32) (n : BitVec 64) (m : Memory 64)
    (hapart : Apart dest src n.toNat) :
    let read := m.loadBytes src n.toNat
    let copied := upTo c.toNat.toUInt8 read
    memccpy dest src c n m =
        (if c.toNat.toUInt8 ∈ read then some (dest + BitVec.ofNat 64 copied.length) else none,
          m.storeBytes dest copied) ∧
      (m.storeBytes dest copied).loadBytes dest copied.length = copied ∧
      ∀ x, copied.length ≤ (x - dest).toNat → m.storeBytes dest copied x = m x := by
  have hlen : (upTo c.toNat.toUInt8 (m.loadBytes src n.toNat)).length ≤ n.toNat :=
    (upTo_length_le _ _).trans (Memory.length_loadBytes m n.toNat src).le
  refine ⟨memccpyLoop_eq _ _ n.isLt hapart, ?_, fun x hx => Memory.storeBytes_of_le m _ hx⟩
  exact Memory.loadBytes_storeBytes m _ dest (hlen.trans (Nat.le_of_lt n.isLt))

/-- Behind `'b'` nothing is copied. -/
theorem copied_up_to_b :
    let m : Memory 64 := Memory.storeBytes (fun _ => 0) 0x1000 [97, 98, 99]
    (memccpy 0x2000 0x1000 98 3 m).1 = some 0x2002 ∧ (memccpy 0x2000 0x1000 98 3 m).2 0x2002 = 0 := by
  have hapart : Apart 0x2000 0x1000 (3 : BitVec 64).toNat := by
    intro x hx
    have hsum : x - 0x2000 = (x - 0x1000) + (0x1000 - 0x2000) := (sub_add_sub_cancel x _ _).symm
    have hlen : (3 : BitVec 64).toNat = 3 := rfl
    have hdist : (0x1000 - 0x2000 : BitVec 64).toNat = 2 ^ 64 - 0x1000 := rfl
    rw [hsum, BitVec.toNat_add, hdist]
    omega
  intro m
  obtain ⟨h, -, hkeep⟩ := memccpy_exact 0x2000 0x1000 98 3 m hapart
  rw [h]
  refine ⟨rfl, ?_⟩
  exact hkeep 0x2002 (by decide)

/-! ## `wcsncasecmp` -/

section
variable (towlower : BitVec 32 → BitVec 32)

/-- The loop, with `n` turns left; `none` is a read behind the end of an array. -/
def wcsncasecmp : (n : Nat) → (s1 s2 : List (BitVec 32)) → Option Int
  | 0, _, _ => some 0
  | n + 1, x :: s1, y :: s2 =>
    let c1 := towlower x
    let c2 := towlower y
    if c1 = 0 ∧ c2 = 0 then some 0
    else if c1 < c2 then some (-1)
    else if c1 > c2 then some 1
    else wcsncasecmp n s1 s2
  | _ + 1, _, _ => none

/-- The first `n` characters, without their case. -/
def key (n : Nat) (w : List (BitVec 32)) : List Nat := (w.map fun x => (towlower x).toNat).take n

/-- Before, the same, or behind. -/
def sign (a b : List Nat) : Int := if a < b then -1 else if b < a then 1 else 0

theorem sign_cons (a b : Nat) (v w : List Nat) : sign (a :: v) (b :: w) =
    if a < b then -1 else if b < a then 1 else sign v w := by
  unfold sign
  rcases Nat.lt_trichotomy a b with h | rfl | h
  · rw [if_pos h, if_pos (List.cons_lt_cons_iff.mpr (.inl h))]
  · have hcons : ∀ v w : List Nat, a :: v < a :: w ↔ v < w := by
      intro v w
      rw [List.cons_lt_cons_iff]
      exact ⟨fun h => h.elim (fun h => absurd h (Nat.lt_irrefl a)) And.right, fun h => .inr ⟨rfl, h⟩⟩
    simp only [hcons, Nat.lt_irrefl, if_false]
  · have hback : ¬a :: v < b :: w := by
      rw [List.cons_lt_cons_iff]
      omega
    rw [if_neg (Nat.lt_asymm h), if_pos h, if_neg hback, if_pos (List.cons_lt_cons_iff.mpr (.inl h))]

theorem key_nil (n : Nat) : key towlower n [] = [] := List.take_nil

theorem key_cons (n : Nat) (x : BitVec 32) (w : List (BitVec 32)) :
    key towlower (n + 1) (x :: w) = (towlower x).toNat :: key towlower n w := rfl

/-- What stands in memory: at least `n` characters, or a terminator behind them. -/
def Readable (n : Nat) (w rest : List (BitVec 32)) : Prop :=
  0 ∉ w ∧ (n ≤ w.length ∨ rest.head? = some 0)

theorem Readable.nil {n : Nat} {rest : List (BitVec 32)} (h : Readable (n + 1) [] rest) :
    ∃ t, rest = 0 :: t := by
  have hhead := h.2.resolve_left (Nat.not_succ_le_zero n)
  cases rest with
  | nil => cases hhead
  | cons y t => exact ⟨t, congrArg (· :: t) (Option.some.inj hhead)⟩

theorem Readable.tail {n : Nat} {x : BitVec 32} {w rest : List (BitVec 32)}
    (h : Readable (n + 1) (x :: w) rest) : Readable n w rest :=
  ⟨fun hmem => h.1 (List.mem_cons_of_mem _ hmem), h.2.imp_left Nat.le_of_succ_le_succ⟩

/-- `towlower` keeps the terminator apart from the characters. -/
theorem Readable.head {n : Nat} {x : BitVec 32} {w rest : List (BitVec 32)}
    (hlower : ∀ x, towlower x = 0 ↔ x = 0) (h : Readable (n + 1) (x :: w) rest) : towlower x ≠ 0 :=
  fun hx => h.1 ((hlower x).mp hx ▸ List.mem_cons_self ..)

theorem wcsncasecmp_eq (hlower : ∀ x, towlower x = 0 ↔ x = 0) (n : Nat) :
    ∀ {w1 w2 rest1 rest2 : List (BitVec 32)}, Readable n w1 rest1 → Readable n w2 rest2 →
      wcsncasecmp towlower n (w1 ++ rest1) (w2 ++ rest2) =
        some (sign (key towlower n w1) (key towlower n w2)) := by
  have hzero : towlower 0 = 0 := (hlower 0).mpr rfl
  induction n with
  | zero => exact fun _ _ => rfl
  | succ n ih =>
    intro w1 w2 rest1 rest2 h1 h2
    cases w1 with
    | nil =>
      obtain ⟨t1, rfl⟩ := h1.nil
      cases w2 with
      | nil =>
        obtain ⟨t2, rfl⟩ := h2.nil
        rw [List.nil_append, List.nil_append, wcsncasecmp, hzero]
        rfl
      | cons y w2 =>
        -- the shorter one is the smaller one
        have hy := h2.head towlower hlower
        have hpos : 0 < towlower y := (BitVec.pos_iff_ne_zero _).mpr hy
        rw [List.nil_append, List.cons_append, wcsncasecmp, hzero, if_neg fun h => hy h.2,
          if_pos hpos, key_cons, key_nil, sign, if_pos]
        exact List.nil_lt_cons ..
    | cons x w1 =>
      have hx := h1.head towlower hlower
      cases w2 with
      | nil =>
        obtain ⟨t2, rfl⟩ := h2.nil
        have hlt : ¬towlower x < 0 := BitVec.not_lt_zero
        have hpos : towlower x > 0 := (BitVec.pos_iff_ne_zero _).mpr hx
        rw [List.nil_append, List.cons_append, wcsncasecmp, hzero, if_neg fun h => hx h.1,
          if_neg hlt, if_pos hpos, key_cons, key_nil, sign, if_neg (List.not_lt_nil _), if_pos]
        exact List.nil_lt_cons ..
      | cons y w2 =>
        rw [List.cons_append, List.cons_append, wcsncasecmp, if_neg fun h => hx h.1,
          ih h1.tail h2.tail, key_cons, key_cons, sign_cons]
        simp only [BitVec.lt_def, gt_iff_lt]
        split
        · rfl
        · split
          · rfl
          · rfl

theorem sign_eq_zero {a b : List Nat} : sign a b = 0 ↔ a = b := by
  unfold sign
  constructor
  · intro h
    by_cases hab : a < b
    · rw [if_pos hab] at h
      cases h
    · by_cases hba : b < a
      · rw [if_neg hab, if_pos hba] at h
        cases h
      · exact le_antisymm (not_lt.mp hba) (not_lt.mp hab)
  · rintro rfl
    rw [if_neg (lt_irrefl a), if_neg (lt_irrefl a)]

/-- **`wcsncasecmp` is the order of the keys.** Among strings, and arrays of at
least `n` characters, it reads nothing behind the terminator or the `n`th
character, and its result is the sign of the dictionary order of the first `n`
characters without their case; it is 0 exactly where these are the same. -/
theorem wcsncasecmp_orders (hlower : ∀ x, towlower x = 0 ↔ x = 0) (n : Nat)
    {w1 w2 rest1 rest2 : List (BitVec 32)} (h1 : Readable n w1 rest1) (h2 : Readable n w2 rest2) :
    wcsncasecmp towlower n (w1 ++ rest1) (w2 ++ rest2) =
        some (sign (key towlower n w1) (key towlower n w2)) ∧
      (wcsncasecmp towlower n (w1 ++ rest1) (w2 ++ rest2) = some 0 ↔
        key towlower n w1 = key towlower n w2) := by
  have heq := wcsncasecmp_eq towlower hlower n h1 h2
  refine ⟨heq, ?_⟩
  rw [heq, Option.some_inj]
  exact sign_eq_zero

end

/-- Four characters of `abcX` and of a string that goes on behind them. -/
theorem same_four : wcsncasecmp (fun x => if 65 ≤ x ∧ x ≤ 90 then x + 32 else x) 4
    [0x41, 0x62, 0x43, 0x58] [0x61, 0x42, 0x63, 0x78, 0x79, 0] = some 0 := by
  have hlower : ∀ x : BitVec 32, (if 65 ≤ x ∧ x ≤ 90 then x + 32 else x) = 0 ↔ x = 0 := by
    intro x
    split <;> bv_omega
  have h1 : Readable 4 [0x41, 0x62, 0x43, 0x58] [] := ⟨by decide, .inl (Nat.le_refl 4)⟩
  have h2 : Readable 4 [0x61, 0x42, 0x63, 0x78, 0x79] [0] := ⟨by decide, .inr rfl⟩
  exact (wcsncasecmp_orders _ hlower 4 h1 h2).2.mpr rfl

end SalernOS.Libc.Strings
