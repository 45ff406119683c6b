import SalernOS.Sysdeps.Utmpx

/-! # The records of the log

A record is appended by one `write`, and the file is enumerated record by record
from its beginning. A write that is cut short shifts all that follows it.
-/
namespace SalernOS.Sysdeps.UtmpxLog
open SalernOS.Lib SalernOS.Libc SalernOS.Sysdeps.Utmpx

/-- A `pututxline`: what the kernel answers to it, and the record. -/
abbrev Put := Answers × Record

/-- What the calls return, and the state behind them. -/
def putAll : List Put → State → List (Option Record) × State
  | [], s => ([], s)
  | (os, added) :: puts, s =>
    let (r, s) := pututxline os added s
    let (rs, s) := putAll puts s
    (r :: rs, s)

def getAll (os : Answers) : Nat → State → List (Option Record)
  | 0, _ => []
  | n + 1, s => (getutxent os s).1 :: getAll os n (getutxent os s).2

/-- The records are open, and are whole. -/
structure Log (init : List Record) where
  state : State
  file : 0 ≤ state.utmpxFile
  whole : ∃ f, state.current = some f ∧ f.content = flattenChunks init

/-- The log enumerates what was in it and what was put there successfully. -/
def Enumerates {init : List Record} (log : Log init) (puts : List Put) (os : Answers) : Prop :=
  let (returned, s) := putAll puts log.state
  let expected := init ++ returned.filterMap id
  getAll os (expected.length + 1) (setutxent os s) = expected.map some ++ [none]

/-! ## Reading and writing the open file -/

/-- The file is open, and holds these bytes. -/
def Holds (s : State) (content : Bytes) : Prop :=
  0 ≤ s.utmpxFile ∧ ∃ f, s.current = some f ∧ f.content = content

/-- The file is open, and these bytes are ahead. -/
def Ahead (s : State) (rest : Bytes) : Prop :=
  0 ≤ s.utmpxFile ∧ ∃ f, s.current = some f ∧ f.content.drop f.offset = rest

theorem update_current {s : State} {f : OpenFile} (h : s.current = some f)
    (g : OpenFile → OpenFile) : (s.update g).current = some (g f) := by
  unfold State.update
  rw [h]
  exact Finmap.lookup_insert s.table

theorem store_end (f : OpenFile) (bytes : Bytes) :
    ({ f with offset := f.content.length }.store bytes).content = f.content ++ bytes := by
  simp [OpenFile.store]

/-- The bytes of a record that reach the file. -/
def sent : Put → Bytes
  | (os, added) =>
    match os.write with
    | none => []
    | some k => added.elems.take k

/-- What the kernel answers to a `write`. -/
abbrev WriteReply := Option (Fin (sizeofUtmpx + 1))

/-- Whether the write takes a whole record. -/
def complete (w : WriteReply) : Bool := w.map Fin.val == some sizeofUtmpx

theorem pututxline_holds {s : State} {content : Bytes} (h : Holds s content) (os : Answers)
    (added : Record) :
    (pututxline os added s).1 = (if complete os.write then some added else none) ∧
      Holds (pututxline os added s).2 (content ++ sent (os, added)) := by
  obtain ⟨hge, f, hf, rfl⟩ := h
  have hopen : ¬ s.utmpxFile < 0 := Int.not_lt.mpr hge
  have hend : s.seekEnd.current = some { f with offset := f.content.length } :=
    update_current hf _
  unfold pututxline complete sent
  rw [if_neg hopen]
  simp only [if_neg hopen]
  unfold State.write
  cases hw : os.write with
  | none => exact ⟨rfl, hge, _, hend, by simp⟩
  | some k =>
    have hstore := update_current hend fun f => f.store (added.elems.take k)
    by_cases hk : k.val = sizeofUtmpx
    · simp only [hk, if_true, Option.map_some, beq_self_eq_true] at hstore ⊢
      exact ⟨trivial, hge, _, hstore, store_end f _⟩
    · simp only [Option.some.injEq, hk, if_false, Option.map_some]
      refine ⟨by simp [hk], hge, _, hstore, store_end f _⟩

theorem setutxent_ahead {s : State} {content : Bytes} (h : Holds s content) (os : Answers) :
    Ahead (setutxent os s) content := by
  obtain ⟨hge, f, hf, rfl⟩ := h
  unfold setutxent
  rw [if_neg (Int.not_lt.mpr hge)]
  exact ⟨hge, _, update_current hf _, rfl⟩

theorem getutxent_ahead {s : State} {rest : Bytes} (h : Ahead s rest) (os : Answers) :
    (getutxent os s).1 = takeChunk sizeofUtmpx rest ∧
      Ahead (getutxent os s).2 (rest.drop sizeofUtmpx) := by
  obtain ⟨hge, f, hf, rfl⟩ := h
  have hopen : ¬ s.utmpxFile < 0 := Int.not_lt.mpr hge
  let bytes := (f.content.drop f.offset).take sizeofUtmpx
  have hread : s.read sizeofUtmpx =
      (bytes, s.update fun f => { f with offset := f.offset + bytes.length }) := by
    unfold State.read
    rw [hf]
    rfl
  have hahead : Ahead (s.update fun f => { f with offset := f.offset + bytes.length })
      ((f.content.drop f.offset).drop sizeofUtmpx) := by
    refine ⟨hge, _, update_current hf _, ?_⟩
    rw [← List.drop_drop, List.length_take]
    exact List.drop_eq_drop_min.symm
  unfold getutxent takeChunk
  rw [if_neg hopen]
  simp only [if_neg hopen, hread]
  by_cases hlen : sizeofUtmpx ≤ (f.content.drop f.offset).length
  · have hfull : bytes.length = sizeofUtmpx := List.length_take_of_le hlen
    rw [dif_pos hfull, dif_pos hlen]
    exact ⟨rfl, hahead⟩
  · have hshort : bytes.length ≠ sizeofUtmpx := by
      rw [List.length_take]
      omega
    rw [dif_neg hshort, dif_neg hlen]
    exact ⟨rfl, hahead⟩

/-! ## Runs -/

/-- The records that are written completely. -/
def accepted (puts : List Put) : List Record := (puts.filter fun p => complete p.1.write).map Prod.snd

theorem putAll_holds : ∀ (puts : List Put) {s : State} {content : Bytes}, Holds s content →
    (putAll puts s).1.filterMap id = accepted puts ∧
      Holds (putAll puts s).2 (content ++ puts.flatMap sent)
  | [], s, content, h => ⟨rfl, by simpa [putAll] using h⟩
  | (os, added) :: puts, s, content, h => by
    obtain ⟨hret, hput⟩ := pututxline_holds h os added
    obtain ⟨hrets, hputs⟩ := putAll_holds puts hput
    unfold putAll
    constructor
    · simp only [accepted] at hrets ⊢
      rw [hret, List.filterMap_cons, hrets]
      cases hc : complete os.write <;> simp [hc]
    · rw [List.flatMap_cons, ← List.append_assoc]
      exact hputs

theorem getAll_ahead (os : Answers) : ∀ (n : Nat) {s : State} {rest : Bytes}, Ahead s rest →
    getAll os n s = readChunks sizeofUtmpx n rest
  | 0, _, _, _ => rfl
  | n + 1, _, _, h => by
    obtain ⟨hget, hnext⟩ := getutxent_ahead h os
    unfold getAll readChunks
    rw [hget, getAll_ahead os n hnext]

/-- What is enumerated behind a number of calls. -/
theorem getAll_putAll {init : List Record} (log : Log init) (puts : List Put) (os : Answers)
    (n : Nat) : getAll os n (setutxent os (putAll puts log.state).2) =
      readChunks sizeofUtmpx n (flattenChunks init ++ puts.flatMap sent) :=
  getAll_ahead os n (setutxent_ahead (putAll_holds puts ⟨log.file, log.whole⟩).2 os)

theorem putAll_accepted {init : List Record} (log : Log init) (puts : List Put) :
    (putAll puts log.state).1.filterMap id = accepted puts :=
  (putAll_holds puts ⟨log.file, log.whole⟩).1

/-- The bytes that reach the file begin with the complete records, and what is
behind them is less than a record. -/
def Aligned (puts : List Put) : Prop :=
  ∃ tail, puts.flatMap sent = flattenChunks (accepted puts) ++ tail ∧ tail.length < sizeofUtmpx

theorem enumerates_iff_aligned {init : List Record} (log : Log init) (puts : List Put)
    (os : Answers) : Enumerates log puts os ↔ Aligned puts := by
  unfold Enumerates
  simp only [putAll_accepted, getAll_putAll]
  rw [readChunks_eq_iff, flattenChunks_append]
  simp only [List.append_assoc, List.append_cancel_left_eq]
  rfl

/-! ## Which writes leave the log intact -/

/-- How many bytes of an incomplete record a write leaves in the file. -/
def torn (w : WriteReply) : Nat :=
  if complete w then 0
  else
    match w with
    | none => 0
    | some k => k

/-- How many such bytes all of them leave. -/
def tornBytes : List WriteReply → Nat
  | [] => 0
  | w :: ws => torn w + tornBytes ws

/-- No record is completed behind a torn one, and the torn ones do not add up to
a record. -/
def Intact (ws : List WriteReply) : Prop :=
  ws.Pairwise (fun v w => 0 < torn v → complete w = false) ∧ tornBytes ws < sizeofUtmpx

def outcomes (puts : List Put) : List WriteReply := puts.map fun p => p.1.write

theorem sent_complete {os : Answers} (added : Record) (h : complete os.write = true) :
    sent (os, added) = added.elems := by
  unfold complete at h
  simp only [sent]
  cases hw : os.write with
  | none => rw [hw] at h; cases h
  | some k =>
    rw [hw] at h
    have hk : k.val = sizeofUtmpx := by simpa using h
    simp only [hk]
    exact List.take_of_length_le (Nat.le_of_eq added.size)

theorem sent_torn {os : Answers} (added : Record) (h : complete os.write = false) :
    sent (os, added) = added.elems.take (torn os.write) := by
  simp only [sent, torn, h]
  cases os.write <;> simp

theorem torn_le (w : WriteReply) : torn w ≤ sizeofUtmpx := by
  unfold torn
  split
  · exact Nat.zero_le _
  · cases w with
    | none => exact Nat.zero_le _
    | some k => exact Nat.lt_succ_iff.mp k.isLt

theorem torn_complete {w : WriteReply} (h : complete w = true) : torn w = 0 := if_pos h

theorem accepted_cons (os : Answers) (added : Record) (puts : List Put) :
    accepted ((os, added) :: puts) =
      if complete os.write then added :: accepted puts else accepted puts := by
  unfold accepted
  cases hc : complete os.write <;> simp [hc]

/-- Whatever is not of a complete record is of a torn one. -/
theorem sent_length : ∀ puts : List Put, (puts.flatMap sent).length =
    (flattenChunks (accepted puts)).length + tornBytes (outcomes puts)
  | [] => rfl
  | (os, added) :: puts => by
    have ih := sent_length puts
    rw [List.flatMap_cons, List.length_append, ih, accepted_cons]
    change _ = _ + (torn os.write + tornBytes (outcomes puts))
    cases hc : complete os.write with
    | true =>
      rw [sent_complete added hc, torn_complete hc, if_pos rfl, flattenChunks_cons,
        List.length_append]
      omega
    | false =>
      have hlen : (sent (os, added)).length = torn os.write := by
        rw [sent_torn added hc, List.length_take, added.size]
        exact Nat.min_eq_left (torn_le _)
      rw [hlen, if_neg (by simp)]
      omega

theorem accepted_eq_nil {puts : List Put} (h : ∀ w ∈ outcomes puts, complete w = false) :
    accepted puts = [] := by
  unfold accepted
  rw [List.filter_eq_nil_iff.mpr, List.map_nil]
  intro p hp
  simp [h p.1.write (List.mem_map_of_mem hp)]

theorem Aligned.of_intact : ∀ puts : List Put, Intact (outcomes puts) → Aligned puts
  | [], _ => ⟨[], rfl, Nat.succ_pos _⟩
  | (os, added) :: puts, ⟨hpair, hsum⟩ => by
    obtain ⟨hlater, hpair⟩ := List.pairwise_cons.mp hpair
    have hrest : tornBytes (outcomes puts) < sizeofUtmpx :=
      Nat.lt_of_le_of_lt (Nat.le_add_left _ _) hsum
    obtain ⟨tail, htail, hlt⟩ := Aligned.of_intact puts ⟨hpair, hrest⟩
    cases hc : complete os.write with
    | true =>
      refine ⟨tail, ?_, hlt⟩
      rw [List.flatMap_cons, sent_complete added hc, accepted_cons, if_pos hc, htail,
        flattenChunks_cons, List.append_assoc]
    | false =>
      rcases Nat.eq_zero_or_pos (torn os.write) with hzero | hpos
      · refine ⟨tail, ?_, hlt⟩
        rw [List.flatMap_cons, sent_torn added hc, hzero, accepted_cons, hc, htail]
        rfl
      · -- nothing is completed any more: all that is sent is the tail
        have hnone : accepted ((os, added) :: puts) = [] := by
          refine accepted_eq_nil fun w hw => ?_
          rcases List.mem_cons.mp hw with rfl | hw
          · exact hc
          · exact hlater w hw hpos
        refine ⟨((os, added) :: puts).flatMap sent, by rw [hnone]; rfl, ?_⟩
        rw [sent_length, hnone]
        exact (Nat.zero_add _).symm ▸ hsum

/-! ## Records that show where they begin -/

def zeros : Record := ⟨List.replicate sizeofUtmpx 0, List.length_replicate⟩
def ones : Record := ⟨List.replicate sizeofUtmpx 255, List.length_replicate⟩

/-- Calls with these outcomes, of which the torn ones begin unlike the others. -/
def marked (ws : List WriteReply) : List Put :=
  ws.map fun w => (⟨Descriptors.lowest, [], w⟩, if complete w then zeros else ones)

theorem outcomes_marked (ws : List WriteReply) : outcomes (marked ws) = ws :=
  List.map_map.trans (List.map_id ws)

theorem accepted_marked (ws : List WriteReply) : ∀ r ∈ accepted (marked ws), r = zeros := by
  intro r hr
  obtain ⟨p, hp, rfl⟩ := List.mem_map.mp hr
  obtain ⟨hp, hc⟩ := List.mem_filter.mp hp
  obtain ⟨w, -, rfl⟩ := List.mem_map.mp hp
  exact if_pos hc

theorem accepted_marked_eq_nil {ws : List WriteReply} (h : accepted (marked ws) = []) :
    ∀ w ∈ ws, complete w = false := by
  intro w hw
  by_contra hc
  have hmem : (⟨Descriptors.lowest, [], w⟩, zeros) ∈
      (marked ws).filter fun p : Put => complete p.1.write := by
    refine List.mem_filter.mpr ⟨?_, by simpa using hc⟩
    refine List.mem_map.mpr ⟨w, hw, ?_⟩
    rw [if_pos (by simpa using hc)]
  have := List.mem_map_of_mem (f := Prod.snd) hmem
  rw [show List.map Prod.snd _ = [] from h] at this
  exact List.not_mem_nil this

/-- A torn record in front of a complete one is found where the latter should be. -/
theorem pairwise_of_marked : ∀ {ws : List WriteReply} {tail : Bytes},
    (marked ws).flatMap sent = flattenChunks (accepted (marked ws)) ++ tail →
      ws.Pairwise fun v w => 0 < torn v → complete w = false
  | [], _, _ => List.Pairwise.nil
  | w :: ws, tail, h => by
    have hcons : marked (w :: ws) =
        (⟨Descriptors.lowest, [], w⟩, if complete w then zeros else ones) :: marked ws := rfl
    rw [hcons, List.flatMap_cons, accepted_cons] at h
    cases hc : complete w with
    | true =>
      rw [sent_complete _ hc, if_pos hc, if_pos hc, flattenChunks_cons, List.append_assoc] at h
      refine List.pairwise_cons.mpr
        ⟨fun v _ hpos => ?_, pairwise_of_marked (List.append_cancel_left h)⟩
      exact absurd (torn_complete hc) (Nat.ne_of_gt hpos)
    | false =>
      rw [sent_torn _ hc] at h
      simp only [hc] at h
      rcases Nat.eq_zero_or_pos (torn w) with hzero | hpos
      · have hrest : (marked ws).flatMap sent = flattenChunks (accepted (marked ws)) ++ tail := by
          simpa [hzero] using h
        refine List.pairwise_cons.mpr ⟨fun v _ hpos => ?_, pairwise_of_marked hrest⟩
        exact absurd hzero (Nat.ne_of_gt hpos)
      · have hnone : ∀ v ∈ ws, complete v = false := by
          refine accepted_marked_eq_nil ?_
          cases hacc : accepted (marked ws) with
          | nil => rfl
          | cons r rs =>
            have hr := accepted_marked ws r (hacc ▸ List.mem_cons_self)
            have hhead := congrArg List.head? h
            obtain ⟨k, hk⟩ := Nat.exists_eq_succ_of_ne_zero (Nat.ne_of_gt hpos)
            rw [hacc, hr, hk] at hhead
            cases hhead
        exact List.pairwise_cons.mpr ⟨fun v hv _ => hnone v hv,
          List.pairwise_of_forall_mem_list fun _ _ v hv _ => hnone v hv⟩

/-- Which outcomes leave the log intact whatever the records hold. -/
theorem aligned_iff_intact (ws : List WriteReply) :
    (∀ puts, outcomes puts = ws → Aligned puts) ↔ Intact ws := by
  constructor
  · intro h
    obtain ⟨tail, htail, hlt⟩ := h (marked ws) (outcomes_marked ws)
    refine ⟨pairwise_of_marked htail, ?_⟩
    have hlen := sent_length (marked ws)
    rw [htail, List.length_append, outcomes_marked] at hlen
    omega
  · rintro h puts rfl
    exact Aligned.of_intact puts h

/-- **When the log is intact.** Exactly when the complete records stand at the
beginning of what is written, and less than a record behind them; with these
outcomes this is so whatever the records hold exactly when nothing is completed
behind a torn record, and the torn ones do not add up to a record. -/
theorem enumerates_iff {init : List Record} (log : Log init) (puts : List Put) (os : Answers) :
    (Enumerates log puts os ↔ Aligned puts) ∧
      ((∀ puts', outcomes puts' = outcomes puts → Aligned puts') ↔ Intact (outcomes puts)) :=
  ⟨enumerates_iff_aligned log puts os, aligned_iff_intact (outcomes puts)⟩

def emptyLog : Log [] where
  state := ⟨(∅ : Descriptors OpenFile).insert 0 ⟨.utmpx, [], 0⟩, 0, []⟩
  file := Int.le_refl 0
  whole := ⟨_, Finmap.lookup_insert _, rfl⟩

/-- One byte of a record, and then a whole one. -/
theorem torn_not_enumerated :
    ¬ Enumerates emptyLog (marked [some 1, some ⟨sizeofUtmpx, Nat.lt_succ_self _⟩])
      quietAnswers := by
  rw [enumerates_iff_aligned]
  rintro ⟨tail, h, -⟩
  have hpair := List.rel_of_pairwise_cons (pairwise_of_marked h) List.mem_cons_self
  exact Bool.noConfusion (hpair Nat.one_pos)

end SalernOS.Sysdeps.UtmpxLog
