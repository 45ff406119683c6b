import SalernOS.Init.Parse

/-! # One round of each loop of the parser

What a round finds in the text does not depend on the allocator. What the loop
makes of it does not look at the text.
-/
namespace SalernOS.Init.Rounds
open SalernOS.Lib SalernOS.Libc SalernOS.Init.Parse

variable {ok : Nat → Bool}

/-! ## `parse_line` -/

/-- What a round finds in front of its `realloc`. -/
inductive LineRound where
  | stop
  | unclosed
  | token (start : Ptr) (len : Nat) (next : Ptr)

def LineRound.ofToken : Option (Ptr × Nat × Ptr) → LineRound
  | none => .unclosed
  | some (start, len, next) => .token start len next

def lineRound (p : Ptr) : Except Fault LineRound := do
  let c ← p.deref
  if c = nul ∨ c = newline then return .stop
  let p ← skipWhitespace p
  let c ← p.deref
  if c = nul ∨ c = newline then return .stop
  return .ofToken (← parseToken p)

/-- The rest of the round, and the rounds behind it. -/
def afterLineRound (ok : Nat → Bool) (fuel : Nat) (args : Growable DirectiveArg) (h : Heap) :
    LineRound → Except Fault (Option (Growable DirectiveArg) × Heap)
  | .stop => .ok (some args, h)
  | .unclosed => .ok (none, (h.ierr "unexpected eof").free args.block)
  | .token start len next =>
    match h.realloc ok args.block ((args.elems.length + 1) * sizeofDirectiveArg) with
    | (none, h) =>
      .ok (none, (h.ierr "failed to allocate memory for parser output").free args.block)
    | (some block, h) => parseLineLoop ok fuel next ⟨some block, args.elems ++ [⟨start, len⟩]⟩ h

theorem parseLineLoop_succ (fuel : Nat) (p : Ptr) (args : Growable DirectiveArg) (h : Heap) :
    parseLineLoop ok (fuel + 1) p args h =
      (lineRound p).bind (afterLineRound ok fuel args h) := by
  unfold lineRound
  rw [parseLineLoop]
  rcases p.deref with f | c
  · rfl
  simp only [bind, Except.bind]
  split
  · rfl
  rcases skipWhitespace p with f | q
  · rfl
  simp only
  rcases q.deref with f | d
  · rfl
  simp only
  split
  · rfl
  rcases parseToken q with f | (_ | ⟨start, len, next⟩) <;> rfl

/-! ## `parse_config` -/

inductive ConfigRound where
  | stop
  | blank (next : Ptr)
  | line (lineStart next : Ptr)

def configRound (p : Ptr) : Except Fault ConfigRound := do
  if (← p.deref) = nul then return .stop
  let lineStart := p
  let p ← p.scanWhile fun c => c != nul && c != newline
  let lineEnd := p.pos
  let lineStart ← lineStart.scanWhileBelow isspace lineEnd
  let c ← p.deref
  let next := if c = newline then p.next else p
  if lineStart.pos < lineEnd then return .line lineStart next
  else return .blank next

def afterConfigRound (ok : Nat → Bool) (fuel : Nat) (ds : Growable Directive) (h : Heap) :
    ConfigRound → Except Fault (Option (Growable Directive) × Heap)
  | .stop => .ok (some ds, h)
  | .blank next => parseConfigLoop ok fuel next ds h
  | .line lineStart next =>
    match h.realloc ok ds.block ((ds.elems.length + 1) * sizeofDirective) with
    | (none, h) =>
      let h := h.ierr "failed to allocate memory for parser output"
      .ok (none, (freeArgs ds.elems h).free ds.block)
    | (some block, h) => (parseLine ok lineStart h).bind fun r =>
      match r with
      | (none, h) => .ok (none, (freeArgs ds.elems h).free (some block))
      | (some d, h) => parseConfigLoop ok fuel next ⟨some block, ds.elems ++ [d]⟩ h

theorem parseConfigLoop_succ (fuel : Nat) (p : Ptr) (ds : Growable Directive) (h : Heap) :
    parseConfigLoop ok (fuel + 1) p ds h =
      (configRound p).bind (afterConfigRound ok fuel ds h) := by
  unfold configRound
  rw [parseConfigLoop]
  rcases p.deref with f | c
  · rfl
  simp only [bind, Except.bind]
  split
  · rfl
  rcases p.scanWhile _ with f | stop
  · rfl
  simp only
  rcases p.scanWhileBelow isspace stop.pos with f | lineStart
  · rfl
  simp only
  rcases stop.deref with f | e
  · rfl
  simp only
  split <;> rfl

end SalernOS.Init.Rounds
