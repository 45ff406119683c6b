import SalernOS.Libc.Heap

/-! # `init/src/parse.c`

The configuration text is a block of bytes. An argument keeps a pointer into
it and a length, as the source does. Loops take as many rounds as the text
has bytes left, and one more.
-/
namespace SalernOS.Init.Parse
open SalernOS.Lib SalernOS.Libc

inductive ParseCode where
  | ok
  | err
deriving DecidableEq, Repr

structure DirectiveArg where
  str : Ptr
  len : Nat
deriving DecidableEq, Repr

/-- `args` and `num_args`. -/
structure Directive where
  args : Growable DirectiveArg
deriving DecidableEq, Repr

def sizeofDirectiveArg : Nat := 16
def sizeofDirective : Nat := 16

/-- The bytes that an argument names. -/
def DirectiveArg.word (a : DirectiveArg) : Bytes := a.str.rest.take a.len

def Directive.words (d : Directive) : List Bytes := d.args.elems.map DirectiveArg.word

def skipWhitespace (p : Ptr) : Except Fault Ptr :=
  p.scanWhile fun c => c != nul && isspace c && c != newline

/-- The token at `p`: where it starts, its length and the pointer behind it, or
`none` for a quote that is never closed. -/
def parseToken (p : Ptr) : Except Fault (Option (Ptr × Nat × Ptr)) := do
  if (← p.deref) = quote then
    let start := p.next
    let p ← start.scanWhile fun c => c != nul && c != quote
    if (← p.deref) ≠ quote then return none
    return some (start, p.pos - start.pos, p.next)
  else
    let start := p
    let p ← start.scanWhile fun c => c != nul && !isspace c && c != newline
    return some (start, p.pos - start.pos, p)

/-- The loop of `parse_line`; `none` is `PARSE_ERR`. -/
def parseLineLoop (ok : Nat → Bool) :
    Nat → Ptr → Growable DirectiveArg → Heap → Except Fault (Option (Growable DirectiveArg) × Heap)
  | 0, _, _, _ => .error .outOfFuel
  | fuel + 1, p, args, h => do
    let c ← p.deref
    if c = nul ∨ c = newline then return (some args, h)
    let p ← skipWhitespace p
    let c ← p.deref
    if c = nul ∨ c = newline then return (some args, h)
    match ← parseToken p with
    | none => return (none, (h.ierr "unexpected eof").free args.block)
    | some (start, len, p) =>
      match h.realloc ok args.block ((args.elems.length + 1) * sizeofDirectiveArg) with
      | (none, h) =>
        return (none, (h.ierr "failed to allocate memory for parser output").free args.block)
      | (some block, h) => parseLineLoop ok fuel p ⟨some block, args.elems ++ [⟨start, len⟩]⟩ h

/-- `parse_line`; `none` is `PARSE_ERR` with `*out_dir` untouched. -/
def parseLine (ok : Nat → Bool) (lineStart : Ptr) (h : Heap) :
    Except Fault (Option Directive × Heap) := do
  let (args, h) ← parseLineLoop ok (lineStart.rest.length + 1) lineStart ⟨none, []⟩ h
  return (args.map Directive.mk, h)

/-- `for (i = 0; i < num_directives; i++) free(directives[i].args);` -/
def freeArgs (ds : List Directive) (h : Heap) : Heap :=
  ds.foldl (fun h d => h.free d.args.block) h

/-- The loop of `parse_config`; `none` is `PARSE_ERR`. -/
def parseConfigLoop (ok : Nat → Bool) :
    Nat → Ptr → Growable Directive → Heap → Except Fault (Option (Growable Directive) × Heap)
  | 0, _, _, _ => .error .outOfFuel
  | fuel + 1, p, ds, h => do
    if (← p.deref) = nul then return (some ds, h)
    let lineStart := p
    let p ← p.scanWhile fun c => c != nul && c != newline
    let lineEnd := p.pos
    let lineStart ← lineStart.scanWhileBelow isspace lineEnd
    let c ← p.deref
    let next := if c = newline then p.next else p
    if lineStart.pos < lineEnd then
      match h.realloc ok ds.block ((ds.elems.length + 1) * sizeofDirective) with
      | (none, h) =>
        let h := h.ierr "failed to allocate memory for parser output"
        return (none, (freeArgs ds.elems h).free ds.block)
      | (some block, h) =>
        match ← parseLine ok lineStart h with
        | (none, h) => return (none, (freeArgs ds.elems h).free (some block))
        | (some d, h) => parseConfigLoop ok fuel next ⟨some block, ds.elems ++ [d]⟩ h
    else parseConfigLoop ok fuel next ds h

/-- `parse_config`: `*out` and `*out_num` are written on success only. -/
def parseConfig (ok : Nat → Bool) (out : Growable Directive) (config : Bytes) (h : Heap) :
    Except Fault ((ParseCode × Growable Directive) × Heap) := do
  match ← parseConfigLoop ok (config.length + 1) ⟨0, config⟩ ⟨none, []⟩ h with
  | (some ds, h) => return ((.ok, ds), h)
  | (none, h) => return ((.err, out), h)

end SalernOS.Init.Parse
