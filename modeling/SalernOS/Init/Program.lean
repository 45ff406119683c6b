import Mathlib.Data.List.Forall2
import SalernOS.Init.Layout
import SalernOS.Init.Progress

/-! # What a configuration does

A program is a list of statements. Written as a configuration, in whatever
layout, and run by init, it forks one child for each `tty` statement, from the
environment and the options that the statements before it have left.
-/
namespace SalernOS.Init.Program
open SalernOS.Lib SalernOS.Libc SalernOS.Init.Grammar SalernOS.Init.Parse SalernOS.Init.Table
open SalernOS.Init.ParseSound SalernOS.Init.Interpreter SalernOS.Init.LineLocality
open SalernOS.Init.Layout SalernOS.Init.Meaning SalernOS.Init.Progress

/-! ## Statements -/

/-- A word that stands for itself and fits on a line. -/
structure Word where
  bytes : Bytes
  plain : ∀ c ∈ bytes, c ≠ nul ∧ c ≠ quote ∧ c ≠ newline
  literal : bytes.head? ≠ some dollar

/-- A name that `setenv` takes. -/
structure EnvName extends Word where
  ne : bytes ≠ []
  noEquals : equals ∉ bytes

inductive TtyMode where
  | text
  | gfx

structure Tty where
  path : Word
  mode : TtyMode
  arg : Word
  args : List Word

inductive Statement where
  | env (name : EnvName) (value : Word)
  | enableClear
  | tty (t : Tty)

def TtyMode.word : TtyMode → Bytes
  | .text => ascii "$TTY_TEXT_MODE"
  | .gfx => ascii "$TTY_GFX_MODE"

def TtyMode.value : TtyMode → BitVec 32
  | .text => 1
  | .gfx => 2

def Tty.argv (t : Tty) : List Bytes := t.arg.bytes :: t.args.map (·.bytes)

/-- The statement as it is spelled in a configuration. -/
def Statement.words : Statement → List Bytes
  | .env name value => [ascii "env", name.bytes, value.bytes]
  | .enableClear => [ascii "enable", ascii "$OPT_CLEAR"]
  | .tty t => ascii "tty" :: t.path.bytes :: t.mode.word :: t.argv

def Statement.stmt : Statement → Stmt
  | .env name value => .env name.bytes value.bytes
  | .enableClear => .enable 1
  | .tty t => .tty t.path.bytes t.mode.value t.argv

def Statement.isTty : Statement → Bool
  | .tty _ => true
  | _ => false

/-! ## Reading the words of a directive -/

/-- An argument as `parse_line` leaves it: within the text, and with the quote
behind it when it is empty. -/
structure Readable (a : DirectiveArg) : Prop where
  len : a.len ≤ a.str.rest.length
  empty : a.len = 0 → a.str.rest.head? = some quote

theorem readable_of_configOf {c : CString} {ds : List Directive} (hd : configOf c = some ds) :
    ∀ d ∈ ds, ∀ a ∈ d.args.elems, Readable a := by
  have hs : (configToks 0 c.bytes).isSome := by rw [← configOf_isSome, hd]; rfl
  obtain ⟨tss, ht⟩ := Option.isSome_iff_exists.mp hs
  intro d hdm a ha
  have hargs : d.args.elems ∈ tss.map (List.map (toArg [])) := by
    rw [← (directive_words hd ht).2]; exact List.mem_map_of_mem (f := (·.args.elems)) hdm
  obtain ⟨toks, hm, he⟩ := List.mem_map.mp hargs
  obtain ⟨p, _, hl⟩ := mem_of_mapM ht hm
  rw [← he] at ha
  obtain ⟨t, htm, rfl⟩ := List.mem_map.mp ha
  have hw := lex_gap_within hl t htm
  refine ⟨?_, fun h0 => ?_⟩
  · have := hw.len
    simp only [toArg, List.length_append]
    omega
  · simp only [toArg, List.head?_append, hw.empty h0, Option.some_or]

theorem Readable.length_word {a : DirectiveArg} (h : Readable a) : a.word.length = a.len := by
  rw [DirectiveArg.word, List.length_take, Nat.min_eq_left h.len]

theorem Readable.lookup {φ : Type} {a : DirectiveArg} (h : Readable a) (type : Ty)
    (table : List (TableEntry φ)) :
    tableLookup a.str.rest a.len type table = tableLookup a.word a.word.length type table := by
  rw [h.length_word, DirectiveArg.word, tableLookup_take]

/-- An argument starts with `$` when its text does. -/
theorem Readable.variable_iff {a : DirectiveArg} (h : Readable a) :
    a.str.rest.headD nul = dollar ↔ a.word.head? = some dollar := by
  unfold DirectiveArg.word
  cases hr : a.str.rest with
  | nil =>
    have hlen := h.len
    have hempty := h.empty
    rw [hr] at hlen hempty
    exact absurd (hempty (Nat.le_zero.mp hlen)) (by simp)
  | cons c r =>
    cases hl : a.len with
    | zero =>
      have hempty := h.empty hl
      rw [hr] at hempty
      cases hempty
      exact iff_of_false (show quote ≠ dollar by decide) (by simp)
    | succ n => simp

theorem Readable.lookup_variable {φ : Type} {a : DirectiveArg} (h : Readable a)
    (hd : a.word.head? = some dollar) (type : Ty) (table : List (TableEntry φ)) :
    tableLookup a.str.next.rest (sizePred a.len) type table =
      tableLookup a.word.tail a.word.tail.length type table := by
  have hlen := h.length_word
  have htail : a.word.tail = a.str.next.rest.take (a.len - 1) := by
    rw [DirectiveArg.word, Cursor.next]
    cases a.str.rest <;> cases a.len <;> simp
  have hpred : sizePred a.len = a.len - 1 := by
    cases hl : a.len with
    | zero =>
      rw [hl, List.length_eq_zero_iff] at hlen
      rw [hlen] at hd
      cases hd
    | succ n => rfl
  rw [List.length_tail, hlen, htail, tableLookup_take, hpred]

theorem Readable.stringOf {a : DirectiveArg} (h : Readable a) (hd : a.word.head? ≠ some dollar) :
    stringOf a = some a.word := if_neg (mt h.variable_iff.mp hd)

theorem Readable.intOf {a : DirectiveArg} {n : BitVec 64} (h : Readable a)
    (hd : a.word.head? = some dollar)
    (hl : (tableLookup a.word.tail a.word.tail.length .int gValues).map TableEntry.value =
      some (.int n)) : intOf a = some (n.setWidth 32) := by
  obtain ⟨⟨name, value⟩, he, rfl⟩ := Option.map_eq_some_iff.mp hl
  unfold Meaning.intOf
  rw [if_pos (h.variable_iff.mpr hd), h.lookup_variable hd, he]

theorem mapM_stringOf {as : List DirectiveArg} {ws : List Word} (hr : ∀ a ∈ as, Readable a)
    (h : as.map DirectiveArg.word = ws.map (·.bytes)) :
    as.mapM stringOf = some (ws.map (·.bytes)) := by
  rw [mapM_eq_some_iff, ← h, List.map_map]
  refine List.map_congr_left fun a ha => ?_
  have hm : a.word ∈ ws.map (·.bytes) := h ▸ List.mem_map_of_mem ha
  obtain ⟨w, _, hw⟩ := List.mem_map.mp hm
  exact (hr a ha).stringOf (hw ▸ w.literal)

theorem meaning_of_name {d : Directive} {a : DirectiveArg} {as : List DirectiveArg}
    {cb : Callback} (he : d.args.elems = a :: as) (hr : Readable a)
    (hl : (tableLookup a.word a.word.length .function gDirectives).map TableEntry.value =
      some (.function cb)) : meaning d = request cb (a :: as) := by
  obtain ⟨⟨name, value⟩, hentry, rfl⟩ := Option.map_eq_some_iff.mp hl
  unfold meaning
  rw [he]
  simp only [hr.lookup, hentry]

theorem TtyMode.intOf (m : TtyMode) {a : DirectiveArg} (hr : Readable a) (h : a.word = m.word) :
    intOf a = some m.value := by
  cases m with
  | text => exact hr.intOf (n := ttyText) (by rw [h]; rfl) (by rw [h]; rfl)
  | gfx => exact hr.intOf (n := ttyGfx) (by rw [h]; rfl) (by rw [h]; rfl)

/-- A directive with the words of a statement means the statement. -/
theorem meaning_of_words {d : Directive} (st : Statement)
    (hr : ∀ a ∈ d.args.elems, Readable a) (h : d.words = st.words) :
    meaning d = some st.stmt := by
  unfold Directive.words at h
  cases st with
  | env name value =>
    obtain ⟨a, _, he, ha, h⟩ := List.map_eq_cons_iff.mp h
    obtain ⟨b, _, rfl, hb, h⟩ := List.map_eq_cons_iff.mp h
    obtain ⟨c, _, rfl, hc, h⟩ := List.map_eq_cons_iff.mp h
    obtain rfl := List.map_eq_nil_iff.mp h
    rw [he] at hr
    have hname : (tableLookup a.word a.word.length .function gDirectives).map TableEntry.value =
        some (.function .cbEnv) := by rw [ha]; rfl
    rw [meaning_of_name he (hr a (by simp)) hname]
    simp only [request]
    rw [(hr b (by simp)).stringOf (hb ▸ name.literal), (hr c (by simp)).stringOf (hc ▸ value.literal),
      hb, hc]
    rfl
  | enableClear =>
    obtain ⟨a, _, he, ha, h⟩ := List.map_eq_cons_iff.mp h
    obtain ⟨b, _, rfl, hb, h⟩ := List.map_eq_cons_iff.mp h
    obtain rfl := List.map_eq_nil_iff.mp h
    rw [he] at hr
    have hname : (tableLookup a.word a.word.length .function gDirectives).map TableEntry.value =
        some (.function .cbEnable) := by rw [ha]; rfl
    have hvalue : (tableLookup b.word.tail b.word.tail.length .int gValues).map TableEntry.value =
        some (.int optClear) := by rw [hb]; rfl
    rw [meaning_of_name he (hr a (by simp)) hname]
    simp only [request]
    rw [(hr b (by simp)).intOf (by rw [hb]; rfl) hvalue]
    rfl
  | tty t =>
    obtain ⟨a, _, he, ha, h⟩ := List.map_eq_cons_iff.mp h
    obtain ⟨p, _, rfl, hp, h⟩ := List.map_eq_cons_iff.mp h
    obtain ⟨m, _, rfl, hm, h⟩ := List.map_eq_cons_iff.mp h
    obtain ⟨arg, args, rfl, harg, hargs⟩ := List.map_eq_cons_iff.mp h
    rw [he] at hr
    have hname : (tableLookup a.word a.word.length .function gDirectives).map TableEntry.value =
        some (.function .cbTty) := by rw [ha]; rfl
    have hargv : (arg :: args).mapM stringOf = some ((t.arg :: t.args).map (·.bytes)) := by
      refine mapM_stringOf (fun x hx => hr x ?_) (by simp [harg, hargs])
      exact List.mem_cons_of_mem _ (List.mem_cons_of_mem _ (List.mem_cons_of_mem _ hx))
    rw [meaning_of_name he (hr a (by simp)) hname]
    simp only [request]
    rw [(hr p (by simp)).stringOf (hp ▸ t.path.literal), t.mode.intOf (hr m (by simp)) hm, hargv, hp]
    rfl

/-! ## What a program does -/

/-- The `tty` statements, each with the statements before it. -/
def spawns (before : List Statement) : List Statement → List (List Statement × Tty)
  | [] => []
  | .tty t :: rest => (before, t) :: spawns (before ++ [.tty t]) rest
  | st :: rest => spawns (before ++ [st]) rest

/-- The value that a statement gives to a variable. -/
def Statement.assigns (name : Bytes) : Statement → Option Bytes
  | .env n value => if n.bytes = name then some value.bytes else none
  | _ => none

/-- The value of a variable behind some statements: the last one that sets it
wins. -/
def variableAfter (env : Env) (before : List Statement) (name : Bytes) : Option Bytes :=
  (before.reverse.findSome? (Statement.assigns name)).or (getenv env name)

def Statement.isEnable : Statement → Bool
  | .enableClear => true
  | _ => false

def optionsAfter (before : List Statement) : BitVec 32 :=
  if before.any Statement.isEnable then 1 else 0

/-- The child that a `tty` statement forks behind some others. -/
structure Inherits (env : Env) (p : List Statement × Tty) (c : Child) : Prop where
  path : c.ttyPath = p.2.path.bytes
  mode : c.ttyMode = p.2.mode.value
  argv : c.argv = p.2.argv.map some ++ [none]
  vars : ∀ name, getenv c.env name = variableAfter env p.1 name
  options : c.activeOptions = optionsAfter p.1

theorem spawns_length : ∀ (prog before : List Statement),
    (spawns before prog).length = prog.countP Statement.isTty
  | [], _ => rfl
  | .tty t :: rest, before => by
    rw [spawns, List.length_cons, spawns_length, List.countP_cons_of_pos rfl]
  | .env _ _ :: rest, before | .enableClear :: rest, before => by
    rw [spawns, spawns_length, List.countP_cons_of_neg (by simp [Statement.isTty])]
    nofun

/-- The world behind some statements. -/
structure Agrees (env : Env) (before : List Statement) (w : World) : Prop where
  vars : ∀ name, getenv w.env name = variableAfter env before name
  options : w.activeOptions = optionsAfter before

theorem variableAfter_append (env : Env) (before : List Statement) (st : Statement) (name : Bytes) :
    variableAfter env (before ++ [st]) name =
      (st.assigns name).or (variableAfter env before name) := by
  unfold variableAfter
  rw [List.reverse_append, List.reverse_singleton, List.singleton_append, List.findSome?_cons]
  cases st.assigns name <;> rfl

theorem optionsAfter_append (before : List Statement) (st : Statement) :
    optionsAfter (before ++ [st]) =
      if st.isEnable then optionsAfter before ||| 1 else optionsAfter before := by
  unfold optionsAfter
  rw [List.any_append]
  cases before.any Statement.isEnable <;> cases h : st.isEnable <;> simp [h]

theorem agrees_start (env : Env) : Agrees env [] (World.start env) := ⟨fun _ => rfl, rfl⟩

/-- A statement that sets no variable and no option is not seen. -/
theorem Agrees.skip {env : Env} {before : List Statement} {w w' : World} (h : Agrees env before w)
    (t : Tty) (henv : w'.env = w.env) (hopt : w'.activeOptions = w.activeOptions) :
    Agrees env (before ++ [.tty t]) w' := by
  refine ⟨fun name => ?_, ?_⟩
  · rw [henv, variableAfter_append, h.vars]; rfl
  · rw [hopt, optionsAfter_append, h.options]; rfl

theorem Agrees.setenv {env : Env} {before : List Statement} {w : World} (h : Agrees env before w)
    (name : EnvName) (value : Word) : Agrees env (before ++ [.env name value])
      { w with env := (setenv true w.env name.bytes value.bytes).2 } := by
  refine ⟨fun other => ?_, ?_⟩
  · rw [variableAfter_append]
    by_cases hn : name.bytes = other
    · subst hn
      rw [getenv_setenv _ _ _ ⟨name.ne, name.noEquals⟩]
      simp [Statement.assigns]
    · rw [getenv_setenv_ne _ _ _ hn, h.vars]
      simp [Statement.assigns, hn]
  · rw [optionsAfter_append]; exact h.options

theorem Agrees.enable {env : Env} {before : List Statement} {w : World} (h : Agrees env before w) :
    Agrees env (before ++ [.enableClear]) { w with activeOptions := w.activeOptions ||| 1 } := by
  refine ⟨fun name => ?_, ?_⟩
  · rw [variableAfter_append, h.vars]; rfl
  · rw [optionsAfter_append, ← h.options]; rfl

theorem Agrees.inherits {env : Env} {before : List Statement} {w : World}
    (h : Agrees env before w) (t : Tty) (pid : Pid) :
    Inherits env (before, t) (w.child pid t.path.bytes t.mode.value t.argv) :=
  ⟨rfl, rfl, rfl, h.vars, h.options⟩

/-! ### The run -/

/-- Every call succeeds; `fork` returns these pids. -/
def granted (pids : Nat → Pid) (i : Nat) : OsReply := ⟨true, some (pids i)⟩

/-- What the interpreter meets when it runs the statements. -/
def requests (os : Nat → OsReply) : Nat → List Statement → List Request
  | _, [] => []
  | i, st :: rest => (some st.stmt, os i) :: requests os (i + 1) rest

theorem script_eq_requests (os : Nat → OsReply) : ∀ (prog : List Statement) (ds : List Directive)
    (i : Nat), ds.map meaning = prog.map (fun st => some st.stmt) →
      script os i ds = requests os i prog
  | [], ds, i, h => by
    obtain rfl := List.map_eq_nil_iff.mp h
    rfl
  | st :: prog, ds, i, h => by
    obtain ⟨d, ds, rfl, hd, h⟩ := List.map_eq_cons_iff.mp h
    rw [script, requests, hd, script_eq_requests os prog ds (i + 1) h]

theorem run_requests (env : Env) (pids : Nat → Pid) :
    ∀ (prog before : List Statement) (i : Nat) (w : World), Agrees env before w →
      ∃ w' new, w.run (requests (granted pids) i prog) = (true, w') ∧
        w'.children = w.children ++ new ∧ List.Forall₂ (Inherits env) (spawns before prog) new
  | [], _, _, w, _ => ⟨w, [], rfl, (List.append_nil _).symm, .nil⟩
  | .env name value :: prog, before, i, w, h => by
    obtain ⟨w', new, hrun, hch, hall⟩ :=
      run_requests env pids prog _ (i + 1) _ (h.setenv name value)
    exact ⟨w', new, hrun, hch, hall⟩
  | .enableClear :: prog, before, i, w, h => by
    obtain ⟨w', new, hrun, hch, hall⟩ := run_requests env pids prog _ (i + 1) _ h.enable
    exact ⟨w', new, hrun, hch, hall⟩
  | .tty t :: prog, before, i, w, h => by
    let c := w.child (pids i) t.path.bytes t.mode.value t.argv
    obtain ⟨w', new, hrun, hch, hall⟩ := run_requests env pids prog _ (i + 1)
      { w with children := w.children ++ [c] } (h.skip t rfl rfl)
    refine ⟨w', c :: new, hrun, ?_, .cons (h.inherits t (pids i)) hall⟩
    rw [hch, List.append_assoc]
    rfl

/-! ## The configuration of a program -/

/-- A layout of a program: any document with the words of its statements. -/
structure Rendering (prog : List Statement) where
  document : Document
  spelled : wordsOf document.lines = prog.map Statement.words

/-! ### One layout -/

def noBlanks : Blanks := ⟨[], by simp⟩
def space : Gap := ⟨⟨[32], List.all_eq_true.mp rfl⟩, by simp⟩

def Word.quoted (w : Word) : Written := .quoted w.bytes w.plain

theorem solid_of_all {word : Bytes} (h : word.all (fun c => !isspace c && c != nul) = true) :
    ∀ c ∈ word, isspace c = false ∧ c ≠ nul := by
  intro c hc
  simpa using List.all_eq_true.mp h c hc

theorem plain_of_all {word : Bytes}
    (h : word.all (fun c => c != nul && (c != quote && c != newline)) = true) :
    ∀ c ∈ word, c ≠ nul ∧ c ≠ quote ∧ c ≠ newline := by
  intro c hc
  simpa using List.all_eq_true.mp h c hc

def TtyMode.bare : TtyMode → Written
  | .text => .bare (ascii "$TTY_TEXT_MODE") (by decide) (solid_of_all rfl) (by decide)
  | .gfx => .bare (ascii "$TTY_GFX_MODE") (by decide) (solid_of_all rfl) (by decide)

def Statement.line : Statement → Line
  | .env name value =>
    .directive noBlanks (.bare (ascii "env") (by decide) (solid_of_all rfl) (by decide))
      [(space, name.toWord.quoted), (space, value.quoted)] noBlanks
  | .enableClear =>
    .directive noBlanks (.bare (ascii "enable") (by decide) (solid_of_all rfl) (by decide))
      [(space, .bare (ascii "$OPT_CLEAR") (by decide) (solid_of_all rfl) (by decide))] noBlanks
  | .tty t =>
    .directive noBlanks (.bare (ascii "tty") (by decide) (solid_of_all rfl) (by decide))
      ((space, t.path.quoted) :: (space, t.mode.bare) ::
        (t.arg :: t.args).map fun w => (space, w.quoted)) noBlanks

theorem Statement.line_words (st : Statement) : st.line.words = st.words := by
  cases st with
  | env name value => rfl
  | enableClear => rfl
  | tty t =>
    simp only [line, Line.words, words, Tty.argv, List.map_cons, List.map_map]
    cases t.mode <;> rfl

theorem Statement.words_ne (st : Statement) : st.words ≠ [] := by
  cases st <;> simp [words]

/-- A line for each statement, with the words that are no names in quotes. -/
def render (prog : List Statement) : Rendering prog where
  document := ⟨prog.map Statement.line, true⟩
  spelled := by
    rw [wordsOf, List.map_map]
    refine (List.filter_eq_self.mpr fun ws hws => ?_).trans
      (List.map_congr_left fun st _ => st.line_words)
    obtain ⟨st, _, rfl⟩ := List.mem_map.mp hws
    simp [Statement.line_words, Statement.words_ne]

/-! ### The run of a layout -/

theorem meanings_of_words : ∀ (prog : List Statement) (ds : List Directive),
    (∀ d ∈ ds, ∀ a ∈ d.args.elems, Readable a) →
    ds.map Directive.words = prog.map Statement.words →
    ds.map meaning = prog.map fun st => some st.stmt
  | [], ds, _, h => by rw [List.map_eq_nil_iff.mp h]; rfl
  | st :: prog, ds, hr, h => by
    obtain ⟨d, ds, rfl, hd, h⟩ := List.map_eq_cons_iff.mp h
    rw [List.map_cons, List.map_cons, meaning_of_words st (hr d (by simp)) hd,
      meanings_of_words prog ds (fun d hd => hr d (List.mem_cons_of_mem _ hd)) h]

/-- **What a configuration does.** However a program is laid out, init accepts
it and forks one child for each `tty` statement, in order, with the path, the
mode and the arguments of the statement and with the variables and the options
of the statements before it; then it sends one signal to each of them. -/
theorem rendering_runs (env : Env) (pids : Nat → Pid) (prog : List Statement) (r : Rendering prog)
    (hroom : prog.countP Statement.isTty ≤ maxChildren) :
    ∃ ds t before, configOf r.document.text = some ds ∧
      interpretConfig true (granted pids) ds (State.start env) = .ok (.returned .ok, t) ∧
      List.Forall₂ (Inherits env) (spawns [] prog) (forks before) ∧ kills before = [] ∧
      t.trace = before ++ (forks before).map fun c => .kill c.pid sigusr1 := by
  obtain ⟨ds, hd, hwords, _⟩ := parse_text r.document
  have hm := meanings_of_words prog ds (readable_of_configOf hd) (hwords.trans r.spelled)
  obtain ⟨w', new, hrun, hch, hall⟩ :=
    run_requests env pids prog [] 0 (World.start env) (agrees_start env)
  have hnew : w'.children = new := hch
  have hlen : w'.pids.length ≤ maxChildren := by
    rw [World.pids, List.length_map, hnew, ← hall.length_eq, spawns_length]
    exact hroom
  have hfollow := interpretConfig_follows (granted pids) ds env
  rw [script_eq_requests _ prog ds 0 hm, hrun] at hfollow
  obtain ⟨t, before, ht, htr, hforks, hkills⟩ := (if_pos hlen).mp hfollow
  have hforks : forks before = new := hforks.trans hnew
  refine ⟨ds, t, before, hd, ht, hforks ▸ hall, hkills, ?_⟩
  rw [htr, hforks, ← hnew]
  exact congrArg (before ++ ·) (List.map_map ..)

/-- A shell on a cleared terminal, with a variable that is set twice. -/
def shellProgram : List Statement :=
  let word (s : String) (h : _) (l : _) : Word := ⟨ascii s, h, l⟩
  let term : EnvName := ⟨word "TERM" (plain_of_all rfl) (by decide), by decide, by decide⟩
  [.env term (word "" (plain_of_all rfl) (by decide)), .enableClear,
   .env term (word "my term" (plain_of_all rfl) (by decide)),
   .tty ⟨word "/dev/tty0" (plain_of_all rfl) (by decide), .text,
     word "/bin/sh" (plain_of_all rfl) (by decide), [word "-i" (plain_of_all rfl) (by decide)]⟩]

theorem shellProgram_runs :
    ∃ ds t before, configOf (render shellProgram).document.text = some ds ∧
      interpretConfig true (granted fun _ => 2) ds (State.start []) = .ok (.returned .ok, t) ∧
      List.Forall₂ (Inherits []) (spawns [] shellProgram) (forks before) ∧ kills before = [] ∧
      t.trace = before ++ (forks before).map fun c => .kill c.pid sigusr1 :=
  rendering_runs [] (fun _ => 2) shellProgram (render shellProgram) (by decide)

end SalernOS.Init.Program
