import Mathlib.Data.List.Basic
import Xv6Simplesh.Library.Bytes
import Xv6Simplesh.Library.Loops
import Xv6Simplesh.Shell.NullTerminate
import Xv6Simplesh.Param

/-! # The builtin `src`

`run_src` reads a script into a buffer and runs its lines.  One loop looks for the end of a line,
runs the line, moves the rest of the buffer to the front and reads on where the buffer has a NUL.
The buffers come from `malloc`: what is behind the bytes that were put into them is not known,
and is a parameter of the model.  The commands are taken to return and to leave the variables of
`run_src` alone.
-/

namespace Xv6Simplesh.Shell.Src

open Library

/-- `MAX_LINEA`. -/
abbrev maxLinea : Nat := 4096

/-! ## Options -/

/-- What `getopt` returns. -/
inductive Opt where
  | d (optarg : List UInt8)
  | h
  /-- `'?'`, which has no case in the `switch`. -/
  | unknown
deriving DecidableEq, Repr

def usage : String :=
  "Uso: src [-d DELIM] [FILE1] [FILE2 ]...\n\tOpciones:\n" ++
  "\t-d DELIM Carácter de  inicio  de  comentarios.\n\t-h help\n"

/-- The loop over the options, with `delim`; an error is the text that is printed before
`run_src` returns. -/
def getopt : List Opt → UInt8 → Except String UInt8
  | [], delim => .ok delim
  | .d optarg :: opts, _ =>
    -- `*optarg` of an empty string is its NUL
    if optarg.length > 1 then .error "src: Opción no válida\n" else getopt opts (optarg.headD 0)
  | .h :: _, _ => .error usage
  | .unknown :: opts, delim => getopt opts delim

/-! ## Strings -/

/-- `strlen` from an offset of a buffer on that has `room` more bytes; `none` where it runs out
of the buffer. -/
def strlenFrom (buf : Bytes) : Nat → Nat → Option Nat
  | 0, _ => none
  | room + 1, i => if buf i = 0 then some i else strlenFrom buf room (i + 1)

/-- `strlen` of a buffer from `malloc`. -/
def strlen (buf : Bytes) : Option Nat := strlenFrom buf maxLinea 0

/-- `strncpy(dest, src, n)`. -/
def strncpy (dest src : Bytes) (n : Nat) : Bytes := fun k =>
  if k < n then if (List.range (k + 1)).any (src · = 0) then 0 else src k else dest k

/-- The line that `parse_cmd` reads. -/
def commandLine (command : List UInt8) : CommandLine where
  chars := (command.takeWhile (· ≠ 0)).map Char.ofUInt8
  nulFree := by
    intro mem
    obtain ⟨byte, inside, nul⟩ := List.mem_map.mp mem
    have other : byte ≠ 0 := by simpa using List.mem_takeWhile_imp inside
    have value : byte.toUInt32 = 0 := congrArg Char.val nul
    exact other (UInt8.toUInt32_inj.mp value)

/-- `null_terminate`, on the buffer that starts with the command. -/
def terminate (cmd : Cmd) (command : List UInt8) (text : Bytes) : Option Bytes :=
  (nullTerminate cmd ((commandLine command).chars ++ ['\x00'])).map fun chars k =>
    if chars[k]? = some '\x00' then 0 else text k

/-! ## The loops -/

/-- How `run_src` ends. -/
inductive Ending where
  | done
  | message (text : String)
  /-- An access outside of a buffer. -/
  | overrun
  /-- `parse_cmd` does not return. -/
  | stopped (stop : Stop)
  | outOfFuel
deriving DecidableEq, Repr

structure Result where
  /-- The strings that `parse_cmd` has been called with. -/
  commands : List (List UInt8)
  ending : Ending
deriving DecidableEq, Repr

/-- What the calls of `read` on a file return: parts of the pieces one after the other, and then 0
for ever, or -1 if the file `fails`.  A file that cannot be opened fails at once. -/
structure Source where
  name : String
  pieces : List (List UInt8)
  fails : Bool
deriving DecidableEq, Repr

/-- The variables of `run_src`. -/
structure State where
  buf : Bytes
  comando : Bytes
  i : Nat
  leidos : Int
  pieces : List (List UInt8)
  /-- The calls of `malloc` so far. -/
  mallocs : Nat
  commands : List (List UInt8)

/-- `bytes_leidos = read(fd, buf + i, num)`. -/
def State.read (fails : Bool) (num : Nat) (s : State) : State :=
  match s.pieces with
  | [] => { s with leidos := if fails then -1 else 0 }
  | piece :: pieces =>
    { s with
      buf := s.buf.copy s.i (fun k => piece.getD k 0) (piece.take num).length
      leidos := (piece.take num).length
      pieces := if piece.length ≤ num then pieces else piece.drop num :: pieces }

def State.stop {α : Type} (s : State) (ending : Ending) : Except Result α := .error ⟨s.commands, ending⟩

/-- `parse_cmd`, `null_terminate`, `run_cmd` and `free_cmd`, with what is in the buffer then. -/
def runLine (s : State) (text : Bytes) : Except Result (State × Bytes) :=
  match strlen text with
  | none => s.stop .overrun
  | some n =>
    let command := text.slice 0 n
    let s := { s with commands := s.commands ++ [command] }
    match parseCmd (commandLine command) with
    | .error stop => s.stop (.stopped stop)
    | .ok (cmd, _) =>
      match terminate cmd command text with
      | none => s.stop .overrun
      | some text => .ok (s, text)

/-- `memmove(buf, buf + (i + 1), strlen(buf)); bytes_leidos -= i; i = 0;` -/
def shift (s : State) : Except Result State :=
  match strlen s.buf with
  | none => s.stop .overrun
  | some n =>
    if s.i + 1 + n ≤ maxLinea then
      .ok { s with buf := s.buf.copy 0 (fun k => s.buf (s.i + 1 + k)) n, leidos := s.leidos - s.i, i := 0 }
    else s.stop .overrun

/-- The `if` at the end of the loop, for `buf[i] == '\0'`. -/
def refill (fails : Bool) (s : State) : Except Result State :=
  if s.i < maxLinea then
    if s.buf s.i = 0 then do
      let s := s.read fails (maxLinea - s.i)
      if s.leidos = 0 then
        let (s, buf) ← runLine s s.buf
        .ok { s with buf := buf }
      else .ok s
    else .ok s
  else s.stop .overrun

section Loops

variable (memory : Nat → Bytes) (delim : UInt8)

/-- The `if` over the byte, with the line that a newline ends. -/
def byteStep (s : State) : Except Result State :=
  if s.buf s.i = newline then
    if s.buf 0 ≠ delim then do
      let (s, comando) ← runLine s (strncpy s.comando s.buf s.i)
      -- `strcpy(comando, "\0")`
      shift { s with comando := Function.update comando 0 0 }
    else shift s
  else .ok { s with i := s.i + 1 }

/-- The loop over the bytes. -/
def lineLoop (fails : Bool) : Nat → State → Except Result State
  | 0, s => s.stop .outOfFuel
  | fuel + 1, s =>
    if s.i < s.leidos ∧ s.i < maxLinea ∧ s.buf s.i ≠ 0 then do
      let s ← byteStep delim s
      let s ← refill fails s
      lineLoop fails fuel s
    else .ok s

/-- The loop `while (bytes_leidos != 0)`. -/
def readLoop (source : Source) : Nat → State → Except Result State
  | 0, s => s.stop .outOfFuel
  | fuel + 1, s =>
    if s.leidos ≠ 0 then do
      let s := State.read source.fails maxLinea { s with buf := memory s.mallocs, i := 0 }
      if s.leidos = -1 then
        s.stop (.message ("src: No se encontró el archivo '" ++ source.name ++ "'\n"))
      else
        let s ← lineLoop delim source.fails fuel
          { s with comando := memory (s.mallocs + 1), mallocs := s.mallocs + 2 }
        readLoop source fuel s
    else .ok s

/-- The loop over the files. -/
def fileLoop (fuel : Nat) : List Source → State → Except Result State
  | [], s => .ok s
  | source :: sources, s => do
    let s ← readLoop memory delim source fuel { s with pieces := source.pieces, leidos := 1 }
    fileLoop fuel sources s

end Loops

/-- What there is when `run_src` has returned. -/
def outcome : Except Result State → Result
  | .error res => res
  | .ok s => ⟨s.commands, .done⟩

/-- The files that are read: the standard input if none is named. -/
def inputs (stdin : Source) (files : List Source) : List Source := if files = [] then [stdin] else files

/-- `run_src` with the options, the files named after them and the standard input. -/
def runSrc (fuel : Nat) (memory : Nat → Bytes) (opts : List Opt) (stdin : Source) (files : List Source) : Result :=
  match getopt opts 37 with
  | .error text => ⟨[], .message text⟩
  | .ok delim =>
    outcome (fileLoop memory delim fuel (inputs stdin files) ⟨memory 0, memory 1, 0, 1, [], 0, []⟩)

/-! ## What the script says -/

/-- The lines of a script; the last one may lack its newline. -/
def lines (script : List UInt8) : List (List UInt8) :=
  let parts := script.splitOn newline
  if parts.getLast? = some [] then parts.dropLast else parts

/-- The lines that do not start with the delimiter. -/
def scriptCommands (delim : UInt8) (script : List UInt8) : List (List UInt8) :=
  (lines script).filter (·.head? ≠ some delim)

/-! ## Memory without NULs

In a buffer without a NUL `strlen` finds no end.  So no command is run, and a newline ends in an
access outside of the buffer.
-/

/-- The run ends in a state as wanted, or not as it should. -/
def Meets {α : Type} (res : Except Result α) (good : α → Prop) : Prop :=
  match res with
  | .ok value => good value
  | .error res => res.ending ≠ .done

variable {α : Type} {buf : Bytes} {bytes : List UInt8} {fails : Bool}

theorem Meets.mono {res : Except Result α} {good good' : α → Prop} (meets : Meets res good)
    (weaker : ∀ value, good value → good' value) : Meets res good' := by
  cases res with
  | ok value => exact weaker value meets
  | error res => exact meets

theorem Meets.bind {β : Type} {first : Except Result α} {next : α → Except Result β} {good : α → Prop}
    {good' : β → Prop} (meets : Meets first good) (continues : ∀ value, good value → Meets (next value) good') :
    Meets (first >>= next) good' := by
  cases first with
  | ok value => exact continues value meets
  | error res => exact meets

theorem Meets.of_done {res : Except Result State} {good : State → Prop} {commands : List (List UInt8)}
    (meets : Meets res good) (done : outcome res = ⟨commands, .done⟩) : ∃ s, good s ∧ s.commands = commands := by
  cases res with
  | ok s => exact ⟨s, meets, congrArg Result.commands done⟩
  | error res => exact absurd (congrArg Result.ending done) meets

theorem Meets.stop {good : α → Prop} (s : State) {ending : Ending} (wrong : ending ≠ .done) :
    Meets (s.stop ending) good := wrong

/-- A buffer without NUL. -/
def Noisy (buf : Bytes) : Prop := ∀ k < maxLinea, buf k ≠ 0

theorem strlenFrom_noisy (noisy : Noisy buf) (room i : Nat) (size : i + room = maxLinea) :
    strlenFrom buf room i = none := by
  induction room generalizing i with
  | zero => rfl
  | succ room ih =>
    rw [strlenFrom, if_neg (noisy i (by omega))]
    exact ih (i + 1) (by omega)

theorem strlen_noisy (noisy : Noisy buf) : strlen buf = none := strlenFrom_noisy noisy maxLinea 0 rfl

theorem Noisy.strncpy {dest source : Bytes} (noisy : Noisy dest) (noisy' : Noisy source) (n : Nat) :
    Noisy (strncpy dest source n) := by
  intro k inside
  have none : ¬ (List.range (k + 1)).any (source · = 0) = true := by
    simp only [List.any_eq_true, List.mem_range, decide_eq_true_eq, not_exists, not_and]
    intro j low
    exact noisy' j (by omega)
  simp only [Src.strncpy, if_neg none]
  split
  · exact noisy' k inside
  · exact noisy k inside

theorem Noisy.copy (noisy : Noisy buf) (nulFree : 0 ∉ bytes) {i count : Nat}
    (inside : count ≤ bytes.length) : Noisy (buf.copy i (fun k => bytes.getD k 0) count) := by
  intro k bound nul
  simp only [Bytes.copy] at nul
  split at nul
  next range =>
    have there : k - i < bytes.length := by omega
    rw [List.getD_eq_getElem _ _ there] at nul
    exact nulFree (nul ▸ List.getElem_mem there)
  next => exact noisy k bound nul

section Noisy

variable {delim : UInt8} {s : State}

theorem runLine_noisy {text : Bytes} (noisy : Noisy text) : runLine s text = s.stop .overrun := by
  simp only [runLine, strlen_noisy noisy]

theorem shift_noisy (noisy : Noisy s.buf) : shift s = s.stop .overrun := by
  simp only [shift, strlen_noisy noisy]

theorem refill_noisy (noisy : Noisy s.buf) : Meets (refill fails s) (· = s) := by
  simp only [refill]
  split
  next inside =>
    rw [if_neg (noisy s.i inside)]
    exact rfl
  next => exact Meets.stop s (by decide)

theorem byteStep_noisy (noisy : Noisy s.buf) (fresh : Noisy s.comando) :
    Meets (byteStep delim s) fun s' => s' = { s with i := s.i + 1 } ∧ s.buf s.i ≠ newline := by
  simp only [byteStep]
  split
  next =>
    split
    next =>
      rw [runLine_noisy (fresh.strncpy noisy s.i)]
      exact Meets.stop s (by decide)
    next =>
      rw [shift_noisy noisy]
      exact Meets.stop s (by decide)
  next other => exact ⟨rfl, other⟩

theorem lineLoop_noisy (fuel : Nat) (noisy : Noisy s.buf) (fresh : Noisy s.comando) :
    Meets (lineLoop delim fails fuel s) fun s' => s' = { s with i := s'.i } ∧
      ∀ k, s.i ≤ k → (k : Int) < s.leidos → k < maxLinea → s.buf k ≠ newline := by
  induction fuel generalizing s with
  | zero => exact Meets.stop s (by decide)
  | succ fuel ih =>
    simp only [lineLoop]
    split
    next =>
      apply (byteStep_noisy noisy fresh).bind
      rintro _ ⟨rfl, other⟩
      apply (refill_noisy (s := { s with i := s.i + 1 }) noisy).bind
      rintro _ rfl
      -- the variables of the next round are those of this one, with `i` moved on
      apply (ih (s := { s with i := s.i + 1 }) noisy fresh).mono
      rintro s' ⟨same, rest⟩
      refine ⟨by rw [same], fun k low high bound => ?_⟩
      obtain rfl | above : k = s.i ∨ s.i + 1 ≤ k := by omega
      · exact other
      · exact rest k above high bound
    next finished =>
      refine ⟨rfl, fun k low high bound => absurd ⟨?_, ?_, noisy s.i (by omega)⟩ finished⟩
      all_goals omega

/-! ### Files -/

/-- What `read` can return of a script without NULs. -/
def Clean (pieces : List (List UInt8)) : Prop := ∀ piece ∈ pieces, piece ≠ [] ∧ 0 ∉ piece

/-- What `read` puts into a buffer from `malloc`. -/
structure Filled (s s' : State) (stale : Bytes) : Prop where
  /-- The bytes that have been read come first, and the others follow. -/
  script : ∃ taken, s.pieces.flatten = taken ++ s'.pieces.flatten ∧ s'.leidos = taken.length ∧
    taken.length ≤ maxLinea ∧ s'.buf = stale.copy 0 (fun k => taken.getD k 0) taken.length
  clean : Clean s'.pieces
  /-- `read` returns 0 at the end of the file only. -/
  more : s'.leidos = 0 → s'.pieces = []
  start : s'.i = 0
  mallocs : s'.mallocs = s.mallocs
  commands : s'.commands = s.commands

theorem read_filled (clean : Clean s.pieces) (stale : Bytes) :
    Filled s (State.read false maxLinea { s with buf := stale, i := 0 }) stale := by
  simp only [State.read]
  cases pieces : s.pieces with
  | nil =>
    refine ⟨⟨[], by simp [pieces], by simp, by simp, ?_⟩, ?_, fun _ => rfl, rfl, rfl, rfl⟩
    · funext k
      simp [Bytes.copy]
    · simp [Clean]
  | cons piece rest =>
    obtain ⟨nonempty, nulFree⟩ := clean piece (pieces ▸ List.mem_cons_self)
    have after : Clean rest := fun other mem => clean other (pieces ▸ List.mem_cons_of_mem _ mem)
    refine ⟨⟨piece.take maxLinea, ?_, rfl, ?_, ?_⟩, ?_, ?_, rfl, rfl, rfl⟩
    · simp only [pieces, List.flatten_cons]
      split
      next fits => rw [List.take_of_length_le fits]
      next => rw [List.flatten_cons, ← List.append_assoc, List.take_append_drop]
    · exact List.length_take_le _ _
    · funext k
      simp only [Bytes.copy]
      split
      next range =>
        have inside : k - 0 < (piece.take maxLinea).length := by omega
        rw [List.getD_eq_getElem _ _ inside, List.getElem_take, List.getD_eq_getElem]
      next => rfl
    · intro other mem
      dsimp only at mem
      split at mem
      next => exact after other mem
      next long =>
        obtain rfl | mem := List.mem_cons.mp mem
        · refine ⟨?_, fun nul => nulFree (List.mem_of_mem_drop nul)⟩
          simpa [List.drop_eq_nil_iff] using long
        · exact after other mem
    · intro none
      have none : (piece.take maxLinea).length = 0 := Int.ofNat.inj none
      rw [List.length_eq_zero_iff, List.take_eq_nil_iff] at none
      exact absurd (none.resolve_left (by decide)) nonempty

/-- What a run without NULs in memory leaves: nothing has been run, and there was no newline. -/
structure Silent (script : List UInt8) (s s' : State) : Prop where
  commands : s'.commands = s.commands
  mallocs : s.mallocs ≤ s'.mallocs
  unbroken : newline ∉ script

variable {memory : Nat → Bytes}

/-- One round of the outer loop, up to the end of the inner loop. -/
theorem round_noisy {taken : List UInt8} (fuel : Nat) (nulFree : 0 ∉ taken) (small : taken.length ≤ maxLinea)
    (leidos : s.leidos = taken.length) (start : s.i = 0) {stale : Bytes} (noisy : Noisy stale)
    (buf : s.buf = stale.copy 0 (fun k => taken.getD k 0) taken.length) (fresh : Noisy s.comando) :
    Meets (lineLoop delim fails fuel s) fun s' => s' = { s with i := s'.i } ∧ newline ∉ taken := by
  apply (lineLoop_noisy fuel (buf ▸ noisy.copy nulFree (le_refl _)) fresh).mono
  rintro s' ⟨same, unbroken⟩
  refine ⟨same, fun mem => ?_⟩
  obtain ⟨k, inside, found⟩ := List.getElem_of_mem mem
  apply unbroken k (by omega) (by omega) (by omega)
  simp [buf, Bytes.copy, inside, found]

theorem Clean.nulFree {pieces : List (List UInt8)} (clean : Clean pieces) : 0 ∉ pieces.flatten := by
  rw [List.mem_flatten]
  rintro ⟨piece, mem, nul⟩
  exact (clean piece mem).2 nul

theorem readLoop_noisy (source : Source) (works : source.fails = false) (fuel : Nat) (clean : Clean s.pieces)
    (noisy : ∀ k, s.mallocs ≤ k → Noisy (memory k)) (ended : s.leidos = 0 → s.pieces = []) :
    Meets (readLoop memory delim source fuel s) fun s' => Silent s.pieces.flatten s s' := by
  induction fuel generalizing s with
  | zero => exact Meets.stop s (by decide)
  | succ fuel ih =>
    simp only [readLoop]
    split
    next =>
      rw [works]
      have filled := read_filled clean (memory s.mallocs)
      generalize State.read false maxLinea { s with buf := memory s.mallocs, i := 0 } = r at filled
      obtain ⟨taken, script, leidos, small, buf⟩ := filled.script
      have nulFree : 0 ∉ taken := fun nul => clean.nulFree (script ▸ List.mem_append_left _ nul)
      rw [if_neg (by omega)]
      have mallocs := filled.mallocs
      apply (round_noisy (s := { r with comando := memory (r.mallocs + 1), mallocs := r.mallocs + 2 }) fuel nulFree
        small leidos filled.start (noisy s.mallocs (le_refl _)) buf (noisy (r.mallocs + 1) (by omega))).bind
      rintro s' ⟨same, unbroken⟩
      have leidos' : s'.leidos = r.leidos := by rw [same]
      have pieces' : s'.pieces = r.pieces := by rw [same]
      have mallocs' : s'.mallocs = r.mallocs + 2 := by rw [same]
      have commands' : s'.commands = r.commands := by rw [same]
      apply (ih (s := s') (pieces' ▸ filled.clean) (fun k low => noisy k (by omega)) ?_).mono
      · rintro last ⟨commands, later, rest⟩
        rw [pieces'] at rest
        refine ⟨by rw [commands, commands', filled.commands], by omega, ?_⟩
        rw [script, List.mem_append]
        exact not_or.mpr ⟨unbroken, rest⟩
      · intro zero
        -- nothing was read, so nothing is left
        exact pieces'.trans (filled.more (leidos'.symm.trans zero))
    next finished =>
      have empty : s.pieces = [] := ended (not_not.mp finished)
      exact ⟨rfl, le_refl _, by simp [empty]⟩

theorem fileLoop_noisy (sources : List Source) (fuel : Nat)
    (readable : ∀ source ∈ sources, source.fails = false ∧ Clean source.pieces)
    (noisy : ∀ k, s.mallocs ≤ k → Noisy (memory k)) :
    Meets (fileLoop memory delim fuel sources s) fun s' => s'.commands = s.commands ∧
      ∀ source ∈ sources, newline ∉ source.pieces.flatten := by
  induction sources generalizing s with
  | nil => exact ⟨rfl, by simp⟩
  | cons source sources ih =>
    obtain ⟨works, clean⟩ := readable source (.head _)
    apply (readLoop_noisy (s := { s with pieces := source.pieces, leidos := 1 }) source works fuel clean noisy
      (by simp)).bind
    rintro s' ⟨commands, later, unbroken⟩
    apply (ih (s := s') (fun other mem => readable other (.tail _ mem))
      fun k low => noisy k (later.trans low)).mono
    rintro last ⟨commands', rest⟩
    exact ⟨commands'.trans commands, List.forall_mem_cons.mpr ⟨unbroken, rest⟩⟩

end Noisy

/-! ## One buffer of NULs

Where only the last piece of a script without newlines is read into memory that was 0, that piece
is run, whatever was before it.
-/

section Quiet

variable {delim : UInt8} {s : State}

theorem strlenFrom_of_first {n : Nat} (before : ∀ k < n, buf k ≠ 0) (found : buf n = 0)
    (room i : Nat) (low : i ≤ n) (inside : n < i + room) : strlenFrom buf room i = some n := by
  induction room generalizing i with
  | zero => omega
  | succ room ih =>
    rw [strlenFrom]
    obtain rfl | below := Nat.eq_or_lt_of_le low
    · rw [if_pos found]
    · rw [if_neg (before i below)]
      exact ih (i + 1) below (by omega)

/-- The buffer holds the bytes and nothing behind them. -/
def Holding (buf : Bytes) (bytes : List UInt8) : Prop :=
  buf = (Bytes.fill 0).copy 0 (fun k => bytes.getD k 0) bytes.length

section

variable {buf : Bytes} {bytes : List UInt8} (holding : Holding buf bytes)

include holding

theorem Holding.at (k : Nat) : buf k = bytes.getD k 0 := by
  rw [holding]
  simp only [Bytes.copy, Bytes.fill, Nat.zero_le, true_and, Nat.zero_add, Nat.sub_zero]
  split
  next => rfl
  next outside => rw [List.getD_eq_default _ _ (by omega)]

theorem Holding.strlen (nulFree : 0 ∉ bytes) (small : bytes.length < maxLinea) : strlen buf = some bytes.length := by
  apply strlenFrom_of_first _ _ _ _ (Nat.zero_le _) (by omega)
  · intro k inside nul
    rw [holding.at, List.getD_eq_getElem _ _ inside] at nul
    exact nulFree (nul ▸ List.getElem_mem inside)
  · rw [holding.at, List.getD_eq_default _ _ (le_refl _)]

theorem Holding.slice : buf.slice 0 bytes.length = bytes := by
  apply List.ext_getElem
  · simp [Bytes.slice]
  · intro k _ inside
    simp [Bytes.slice, holding.at, inside]

end

theorem runLine_holding (holding : Holding s.buf bytes) (nulFree : 0 ∉ bytes) (small : bytes.length < maxLinea) :
    Meets (runLine s s.buf) fun res => res.1 = { s with commands := s.commands ++ [bytes] } := by
  simp only [runLine, holding.strlen nulFree small, holding.slice]
  split
  next => exact Meets.stop _ (by simp)
  next =>
    split
    next => exact Meets.stop _ (by simp)
    next => exact rfl

/-- The last piece has been run after these commands. -/
structure Ran (commands : List (List UInt8)) (bytes : List UInt8) (mallocs : Nat) (s : State) : Prop where
  commands : s.commands = commands ++ [bytes]
  leidos : s.leidos = 0
  mallocs : s.mallocs = mallocs

theorem refill_holding (holding : Holding s.buf bytes) (nulFree : 0 ∉ bytes)
    (small : bytes.length < maxLinea) (finished : s.pieces = []) (reached : s.i = bytes.length) :
    Meets (refill false s) (Ran s.commands bytes s.mallocs) := by
  have nul : s.buf s.i = 0 := by rw [holding.at, List.getD_eq_default _ _ (by omega)]
  have ended : s.read false (maxLinea - s.i) = { s with leidos := 0 } := by simp [State.read, finished]
  simp only [refill, if_pos (show s.i < maxLinea by omega), if_pos nul, ended, if_pos]
  apply (runLine_holding (s := { s with leidos := 0 }) holding nulFree small).bind
  rintro ⟨_, buf⟩ rfl
  exact ⟨rfl, rfl, rfl⟩

theorem lineLoop_over (fuel : Nat) (ended : s.leidos = 0) : Meets (lineLoop delim fails fuel s) (· = s) := by
  cases fuel with
  | zero => exact Meets.stop s (by decide)
  | succ fuel =>
    rw [lineLoop, if_neg (by omega)]
    exact rfl

theorem lineLoop_holding (fuel : Nat) (holding : Holding s.buf bytes) (nulFree : 0 ∉ bytes)
    (unbroken : newline ∉ bytes) (small : bytes.length < maxLinea) (leidos : s.leidos = bytes.length)
    (inside : s.i < bytes.length) (finished : s.pieces = []) :
    Meets (lineLoop delim false fuel s) (Ran s.commands bytes s.mallocs) := by
  induction fuel generalizing s with
  | zero => exact Meets.stop s (by decide)
  | succ fuel ih =>
    have byte : s.buf s.i = bytes[s.i] := by rw [holding.at, List.getD_eq_getElem]
    have other : s.buf s.i ≠ 0 := fun nul => nulFree (nul ▸ byte ▸ List.getElem_mem inside)
    have ordinary : s.buf s.i ≠ newline := fun found => unbroken (found ▸ byte ▸ List.getElem_mem inside)
    simp only [lineLoop]
    rw [if_pos ⟨by omega, by omega, other⟩, byteStep, if_neg ordinary, ok_bind]
    obtain reached | below : s.i + 1 = bytes.length ∨ s.i + 1 < bytes.length := by omega
    · -- the NUL behind the last byte: `read` finds the end of the file
      apply (refill_holding (s := { s with i := s.i + 1 }) holding nulFree small finished reached).bind
      intro s' ran
      exact (lineLoop_over fuel ran.leidos).mono fun _ same => same ▸ ran
    · have next : s.buf (s.i + 1) ≠ 0 := by
        rw [holding.at, List.getD_eq_getElem _ _ below]
        exact fun nul => nulFree (nul ▸ List.getElem_mem below)
      have kept : refill false { s with i := s.i + 1 } = .ok { s with i := s.i + 1 } := by
        simp only [refill, if_pos (show s.i + 1 < maxLinea by omega), if_neg next]
      rw [kept, ok_bind]
      exact ih (s := { s with i := s.i + 1 }) holding leidos below finished

variable {memory : Nat → Bytes}

/-- A piece that fits into the buffer, and all of it is read. -/
theorem read_piece {piece : List UInt8} {pieces : List (List UInt8)} (there : s.pieces = piece :: pieces)
    (small : piece.length < maxLinea) (stale : Bytes) : State.read false maxLinea { s with buf := stale, i := 0 } =
      { s with
        buf := stale.copy 0 (fun k => piece.getD k 0) piece.length
        i := 0
        leidos := piece.length
        pieces := pieces } := by
  simp only [State.read, there, List.take_of_length_le small.le, if_pos small.le]

theorem readLoop_quiet (source : Source) (works : source.fails = false) {last : List UInt8}
    (pieces : List (List UInt8)) (fuel : Nat) (there : s.pieces = pieces ++ [last]) (clean : Clean (pieces ++ [last]))
    (small : ∀ piece ∈ pieces ++ [last], piece.length < maxLinea) (unbroken : newline ∉ last)
    (start : s.leidos ≠ 0) (quiet : memory (s.mallocs + 2 * pieces.length) = Bytes.fill 0)
    (noisy : ∀ k, k ≠ s.mallocs + 2 * pieces.length → Noisy (memory k)) :
    Meets (readLoop memory delim source fuel s) fun s' => s'.commands = s.commands ++ [last] ∧
      s.mallocs + 2 * pieces.length < s'.mallocs := by
  induction fuel generalizing s pieces with
  | zero => exact Meets.stop s (by decide)
  | succ fuel ih =>
    simp only [readLoop, if_pos start, works]
    cases pieces with
    | nil =>
      obtain ⟨nonempty, nulFree⟩ := clean last (by simp)
      have short := small last (by simp)
      have holding : Holding ((memory s.mallocs).copy 0 (fun k => last.getD k 0) last.length) last :=
        congrArg (fun stale : Bytes => stale.copy 0 (fun k => last.getD k 0) last.length) quiet
      rw [read_piece (show s.pieces = [last] from there) short, if_neg (show ((last.length : Int) ≠ -1) by omega)]
      apply (lineLoop_holding fuel holding nulFree unbroken short rfl (List.length_pos_iff.mpr nonempty) rfl).bind
      rintro s' ⟨commands, leidos, mallocs⟩
      cases fuel with
      | zero => exact Meets.stop s' (by decide)
      | succ fuel =>
        rw [readLoop, if_neg (not_not.mpr leidos)]
        exact ⟨commands, by simp [mallocs]⟩
    | cons piece pieces =>
      have mem : piece ∈ piece :: pieces ++ [last] := by simp
      have short := small piece mem
      rw [read_piece there short, if_neg (show ((piece.length : Int) ≠ -1) by omega)]
      apply (round_noisy fuel (clean piece mem).2 short.le rfl rfl (noisy s.mallocs (by simp)) rfl
        (noisy (s.mallocs + 1) (by simp; omega))).bind
      rintro s' ⟨same, -⟩
      have leidos : s'.leidos ≠ 0 := by
        rw [same]
        simpa using (clean piece mem).1
      have mallocs : s'.mallocs = s.mallocs + 2 := by rw [same]
      have target : s'.mallocs + 2 * pieces.length = s.mallocs + 2 * (piece :: pieces).length := by
        rw [mallocs, List.length_cons]
        omega
      apply (ih (s := s') pieces (by rw [same]; rfl) (fun other inside => clean other (.tail _ inside))
        (fun other inside => small other (.tail _ inside)) leidos (target ▸ quiet) (target ▸ noisy)).mono
      rintro last' ⟨commands, later⟩
      exact ⟨by rw [commands, same], by omega⟩

/-- Memory of NULs where one buffer is allocated, and without NULs elsewhere. -/
def oneQuiet (target : Nat) : Nat → Bytes := fun k => Bytes.fill (if k = target then 0 else 120)

theorem oneQuiet_noisy {target k : Nat} (other : k ≠ target) : Noisy (oneQuiet target k) := by
  intro i _
  simp [oneQuiet, other, Bytes.fill]

theorem readLoop_empty (source : Source) (works : source.fails = false) (fuel : Nat) (finished : s.pieces = [])
    (start : s.leidos ≠ 0) :
    Meets (readLoop memory delim source fuel s) fun s' => s'.commands = s.commands ∧ s'.mallocs = s.mallocs + 2 := by
  cases fuel with
  | zero => exact Meets.stop s (by decide)
  | succ fuel =>
    simp only [readLoop, if_pos start, works, State.read, finished, Bool.false_eq_true, if_false]
    rw [if_neg (by decide)]
    apply (lineLoop_over fuel rfl).bind
    rintro _ rfl
    cases fuel with
    | zero => exact Meets.stop _ (by decide)
    | succ fuel => exact ⟨rfl, rfl⟩

/-- If there is something in some file, then there is memory with which some of it is run. -/
theorem fileLoop_quiet (delim : UInt8) (sources : List Source)
    (readable : ∀ source ∈ sources, source.fails = false ∧ Clean source.pieces)
    (small : ∀ source ∈ sources, ∀ piece ∈ source.pieces, piece.length < maxLinea)
    (unbroken : ∀ source ∈ sources, newline ∉ source.pieces.flatten)
    (nonempty : ∃ source ∈ sources, source.pieces ≠ []) (mallocs : Nat) :
    ∃ target, ∀ fuel s, s.mallocs = mallocs →
      Meets (fileLoop (oneQuiet target) delim fuel sources s) fun s' => s'.commands ≠ s.commands := by
  induction sources generalizing mallocs with
  | nil => simp at nonempty
  | cons source sources ih =>
    obtain ⟨works, clean⟩ := readable source (.head _)
    have readable' := fun other mem => readable other (List.mem_cons_of_mem source mem)
    obtain empty | ⟨pieces, last, there⟩ := List.eq_nil_or_concat' source.pieces
    · -- nothing in this file, so the memory is for one of those after it
      obtain ⟨target, later⟩ := ih readable'
        (fun other mem => small other (List.mem_cons_of_mem source mem))
        (fun other mem => unbroken other (List.mem_cons_of_mem source mem)) (by simpa [empty] using nonempty)
        (mallocs + 2)
      refine ⟨target, fun fuel s before => ?_⟩
      apply (readLoop_empty (s := { s with pieces := source.pieces, leidos := 1 }) source works fuel empty
        (by simp)).bind
      rintro s' ⟨commands, after⟩
      apply (later fuel s' (after.trans (congrArg (· + 2) before))).mono
      intro s'' ne
      rwa [commands] at ne
    · refine ⟨mallocs + 2 * pieces.length, fun fuel s before => ?_⟩
      have fresh : newline ∉ last := by
        intro mem
        exact unbroken source (.head _) (List.mem_flatten.mpr ⟨last, by simp [there], mem⟩)
      apply (readLoop_quiet (s := { s with pieces := source.pieces, leidos := 1 }) source works pieces fuel there
        (there ▸ clean) (there ▸ small source (.head _)) fresh (by simp) (by simp [oneQuiet, before])
        fun k other => oneQuiet_noisy (before ▸ other)).bind
      rintro s' ⟨commands, after⟩
      apply (fileLoop_noisy sources fuel readable' fun k low => oneQuiet_noisy ?_).mono
      · rintro s'' ⟨commands', -⟩ same
        rw [commands', commands] at same
        simp at same
      · simp only [before] at after
        omega

end Quiet

/-! ## Scripts -/

def Source.script (source : Source) : List UInt8 := source.pieces.flatten

/-- A file that can be read and holds lines without NULs that are shorter than the buffer. -/
structure Source.Readable (source : Source) : Prop where
  works : source.fails = false
  clean : Clean source.pieces
  short : ∀ line ∈ lines source.script, line.length < maxLinea

theorem lines_of_unbroken {script : List UInt8} (unbroken : newline ∉ script) (nonempty : script ≠ []) :
    lines script = [script] := by
  have whole : script.splitOn newline = [script] := List.splitOn_eq_singleton unbroken
  simp [lines, whole, nonempty]

theorem Source.Readable.small {source : Source} (readable : source.Readable) (unbroken : newline ∉ source.script)
    (piece : List UInt8) (mem : piece ∈ source.pieces) : piece.length < maxLinea := by
  have part : piece.length ≤ source.script.length := (List.sublist_flatten_of_mem mem).length_le
  have nonempty : source.script ≠ [] := by
    intro empty
    exact (readable.clean piece mem).1 (List.flatten_eq_nil_iff.mp empty piece mem)
  have short := readable.short source.script (by simp [lines_of_unbroken unbroken nonempty])
  omega

theorem Source.Readable.pieces_eq_nil {source : Source} (readable : source.Readable) :
    source.script = [] ↔ source.pieces = [] := by
  constructor
  · intro empty
    rw [List.eq_nil_iff_forall_not_mem]
    intro piece mem
    exact (readable.clean piece mem).1 (List.flatten_eq_nil_iff.mp empty piece mem)
  · intro empty
    rw [Source.script, empty, List.flatten_nil]

theorem fileLoop_empty (memory : Nat → Bytes) (delim : UInt8) (sources : List Source)
    (empty : ∀ source ∈ sources, source.fails = false ∧ source.pieces = []) (s : State) :
    ∃ s', fileLoop memory delim 2 sources s = .ok s' ∧ s'.commands = s.commands := by
  induction sources generalizing s with
  | nil => exact ⟨s, rfl, rfl⟩
  | cons source sources ih =>
    obtain ⟨works, finished⟩ := empty source (.head _)
    obtain ⟨s', ran, commands⟩ := ih
      (fun other mem => empty other (List.mem_cons_of_mem source mem))
      { s with
        buf := memory s.mallocs, comando := memory (s.mallocs + 1), i := 0, leidos := 0, pieces := [],
        mallocs := s.mallocs + 2 }
    refine ⟨s', ?_, commands⟩
    rw [fileLoop, ← ran]
    simp [readLoop, lineLoop, State.read, finished, works, ok_bind]

/-- Whatever memory `malloc` returns, the commands of the scripts are run and no others: this holds
if there is nothing in the scripts, and only then. -/
theorem src_runs_script_iff (opts : List Opt) (delim : UInt8) (stdin : Source) (files : List Source)
    (valid : getopt opts 37 = .ok delim) (readable : ∀ source ∈ inputs stdin files, source.Readable) :
    (∀ memory, ∃ fuel, runSrc fuel memory opts stdin files =
      ⟨(inputs stdin files).flatMap fun source => scriptCommands delim source.script, .done⟩) ↔
    ∀ source ∈ inputs stdin files, source.script = [] := by
  have files' : ∀ source ∈ inputs stdin files, source.fails = false ∧ Clean source.pieces :=
    fun source mem => ⟨(readable source mem).works, (readable source mem).clean⟩
  simp only [runSrc, valid]
  constructor
  · intro right
    -- memory without NULs: nothing is run, so there is nothing to run and no newline
    obtain ⟨fuel, ran⟩ := right fun _ => Bytes.fill 120
    obtain ⟨s, ⟨silent, unbroken⟩, commands⟩ := (fileLoop_noisy _ fuel files' fun _ _ _ _ =>
      show (120 : UInt8) ≠ 0 by decide).of_done ran
    -- memory of NULs for the last piece of a script: that piece is run
    by_contra! nonempty
    obtain ⟨source, mem, nonempty⟩ := nonempty
    obtain ⟨target, runs⟩ := fileLoop_quiet delim _ files'
      (fun source mem => (readable source mem).small (unbroken source mem)) unbroken
      ⟨source, mem, fun empty => nonempty ((readable source mem).pieces_eq_nil.mpr empty)⟩ 0
    obtain ⟨fuel, ran⟩ := right (oneQuiet target)
    obtain ⟨s', ne, commands'⟩ := (runs fuel _ rfl).of_done ran
    exact ne (commands'.trans (commands.symm.trans silent))
  · intro empty memory
    obtain ⟨s, ran, commands⟩ := fileLoop_empty memory delim (inputs stdin files)
      (fun source mem => ⟨(readable source mem).works,
        (readable source mem).pieces_eq_nil.mp (empty source mem)⟩) ⟨memory 0, memory 1, 0, 1, [], 0, []⟩
    refine ⟨2, ?_⟩
    have nothing : ((inputs stdin files).flatMap fun source => scriptCommands delim source.script) = [] := by
      rw [List.flatMap_eq_nil_iff]
      intro source mem
      rw [empty source mem]
      rfl
    rw [ran, nothing, outcome, commands]

/-- One line that ends in a newline is not run right with all memory. -/
theorem src_runs_script_one_line : ∃ (stdin : Source), stdin.script = [108, 115, 10] ∧
    scriptCommands 37 stdin.script = [[108, 115]] ∧
    ¬ ∀ memory, ∃ fuel, runSrc fuel memory [] stdin [] = ⟨[[108, 115]], .done⟩ := by
  have readable : ∀ source ∈ inputs ⟨"", [[108, 115], [10]], false⟩ [], source.Readable := by
    intro source mem
    obtain rfl := List.mem_singleton.mp mem
    exact ⟨rfl, by unfold Clean; decide, by decide⟩
  refine ⟨⟨"", [[108, 115], [10]], false⟩, rfl, by decide, fun right => ?_⟩
  have empty := (src_runs_script_iff [] 37 _ [] rfl readable).mp right
  exact absurd (empty _ (.head _)) (by decide)

/-- A script of two lines, the second shorter than the first: with memory that was 0, `ls` becomes
`lsho`, and after the last newline an empty command is run. -/
theorem src_stale_tail : ∃ (fuel : Nat) (memory : Nat → Bytes) (stdin : Source), (∀ k i, memory k i = 0) ∧
    stdin.pieces = [[101, 99, 104, 111, 32, 97, 98, 99, 10, 108, 115, 10]] ∧
    scriptCommands 37 stdin.pieces.flatten = [[101, 99, 104, 111, 32, 97, 98, 99], [108, 115]] ∧
    runSrc fuel memory [] stdin [] =
      ⟨[[101, 99, 104, 111, 32, 97, 98, 99], [108, 115, 104, 111], []], .done⟩ :=
  ⟨20, fun _ _ => 0, ⟨"", [[101, 99, 104, 111, 32, 97, 98, 99, 10, 108, 115, 10]], false⟩, fun _ _ => rfl, rfl,
    by decide, by decide +kernel⟩

end Xv6Simplesh.Shell.Src
