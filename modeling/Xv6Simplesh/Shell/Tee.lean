import Mathlib.Data.List.Basic
import Xv6Simplesh.Library.Bytes
import Xv6Simplesh.Param

/-! # The builtin `tee` of the 2016-17 shell

`run_tee` copies its input to the standard output piece by piece, and opens and writes its files
in a loop that runs `optind` up to `argc`.  That loop is inside the loop over the pieces and
`optind` is not set back, so the files get the first piece only.  At the end a line is appended
to a log in the home directory.
-/

namespace Xv6Simplesh.Shell.Old.Tee

open Library Function

/-- What `getopt` returns. -/
inductive Opt where
  | a
  | h
  /-- `'?'`. -/
  | unknown
deriving DecidableEq, Repr

def utf8 (text : String) : List UInt8 := text.toUTF8.data.toList

def usage : String :=
  "Uso: tee [-h] [-a] [FICHERO] : \n\tCopia stdin a cada FICHERO y a stdout.\n\tOpciones:\n" ++
  "\t-a Añade al final de cada FICHERO\n\t-h help\n"

structure World where
  /-- The contents of the files that exist, by their names. -/
  files : String → Option (List UInt8)
  stdout : List UInt8

/-- What `run_tee` asks the system for when it writes the log. -/
structure Moment where
  /-- The local time as `strftime` writes it with `"%F %T"`; `none` where `localtime` fails. -/
  clock : Option String
  pid : Int
  euid : Int
  /-- The bytes that `buf` has on the stack. -/
  stack : Bytes

section Tee

variable (home : String) (opens : String → Bool)

/-- `ruta`. -/
def logName : String := home ++ "/.tee.log"

/-- The contents of a file in which `buffer` is written after it is opened with `O_CREAT`, and
with `O_APPEND` if `aflag` is set. -/
def written (aflag : Bool) (buffer previous : List UInt8) : List UInt8 :=
  if aflag then previous ++ buffer else splice previous 0 buffer

/-- One round of the loop over the files. -/
def writeFile (aflag : Bool) (buffer : List UInt8) (files : String → Option (List UInt8)) (name : String) :
    String → Option (List UInt8) :=
  if opens name then update files name (some (written aflag buffer ((files name).getD []))) else files

/-- The loop over the input, with the files from `optind` on, `leidos` and `numficheros`. -/
def readLoop (aflag : Bool) : List (List UInt8) → List String → World → Int → Int → World × Int × Int
  | [], _, world, leidos, numficheros => (world, leidos, numficheros)
  | buffer :: pieces, names, world, leidos, numficheros =>
    if buffer.length > 0 then
      -- the loop over the files leaves `optind` at `argc`
      readLoop aflag pieces []
        ⟨names.foldl (writeFile opens aflag buffer) world.files, world.stdout ++ buffer⟩
        (int (leidos + buffer.length)) (int (numficheros + names.length))
    else (world, leidos, numficheros)

/-- The 64 bytes of `buf` that are written to the log. -/
def logLine (moment : Moment) (clock : String) (leidos numficheros : Int) : List UInt8 :=
  let text := utf8 (clock ++ " PID: " ++ toString moment.pid ++ " EUID: " ++ toString moment.euid ++ " " ++
    toString leidos ++ " leidos " ++ toString numficheros ++ " ficheros\n")
  Bytes.slice (fun i => (text ++ [0]).getD i (moment.stack i)) 0 64

/-- The part of `run_tee` behind the loop. -/
def appendLog (moment : Moment) (leidos numficheros : Int) (world : World) : World :=
  match moment.clock with
  | none => world
  | some clock =>
    { world with files := writeFile opens true (logLine moment clock leidos numficheros) world.files (logName home) }

/-- `run_tee` with the options, the files named after them and the pieces in which the standard
input is read. -/
def runTee (moment : Moment) (opts : List Opt) (names : List String) (pieces : List (List UInt8)) (world : World) :
    World :=
  if .h ∈ opts then { world with stdout := world.stdout ++ utf8 usage }
  else
    let (world, leidos, numficheros) := readLoop opens (decide (.a ∈ opts)) pieces names world 0 0
    appendLog home opens moment leidos numficheros world

end Tee

variable {home : String} {opens : String → Bool} {aflag : Bool} {names : List String}

theorem foldl_writeFile {buffer : List UInt8} (distinct : names.Nodup) (readable : ∀ name ∈ names, opens name = true)
    (files : String → Option (List UInt8)) (name : String) :
    names.foldl (writeFile opens aflag buffer) files name =
      if name ∈ names then some (written aflag buffer ((files name).getD [])) else files name := by
  induction names generalizing files with
  | nil => simp
  | cons first names ih =>
    obtain ⟨absent, distinct⟩ := List.nodup_cons.mp distinct
    rw [List.foldl_cons, ih distinct fun other mem => readable other (List.mem_cons_of_mem _ mem),
      writeFile, if_pos (readable first (.head _))]
    by_cases same : name = first
    · subst same
      simp [absent]
    · simp [same]

/-- After the first piece the loop only writes to the standard output. -/
theorem readLoop_nil {pieces : List (List UInt8)} (nonempty : ∀ piece ∈ pieces, 1 ≤ piece.length) (world : World)
    (leidos numficheros : Int) :
    (readLoop opens aflag pieces [] world leidos numficheros).1 =
      ⟨world.files, world.stdout ++ pieces.flatten⟩ := by
  induction pieces generalizing world leidos numficheros with
  | nil => simp [readLoop]
  | cons piece pieces ih =>
    have pos : piece.length > 0 := nonempty piece (.head _)
    rw [readLoop, if_pos pos,
      ih fun other mem => nonempty other (.tail _ mem)]
    simp

/-- The files and the standard output after the loop over the input. -/
def copied (opens : String → Bool) (aflag : Bool) (names : List String) (pieces : List (List UInt8)) (world : World) :
    World :=
  ⟨if pieces = [] then world.files else names.foldl (writeFile opens aflag (pieces.headD [])) world.files,
    world.stdout ++ pieces.flatten⟩

theorem readLoop_copied {pieces : List (List UInt8)} (nonempty : ∀ piece ∈ pieces, 1 ≤ piece.length) (world : World)
    (leidos numficheros : Int) :
    (readLoop opens aflag pieces names world leidos numficheros).1 = copied opens aflag names pieces world := by
  cases pieces with
  | nil => simp [readLoop, copied]
  | cons piece pieces =>
    have pos : piece.length > 0 := nonempty piece (.head _)
    rw [readLoop, if_pos pos, readLoop_nil fun other mem => nonempty other (List.mem_cons_of_mem _ mem)]
    simp [copied]

theorem utf8_append (front back : String) : utf8 (front ++ back) = utf8 front ++ utf8 back := by
  simp [utf8]

theorem head_logLine (moment : Moment) (clock : String) (leidos numficheros : Int) (some : utf8 clock ≠ []) :
    (logLine moment clock leidos numficheros).head? = (utf8 clock).head? := by
  obtain ⟨first, more, starts⟩ := List.exists_cons_of_ne_nil some
  simp only [logLine, utf8_append, starts, Bytes.slice, List.range_succ_eq_map, List.map_cons, List.head?_cons]
  simp

/-- The standard output gets the whole input, and so does each file: behind its previous contents
with `-a`, and in their place without. -/
def CopiesInput (aflag : Bool) (names : List String) (input : List UInt8) (before after : World) : Prop :=
  after.stdout = before.stdout ++ input ∧
    ∀ name ∈ names, after.files name = some (if aflag then (before.files name).getD [] ++ input else input)

/-- A file gets what it should if and only if what is behind the first piece, in the file or in
the input, is the same. -/
theorem written_iff (first rest previous : List UInt8) :
    written aflag first previous = (if aflag then previous ++ (first ++ rest) else first ++ rest) ↔
      (if aflag then [] else previous.drop first.length) = rest := by
  cases aflag with
  | false => simp [written, splice]
  | true => simp [written, eq_comm]

section Copies

variable {opts : List Opt} {pieces : List (List UInt8)} {world : World} {name : String}

theorem stdout_appendLog (moment : Moment) (leidos numficheros : Int) :
    (appendLog home opens moment leidos numficheros world).stdout = world.stdout := by
  rw [appendLog]
  split <;> rfl

theorem files_appendLog_of_ne (moment : Moment) (leidos numficheros : Int) (other : name ≠ logName home) :
    (appendLog home opens moment leidos numficheros world).files name = world.files name := by
  rw [appendLog]
  split
  · rfl
  · simp only [writeFile]
    split
    · exact update_of_ne other ..
    · rfl

theorem files_appendLog_ne (leidos numficheros : Int) (openable : opens (logName home) = true) :
    ∃ moment moment', (appendLog home opens moment leidos numficheros world).files (logName home) ≠
      (appendLog home opens moment' leidos numficheros world).files (logName home) := by
  refine ⟨⟨some "1999-12-31 23:59:59", 2, 0, Bytes.fill 0⟩, ⟨some "2000-01-01 00:00:00", 2, 0, Bytes.fill 0⟩, ?_⟩
  intro same
  simp only [appendLog, writeFile, openable, if_true, update_self, Option.some.injEq, written,
    List.append_cancel_left_eq] at same
  have first := congrArg List.head? same
  rw [head_logLine _ _ _ _ (by decide), head_logLine _ _ _ _ (by decide)] at first
  exact absurd first (by decide)

/-- What is behind the first piece is the same in each file as in the input: with `-a` nothing,
without it what the file had there before.  An empty input creates no file. -/
def ReadAtOnce (home : String) (aflag : Bool) (names : List String) (pieces : List (List UInt8)) (before : World) :
    Prop :=
  ∀ name ∈ names, name ≠ logName home ∧ (pieces = [] → before.files name ≠ none) ∧
    (if aflag then [] else ((before.files name).getD []).drop (pieces.headD []).length) = pieces.tail.flatten

/-- A file that the loop has written holds what it should if and only if the first piece is all
that it needs. -/
theorem files_copied_iff (distinct : names.Nodup) (openable : ∀ name ∈ names, opens name = true)
    (mem : name ∈ names) :
    (copied opens aflag names pieces world).files name =
        some (if aflag then (world.files name).getD [] ++ pieces.flatten else pieces.flatten) ↔
      (pieces = [] → world.files name ≠ none) ∧
        (if aflag then [] else ((world.files name).getD []).drop (pieces.headD []).length) =
          pieces.tail.flatten := by
  cases pieces with
  | nil => cases previous : world.files name <;> cases aflag <;> simp [copied, previous]
  | cons first rest =>
    simp only [copied, reduceCtorEq, if_false, foldl_writeFile distinct openable, mem, if_true, List.headD_cons,
      List.flatten_cons, Option.some.injEq, List.tail_cons, false_implies, true_and]
    exact written_iff first rest.flatten ((world.files name).getD [])

/-- However the log is written, `tee` copies its input to the standard output and to all of its
files, if and only if the first piece is all that the files need. -/
theorem tee_iff (home : String) (opens : String → Bool) (opts : List Opt) (names : List String)
    (pieces : List (List UInt8)) (world : World) (help : .h ∉ opts) (distinct : names.Nodup)
    (openable : ∀ name ∈ names, opens name = true) (nonempty : ∀ piece ∈ pieces, 1 ≤ piece.length) :
    (∀ moment, CopiesInput (decide (.a ∈ opts)) names pieces.flatten world
        (runTee home opens moment opts names pieces world)) ↔
      ReadAtOnce home (decide (.a ∈ opts)) names pieces world := by
  -- the numbers in the log are the same at all times
  obtain ⟨leidos, numficheros, ends⟩ : ∃ leidos numficheros, ∀ moment,
      runTee home opens moment opts names pieces world =
        appendLog home opens moment leidos numficheros (copied opens (decide (.a ∈ opts)) names pieces world) := by
    refine ⟨(readLoop opens (decide (.a ∈ opts)) pieces names world 0 0).2.1,
      (readLoop opens (decide (.a ∈ opts)) pieces names world 0 0).2.2, fun moment => ?_⟩
    rw [runTee, if_neg help, ← readLoop_copied nonempty]
  simp only [ends]
  constructor
  · intro copies name mem
    have other : name ≠ logName home := by
      rintro rfl
      obtain ⟨moment, moment', ne⟩ := files_appendLog_ne leidos numficheros (openable _ mem)
      exact ne (((copies moment).2 _ mem).trans ((copies moment').2 _ mem).symm)
    have held := (copies ⟨none, 2, 0, Bytes.fill 0⟩).2 name mem
    rw [files_appendLog_of_ne _ _ _ other, files_copied_iff distinct openable mem] at held
    exact ⟨other, held⟩
  · intro once moment
    constructor
    · exact stdout_appendLog ..
    · intro name mem
      obtain ⟨other, needs⟩ := once name mem
      rw [files_appendLog_of_ne _ _ _ other, files_copied_iff distinct openable mem]
      exact needs

/-- Two files and an input in two pieces, of which the files have the second already. -/
theorem tee_iff_two : ∃ home opens opts names pieces world, opts = [] ∧ names = ["f", "g"] ∧
    pieces = [[49, 10], [50, 10]] ∧ world.files "f" = some [48, 10, 50, 10] ∧
    ∀ moment, CopiesInput (decide (.a ∈ opts)) names pieces.flatten world
      (runTee home opens moment opts names pieces world) := by
  refine ⟨"/home", fun _ => true, [], ["f", "g"], [[49, 10], [50, 10]], ⟨fun _ => some [48, 10, 50, 10], []⟩,
    rfl, rfl, rfl, rfl, ?_⟩
  apply (tee_iff _ _ _ _ _ _ (by decide) (by decide) (by decide) (by decide)).mpr
  simp [ReadAtOnce, logName]

/-- The input comes in two pieces: a file that did not exist gets the first of them. -/
theorem tee_first_piece : ∃ home opens opts names pieces world moment, opts = [] ∧ names = ["f"] ∧
    pieces = [[49, 10], [50, 10]] ∧ world.files "f" = none ∧
    (runTee home opens moment opts names pieces world).stdout = [49, 10, 50, 10] ∧
    (runTee home opens moment opts names pieces world).files "f" = some [49, 10] :=
  ⟨"/home", fun _ => true, [], ["f"], [[49, 10], [50, 10]], ⟨fun _ => none, []⟩,
    ⟨some "2017-01-10 10:00:00", 2, 0, Bytes.fill 0⟩, rfl, rfl, rfl, rfl, by decide, by decide⟩

end Copies

end Xv6Simplesh.Shell.Old.Tee
