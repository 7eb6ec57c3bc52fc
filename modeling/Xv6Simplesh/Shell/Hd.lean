import Xv6Simplesh.Library.Bytes
import Xv6Simplesh.Param

/-! # The builtin `hd`

`run_hd` reads each of its files in blocks and writes the first lines or the first bytes.
A block is read into memory fresh from `malloc`, so behind the bytes that `read` put there
are bytes of no known value; they are a parameter of the model, one block of them for every
call of `malloc`.
-/

namespace Xv6Simplesh.Shell.Hd

open Library

abbrev minT : Int := 1

abbrev maxT : Int := 1048576

/-! ## Options -/

/-- What `getopt` returns, with `atoi(optarg)`. -/
inductive Opt where
  | l (val : Int)
  | b (val : Int)
  | t (val : Int)
  | h
  /-- `'?'`, which has no case in the `switch`. -/
  | unknown
deriving DecidableEq, Repr

structure Settings where
  flag : Nat
  numLineas : Int
  bytes : Int
  bloque : Int
deriving DecidableEq, Repr

def defaults : Settings := ⟨0, 3, 1, 1024⟩

def usage : String :=
  "Uso: hd [-l NLINES] [-b NBYTES] [-t BSIZE] [FILE1] [FILE2 ]...\n\tOpciones:\n" ++
  "\t-l NLINES Número máximo de líneas a mostrar.\n\t-b NBYTES Número máximo de  bytes a mostrar.\n" ++
  "\t-t BSIZE   Tamaño en  bytes  de los  bloques  leídos de [FILEn] o stdin.\n\t-h help\n"

/-- The loop over the options; an error is the text that is printed before `run_hd` returns. -/
def getopt : List Opt → Settings → Except String Settings
  | [], s => .ok s
  | .l val :: opts, s =>
    if s.flag = 2 then .error "hd: Opciones incompatibles\n"
    else getopt opts { s with numLineas := val, flag := 1 }
  | .b val :: opts, s =>
    if s.flag = 1 then .error "hd: Opciones incompatibles\n"
    else getopt opts { s with bytes := val, flag := 2 }
  | .t val :: opts, s =>
    if val < minT ∨ val > maxT then .error "hd: Opción no válida\n"
    else getopt opts { s with bloque := val }
  | .h :: _, _ => .error usage
  | .unknown :: opts, s => getopt opts s

/-! ## Files -/

/-- What the calls of `read` on a file return: the pieces one after the other, and then 0
for ever, or -1 if the file `fails`.  A file that cannot be opened fails at once. -/
structure Source where
  name : String
  pieces : List (List UInt8)
  fails : Bool
deriving DecidableEq, Repr

/-- How `run_hd` ends. -/
inductive Ending where
  | done
  | message (text : String)
  /-- `write_all` is given more bytes than the buffer has. -/
  | overrun
deriving DecidableEq, Repr

@[ext] structure Result where
  /-- What the calls of `write_all` have written. -/
  output : List UInt8
  ending : Ending
deriving DecidableEq, Repr

/-- The bytes are written before those of the result. -/
def Result.after (written : List UInt8) (res : Result) : Result := { res with output := written ++ res.output }

theorem Result.after_inj {written : List UInt8} {res res' : Result}
    (same : res.after written = res'.after written) : res = res' := by
  rw [Result.after, Result.after, Result.mk.injEq, List.append_cancel_left_eq] at same
  exact Result.ext same.1 same.2

/-- What is in the buffer when `read` has put a piece into it. -/
def buffer (stale : Bytes) (piece : List UInt8) : Bytes := fun i => piece.getD i (stale i)

/-- `write_all(STDOUT_FILENO, buf, num)`, and what comes after it. -/
def writeAll (bloque : Int) (buf : Bytes) (num : Int) (next : Result) : Result :=
  if 0 ≤ num ∧ num ≤ bloque then next.after (buf.slice 0 num.toNat) else ⟨[], .overrun⟩

/-- The loop over a block that counts lines: `i` and `lineas_leidas` after it. -/
def countLines (numLineas : Int) : List UInt8 → Nat → Int → Nat × Int
  | [], i, leidas => (i, leidas)
  | c :: block, i, leidas =>
    if leidas ≠ numLineas then countLines numLineas block (i + 1) (if c = newline then leidas + 1 else leidas)
    else (i, leidas)

section Loops

variable (s : Settings)

/-- The body of the loop after `read` has returned `piece`, in which `next` goes on with the
loop: with `lineas_leidas` and `bytes_restantes`. -/
def block (stale : Bytes) (piece : List UInt8) (leidas restantes : Int) (next : Int → Int → Result) : Result :=
  let buf := buffer stale piece
  let leidos : Int := piece.length
  let escribir := if leidos < s.bloque then leidos else s.bloque
  let finish : Result := ⟨[], .done⟩
  if s.flag = 2 then
    if restantes > s.bloque then
      writeAll s.bloque buf escribir (if leidos = 0 then finish else next leidas (restantes - escribir))
    else writeAll s.bloque buf restantes finish
  else
    let (i, leidas) := countLines s.numLineas piece 0 leidas
    let rest := if leidos = 0 ∨ leidas = s.numLineas then finish else next leidas restantes
    if leidos = 0 then rest
    else writeAll s.bloque buf (if i < s.bloque then i else escribir) rest

/-- The loop over the blocks of a file; `stale` is what the next calls of `malloc` return. -/
def readLoop (source : Source) : List (List UInt8) → (Nat → Bytes) → Int → Int → Result
  | [], stale, leidas, restantes =>
    if source.fails then ⟨[], .message ("hd: No se encontró el archivo '" ++ source.name ++ "'\n")⟩
    else block s (stale 0) [] leidas restantes fun _ _ => ⟨[], .done⟩
  | piece :: pieces, stale, leidas, restantes =>
    block s (stale 0) piece leidas restantes (readLoop source pieces fun k => stale (k + 1))

def readFile (stale : Nat → Bytes) (source : Source) : Result := readLoop s source source.pieces stale 0 s.bytes

/-- The loop over the files, with the memory that each of them gets. -/
def readFiles : List Source → (Nat → Nat → Bytes) → Result
  | [], _ => ⟨[], .done⟩
  | source :: sources, stale =>
    let res := readFile s (stale 0) source
    match res.ending with
    | .done => (readFiles sources fun k => stale (k + 1)).after res.output
    | _ => res

end Loops

/-- `run_hd` with the options, the files named after them, and the standard input. -/
def runHd (opts : List Opt) (stdin : Source) (files : List Source) (stale : Nat → Nat → Bytes) : Result :=
  match getopt opts defaults with
  | .error text => ⟨[], .message text⟩
  | .ok s => readFiles s (if files = [] then [stdin] else files) stale

/-! ## The first bytes -/

variable {s : Settings} {source : Source} {pieces : List (List UInt8)} {stale : Nat → Bytes} {leidas : Int}

/-- The read that is made when no more than a block is left to be written returns all that is
left; or the input ends before that. -/
def ReadsRest (bloque : Nat) : Nat → List (List UInt8) → Prop
  | restantes, [] => restantes = 0 ∨ bloque < restantes
  | restantes, piece :: pieces =>
    if bloque < restantes then ReadsRest bloque (restantes - piece.length) pieces
    else restantes ≤ piece.length

instance decidableReadsRest (bloque : Nat) : ∀ restantes pieces, Decidable (ReadsRest bloque restantes pieces)
  | restantes, [] => inferInstanceAs (Decidable (restantes = 0 ∨ bloque < restantes))
  | restantes, piece :: pieces =>
    have := decidableReadsRest bloque (restantes - piece.length) pieces
    inferInstanceAs (Decidable (if bloque < restantes then _ else _))

variable {piece : List UInt8}

theorem slice_buffer {stale : Bytes} {num : Nat} (inside : num ≤ piece.length) :
    (buffer stale piece).slice 0 num = piece.take num := by
  apply List.ext_getElem
  · simp [Bytes.slice, inside]
  · intro i bound bound'
    have within : i < piece.length := by simp at bound'; omega
    simp [Bytes.slice, buffer, within]

/-- Bytes behind the piece that are written are those that were there before. -/
theorem slice_buffer_ne {num : Nat} (outside : piece.length < num) :
    (buffer (fun _ => 0) piece).slice 0 num ≠ (buffer (fun _ => 1) piece).slice 0 num := by
  intro same
  have equal := List.map_inj_left.mp same piece.length (List.mem_range.mpr outside)
  simp [buffer] at equal

section

variable {piece : List UInt8} {bloque restantes : Nat} {next : Int → Int → Result} {fresh : Bytes} (flag : s.flag = 2)
  (size : s.bloque = bloque)

include flag size

theorem block_more (short : piece.length ≤ bloque) (more : bloque < restantes) :
    block s fresh piece leidas restantes next =
      if piece = [] then ⟨[], .done⟩ else (next leidas ((restantes - piece.length : Nat) : Int)).after piece := by
  have written : (if (piece.length : Int) < bloque then (piece.length : Int) else bloque) = piece.length := by
    split <;> omega
  have left : (restantes : Int) - piece.length = ((restantes - piece.length : Nat) : Int) := by omega
  have empty : (piece.length : Int) = 0 ↔ piece = [] := by simp
  simp only [block, flag, size, written, left, empty, if_true]
  rw [if_pos (by omega), writeAll, if_pos (by omega), Int.toNat_natCast, slice_buffer le_rfl, List.take_length]
  split
  next none => rw [none]; rfl
  · rfl

theorem block_last (last : restantes ≤ bloque) :
    block s fresh piece leidas restantes next = ⟨(buffer fresh piece).slice 0 restantes, .done⟩ := by
  simp only [block, flag, size, if_true]
  rw [if_neg (by omega), writeAll, if_pos (by omega), Int.toNat_natCast, Result.after, List.append_nil]

end

/-- Where the last read is long enough, the first bytes are written. -/
theorem readLoop_of_readsRest {bloque restantes : Nat} (flag : s.flag = 2) (size : s.bloque = bloque)
    (readable : source.fails = false) (split : ∀ piece ∈ pieces, 1 ≤ piece.length ∧ piece.length ≤ bloque)
    (reads : ReadsRest bloque restantes pieces) :
    readLoop s source pieces stale leidas restantes = ⟨pieces.flatten.take restantes, .done⟩ := by
  induction pieces generalizing stale restantes with
  | nil =>
    simp only [readLoop, readable, Bool.false_eq_true, if_false, List.flatten_nil, List.take_nil]
    by_cases more : bloque < restantes
    · rw [block_more flag size (Nat.zero_le _) more, if_pos rfl]
    · have none : restantes = 0 := reads.resolve_right more
      rw [block_last flag size (by omega), none]
      rfl
  | cons piece pieces ih =>
    obtain ⟨nonempty, short⟩ := split piece (List.mem_cons_self ..)
    rw [readLoop, List.flatten_cons, List.take_append]
    simp only [ReadsRest] at reads
    split at reads
    next more =>
      have some : piece ≠ [] := List.length_pos_iff.mp nonempty
      have whole : piece.take restantes = piece := List.take_of_length_le (by omega)
      rw [block_more flag size short more, if_neg some, whole,
        ih (fun other mem => split other (.tail _ mem)) reads]
      rfl
    next last =>
      rw [block_last flag size (by omega), slice_buffer reads, Nat.sub_eq_zero_of_le reads, List.take_zero,
        List.append_nil]

/-- Where it is not, what is written depends on what was in memory. -/
theorem readLoop_of_not_readsRest {bloque restantes : Nat} (flag : s.flag = 2) (size : s.bloque = bloque)
    (readable : source.fails = false) (split : ∀ piece ∈ pieces, 1 ≤ piece.length ∧ piece.length ≤ bloque)
    (fails : ¬ ReadsRest bloque restantes pieces) :
    readLoop s source pieces (fun _ _ => 0) leidas restantes ≠
      readLoop s source pieces (fun _ _ => 1) leidas restantes := by
  induction pieces generalizing restantes with
  | nil =>
    simp only [ReadsRest, not_or] at fails
    simp only [readLoop, readable, Bool.false_eq_true, if_false]
    rw [block_last flag size (by omega), block_last flag size (by omega)]
    intro same
    exact slice_buffer_ne (by simp only [List.length_nil]; omega) (congrArg Result.output same)
  | cons piece pieces ih =>
    obtain ⟨nonempty, short⟩ := split piece (List.mem_cons_self ..)
    rw [readLoop, readLoop]
    simp only [ReadsRest] at fails
    split at fails
    next more =>
      have some : piece ≠ [] := List.length_pos_iff.mp nonempty
      have rest := ih (fun other mem => split other (.tail _ mem)) fails
      rw [block_more flag size short more, block_more flag size short more, if_neg some, if_neg some]
      exact fun same => rest (Result.after_inj same)
    next last =>
      rw [block_last flag size (by omega), block_last flag size (by omega)]
      intro same
      exact slice_buffer_ne (by omega) (congrArg Result.output same)

/-- The options set a block size that is allowed, or leave the one that is. -/
theorem bloque_getopt {opts : List Opt} {before : Settings} (parsed : getopt opts before = .ok s)
    (allowed : minT ≤ before.bloque ∧ before.bloque ≤ maxT) : minT ≤ s.bloque ∧ s.bloque ≤ maxT := by
  induction opts generalizing before with
  | nil =>
    cases parsed
    exact allowed
  | cons opt opts ih =>
    cases opt with
    | h => cases parsed
    | unknown => exact ih parsed allowed
    | l val =>
      simp only [getopt] at parsed
      split at parsed
      · cases parsed
      · exact ih parsed allowed
    | b val =>
      simp only [getopt] at parsed
      split at parsed
      · cases parsed
      · exact ih parsed allowed
    | t val =>
      simp only [getopt] at parsed
      split at parsed
      · cases parsed
      next inside =>
        refine ih parsed ?_
        dsimp only
        omega

/-- With `-b`, and whatever else the options say, `hd` writes the first bytes of its input for
all contents of the memory it gets, if and only if the read for the last of them returns them
all. -/
theorem hd_bytes_iff (opts : List Opt) (stdin input : Source) (files : List Source) (nbytes : Nat)
    (parsed : getopt opts defaults = .ok s) (flag : s.flag = 2) (bytes : s.bytes = nbytes)
    (only : files = [] ∧ stdin = input ∨ files = [input]) (readable : input.fails = false)
    (split : ∀ piece ∈ input.pieces, 1 ≤ piece.length ∧ (piece.length : Int) ≤ s.bloque) :
    (∀ stale, runHd opts stdin files stale = ⟨input.pieces.flatten.take nbytes, .done⟩) ↔
      ReadsRest s.bloque.toNat nbytes input.pieces := by
  have pos : minT ≤ s.bloque := (bloque_getopt parsed (by decide)).1
  have size : s.bloque = (s.bloque.toNat : Int) := by
    dsimp only [minT] at pos
    omega
  have split' : ∀ piece ∈ input.pieces, 1 ≤ piece.length ∧ piece.length ≤ s.bloque.toNat := by
    intro piece mem
    have short := split piece mem
    omega
  have single : (if files = [] then [stdin] else files) = [input] := by
    rcases only with ⟨rfl, rfl⟩ | rfl <;> rfl
  have res : ∀ stale, runHd opts stdin files stale = readFile s (stale 0) input := by
    intro stale
    simp only [runHd, parsed, single, readFiles]
    cases ending : (readFile s (stale 0) input).ending with
    | done => exact Result.ext (List.append_nil _) ending.symm
    | message text => rfl
    | overrun => rfl
  constructor
  · intro correct
    by_contra fails
    have differ : readLoop s input input.pieces (fun _ _ => 0) 0 nbytes ≠
        readLoop s input input.pieces (fun _ _ => 1) 0 nbytes :=
      readLoop_of_not_readsRest flag size readable split' fails
    have zeros := correct fun _ _ _ => 0
    have ones := correct fun _ _ _ => 1
    rw [res, readFile, bytes] at zeros ones
    exact differ (zeros.trans ones.symm)
  · intro reads stale
    rw [res, readFile, bytes]
    exact readLoop_of_readsRest flag size readable split' reads

/-- The input has the bytes, and one read returns them. -/
theorem hd_bytes_iff_pipe : ∃ opts stdin files stale, getopt opts defaults = .ok ⟨2, 3, 2, 1024⟩ ∧
    runHd opts stdin files stale = ⟨[49, 50], .done⟩ :=
  ⟨[.b 2], ⟨"", [[49, 50, 51, 52, 53, 54, 10]], false⟩, [], fun _ _ _ => 0, by decide,
    (hd_bytes_iff (s := ⟨2, 3, 2, 1024⟩) _ _ _ _ 2 (by decide) rfl rfl (.inl ⟨rfl, rfl⟩) rfl (by decide)).mpr
      (by decide) _⟩

/-- A pipe returns what is in it: two bytes, and later two more.  Asked for four, `hd` writes
two of them and then two bytes that were in memory, here zeros. -/
theorem hd_bytes_short_read : ∃ (opts : List Opt) (stdin : Source) (stale : Nat → Nat → Bytes), opts = [.b 4] ∧
      stdin.pieces = [[49, 10], [50, 10]] ∧ stdin.fails = false ∧
      runHd opts stdin [] stale = ⟨[49, 10, 0, 0], .done⟩ ∧ stdin.pieces.flatten.take 4 = [49, 10, 50, 10] :=
  ⟨[.b 4], ⟨"", [[49, 10], [50, 10]], false⟩, fun _ _ _ => 0, rfl, rfl, rfl, by decide, by decide⟩

/-! ## The first lines -/

/-- The input up to and including its newline number `n`. -/
def firstLines : Nat → List UInt8 → List UInt8
  | 0, _ => []
  | _ + 1, [] => []
  | n + 1, c :: bytes => c :: firstLines (if c = newline then n else n + 1) bytes

@[simp] theorem firstLines_zero (bytes : List UInt8) : firstLines 0 bytes = [] := by
  cases bytes <;> rfl

@[simp] theorem firstLines_nil (n : Nat) : firstLines n [] = [] := by
  cases n <;> rfl

theorem firstLines_append (n : Nat) (front back : List UInt8) :
    firstLines n (front ++ back) = firstLines n front ++ firstLines (n - front.count newline) back := by
  induction front generalizing n with
  | nil => simp
  | cons c front ih =>
    cases n with
    | zero => simp
    | succ n =>
      simp only [List.cons_append, firstLines, List.count_cons, ih, List.cons.injEq, true_and]
      by_cases line : c = newline
      · simp only [line, if_true, beq_self_eq_true]
        congr 2
        omega
      · simp [line]

theorem firstLines_initial (n : Nat) (bytes : List UInt8) : firstLines n bytes <+: bytes := by
  induction bytes generalizing n with
  | nil => simp
  | cons c bytes ih =>
    cases n with
    | zero => simp
    | succ n => exact List.prefix_cons_inj c |>.mpr (ih _)

/-- Where a file has fewer newlines than that, all of it is taken. -/
theorem firstLines_of_count_lt {n : Nat} {bytes : List UInt8} (fewer : bytes.count newline < n) :
    firstLines n bytes = bytes := by
  induction bytes generalizing n with
  | nil => simp
  | cons c bytes ih =>
    obtain _ | n := n
    · omega
    simp only [firstLines, List.cons.injEq, true_and]
    apply ih
    rw [List.count_cons] at fewer
    by_cases line : c = newline
    · simp only [line, beq_self_eq_true, if_true] at fewer ⊢
      omega
    · simp only [line, beq_iff_eq, if_false] at fewer ⊢
      omega

/-- The loop over a block stops behind the lines that were still to be written, and has counted
them. -/
theorem countLines_eq (numLineas : Int) (piece : List UInt8) (i left : Nat) (leidas : Int)
    (rem : numLineas = leidas + left) :
    countLines numLineas piece i leidas =
      (i + (firstLines left piece).length, numLineas - ((left - piece.count newline : Nat) : Int)) := by
  induction piece generalizing i left leidas with
  | nil =>
    simp only [countLines, firstLines_nil, List.length_nil, List.count_nil, Prod.mk.injEq]
    omega
  | cons c piece ih =>
    cases left with
    | zero =>
      have enough : leidas = numLineas := by omega
      simp [countLines, enough]
    | succ left =>
      have more : leidas ≠ numLineas := by omega
      simp only [countLines, ne_eq, more, not_false_iff, if_true, firstLines, List.length_cons, List.count_cons]
      by_cases line : c = newline
      · rw [if_pos line, ih _ left _ (by omega)]
        simp only [line, if_true, beq_self_eq_true, Prod.mk.injEq]
        omega
      · rw [if_neg line, ih _ (left + 1) _ (by omega)]
        simp only [line, if_false, beq_iff_eq, Prod.mk.injEq]
        omega

/-- A block of which the lines that are left are written; the loop goes on if there are more to
come. -/
theorem block_lines {left : Nat} {restantes : Int} {next : Int → Int → Result}
    {fresh : Bytes} (flag : s.flag ≠ 2) (rem : s.numLineas = leidas + left)
    (short : (piece.length : Int) ≤ s.bloque) :
    block s fresh piece leidas restantes next =
      if piece = [] ∨ left ≤ piece.count newline then ⟨firstLines left piece, .done⟩
      else (next (s.numLineas - ((left - piece.count newline : Nat) : Int)) restantes).after piece := by
  have inside := (firstLines_initial left piece).length_le
  have front : piece.take (firstLines left piece).length = firstLines left piece :=
    (List.prefix_iff_eq_take.mp (firstLines_initial left piece)).symm
  -- `i` never passes the end of what was read, so each way to choose the length gives `i`
  have length : (if ((firstLines left piece).length : Int) < s.bloque then ((firstLines left piece).length : Int)
      else if (piece.length : Int) < s.bloque then piece.length else s.bloque) =
      (firstLines left piece).length := by
    split
    · rfl
    · split <;> omega
  have enough : s.numLineas - ((left - piece.count newline : Nat) : Int) = s.numLineas ↔
      left ≤ piece.count newline := by omega
  simp only [block, flag, if_false, countLines_eq s.numLineas piece 0 left leidas rem, Nat.zero_add, length,
    enough]
  by_cases empty : piece = []
  · simp [empty]
  · have some : (piece.length : Int) ≠ 0 := by simpa using empty
    have allowed : (0 : Int) ≤ ((firstLines left piece).length : Int) ∧
        ((firstLines left piece).length : Int) ≤ s.bloque := by omega
    rw [if_neg some, writeAll, if_pos allowed, Int.toNat_natCast, slice_buffer inside, front]
    simp only [some, empty, false_or]
    split
    next last => simp [Result.after]
    next more => rw [firstLines_of_count_lt (by omega)]

/-- The loop over the blocks writes the lines that are left, however the file is split. -/
theorem readLoop_lines {left : Nat} {restantes : Int} (flag : s.flag ≠ 2)
    (rem : s.numLineas = leidas + left) (readable : source.fails = false)
    (split : ∀ piece ∈ pieces, 1 ≤ piece.length ∧ (piece.length : Int) ≤ s.bloque) (room : 0 ≤ s.bloque) :
    readLoop s source pieces stale leidas restantes = ⟨firstLines left pieces.flatten, .done⟩ := by
  induction pieces generalizing stale leidas left restantes with
  | nil =>
    simp only [readLoop, readable, Bool.false_eq_true, if_false]
    rw [block_lines flag rem (by simpa using room)]
    simp
  | cons piece pieces ih =>
    obtain ⟨nonempty, short⟩ := split piece (List.mem_cons_self ..)
    have some : piece ≠ [] := List.length_pos_iff.mp nonempty
    rw [readLoop, block_lines flag rem short, List.flatten_cons, firstLines_append]
    split
    next last =>
      rw [Nat.sub_eq_zero_of_le (last.resolve_left some), firstLines_zero, List.append_nil]
    next more =>
      have fewer : piece.count newline < left := by
        rw [not_or, not_le] at more
        exact more.2
      have rem' : s.numLineas = s.numLineas - ((left - piece.count newline : Nat) : Int) +
          ((left - piece.count newline : Nat) : Int) := by omega
      rw [ih rem' fun other mem => split other (List.mem_cons_of_mem _ mem),
        firstLines_of_count_lt fewer]
      rfl

theorem readFiles_lines {nlines : Nat} (flag : s.flag ≠ 2) (lines : s.numLineas = nlines) (room : 0 ≤ s.bloque)
    (sources : List Source) (stale : Nat → Nat → Bytes) (readable : ∀ source ∈ sources, source.fails = false)
    (split : ∀ source ∈ sources, ∀ piece ∈ source.pieces,
      1 ≤ piece.length ∧ (piece.length : Int) ≤ s.bloque) :
    readFiles s sources stale = ⟨sources.flatMap fun source => firstLines nlines source.pieces.flatten, .done⟩ := by
  induction sources generalizing stale with
  | nil => rfl
  | cons source sources ih =>
    have first : readFile s (stale 0) source = ⟨firstLines nlines source.pieces.flatten, .done⟩ :=
      readLoop_lines flag (by omega) (readable source (List.mem_cons_self ..))
        (split source (List.mem_cons_self ..)) room
    have rest := ih (fun k => stale (k + 1))
      (fun other mem => readable other (.tail _ mem))
      (fun other mem => split other (.tail _ mem))
    simp only [readFiles, first, rest, Result.after, List.flatMap_cons]

/-- Without `-b`, `hd` writes the first lines of each of its files, or of the standard input,
whatever memory it gets and however its input is split. -/
theorem hd_lines (opts : List Opt) (stdin : Source) (files sources : List Source) (nlines : Nat)
    (stale : Nat → Nat → Bytes) (parsed : getopt opts defaults = .ok s) (flag : s.flag ≠ 2)
    (lines : s.numLineas = nlines) (inputs : sources = if files = [] then [stdin] else files)
    (readable : ∀ source ∈ sources, source.fails = false)
    (split : ∀ source ∈ sources, ∀ piece ∈ source.pieces,
      1 ≤ piece.length ∧ (piece.length : Int) ≤ s.bloque) :
    runHd opts stdin files stale =
      ⟨sources.flatMap fun source => firstLines nlines source.pieces.flatten, .done⟩ := by
  have pos : minT ≤ s.bloque := (bloque_getopt parsed (by decide)).1
  simp only [runHd, parsed, ← inputs]
  exact readFiles_lines flag lines (by dsimp only [minT] at pos; omega) sources stale readable split

/-- Two files in blocks of two bytes, the first of them with more lines than are asked for. -/
theorem hd_lines_two_files : ∃ opts stdin files stale, getopt opts defaults = .ok ⟨1, 1, 1, 2⟩ ∧
    files.length = 2 ∧ runHd opts stdin files stale = ⟨[49, 50, 51, 10, 53], .done⟩ :=
  ⟨[.l 1, .t 2], ⟨"", [], false⟩, [⟨"a", [[49, 50], [51], [10, 52]], false⟩, ⟨"b", [[53]], false⟩],
    fun _ _ _ => 0, by decide, rfl,
    hd_lines (s := ⟨1, 1, 1, 2⟩) _ _ _ _ 1 _ (by decide) (by decide) rfl rfl (by decide) (by decide)⟩

end Xv6Simplesh.Shell.Hd
