import Mathlib.Data.List.Induction
import Xv6Simplesh.Shell.Execution
import Xv6Simplesh.Shell.NullTerminate

/-! # Redirections

`parse_redr` wraps each redirection around those before it, and `run_cmd` starts from the
outside: the last redirection on the line is made first, and those before it are made over it.
`run_cmd` is followed here into the children that it forks, down to where the program or the
builtin runs, with the descriptors that it has there.
-/

namespace Xv6Simplesh.Shell.Redirection

/-! ## Descriptors -/

/-- What a descriptor refers to: something that was open before, or the file at a path. -/
inductive File where
  | original (number : Nat)
  | named (path : List Char)
deriving DecidableEq, Repr

/-- The descriptors of a process. -/
abbrev Table := List (Option File)

namespace Table

def lookup (table : Table) (fd : Nat) : Option File := table[fd]?.join

/-- `TRY(close(fd))`; `none` where the process exits. -/
def close (table : Table) (fd : Nat) : Option Table :=
  if (table.lookup fd).isSome then some (table.set fd none) else none

/-- An `open` that succeeds takes the lowest descriptor that is free. -/
def openFile (table : Table) (path : List Char) : Table :=
  let fd := table.findIdx Option.isNone
  if fd < table.length then table.set fd (some (.named path)) else table ++ [some (.named path)]

/-- The standard input and output are open. -/
def Standard (table : Table) : Prop := ∀ fd < 2, table.lookup fd ≠ none

end Table

/-! ## `run_cmd` -/

/-- `is_interno`. -/
def isInterno (comando : List Char) : Bool :=
  comando ∈ [['c', 'w', 'd'], ['e', 'x', 'i', 't'], ['c', 'd'], ['h', 'd'], ['s', 'r', 'c'], ['b', 'j', 'o', 'b', 's']]

/-- The builtins for which the descriptor is closed. -/
def closesDescriptor (comando : List Char) : Bool := comando ∈ [['h', 'd'], ['s', 'r', 'c']]

/-- A program or a builtin, at the moment it runs. -/
structure Running where
  argv : List (List Char)
  interno : Bool
  table : Table
deriving DecidableEq, Repr

/-- `run_cmd` for a command with redirections, in the process that comes to run it.  `string`
reads the strings of the command.  A command without arguments runs nothing, and what runs
several commands is not followed. -/
def runCmd (string : Span → List Char) : Cmd → Table → Option Running
  | .exec argv _, table =>
    match argv.map string with
    | [] => none
    | comando :: args => some ⟨comando :: args, isInterno comando, table⟩
  | .redr (.exec argv _) fields, table =>
    match argv.map string with
    | [] => none
    | comando :: args => do
      let table ← if isInterno comando && !closesDescriptor comando then some table else table.close fields.fd
      some ⟨comando :: args, isInterno comando, table.openFile (string fields.file)⟩
  | .redr cmd fields, table => do
    -- what `ecmd->argv[0]` is here is the address of a command, and not the name of a builtin
    let table ← table.close fields.fd
    runCmd string cmd (table.openFile (string fields.file))
  | _, _ => none

/-! ## The descriptors of the program -/

/-- What a descriptor refers to after the first redirection of it in a list. -/
def target (table : Table) (string : Span → List Char) (redrs : List Redr) (fd : Nat) : Option File :=
  match redrs.find? (·.fd = fd) with
  | some redr => some (.named (string redr.file))
  | none => table.lookup fd

/-- The redirections that reach a descriptor: for a builtin that closes none, the one that was
written first is opened somewhere else. -/
def effective (comando : List Char) (redrs : List Redr) : List Redr :=
  if isInterno comando && !closesDescriptor comando then redrs.tail else redrs

namespace Table

variable {table table' : Table} {fd other : Nat} {path : List Char}

theorem lookup_set (inside : fd < table.length) (entry : Option File) (other : Nat) :
    lookup (table.set fd entry) other = if other = fd then entry else lookup table other := by
  by_cases same : other = fd
  · subst same
    simp [lookup, inside]
  · simp [lookup, same, List.getElem?_set_ne (Ne.symm same)]

theorem inside_of_lookup (used : table.lookup fd ≠ none) : fd < table.length := by
  by_contra outside
  exact used (by simp [lookup, List.getElem?_eq_none (Nat.le_of_not_lt outside)])

/-- `open` takes the lowest free descriptor, and leaves the others. -/
theorem lookup_openFile (fd : Nat) (free : table.lookup fd = none) (inside : fd < table.length)
    (lowest : ∀ lower < fd, table.lookup lower ≠ none) (path : List Char) (other : Nat) :
    (table.openFile path).lookup other = if other = fd then some (.named path) else table.lookup other := by
  have first : table.findIdx Option.isNone = fd := by
    rw [List.findIdx_eq inside]
    refine ⟨?_, ?_⟩
    · simpa [lookup, List.getElem?_eq_getElem inside] using free
    · intro lower below
      have used := lowest lower below
      have inside' : lower < table.length := Nat.lt_trans below inside
      simpa [lookup, List.getElem?_eq_getElem inside', Option.isSome_iff_ne_none] using used
  rw [openFile, first]
  simp only [inside, if_true]
  exact lookup_set inside _ other

theorem lookup_openFile_of_used (used : table.lookup other ≠ none) (path : List Char) :
    (table.openFile path).lookup other = table.lookup other := by
  have inside := inside_of_lookup used
  rw [openFile]
  split
  next found =>
    have taken : other ≠ table.findIdx Option.isNone := by
      intro same
      have free := List.findIdx_getElem (w := found)
      apply used
      rw [lookup, same, List.getElem?_eq_getElem found]
      simpa using free
    rw [lookup_set found, if_neg taken]
  next full => rw [lookup, lookup, List.getElem?_append_left inside]

/-- A standard descriptor that is closed is the one that the next `open` takes. -/
theorem redirect (standard : table.Standard) (small : fd < 2) (path : List Char) :
    ∃ closed, table.close fd = some closed ∧
      ∀ other, (closed.openFile path).lookup other = if other = fd then some (.named path) else table.lookup other := by
  have used := standard fd small
  have inside := inside_of_lookup used
  refine ⟨table.set fd none, if_pos (Option.isSome_iff_ne_none.mpr used), ?_⟩
  intro other
  rw [lookup_openFile fd]
  · rw [lookup_set inside]
    split <;> rfl
  · rw [lookup_set inside, if_pos rfl]
  · rwa [List.length_set]
  · intro lower below
    rw [lookup_set inside, if_neg (by omega)]
    exact standard lower (by omega)

theorem standard_redirected {redirected : Table} (standard : table.Standard)
    (made : ∀ other, redirected.lookup other = if other = fd then some (.named path) else table.lookup other) :
    redirected.Standard := by
  intro other small
  rw [made]
  split
  · exact Option.some_ne_none _
  · exact standard other small

end Table

variable {string : Span → List Char} {comando : List Char} {args : List (List Char)} {argv : List Span} {argc : Nat}

/-- A redirection that is made before others is found behind them. -/
theorem target_concat {table redirected : Table} {last : Redr}
    (made : ∀ other, redirected.lookup other =
      if other = last.fd then some (.named (string last.file)) else table.lookup other)
    (redrs : List Redr) (fd : Nat) :
    target redirected string redrs fd = target table string (redrs ++ [last]) fd := by
  rw [target, target, List.find?_append, made]
  cases redrs.find? (·.fd = fd) with
  | some redr => rfl
  | none =>
    by_cases same : fd = last.fd
    · simp [same]
    · simp [same, Ne.symm same]

variable {redrs : List Redr}

theorem effective_concat (comando : List Char) (some : redrs ≠ []) (last : Redr) :
    effective comando (redrs ++ [last]) = effective comando redrs ++ [last] := by
  rw [effective, effective]
  split
  · exact List.tail_append_of_ne_nil some
  · rfl

/-- The program runs, and its descriptors are those of the redirections that reach them. -/
theorem runCmd_wrap (named : argv.map string = comando :: args) (redrs : List Redr)
    (small : ∀ redr ∈ redrs, redr.fd < 2) (table : Table) (standard : table.Standard) :
    ∃ final, runCmd string ((Cmd.exec argv argc).wrap redrs) table = some ⟨comando :: args, isInterno comando, final⟩ ∧
      ∀ fd < 2, final.lookup fd = target table string (effective comando redrs) fd := by
  induction redrs using List.reverseRecOn generalizing table with
  | nil =>
    refine ⟨table, ?_, ?_⟩
    · simp [Cmd.wrap, runCmd, named]
    · intro fd _
      simp [effective, target]
  | append_singleton redrs last ih =>
    have wrapped : (Cmd.exec argv argc).wrap (redrs ++ [last]) = .redr ((Cmd.exec argv argc).wrap redrs) last := by
      rw [wrap_append]
      rfl
    rw [wrapped]
    have before : ∀ redr ∈ redrs, redr.fd < 2 := fun redr mem => small redr (List.mem_append_left _ mem)
    obtain ⟨closed, closes, made⟩ := Table.redirect standard (small last (by simp)) (string last.file)
    rcases redrs.eq_nil_or_concat with rfl | ⟨front, inner, rfl⟩
    · -- the redirection next to the command, which may be a builtin
      by_cases kept : (isInterno comando && !closesDescriptor comando) = true
      · refine ⟨table.openFile (string last.file), ?_, ?_⟩
        · simp [Cmd.wrap, runCmd, named, kept]
        · intro fd low
          rw [Table.lookup_openFile_of_used (standard fd low)]
          simp [effective, kept, target]
      · refine ⟨closed.openFile (string last.file), ?_, ?_⟩
        · simp [Cmd.wrap, runCmd, named, kept, closes]
        · intro fd low
          rw [effective, if_neg kept, ← target_concat made]
          rfl
    · -- a redirection around others
      rw [List.concat_eq_append] at before ih ⊢
      obtain ⟨final, ran, descriptors⟩ := ih before (closed.openFile (string last.file))
        (Table.standard_redirected standard made)
      refine ⟨final, ?_, ?_⟩
      · rw [wrap_append] at ran ⊢
        rw [← ran]
        change (table.close last.fd).bind _ = _
        rw [closes]
        rfl
      · intro fd low
        have some : front ++ [inner] ≠ [] := by simp
        rw [descriptors fd low, target_concat made, effective_concat comando some]

/-! ## The order on the line -/

/-- The redirections on a line, in the order in which they are written. -/
def redirections : List Token → List Redr
  | ⟨kind, _⟩ :: ⟨.arg, file⟩ :: ts =>
    match kind.redr? with
    | some make => make file :: redirections ts
    | none => redirections (⟨.arg, file⟩ :: ts)
  | _ :: ts => redirections ts
  | [] => []

theorem redirections_arg (span : Span) (ts : List Token) : redirections (⟨.arg, span⟩ :: ts) = redirections ts := by
  rcases ts with _ | ⟨⟨kind, other⟩, ts⟩
  · rfl
  · cases kind <;> rfl

theorem redirections_redrs {ts : List Token} {rs : List Redr} (redrs : Redrs ts rs) (us : List Token) :
    redirections (ts ++ us) = rs ++ redirections us := by
  induction redrs with
  | nil => rfl
  | cons redr rest ih => simp [redirections, redr, ih]

theorem redirections_args {ts : List Token} {args : List Span} {rs : List Redr} (derived : Args ts args rs) :
    redirections ts = rs := by
  induction derived with
  | nil => rfl
  | cons redrs rest ih => rw [redirections_arg, redirections_redrs redrs, ih]

/-- A command without the redirections around it, and these redirections. -/
def unwrap : Cmd → Cmd × List Redr
  | .redr cmd redr => ((unwrap cmd).1, (unwrap cmd).2 ++ [redr])
  | cmd => (cmd, [])

theorem unwrap_wrap {cmd : Cmd} (bare : unwrap cmd = (cmd, [])) (redrs : List Redr) :
    unwrap (cmd.wrap redrs) = (cmd, redrs) := by
  induction redrs using List.reverseRecOn with
  | nil => exact bare
  | append_singleton redrs last ih =>
    rw [wrap_append]
    change ((unwrap (cmd.wrap redrs)).1, (unwrap (cmd.wrap redrs)).2 ++ [last]) = _
    rw [ih]

/-- The redirections that the parser wraps around a command are those on the line. -/
theorem redirections_of_parseCmd {line : CommandLine}
    (parsed : parseCmd line = .ok ((Cmd.exec argv argc).wrap redrs, [])) : redirections line.tokens = redrs := by
  have shape : unwrap ((Cmd.exec argv argc).wrap redrs) = (.exec argv argc, redrs) := unwrap_wrap rfl redrs
  have derived := line_of_parseCmd parsed
  generalize (Cmd.exec argv argc).wrap redrs = cmd at shape derived
  generalize line.tokens = tokens at derived ⊢
  -- the command is neither in the background, nor a pipe, nor a block
  cases derived with
  | list pipe back command rest => cases shape
  | @last ts amps cmd count pipe back =>
    cases back with
    | cons more =>
      rw [Function.iterate_succ_apply'] at shape
      cases shape
    | nil =>
      cases pipe with
      | pipe exec command rest => cases shape
      | last exec =>
        cases exec with
        | @subs ts us cmd rs lpar rpar line redrs =>
          have block : unwrap ((Cmd.subs cmd).wrap rs) = (.subs cmd, rs) := unwrap_wrap rfl rs
          cases block.symm.trans shape
        | @exec ts us rs rs' args before rest few =>
          have plain : unwrap ((Cmd.exec args args.length).wrap (rs ++ rs')) = (.exec args args.length, rs ++ rs') :=
            unwrap_wrap rfl _
          cases plain.symm.trans shape
          rw [List.append_nil, redirections_redrs before, redirections_args rest]

theorem fd_redirections (ts : List Token) : ∀ redr ∈ redirections ts, redr.fd < 2 := by
  fun_induction redirections ts with
  | case1 kind symbol file ts make found ih =>
    intro redr mem
    rcases List.mem_cons.mp mem with rfl | later
    · cases kind <;> cases found <;> simp [Redr.input, Redr.output, Redr.append]
    · exact ih redr later
  | case2 kind symbol file ts found ih => exact ih
  | case3 token ts other ih => exact ih
  | case4 => simp

/-! ## The last redirection -/

theorem target_congr {table : Table} {string' : Span → List Char}
    (same : ∀ redr ∈ redrs, string redr.file = string' redr.file) (fd : Nat) :
    target table string redrs fd = target table string' redrs fd := by
  rw [target, target]
  cases found : redrs.find? (·.fd = fd) with
  | none => rfl
  | some redr =>
    dsimp only
    rw [same redr (List.mem_of_find?_eq_some found)]

theorem mem_of_mem_effective {redr : Redr} (mem : redr ∈ effective comando redrs) : redr ∈ redrs := by
  rw [effective] at mem
  split at mem
  · exact List.mem_of_mem_tail mem
  · exact mem

/-- Each of the two descriptors of a command refers to the file of the last redirection of it on
the line, if and only if that file is the one of the first redirection that reaches it. -/
theorem redirections_iff (line : CommandLine) (cmd : Cmd) (buf : List Char) (comando : Span) (args : List Span)
    (argc : Nat) (redrs : List Redr) (table : Table) (parsed : parseCmd line = .ok (cmd, []))
    (simple : cmd = (Cmd.exec (comando :: args) argc).wrap redrs)
    (terminated : nullTerminate cmd (line.chars ++ ['\x00']) = some buf) (standard : table.Standard) :
    (∃ final, runCmd (fun span => cString buf span.start) cmd table = some final ∧
        final.argv = (comando :: args).map (·.text line.chars) ∧
        ∀ fd < 2, final.table.lookup fd =
          target table (·.text line.chars) (redirections line.tokens).reverse fd) ↔
      ∀ fd < 2, target table (·.text line.chars)
          (effective (comando.text line.chars) (redirections line.tokens)) fd =
        target table (·.text line.chars) (redirections line.tokens).reverse fd := by
  subst simple
  have order := redirections_of_parseCmd parsed
  have words : ∀ span ∈ ((Cmd.exec (comando :: args) argc).wrap redrs).strings, Word line.chars span :=
    fun span => word_of_parseCmd parsed
  obtain ⟨buf', same, strings⟩ := cString_nullTerminate words
  cases terminated.symm.trans same
  rw [strings_wrap, Cmd.strings] at strings
  have names : (comando :: args).map (fun span => cString buf span.start) =
      comando.text line.chars :: args.map (·.text line.chars) := by
    rw [← List.map_cons (f := fun span : Span => span.text line.chars)]
    exact List.map_congr_left fun span mem => strings span (List.mem_append_left _ mem)
  have small : ∀ redr ∈ redrs, redr.fd < 2 := order ▸ fd_redirections line.tokens
  obtain ⟨final, ran, descriptors⟩ := runCmd_wrap names redrs small table standard
  have reached : ∀ fd < 2, final.lookup fd =
      target table (·.text line.chars) (effective (comando.text line.chars) (redirections line.tokens)) fd := by
    intro fd low
    rw [descriptors fd low, order]
    apply target_congr
    intro redr mem
    exact strings _ (List.mem_append_right _ (List.mem_map_of_mem (mem_of_mem_effective mem)))
  constructor
  · rintro ⟨running, ran', -, right⟩ fd low
    cases ran.symm.trans ran'
    rw [← reached fd low]
    exact right fd low
  · intro right
    refine ⟨_, ran, rfl, ?_⟩
    intro fd low
    rw [← right fd low]
    exact reached fd low

/-- With one redirection of each descriptor, `a<b>c` reads from `b` and writes to `c`. -/
theorem redirections_iff_both : ∃ line cmd buf final, line.chars = ['a', '<', 'b', '>', 'c'] ∧
    parseCmd line = .ok (cmd, []) ∧ nullTerminate cmd (line.chars ++ ['\x00']) = some buf ∧
    runCmd (fun span => cString buf span.start) cmd [some (.original 0), some (.original 1)] = some final ∧
    final.table.lookup 0 = some (.named ['b']) ∧ final.table.lookup 1 = some (.named ['c']) := by
  have parsed : parseCmd ⟨['a', '<', 'b', '>', 'c'], by decide⟩ =
      .ok ((Cmd.exec [⟨0, 1⟩] 1).wrap [.input ⟨2, 3⟩, .output ⟨4, 5⟩], []) := by decide
  have terminated : nullTerminate ((Cmd.exec [⟨0, 1⟩] 1).wrap [.input ⟨2, 3⟩, .output ⟨4, 5⟩])
      (['a', '<', 'b', '>', 'c'] ++ ['\x00']) = some ['a', '\x00', 'b', '\x00', 'c', '\x00'] := by decide
  have standard : ∀ fd < 2, Table.lookup [some (.original 0), some (.original 1)] fd ≠ none := by decide
  have order := redirections_of_parseCmd parsed
  obtain ⟨final, ran, -, right⟩ := (redirections_iff _ _ _ _ _ _ _ _ parsed rfl terminated standard).mpr (by
    rw [order]
    decide)
  rw [order] at right
  exact ⟨_, _, _, final, rfl, parsed, terminated, ran, right 0 (by decide), right 1 (by decide)⟩

/-- `a>b>c` writes to `b`: the redirection to `c` is around the one to `b`, and is made before
it. -/
theorem redirections_first : ∃ line cmd buf final, line.chars = ['a', '>', 'b', '>', 'c'] ∧
    parseCmd line = .ok (cmd, []) ∧ nullTerminate cmd (line.chars ++ ['\x00']) = some buf ∧
    runCmd (fun span => cString buf span.start) cmd [some (.original 0), some (.original 1)] = some final ∧
    final.table.lookup 1 = some (.named ['b']) :=
  ⟨⟨['a', '>', 'b', '>', 'c'], by decide⟩, (Cmd.exec [⟨0, 1⟩] 1).wrap [.output ⟨2, 3⟩, .output ⟨4, 5⟩],
    ['a', '\x00', 'b', '\x00', 'c', '\x00'], ⟨[['a']], false, [some (.original 0), some (.named ['b'])]⟩, rfl,
    by decide, by decide, by decide, by decide⟩

/-- `cwd` writes to the old standard output, and its file is open as descriptor 2. -/
example : runCmd (fun span => cString ['c', 'w', 'd', '\x00', 'b', '\x00'] span.start)
    (.redr (.exec [⟨0, 3⟩] 1) (.output ⟨4, 5⟩)) [some (.original 0), some (.original 1)] =
      some ⟨[['c', 'w', 'd']], true, [some (.original 0), some (.original 1), some (.named ['b'])]⟩ := by decide

/-! ## In the shell process -/

/-- The name of a builtin. -/
def name : Command → Option (List Char)
  | .external => none
  | .cwd => some ['c', 'w', 'd']
  | .exit => some ['e', 'x', 'i', 't']
  | .cd => some ['c', 'd']
  | .hd _ => some ['h', 'd']
  | .src _ _ => some ['s', 'r', 'c']
  | .bjobs _ => some ['b', 'j', 'o', 'b', 's']

/-- The calls for a redirection to `path`, and the descriptors. -/
def calls (path : List Char) : Library.Environment Call Call.Answer Table where
  answers table call answer table' :=
    match call, answer with
    | .sigprocmask _, ok => ok = true ∧ table' = table
    | .close fd, true => table.close fd = some table'
    | .close fd, false => table.close fd = none ∧ table' = table
    | .open, fd => fd = some (table.findIdx Option.isNone) ∧ table' = table.openFile path
    | _, _ => False
  moves _ _ _ := False

theorem isInterno_name {cmd : Command} (called : name cmd = some comando) :
    cmd.isInterno = true ∧ isInterno comando = true ∧ cmd.closes = closesDescriptor comando := by
  cases cmd <;> cases called <;> exact ⟨rfl, rfl, rfl⟩

/-- The shell itself runs a builtin with a redirection, and makes the calls that give it its descriptors. -/
theorem reaches_runInterno {cmd : Command} {stream : Stream} {fields : Redr} {table : Table} {run : Running}
    (called : name cmd = some comando) (named : argv.map string = comando :: args) (same : fields.fd = stream.fd)
    (ran : runCmd string (.redr (.exec argv argc) fields) table = some run) :
    (calls (string fields.file)).Reaches (Shell.runCmd (.redr (.exec cmd) stream), table)
      (runInterno cmd, run.table) := by
  obtain ⟨builtin, interno, closes⟩ := isInterno_name called
  simp only [runCmd, named, interno, ← closes, same, Bool.true_and] at ran
  simp only [Shell.runCmd, Shell.setMask, builtin, if_true]
  generalize string fields.file = path at ran ⊢
  have block : (calls path).answers table (.sigprocmask .block) true table := ⟨rfl, rfl⟩
  have opened : ∀ table, (calls path).answers table .open (some (table.findIdx Option.isNone)) (table.openFile path) :=
    fun _ => ⟨rfl, rfl⟩
  refine Relation.ReflTransGen.head (.answer block) ?_
  cases closing : cmd.closes with
  | false =>
    rw [closing] at ran
    cases ran
    exact .single (.answer (opened table))
  | true =>
    rw [closing] at ran
    obtain ⟨closed, taken, rest⟩ := Option.bind_eq_some_iff.mp ran
    cases rest
    have taken : (calls path).answers table (.close stream.fd) true closed := taken
    exact .head (.answer taken) (.single (.answer (opened closed)))

end Xv6Simplesh.Shell.Redirection
