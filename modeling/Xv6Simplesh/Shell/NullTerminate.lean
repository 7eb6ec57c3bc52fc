import Xv6Simplesh.Shell.ParserComplete

/-! # `null_terminate`

The strings of a command are parts of the line that was parsed.  `null_terminate` ends each of
them in place, with a NUL in the byte behind it.  In a parse without messages all strings are
arguments in the sense of the scanner: runs of characters that are neither blank nor symbols,
each followed by a blank, by a symbol or by the end of the line.  So no byte that is written is
part of a string.
-/

namespace Xv6Simplesh.Shell

/-- `*p = 0`; `none` where `p` is outside of the buffer. -/
def putNul (buf : List Char) (p : Nat) : Option (List Char) :=
  if p < buf.length then some (buf.set p '\x00') else none

/-- `null_terminate`, on the buffer that the line is in. -/
def nullTerminate : Cmd → List Char → Option (List Char)
  | .exec argv _, buf => argv.foldlM (fun buf arg => putNul buf arg.stop) buf
  | .redr cmd fields, buf => do
    let buf ← nullTerminate cmd buf
    putNul buf fields.file.stop
  | .pipe left right, buf => do
    let buf ← nullTerminate left buf
    nullTerminate right buf
  | .list left right, buf => do
    let buf ← nullTerminate left buf
    nullTerminate right buf
  | .back cmd, buf => nullTerminate cmd buf
  | .subs cmd, buf => nullTerminate cmd buf

/-- The arguments and the files of a command, in the order in which they are ended. -/
def Cmd.strings : Cmd → List Span
  | .exec argv _ => argv
  | .redr cmd fields => cmd.strings ++ [fields.file]
  | .pipe left right => left.strings ++ right.strings
  | .list left right => left.strings ++ right.strings
  | .back cmd => cmd.strings
  | .subs cmd => cmd.strings

/-- The C string that starts at an offset of the buffer. -/
def cString (buf : List Char) (start : Nat) : List Char := (buf.drop start).takeWhile (· ≠ '\x00')

/-- The characters of a part of the line. -/
def Span.text (span : Span) (chars : List Char) : List Char := (chars.drop span.start).take (span.stop - span.start)

/-! ## What is written -/

theorem nullTerminate_eq (cmd : Cmd) (buf : List Char) :
    nullTerminate cmd buf = cmd.strings.foldlM (fun buf span => putNul buf span.stop) buf := by
  induction cmd generalizing buf with
  | exec argv argc => rfl
  | redr cmd fields ih => simp [nullTerminate, Cmd.strings, ih, List.foldlM_append]
  | pipe left right leftHypothesis rightHypothesis =>
    simp [nullTerminate, Cmd.strings, leftHypothesis, rightHypothesis, List.foldlM_append]
  | list left right leftHypothesis rightHypothesis =>
    simp [nullTerminate, Cmd.strings, leftHypothesis, rightHypothesis, List.foldlM_append]
  | back cmd ih => exact ih buf
  | subs cmd ih => exact ih buf

/-- Writing behind strings that are inside of the buffer changes the bytes behind them and no
others. -/
theorem foldlM_putNul (spans : List Span) (buf : List Char) (inside : ∀ span ∈ spans, span.stop < buf.length) :
    ∃ buf', spans.foldlM (fun buf span => putNul buf span.stop) buf = some buf' ∧
      (∀ span ∈ spans, buf'[span.stop]? = some '\x00') ∧
      ∀ i, (∀ span ∈ spans, span.stop ≠ i) → buf'[i]? = buf[i]? := by
  induction spans generalizing buf with
  | nil => exact ⟨buf, rfl, by simp, fun i _ => rfl⟩
  | cons span spans ih =>
    have first : span.stop < buf.length := inside span (.head _)
    obtain ⟨buf', ran, ended, kept⟩ := ih (buf.set span.stop '\x00') (by
      intro other mem
      rw [List.length_set]
      exact inside other (.tail _ mem))
    refine ⟨buf', ?_, ?_, ?_⟩
    · rw [List.foldlM_cons, putNul, if_pos first]
      exact ran
    · intro other mem
      by_cases later : ∃ another ∈ spans, another.stop = other.stop
      · obtain ⟨another, there, same⟩ := later
        rw [← same]
        exact ended another there
      · -- only the first write goes there
        simp only [not_exists, not_and] at later
        rcases List.mem_cons.mp mem with rfl | there
        · rw [kept _ later, List.getElem?_set_self first]
        · exact absurd rfl (later other there)
    · intro i elsewhere
      rw [kept i fun other mem => elsewhere other (List.mem_cons_of_mem _ mem),
        List.getElem?_set_ne (elsewhere span (.head _))]

/-! ## Words -/

/-- A part of the line that is an argument for the scanner. -/
structure Word (chars : List Char) (span : Span) : Prop where
  ordered : span.start ≤ span.stop
  bound : span.stop ≤ chars.length
  inside : ∀ i c, span.start ≤ i → i < span.stop → chars[i]? = some c → isArgChar c = true
  edge : ∀ c, chars[span.stop]? = some c → isArgChar c = false

variable {chars rest : List Char} {span : Span} {line : CommandLine}

theorem Word.disjoint {other : Span} (word : Word chars span) (word' : Word chars other)
    {i : Nat} (low : span.start ≤ i) (high : i < span.stop) : other.stop ≠ i := by
  rintro rfl
  have bound : other.stop < chars.length := Nat.lt_of_lt_of_le high word.bound
  have there : chars[other.stop]? = some chars[other.stop] := List.getElem?_eq_getElem bound
  have apart := word'.edge _ there
  rw [word.inside _ _ low high there] at apart
  cases apart

/-- The run at the start of a list: what it is made of, and what ends it. -/
theorem getElem?_takeWhile {p : Char → Bool} :
    (∀ i c, i < (rest.takeWhile p).length → rest[i]? = some c → p c = true) ∧
      ∀ c, rest[(rest.takeWhile p).length]? = some c → p c = false := by
  induction rest with
  | nil => simp
  | cons d rest ih =>
    by_cases holds : p d = true
    · rw [List.takeWhile_cons_of_pos holds]
      refine ⟨?_, fun c found => ih.2 c found⟩
      intro i c bound found
      cases i with
      | zero =>
        cases found
        exact holds
      | succ i => exact ih.1 i c (by simpa using bound) found
    · rw [List.takeWhile_cons_of_neg holds]
      refine ⟨by simp, ?_⟩
      intro c found
      cases found
      simpa using holds

theorem word_takeWhile {pos : Nat} (suffix : chars.drop pos = rest) (bound : pos ≤ chars.length) :
    Word chars ⟨pos, pos + (rest.takeWhile isArgChar).length⟩ where
  ordered := Nat.le_add_right ..
  bound := by
    have total := congrArg List.length suffix
    have short := (List.takeWhile_prefix isArgChar (l := rest)).length_le
    rw [List.length_drop] at total
    dsimp only
    omega
  inside i c low high found := by
    have within : i - pos < (rest.takeWhile isArgChar).length := by
      dsimp only at low high
      omega
    apply getElem?_takeWhile.1 (i - pos) c within
    rw [← suffix, List.getElem?_drop, Nat.add_sub_cancel' low]
    exact found
  edge c found := by
    apply getElem?_takeWhile.2 c
    rw [← List.getElem?_drop, suffix] at found
    exact found

theorem word_of_mem_lex {pos : Nat} (suffix : chars.drop pos = rest) {token : Token}
    (mem : token ∈ lex pos rest) (argument : token.kind = .arg) : Word chars token.span := by
  fun_induction lex pos rest with
  | case1 => cases mem
  | case2 pos c cs blank ih =>
    apply ih _ mem
    rw [← List.drop_drop, suffix, List.drop_one, List.tail_cons]
  | case3 pos c cs blank kind length found ih =>
    rcases List.mem_cons.mp mem with rfl | later
    · -- a symbol is no argument
      have first := symbol?_first found
      rw [show kind = .arg from argument] at first
      cases first
    · apply ih _ later
      rw [← List.drop_drop, suffix]
  | case4 pos c cs blank missing length ih =>
    have argChar : isArgChar c = true := by
      have symbol := isSymbol_of_symbol? c cs
      rw [missing] at symbol
      simp [isArgChar, ← symbol, blank]
    have run : ((c :: cs).takeWhile isArgChar).length = length := by
      rw [List.takeWhile_cons_of_pos argChar, List.length_cons, Nat.add_comm]
    rcases List.mem_cons.mp mem with rfl | later
    · have bound : pos ≤ chars.length := by
        have total := congrArg List.length suffix
        rw [List.length_drop, List.length_cons] at total
        omega
      have word := word_takeWhile suffix bound
      rwa [run] at word
    · apply ih _ later
      have positive : length = length - 1 + 1 := by omega
      rw [← List.drop_drop, suffix, positive, List.drop_succ_cons, Nat.add_sub_cancel]

/-! ## The strings of a command -/

/-- The files of redirections and the arguments of a derivation are arguments on the line. -/
def FromTokens (tokens : List Token) (spans : List Span) : Prop := ∀ span ∈ spans, ⟨.arg, span⟩ ∈ tokens

theorem FromTokens.append {tokens : List Token} {first snd : List Span} (from₁ : FromTokens tokens first)
    (from₂ : FromTokens tokens snd) : FromTokens tokens (first ++ snd) := by
  intro span mem
  rcases List.mem_append.mp mem with here | there
  · exact from₁ span here
  · exact from₂ span there

theorem FromTokens.mono {tokens more : List Token} {spans : List Span} (found : FromTokens tokens spans)
    (contained : ∀ token ∈ tokens, token ∈ more) : FromTokens more spans :=
  fun span mem => contained _ (found span mem)

theorem strings_wrap (cmd : Cmd) (redrs : List Redr) : (cmd.wrap redrs).strings = cmd.strings ++ redrs.map Redr.file := by
  induction redrs generalizing cmd with
  | nil => simp [Cmd.wrap]
  | cons redr redrs ih =>
    rw [show cmd.wrap (redr :: redrs) = (Cmd.redr cmd redr).wrap redrs from rfl, ih]
    simp [Cmd.strings]

theorem strings_back (cmd : Cmd) (count : Nat) : (Cmd.back^[count] cmd).strings = cmd.strings := by
  induction count generalizing cmd with
  | zero => rfl
  | succ count ih => exact ih (.back cmd)

theorem fromTokens_redrs {ts : List Token} {rs : List Redr} (redrs : Redrs ts rs) :
    FromTokens ts (rs.map Redr.file) := by
  induction redrs with
  | nil => exact fun span mem => nomatch mem
  | @cons kind symbol file make ts rs redr rest ih =>
    have name : (make file).file = file := by cases kind <;> cases redr <;> rfl
    intro span mem
    rw [List.map_cons, name] at mem
    rcases List.mem_cons.mp mem with rfl | later
    · simp
    · have found := ih span later
      simp [found]

theorem fromTokens_args {ts : List Token} {args : List Span} {rs : List Redr} (derived : Args ts args rs) :
    FromTokens ts (args ++ rs.map Redr.file) := by
  induction derived with
  | nil => exact fun span mem => nomatch mem
  | @cons arg ts us rs rs' args redrs rest ih =>
    have files := (fromTokens_redrs redrs).mono fun _ => List.mem_append_left us
    have others := ih.mono fun _ => List.mem_append_right ts
    intro span mem
    simp only [List.cons_append, List.map_append, List.mem_cons, List.mem_append] at mem
    rcases mem with rfl | mem | mem | mem
    · exact .head _
    · exact .tail _ (others span (List.mem_append_left _ mem))
    · exact .tail _ (files span mem)
    · exact .tail _ (others span (List.mem_append_right _ mem))

mutual

theorem fromTokens_line : ∀ {ts : List Token} {cmd : Cmd}, Line ts cmd → FromTokens ts cmd.strings
  | _, _, .last pipe back => by
    have left := fromTokens_pipe pipe
    rw [strings_back]
    exact left.mono fun token mem => by simp [mem]
  | _, _, .list pipe back command rest => by
    have left := fromTokens_pipe pipe
    have right := fromTokens_line rest
    rw [Cmd.strings, strings_back]
    exact (left.mono fun token mem => by simp [mem]).append
      (right.mono fun token mem => by simp [mem])

theorem fromTokens_pipe : ∀ {ts : List Token} {cmd : Cmd}, Pipe ts cmd → FromTokens ts cmd.strings
  | _, _, .last exec => fromTokens_exec exec
  | _, _, .pipe exec command rest => by
    have left := fromTokens_exec exec
    have right := fromTokens_pipe rest
    rw [Cmd.strings]
    exact (left.mono fun token mem => by simp [mem]).append
      (right.mono fun token mem => by simp [mem])

theorem fromTokens_exec : ∀ {ts : List Token} {cmd : Cmd}, Exec ts cmd → FromTokens ts cmd.strings
  | _, _, .subs line redrs => by
    have inside := fromTokens_line line
    have files := fromTokens_redrs redrs
    rw [strings_wrap, Cmd.strings]
    exact (inside.mono fun token mem => by simp [mem]).append
      (files.mono fun token mem => by simp [mem])
  | _, _, @Exec.exec ts us rs rs' args redrs rest few => by
    have files := (fromTokens_redrs redrs).mono fun _ => List.mem_append_left us
    have others := (fromTokens_args rest).mono fun _ => List.mem_append_right ts
    rw [strings_wrap, Cmd.strings]
    intro span mem
    simp only [List.map_append, List.mem_append] at mem
    rcases mem with mem | mem | mem
    · exact others span (List.mem_append_left _ mem)
    · exact files span mem
    · exact others span (List.mem_append_right _ mem)

end

theorem word_of_parseCmd {cmd : Cmd} (parsed : parseCmd line = .ok (cmd, []))
    (mem : span ∈ cmd.strings) : Word line.chars span :=
  word_of_mem_lex rfl (fromTokens_line (line_of_parseCmd parsed) span mem) rfl

/-! ## What the strings are afterwards -/

theorem takeWhile_of_getElem? {buf text : List Char} (same : ∀ i, i < text.length → buf[i]? = text[i]?)
    (ends : buf[text.length]? = some '\x00') (free : '\x00' ∉ text) : buf.takeWhile (· ≠ '\x00') = text := by
  induction text generalizing buf with
  | nil =>
    cases buf with
    | nil => rfl
    | cons c buf =>
      cases ends
      rfl
  | cons d text ih =>
    have first := same 0 (by simp)
    cases buf with
    | nil => cases first
    | cons c buf =>
      have same' : c = d := Option.some.inj first
      subst same'
      have other : c ≠ '\x00' := fun nul => free (nul ▸ List.mem_cons_self)
      rw [List.takeWhile_cons_of_pos (by simpa using other),
        ih (fun i bound => same (i + 1) (by simpa using bound)) ends
          fun mem => free (.tail _ mem)]

/-- A word that is followed by a NUL in the buffer, and is otherwise there as on the line, is a C
string. -/
theorem cString_of_word (word : Word line.chars span) {buf : List Char}
    (same : ∀ i, span.start ≤ i → i < span.stop → buf[i]? = line.chars[i]?) (ends : buf[span.stop]? = some '\x00') :
    cString buf span.start = span.text line.chars := by
  have bound := word.bound
  have ordered := word.ordered
  have length : (span.text line.chars).length = span.stop - span.start := by
    simp only [Span.text, List.length_take, List.length_drop]
    omega
  apply takeWhile_of_getElem?
  · intro i within
    rw [List.getElem?_drop, same _ (by omega) (by omega), Span.text, List.getElem?_take_of_lt (by omega),
      List.getElem?_drop]
  · rw [length, List.getElem?_drop, Nat.add_sub_cancel' ordered]
    exact ends
  · intro mem
    exact line.nulFree (List.mem_of_mem_drop (List.mem_of_mem_take mem))

/-- If all strings are words then `null_terminate` writes inside of the buffer, and ends each of
them. -/
theorem cString_nullTerminate {cmd : Cmd} (words : ∀ span ∈ cmd.strings, Word line.chars span) :
    ∃ buf, nullTerminate cmd (line.chars ++ ['\x00']) = some buf ∧
      ∀ span ∈ cmd.strings, cString buf span.start = span.text line.chars := by
  obtain ⟨buf, ran, ended, kept⟩ := foldlM_putNul cmd.strings (line.chars ++ ['\x00']) (by
    intro span mem
    have bound := (words span mem).bound
    simp only [List.length_append, List.length_singleton]
    omega)
  refine ⟨buf, (nullTerminate_eq cmd _).trans ran, ?_⟩
  intro span mem
  apply cString_of_word (words span mem)
  · intro i low high
    rw [kept i fun other there => (words span mem).disjoint (words other there) low high]
    have bound := (words span mem).bound
    exact List.getElem?_append_left (by omega)
  · exact ended span mem

/-- After a parse without messages, `null_terminate` writes inside of the buffer, and every
argument and every file is then the C string of its token. -/
theorem nullTerminate_strings (line : CommandLine) (cmd : Cmd) (parsed : parseCmd line = .ok (cmd, [])) :
    ∃ buf, nullTerminate cmd (line.chars ++ ['\x00']) = some buf ∧
      ∀ span ∈ cmd.strings, cString buf span.start = span.text line.chars :=
  cString_nullTerminate fun _ => word_of_parseCmd parsed

/-- The line `a>b c`, whose symbol is overwritten: `a` and `b` and `c` are strings of their own. -/
theorem nullTerminate_strings_adjacent : ∃ line cmd buf, line.chars = ['a', '>', 'b', ' ', 'c'] ∧
    parseCmd line = .ok (cmd, []) ∧ cmd.strings = [⟨0, 1⟩, ⟨4, 5⟩, ⟨2, 3⟩] ∧
    nullTerminate cmd (line.chars ++ ['\x00']) = some buf ∧ cString buf 2 = ['b'] := by
  have parsed : parseCmd ⟨['a', '>', 'b', ' ', 'c'], by decide⟩ =
      .ok (.redr (.exec [⟨0, 1⟩, ⟨4, 5⟩] 2) (.output ⟨2, 3⟩), []) := by decide
  obtain ⟨buf, ran, strings⟩ := nullTerminate_strings _ _ parsed
  exact ⟨_, _, buf, rfl, parsed, rfl, ran, strings ⟨2, 3⟩ (by decide)⟩

end Xv6Simplesh.Shell
