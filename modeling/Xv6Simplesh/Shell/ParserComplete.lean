import Xv6Simplesh.Shell.ParserSound

/-! # Every derivation is parsed, and the main theorem

A derivation's tokens are followed by something that none of its procedures would
take: nothing, or a symbol that ends the construct.  Under that condition the
parser takes exactly the derivation's tokens, prints nothing and returns its tree.
-/

namespace Xv6Simplesh.Shell

/-- The parser returned `cmd` in silence, with the tokens `rest` still ahead. -/
def Returns (s : Scanner) (res : Result) (cmd : Cmd) (rest : List Token) : Prop :=
  ∃ s', res = .ok (cmd, s') ∧ s'.tokens = rest ∧ s'.errors = s.errors

/-- Nothing is ahead, or one of the given symbols. -/
def Ends (kinds : List Kind) : List Token → Prop
  | [] => True
  | token :: _ => token.kind ∈ kinds

variable {rest ts us : List Token} {rs : List Redr} {count fuel : Nat} {args : List Span} {cmd : Cmd}

theorem Ends.mono {kinds more : List Kind} (ends : Ends kinds rest) (subset : kinds ⊆ more) : Ends more rest := by
  cases rest with
  | nil => trivial
  | cons token rest => exact subset ends

theorem Ends.not_startsWith {kinds : List Kind} {delimiter : List Char} (ends : Ends kinds rest)
    (other : kinds.all (fun kind => !delimiter.any (kind.first? = some ·)) = true) :
    startsWith delimiter rest = false := by
  cases rest with
  | nil => rfl
  | cons token rest =>
    have outside := List.all_eq_true.mp other token.kind ends
    rw [startsWith]
    simpa only [Bool.not_eq_true'] using outside

/-! ## The loops -/

theorem parseRedr_returns (redrs : Redrs ts rs) :
    ∀ (fuel : Nat) (cmd : Cmd) (s : Scanner) (rest : List Token), s.tokens = ts ++ rest →
      ts.length < fuel → startsWith ['<', '>'] rest = false →
      Returns s (parseRedr fuel cmd s) (cmd.wrap rs) rest := by
  induction redrs with
  | nil =>
    intro fuel cmd s rest next enough ends
    obtain ⟨fuel, rfl⟩ : ∃ more, fuel = more + 1 := ⟨fuel - 1, by simp at enough; omega⟩
    rw [List.nil_append] at next
    simp only [parseRedr, s.peek_eq (by decide : ['<', '>'].all isSymbol = true), next, ends]
    exact ⟨s.skipBlanks, rfl, s.tokens_skipBlanks.trans next, rfl⟩
  | @cons kind symbol file make ts rs redr redrs ih =>
    intro fuel cmd s rest next enough ends
    obtain ⟨fuel, rfl⟩ : ∃ more, fuel = more + 1 := ⟨fuel - 1, by omega⟩
    have found : startsWith ['<', '>'] s.tokens = true := by
      rw [next]
      cases kind <;> first | rfl | cases redr
    obtain ⟨s₁, taken, rem, errors⟩ := Scanner.getToken_cons (s.tokens_skipBlanks.trans next)
    obtain ⟨s₂, takenFile, rem, errorsFile⟩ := Scanner.getToken_cons rem
    obtain ⟨s₃, res, rem, errorsRest⟩ := ih fuel (cmd.redr (make file)) s₂
      rest rem (by simp only [List.length_cons] at enough; omega) ends
    simp only [parseRedr, s.peek_eq (by decide : ['<', '>'].all isSymbol = true), found, if_true,
      taken, takenFile, assert_redr redr, redrcmd_code redr]
    exact ⟨s₃, res, rem, by rw [errorsRest, errorsFile, errors]; rfl⟩

theorem parseBack_returns (amps : Amps ts count) :
    ∀ (fuel : Nat) (cmd : Cmd) (s : Scanner) (rest : List Token), s.tokens = ts ++ rest →
      ts.length < fuel → startsWith ['&'] rest = false →
      Returns s (parseBack fuel cmd s) (Cmd.back^[count] cmd) rest := by
  induction amps with
  | nil =>
    intro fuel cmd s rest next enough ends
    obtain ⟨fuel, rfl⟩ : ∃ more, fuel = more + 1 := ⟨fuel - 1, by simp at enough; omega⟩
    rw [List.nil_append] at next
    simp only [parseBack, s.peek_eq (by decide : ['&'].all isSymbol = true), next, ends]
    exact ⟨s.skipBlanks, rfl, s.tokens_skipBlanks.trans next, rfl⟩
  | @cons symbol ts count amps ih =>
    intro fuel cmd s rest next enough ends
    obtain ⟨fuel, rfl⟩ : ∃ more, fuel = more + 1 := ⟨fuel - 1, by omega⟩
    have found : startsWith ['&'] s.tokens = true := by rw [next]; rfl
    obtain ⟨s₁, taken, rem, errors⟩ := Scanner.getToken_cons (s.tokens_skipBlanks.trans next)
    obtain ⟨s₂, res, rem, errorsRest⟩ := ih fuel cmd.back s₁ rest rem
      (by simp only [List.length_cons] at enough; omega) ends
    simp only [parseBack, s.peek_eq (by decide : ['&'].all isSymbol = true), found, if_true, taken]
    exact ⟨s₂, res, rem, by rw [errorsRest, errors]; rfl⟩

theorem Args.startsWith_redr (derived : Args us args rs) (ends : startsWith ['<', '>'] rest = false) :
    startsWith ['<', '>'] (us ++ rest) = false := by
  cases derived with
  | nil => exact ends
  | cons redrs derived => rfl

theorem parseArgs_returns {rs' : List Redr} (derived : Args us args rs') :
    ∀ (fuel : Nat) (argv : List Span) (rs : List Redr) (s : Scanner) (rest : List Token),
      s.tokens = us ++ rest → us.length < fuel → (argv ++ args).length < maxArgs →
      Ends [.bar, .rpar, .amp, .semi] rest →
      Returns s (parseArgs fuel argv.length ((Cmd.exec argv argv.length).wrap rs) s)
        ((Cmd.exec (argv ++ args) (argv ++ args).length).wrap (rs ++ rs')) rest := by
  induction derived with
  | nil =>
    intro fuel argv rs s rest next enough few ends
    obtain ⟨fuel, rfl⟩ : ∃ more, fuel = more + 1 := ⟨fuel - 1, by simp at enough; omega⟩
    rw [List.nil_append] at next
    rw [List.append_nil, List.append_nil]
    simp only [parseArgs, s.peek_eq (by decide : ['|', ')', '&', ';'].all isSymbol = true)]
    cases rest with
    | nil =>
      obtain ⟨span, s₁, taken, rem, errors⟩ :=
        Scanner.getToken_nil (s.tokens_skipBlanks.trans next)
      rw [next, taken]
      exact ⟨s₁, rfl, rem, errors⟩
    | cons token ahead =>
      have found : startsWith ['|', ')', '&', ';'] s.tokens = true := by
        rw [next]
        obtain ⟨kind, span⟩ := token
        cases kind <;> first | rfl | simp [Ends] at ends
      rw [if_pos found]
      exact ⟨s.skipBlanks, rfl, s.tokens_skipBlanks.trans next, rfl⟩
  | @cons arg ts us rs₁ rs₂ args redrs derived ih =>
    intro fuel argv rs s rest next enough few ends
    obtain ⟨fuel, rfl⟩ : ∃ more, fuel = more + 1 := ⟨fuel - 1, by omega⟩
    simp only [List.cons_append, List.append_assoc, List.length_cons, List.length_append]
      at next enough few
    have missing : startsWith ['|', ')', '&', ';'] s.tokens = false := by rw [next]; rfl
    have shift : argv ++ arg :: args = (argv ++ [arg]) ++ args := by simp
    obtain ⟨s₁, taken, rem, errors⟩ := Scanner.getToken_cons (s.tokens_skipBlanks.trans next)
    obtain ⟨s₂, parsed, remaining₂, errorsRedr⟩ := parseRedr_returns redrs (s₁.rest.length + 1)
      ((Cmd.exec (argv ++ [arg]) (argv.length + 1)).wrap rs) s₁ (us ++ rest) rem
      (by
        have bound := s₁.length_tokens_le
        simp only [rem, List.length_append] at bound
        omega)
      (derived.startsWith_redr (ends.not_startsWith (by decide)))
    obtain ⟨s₃, res, remaining₃, errorsRest⟩ := ih fuel (argv ++ [arg]) (rs ++ rs₁) s₂
      rest remaining₂ (by omega) (by rw [← shift]; simpa using few) ends
    refine ⟨s₃, ?_, remaining₃, by rw [errorsRest, errorsRedr, errors]; rfl⟩
    simp only [parseArgs, s.peek_eq (by decide : ['|', ')', '&', ';'].all isSymbol = true), missing,
      taken, code_ne_nul, if_false, addArg_wrap, Cmd.addArg]
    have small : ¬ argv.length + 1 ≥ maxArgs := by omega
    rw [wrap_append] at res
    rw [if_neg small, shift, ← List.append_assoc rs, ← res]
    simp only [Kind.code, if_true, parsed, bind, Except.bind, List.length_append, List.length_singleton]
    simp

/-! ## The check for a command on the left -/

theorem wrap_isEmptyExec (empty : (cmd.wrap rs).isEmptyExec = true) : rs = [] ∧ cmd.isEmptyExec = true := by
  rcases rs.eq_nil_or_concat with rfl | ⟨before, last, rfl⟩
  · exact ⟨rfl, empty⟩
  · rw [List.concat_eq_append, wrap_append] at empty
    cases empty

theorem Exec.isEmptyExec (derived : Exec ts cmd) (empty : cmd.isEmptyExec = true) : cmd = .exec [] 0 := by
  cases derived with
  | subs line redrs => cases (wrap_isEmptyExec empty).2
  | @exec ts us rs rs' args redrs rest few =>
    obtain ⟨unwrapped, noArgs⟩ := wrap_isEmptyExec empty
    have noArgs : args = [] := List.isEmpty_iff.mp noArgs
    rw [unwrapped, noArgs]
    rfl

theorem Pipe.isEmptyExec (derived : Pipe ts cmd) (empty : cmd.isEmptyExec = true) : cmd = .exec [] 0 := by
  cases derived with
  | last exec => exact exec.isEmptyExec empty
  | pipe exec command rest => cases empty

theorem isEmptyExec_back (plain : cmd.isEmptyExec = true → cmd = .exec [] 0) (count : Nat)
    (empty : (Cmd.back^[count] cmd).isEmptyExec = true) : Cmd.back^[count] cmd = .exec [] 0 := by
  cases count with
  | zero => exact plain empty
  | succ count =>
    rw [Function.iterate_succ_apply'] at empty
    cases empty

/-- `get_token` for a separator when the check before it passes. -/
theorem takes_separator {s : Scanner} {token : Token} {ahead : List Token}
    (next : s.tokens = token :: ahead) (command : cmd ≠ .exec [] 0)
    (plain : cmd.isEmptyExec = true → cmd = .exec [] 0) (message : String) :
    ∃ s', (if cmd.isEmptyExec then s.skipBlanks.error message else s.skipBlanks).getToken =
        (token.kind.code, token.span, s') ∧ s'.tokens = ahead ∧ s'.errors = s.errors := by
  rw [if_neg fun empty => command (plain empty)]
  exact Scanner.getToken_cons (s.tokens_skipBlanks.trans next)

/-! ## Procedures -/

/-- What may stand after an `exec`, a `pipe`, a `pipe` with its `&` and a `line`. -/
abbrev afterExec : List Kind := [.bar, .rpar, .amp, .semi]
abbrev afterPipe : List Kind := [.rpar, .amp, .semi]
abbrev afterBack : List Kind := [.rpar, .semi]
abbrev afterLine : List Kind := [.rpar]

theorem parsePipe_returns
    (exec : ∀ {ts cmd}, Exec ts cmd → ∀ s rest, s.tokens = ts ++ rest → 4 * ts.length + 2 ≤ fuel →
      Ends afterExec rest → Returns s (parseExec fuel s) cmd rest)
    (pipe : ∀ {ts cmd}, Pipe ts cmd → ∀ s rest, s.tokens = ts ++ rest → 4 * ts.length + 3 ≤ fuel →
      Ends afterPipe rest → Returns s (parsePipe fuel s) cmd rest) (derived : Pipe ts cmd) (s : Scanner) (rest : List Token)
    (next : s.tokens = ts ++ rest) (enough : 4 * ts.length + 3 ≤ fuel + 1)
    (ends : Ends afterPipe rest) : Returns s (parsePipe (fuel + 1) s) cmd rest := by
  rw [parsePipe]
  cases derived with
  | last derived =>
    obtain ⟨s₁, parsed, rem, errors⟩ := exec derived s rest next (by omega)
      (ends.mono (by decide))
    have missing : startsWith ['|'] s₁.tokens = false := by
      rw [rem]
      exact ends.not_startsWith (by decide)
    refine ⟨s₁.skipBlanks, ?_, s₁.tokens_skipBlanks.trans rem, errors⟩
    rw [parsed]
    simp only [bind, Except.bind, s₁.peek_eq (by decide : ['|'].all isSymbol = true), missing]
    rfl
  | @pipe ts us cmd right symbol derived command derivedRight =>
    simp only [List.length_append, List.length_cons] at enough
    rw [List.append_assoc, List.cons_append] at next
    obtain ⟨s₁, parsed, rem, errors⟩ := exec derived s _ next (by omega)
      (show Kind.bar ∈ afterExec by decide)
    have found : startsWith ['|'] s₁.tokens = true := by rw [rem]; rfl
    obtain ⟨s₂, taken, rem, errorsBar⟩ := takes_separator rem command derived.isEmptyExec
      "parse_pipe: error sintáctico: no se encontró comando\n"
    obtain ⟨s₃, parsedRight, rem, errorsRight⟩ := pipe derivedRight s₂ rest rem
      (by omega) ends
    refine ⟨s₃, ?_, rem, by rw [errorsRight, errorsBar, errors]⟩
    rw [parsed]
    simp only [bind, Except.bind, s₁.peek_eq (by decide : ['|'].all isSymbol = true), found, if_true,
      taken, Kind.code, parsedRight]
    rfl

theorem Amps.ends {amps : List Token} (derived : Amps amps count)
    (ends : Ends afterBack rest) : Ends afterPipe (amps ++ rest) := by
  cases derived with
  | nil => exact ends.mono (by decide)
  | cons derived => exact (show Kind.amp ∈ afterPipe by decide)

section

variable {fuel : Nat}
  (pipe : ∀ {ts cmd}, Pipe ts cmd → ∀ s rest, s.tokens = ts ++ rest → 4 * ts.length + 3 ≤ fuel → Ends afterPipe rest → Returns s (parsePipe fuel s) cmd rest)

include pipe

theorem parseBack_after_parsePipe {amps : List Token} (derived : Pipe ts cmd)
    (back : Amps amps count) {s : Scanner} (next : s.tokens = ts ++ (amps ++ rest))
    (enough : 4 * ts.length + 3 ≤ fuel) (ends : Ends afterBack rest) :
    ∃ s₁ s₂, parsePipe fuel s = .ok (cmd, s₁) ∧
      parseBack (s₁.rest.length + 1) cmd s₁ = .ok (Cmd.back^[count] cmd, s₂) ∧
      s₂.tokens = rest ∧ s₂.errors = s.errors := by
  obtain ⟨s₁, parsed, rem, errors⟩ := pipe derived s _ next enough (back.ends ends)
  have bound := s₁.length_tokens_le
  rw [rem, List.length_append] at bound
  obtain ⟨s₂, parsedBack, rem, errorsBack⟩ := parseBack_returns back (s₁.rest.length + 1) cmd
    s₁ rest rem (by omega) (ends.not_startsWith (by decide))
  exact ⟨s₁, s₂, parsed, parsedBack, rem, errorsBack.trans errors⟩

theorem parseLine_returns
    (line : ∀ {ts cmd}, Line ts cmd → ∀ s rest, s.tokens = ts ++ rest → 4 * ts.length + 4 ≤ fuel →
      Ends afterLine rest → Returns s (parseLine fuel s) cmd rest) (derived : Line ts cmd) (s : Scanner) (rest : List Token)
    (next : s.tokens = ts ++ rest) (enough : 4 * ts.length + 4 ≤ fuel + 1)
    (ends : Ends afterLine rest) : Returns s (parseLine (fuel + 1) s) cmd rest := by
  rw [parseLine]
  cases derived with
  | last derived back =>
    rw [List.append_assoc] at next
    rw [List.length_append] at enough
    obtain ⟨s₁, s₂, parsed, parsedBack, rem, errors⟩ := parseBack_after_parsePipe pipe derived
      back next (by omega) (ends.mono (by decide))
    have missing : startsWith [';'] s₂.tokens = false := by
      rw [rem]
      exact ends.not_startsWith (by decide)
    refine ⟨s₂.skipBlanks, ?_, s₂.tokens_skipBlanks.trans rem, errors⟩
    rw [parsed]
    simp only [bind, Except.bind, parsedBack, s₂.peek_eq (by decide : [';'].all isSymbol = true), missing]
    rfl
  | @list ts amps us cmd right count symbol derived back command derivedRight =>
    rw [List.append_assoc, List.append_assoc, List.cons_append] at next
    simp only [List.length_append, List.length_cons] at enough
    obtain ⟨s₁, s₂, parsed, parsedBack, rem, errors⟩ := parseBack_after_parsePipe pipe derived
      back next (by omega) (show Kind.semi ∈ afterBack by decide)
    have found : startsWith [';'] s₂.tokens = true := by rw [rem]; rfl
    obtain ⟨s₃, taken, rem, errorsSemi⟩ := takes_separator rem command
      (isEmptyExec_back derived.isEmptyExec count) "parse_line: error sintáctico: no se encontró comando\n"
    obtain ⟨s₄, parsedRight, rem, errorsRight⟩ := line derivedRight s₃ rest rem
      (by omega) ends
    refine ⟨s₄, ?_, rem, by rw [errorsRight, errorsSemi, errors]⟩
    rw [parsed]
    simp only [bind, Except.bind, parsedBack, s₂.peek_eq (by decide : [';'].all isSymbol = true), found,
      if_true, taken, Kind.code, parsedRight]
    rfl

end

theorem Redrs.not_startsWith_lpar (derived : Redrs ts rs) (ends : startsWith ['('] rest = false) : startsWith ['('] (ts ++ rest) = false := by
  cases derived with
  | nil => exact ends
  | @cons kind _ _ _ _ _ redr derived => cases kind <;> first | rfl | cases redr

theorem Args.not_startsWith_lpar (derived : Args us args rs) (ends : startsWith ['('] rest = false) :
    startsWith ['('] (us ++ rest) = false := by
  cases derived with
  | nil => exact ends
  | cons redrs derived => rfl

theorem parseExec_returns (subs : ∀ {ts us cmd rs lpar rpar}, Line ts cmd → Redrs us rs → ∀ s rest,
      s.tokens = ⟨.lpar, lpar⟩ :: (ts ++ ⟨.rpar, rpar⟩ :: us) ++ rest →
      4 * (ts.length + us.length + 2) + 1 ≤ fuel → Ends afterExec rest →
      Returns s (parseSubs fuel s) ((Cmd.subs cmd).wrap rs) rest) (derived : Exec ts cmd) (s : Scanner) (rest : List Token)
    (next : s.tokens = ts ++ rest) (enough : 4 * ts.length + 2 ≤ fuel + 1)
    (ends : Ends afterExec rest) : Returns s (parseExec (fuel + 1) s) cmd rest := by
  rw [parseExec]
  simp only [s.peek_eq (by decide : ['('].all isSymbol = true)]
  cases derived with
  | subs line redrs =>
    have found : startsWith ['('] s.tokens = true := by rw [next]; rfl
    simp only [List.length_append, List.length_cons] at enough
    rw [if_pos found]
    exact subs line redrs s.skipBlanks rest (s.tokens_skipBlanks.trans next) (by omega) ends
  | @exec ts us rs rs' args redrs derived few =>
    rw [List.append_assoc] at next
    have missing : startsWith ['('] s.tokens = false := by
      rw [next]
      exact redrs.not_startsWith_lpar (derived.not_startsWith_lpar (ends.not_startsWith (by decide)))
    have bound := s.skipBlanks.length_tokens_le
    rw [s.tokens_skipBlanks, next, List.length_append] at bound
    obtain ⟨s₁, parsed, rem, errors⟩ := parseRedr_returns redrs (s.skipBlanks.rest.length + 1)
      (.exec [] 0) s.skipBlanks (us ++ rest) (s.tokens_skipBlanks.trans next) (by omega)
      (derived.startsWith_redr (ends.not_startsWith (by decide)))
    have bound := s₁.length_tokens_le
    rw [rem, List.length_append] at bound
    obtain ⟨s₂, parsedArgs, rem, errorsArgs⟩ := parseArgs_returns derived (s₁.rest.length + 1) []
      rs s₁ rest rem (by omega) (Nat.lt_succ_of_le few) ends
    refine ⟨s₂, ?_, rem, by rw [errorsArgs, errors]; rfl⟩
    rw [missing, parsed]
    exact parsedArgs

theorem parseSubs_returns
    (line : ∀ {ts cmd}, Line ts cmd → ∀ s rest, s.tokens = ts ++ rest → 4 * ts.length + 4 ≤ fuel →
      Ends afterLine rest → Returns s (parseLine fuel s) cmd rest) {lpar rpar : Span} (derived : Line ts cmd)
    (redrs : Redrs us rs) (s : Scanner) (rest : List Token)
    (next : s.tokens = ⟨.lpar, lpar⟩ :: (ts ++ ⟨.rpar, rpar⟩ :: us) ++ rest)
    (enough : 4 * (ts.length + us.length + 2) + 1 ≤ fuel + 1) (ends : Ends afterExec rest) :
    Returns s (parseSubs (fuel + 1) s) ((Cmd.subs cmd).wrap rs) rest := by
  rw [List.cons_append, List.append_assoc, List.cons_append] at next
  have found : startsWith ['('] s.tokens = true := by rw [next]; rfl
  obtain ⟨s₁, taken, rem, errors⟩ := Scanner.getToken_cons (s.tokens_skipBlanks.trans next)
  obtain ⟨s₂, parsed, rem, errorsLine⟩ := line derived s₁ _ rem (by omega)
    (show Kind.rpar ∈ afterLine by decide)
  have foundRpar : startsWith [')'] s₂.tokens = true := by rw [rem]; rfl
  obtain ⟨s₃, takenRpar, rem, errorsRpar⟩ :=
    Scanner.getToken_cons (s₂.tokens_skipBlanks.trans rem)
  have bound := s₃.length_tokens_le
  rw [rem, List.length_append] at bound
  obtain ⟨s₄, parsedRedr, rem, errorsRedr⟩ := parseRedr_returns redrs (s₃.rest.length + 1)
    (.subs cmd) s₃ rest rem (by omega) (ends.not_startsWith (by decide))
  refine ⟨s₄, ?_, rem, by rw [errorsRedr, errorsRpar, s₂.errors_skipBlanks, errorsLine, errors]; rfl⟩
  rw [parseSubs]
  simp only [s.peek_eq (by decide : ['('].all isSymbol = true), found, if_true, taken]
  rw [show assert (Kind.lpar.code = '(') = .ok () from rfl]
  simp only [bind, Except.bind, parsed, s₂.peek_eq (by decide : [')'].all isSymbol = true), foundRpar,
    if_true, takenRpar]
  exact parsedRedr

theorem parse_returns (fuel : Nat) :
    (∀ {ts cmd}, Line ts cmd → ∀ s rest, s.tokens = ts ++ rest → 4 * ts.length + 4 ≤ fuel →
      Ends afterLine rest → Returns s (parseLine fuel s) cmd rest) ∧
    (∀ {ts cmd}, Pipe ts cmd → ∀ s rest, s.tokens = ts ++ rest → 4 * ts.length + 3 ≤ fuel →
      Ends afterPipe rest → Returns s (parsePipe fuel s) cmd rest) ∧
    (∀ {ts cmd}, Exec ts cmd → ∀ s rest, s.tokens = ts ++ rest → 4 * ts.length + 2 ≤ fuel →
      Ends afterExec rest → Returns s (parseExec fuel s) cmd rest) ∧
    (∀ {ts us cmd rs lpar rpar}, Line ts cmd → Redrs us rs → ∀ s rest,
      s.tokens = ⟨.lpar, lpar⟩ :: (ts ++ ⟨.rpar, rpar⟩ :: us) ++ rest →
      4 * (ts.length + us.length + 2) + 1 ≤ fuel → Ends afterExec rest →
      Returns s (parseSubs fuel s) ((Cmd.subs cmd).wrap rs) rest) := by
  induction fuel with
  | zero =>
    refine ⟨?_, ?_, ?_, ?_⟩
    all_goals
      intros
      omega
  | succ fuel ih =>
    obtain ⟨line, pipe, exec, subs⟩ := ih
    exact ⟨parseLine_returns pipe line, parsePipe_returns exec pipe, parseExec_returns subs,
      parseSubs_returns line⟩

/-! ## The parser accepts exactly the grammar -/

/-- The tokens of a line. -/
def CommandLine.tokens (line : CommandLine) : List Token := lex 0 line.chars

theorem isEmpty_rest_skipBlanks (s : Scanner) : s.skipBlanks.rest.isEmpty = true ↔ s.tokens = [] := by
  cases ahead : s.skipBlanks.rest with
  | nil => simp [Scanner.tokens_nil ahead]
  | cons c cs =>
    obtain ⟨kind, length, next, -⟩ := Scanner.tokens_cons ahead
    simp [next]

theorem parseLine_parses_chars (line : CommandLine) :
    Parses ⟨0, line.chars, []⟩ Line (parseLine (4 * line.chars.length + 4) ⟨0, line.chars, []⟩) := by
  have bound := Scanner.length_tokens_le ⟨0, line.chars, []⟩
  exact (parse_parses _).1 ⟨0, line.chars, []⟩ (by simp only at bound; omega)

theorem parseCmd_ne_outOfFuel (line : CommandLine) : parseCmd line ≠ .error .outOfFuel := by
  have parses := parseLine_parses_chars line
  rw [parseCmd]
  cases res : parseLine (4 * line.chars.length + 4) ⟨0, line.chars, []⟩ with
  | ok parsed => simp [bind, Except.bind]
  | error stop =>
    rw [res] at parses
    intro same
    cases same
    exact parses rfl

theorem line_of_parseCmd {line : CommandLine} (parsed : parseCmd line = .ok (cmd, [])) : Line line.tokens cmd := by
  have parses := parseLine_parses_chars line
  rw [parseCmd] at parsed
  cases res : parseLine (4 * line.chars.length + 4) ⟨0, line.chars, []⟩ with
  | error stop =>
    rw [res] at parsed
    cases parsed
  | ok out =>
    obtain ⟨out, s⟩ := out
    rw [res] at parsed parses
    simp only [bind, Except.bind, s.peek_eq (by decide : [].all isSymbol = true)] at parsed
    split at parsed
    next done =>
      simp only [Except.ok.injEq, Prod.mk.injEq] at parsed
      obtain ⟨rfl, silent⟩ := parsed
      have silent : s.errors = [] := silent
      obtain ⟨ts, taken, derived⟩ := parses.derives (by rw [silent])
      rw [(isEmpty_rest_skipBlanks s).mp done, List.append_nil] at taken
      exact (show line.tokens = ts from taken) ▸ derived
    next =>
      simp only [Except.ok.injEq, Prod.mk.injEq] at parsed
      cases parsed.2

theorem parseCmd_of_line {line : CommandLine} (derived : Line line.tokens cmd) : parseCmd line = .ok (cmd, []) := by
  have bound := Scanner.length_tokens_le ⟨0, line.chars, []⟩
  obtain ⟨s, parsed, rem, errors⟩ := (parse_returns (4 * line.chars.length + 4)).1 derived
    ⟨0, line.chars, []⟩ [] (List.append_nil _).symm (Nat.add_le_add_right (Nat.mul_le_mul_left 4 bound) 4)
    trivial
  have done : s.skipBlanks.rest.isEmpty = true := (isEmpty_rest_skipBlanks s).mpr rem
  rw [parseCmd, parsed]
  simp only [bind, Except.bind, s.peek_eq (by decide : [].all isSymbol = true), done, if_true,
    s.errors_skipBlanks, errors]

/-- `parse_cmd` returns `cmd` and prints nothing exactly if the line's tokens
derive from the grammar with the tree `cmd`. -/
theorem parseCmd_iff_line (line : CommandLine) :
    parseCmd line ≠ .error .outOfFuel ∧
      ∀ cmd, parseCmd line = .ok (cmd, []) ↔ Line line.tokens cmd :=
  ⟨parseCmd_ne_outOfFuel line, fun _ => ⟨line_of_parseCmd, parseCmd_of_line⟩⟩

end Xv6Simplesh.Shell
