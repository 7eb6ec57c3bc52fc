import Xv6Simplesh.Shell.Grammar

/-! # Every parse without messages is a derivation

`Reads s s' D` says what a piece of the parser did between two positions of the
scanner: it took tokens away, it printed messages or none, and if it printed none
then the tokens it took satisfy `D`.  The procedures of the parser are chains of
such pieces.  The same induction shows that the bounds on calls and iterations
never run out, because every call and iteration that comes back to the same
procedure has taken a token.
-/

namespace Xv6Simplesh.Shell

structure Reads (s s' : Scanner) (D : List Token → Prop) : Prop where
  errors : s.errors.length ≤ s'.errors.length
  tokens : s'.tokens.length ≤ s.tokens.length
  derives : s'.errors.length = s.errors.length → ∃ ts, s.tokens = ts ++ s'.tokens ∧ D ts

variable {ts : List Token} {kind : Kind} {fuel : Nat}

namespace Reads

variable {s s' s'' : Scanner} {D E F : List Token → Prop}

theorem trans (first : Reads s s' D) (snd : Reads s' s'' E)
    (join : ∀ ts us, D ts → E us → F (ts ++ us)) : Reads s s'' F := by
  refine ⟨Nat.le_trans first.errors snd.errors, Nat.le_trans snd.tokens first.tokens, ?_⟩
  intro silent
  have firstErrors := first.errors
  have secondErrors := snd.errors
  obtain ⟨ts, taken, derives⟩ := first.derives (by omega)
  obtain ⟨us, takenNext, derivesNext⟩ := snd.derives (by omega)
  exact ⟨ts ++ us, by rw [taken, takenNext, List.append_assoc], join ts us derives derivesNext⟩

theorem mono (reads : Reads s s' D) (weaken : ∀ ts, D ts → E ts) : Reads s s' E := by
  refine ⟨reads.errors, reads.tokens, fun silent => ?_⟩
  obtain ⟨ts, taken, derives⟩ := reads.derives silent
  exact ⟨ts, taken, weaken ts derives⟩

theorem skipBlanks (s : Scanner) : Reads s s.skipBlanks (· = []) :=
  ⟨by simp, by simp, fun _ => ⟨[], by simp, rfl⟩⟩

theorem error (s : Scanner) (message : String) : Reads s (s.error message) (fun _ => False) :=
  ⟨by simp, by simp, by simp⟩

theorem followedBy (first : Reads s s' D) (snd : Reads s' s'' E) :
    Reads s s'' (fun ts => ∃ us vs, ts = us ++ vs ∧ D us ∧ E vs) :=
  first.trans snd fun us vs derives derivesNext => ⟨us, vs, rfl, derives, derivesNext⟩

theorem append {us : List Token} (first : Reads s s' (· = ts)) (snd : Reads s' s'' (· = us)) :
    Reads s s'' (· = ts ++ us) :=
  first.trans snd (by rintro _ _ rfl rfl; rfl)

theorem token {token : Token} {ahead : List Token} (next : s.tokens = token :: ahead)
    (rem : s'.tokens = ahead) (errors : s'.errors = s.errors) : Reads s s' (· = [token]) := by
  refine ⟨by rw [errors], ?_, fun _ => ⟨[token], ?_, rfl⟩⟩
  · rw [next, rem, List.length_cons]
    omega
  · rw [next, rem]
    rfl

theorem peeked {token : Token} {ahead : List Token} (next : s.tokens = token :: ahead) :
    ∃ s', s.skipBlanks.getToken = (token.kind.code, token.span, s') ∧ s'.tokens = ahead ∧
      Reads s s' (· = [token]) := by
  obtain ⟨s', taken, rem, errors⟩ := Scanner.getToken_cons (s.tokens_skipBlanks.trans next)
  exact ⟨s', taken, rem, Reads.token next rem errors⟩

end Reads

/-- What the result of a procedure that starts at `s` has to satisfy. -/
def Parses (s : Scanner) (D : List Token → Cmd → Prop) : Result → Prop
  | .ok (cmd, s') => Reads s s' (D · cmd)
  | .error stop => stop ≠ .outOfFuel

namespace Parses

variable {s s' : Scanner} {D E : List Token → Cmd → Prop}

theorem bind {res : Result} {next : Cmd × Scanner → Result} (first : Parses s' D res)
    (snd : ∀ cmd s'', Reads s' s'' (D · cmd) → Parses s E (next (cmd, s''))) : Parses s E (res >>= next) := by
  match res, first with
  | .ok (cmd, s''), reads => exact snd cmd s'' reads
  | .error stop, other => exact other

theorem assert {condition : Bool} {next : Unit → Result} (parses : Parses s E (next ())) :
    Parses s E (assert condition >>= next) := by
  cases condition with
  | true => exact parses
  | false => exact Stop.noConfusion

theorem after {res : Result} {F : List Token → Prop} (first : Reads s s' F)
    (snd : Parses s' D res) (join : ∀ ts us cmd, F ts → D us cmd → E (ts ++ us) cmd) : Parses s E res := by
  match res, snd with
  | .ok (cmd, _), reads => exact first.trans reads (fun ts us => join ts us cmd)
  | .error stop, other => exact other

end Parses

/-! ## What `peek` tells -/

theorem exists_redr_of_startsWith (found : startsWith ['<', '>'] ts = true) :
    ∃ kind span ahead make, ts = ⟨kind, span⟩ :: ahead ∧ kind.redr? = some make := by
  match ts, found with
  | ⟨kind, span⟩ :: ahead, found =>
    have redr : kind.redr?.isSome = true := by
      cases kind <;> first | rfl | cases found
    obtain ⟨make, redr⟩ := Option.isSome_iff_exists.mp redr
    exact ⟨kind, span, ahead, make, rfl, redr⟩

/-- `peek` with one delimiter other than `>` finds one symbol only. -/
theorem exists_of_startsWith (kind : Kind) (found : startsWith [kind.code] ts = true)
    (symbol : kind ∈ [Kind.bar, .lpar, .rpar, .semi, .amp]) : ∃ span ahead, ts = ⟨kind, span⟩ :: ahead := by
  match ts, found with
  | ⟨other, span⟩ :: ahead, found =>
    have same : other = kind := by
      cases kind <;> first | (simp at symbol; done) | (cases other <;> first | rfl | cases found)
    exact ⟨span, ahead, by rw [same]⟩

theorem redrcmd_code {make : Span → Redr} (redr : kind.redr? = some make)
    (cmd : Cmd) (file : Span) : redrcmd kind.code cmd file = .redr cmd (make file) := by
  cases kind <;> cases redr <;> rfl

theorem assert_redr {make : Span → Redr} (redr : kind.redr? = some make) :
    assert (kind.code = '<' || kind.code = '>' || kind.code = '+') = .ok () := by
  cases kind <;> cases redr <;> rfl

theorem code_ne_nul (kind : Kind) : (kind.code = '\x00') = False := by
  cases kind <;> simp [Kind.code]

theorem code_eq_arg : kind.code = 'a' ↔ kind = .arg := by
  cases kind <;> decide

theorem Reads.orError {s s' : Scanner} {token : Token} (reads : Reads s s' (· = [token])) (message : String) :
    Reads s (if token.kind.code = 'a' then s' else s'.error message) (· = [⟨.arg, token.span⟩]) := by
  split
  next argument =>
    rw [← code_eq_arg.mp argument]
    exact reads
  next => exact reads.trans (Reads.error s' message) (fun _ _ _ impossible => impossible.elim)

theorem reads_arg (s : Scanner) (message : String) :
    ∃ code span s', s.getToken = (code, span, s') ∧
      Reads s (if code = 'a' then s' else s'.error message) (· = [⟨.arg, span⟩]) := by
  cases next : s.tokens with
  | nil =>
    obtain ⟨span, s', taken, rem, errors⟩ := Scanner.getToken_nil next
    refine ⟨_, _, _, taken, ?_⟩
    rw [if_neg (by decide)]
    exact ⟨by simp [errors], by simp [next, rem], by simp [errors]⟩
  | cons token ahead =>
    obtain ⟨s', taken, rem, errors⟩ := Scanner.getToken_cons next
    exact ⟨_, _, _, taken, (Reads.token next rem errors).orError message⟩

/-! ## The loops -/

theorem parseRedr_parses (fuel : Nat) : ∀ (cmd : Cmd) (s : Scanner), s.tokens.length < fuel →
    Parses s (fun ts out => ∃ rs, Redrs ts rs ∧ out = cmd.wrap rs) (parseRedr fuel cmd s) := by
  induction fuel with
  | zero =>
    intro cmd s enough
    omega
  | succ fuel ih =>
    intro cmd s enough
    simp only [parseRedr, s.peek_eq (by decide : ['<', '>'].all isSymbol = true)]
    split
    next found =>
      obtain ⟨kind, span, ahead, make, next, redr⟩ := exists_redr_of_startsWith found
      obtain ⟨s₁, taken, rem, reads⟩ := Reads.peeked next
      obtain ⟨code, file, s₂, takenFile, readsFile⟩ :=
        reads_arg s₁ "parse_redr: error sintáctico: se esperaba un fichero"
      have shorter : s₁.tokens.length < fuel := by
        rw [next, List.length_cons] at enough
        rw [rem]
        omega
      rw [taken, takenFile]
      simp only [assert_redr redr, redrcmd_code redr]
      refine Parses.after (reads.append readsFile)
        (ih _ _ (Nat.lt_of_le_of_lt readsFile.tokens shorter)) ?_
      rintro _ us out rfl ⟨rs, derived, rfl⟩
      exact ⟨make file :: rs, .cons redr derived, rfl⟩
    next =>
      exact (Reads.skipBlanks s).mono fun ts empty => ⟨[], empty ▸ .nil, rfl⟩

theorem parseBack_parses (fuel : Nat) : ∀ (cmd : Cmd) (s : Scanner), s.tokens.length < fuel →
    Parses s (fun ts out => ∃ count, Amps ts count ∧ out = Cmd.back^[count] cmd)
      (parseBack fuel cmd s) := by
  induction fuel with
  | zero =>
    intro cmd s enough
    omega
  | succ fuel ih =>
    intro cmd s enough
    simp only [parseBack, s.peek_eq (by decide : ['&'].all isSymbol = true)]
    split
    next found =>
      obtain ⟨span, ahead, next⟩ := exists_of_startsWith .amp found (by decide)
      obtain ⟨s₁, taken, rem, reads⟩ := Reads.peeked next
      have shorter : s₁.tokens.length < fuel := by
        rw [next, List.length_cons] at enough
        rw [rem]
        omega
      rw [taken]
      refine Parses.after reads (ih _ _ shorter) ?_
      rintro _ us out rfl ⟨count, derived, rfl⟩
      exact ⟨count + 1, .cons derived, rfl⟩
    next =>
      exact (Reads.skipBlanks s).mono fun ts empty => ⟨0, empty ▸ .nil, rfl⟩

/-! ## Arguments -/

theorem addArg_wrap (redrs : List Redr) : ∀ (cmd : Cmd) (span : Span) (argc : Nat),
    (cmd.wrap redrs).addArg span argc = (cmd.addArg span argc).wrap redrs := by
  induction redrs with
  | nil => intro cmd span argc; rfl
  | cons redr redrs ih =>
    intro cmd span argc
    exact ih (.redr cmd redr) span argc

theorem wrap_append (cmd : Cmd) (first snd : List Redr) :
    cmd.wrap (first ++ snd) = (cmd.wrap first).wrap snd := List.foldl_append

/-- What the loop of `parse_exec` adds to a command with `argc` arguments. -/
def ArgsFrom (argc : Nat) (ret : Cmd) (ts : List Token) (out : Cmd) : Prop :=
  ∀ argv rs, argv.length = argc → ret = (Cmd.exec argv argc).wrap rs →
    ∃ args rs', Args ts args rs' ∧ (argv ++ args).length < maxArgs ∧
      out = (Cmd.exec (argv ++ args) (argv ++ args).length).wrap (rs ++ rs')

theorem ArgsFrom.nil {argc : Nat} (few : argc < maxArgs) (ret : Cmd) : ArgsFrom argc ret [] ret := by
  rintro argv rs rfl rfl
  exact ⟨[], [], .nil, by simpa using few, by simp⟩

theorem ArgsFrom.cons {argc : Nat} {ret out : Cmd} {arg : Span} {us : List Token} {rs : List Redr}
    (redrs : Redrs ts rs) (rest : ArgsFrom (argc + 1) ((ret.addArg arg (argc + 1)).wrap rs) us out) :
    ArgsFrom argc ret (⟨.arg, arg⟩ :: (ts ++ us)) out := by
  rintro argv before rfl rfl
  obtain ⟨args, rs', derived, few, rfl⟩ := rest (argv ++ [arg]) (before ++ rs) (by simp)
    (by rw [addArg_wrap, wrap_append, Cmd.addArg])
  rw [List.append_assoc, List.singleton_append] at few ⊢
  exact ⟨arg :: args, rs ++ rs', .cons redrs derived, few, by rw [List.append_assoc]⟩

theorem parseArgs_parses (fuel : Nat) : ∀ (argc : Nat) (ret : Cmd) (s : Scanner),
    argc < maxArgs → s.tokens.length < fuel → Parses s (ArgsFrom argc ret) (parseArgs fuel argc ret s) := by
  induction fuel with
  | zero =>
    intro argc ret s few enough
    omega
  | succ fuel ih =>
    intro argc ret s few enough
    simp only [parseArgs, s.peek_eq (by decide : ['|', ')', '&', ';'].all isSymbol = true)]
    split
    next => exact (Reads.skipBlanks s).mono fun ts empty => empty ▸ ArgsFrom.nil few ret
    next =>
      cases next : s.tokens with
      | nil =>
        obtain ⟨span, s₁, taken, rem, errors⟩ :=
          Scanner.getToken_nil (s.tokens_skipBlanks.trans next)
        rw [taken]
        exact ⟨by simp [errors], by simp [rem],
          fun _ => ⟨[], by simp [next, rem], ArgsFrom.nil few ret⟩⟩
      | cons token ahead =>
        obtain ⟨s₁, taken, rem, reads⟩ := Reads.peeked next
        have shorter : s₁.tokens.length < fuel := by
          rw [next, List.length_cons] at enough
          rw [rem]
          omega
        have readsArg := reads.orError "parse_exec: error sintáctico: se esperaba un argumento\n"
        rw [taken]
        simp only [code_ne_nul, if_false]
        generalize stored : (if token.kind.code = 'a' then s₁
          else s₁.error "parse_exec: error sintáctico: se esperaba un argumento\n") = s₂ at readsArg
        have shorter₂ : s₂.tokens.length < fuel := by
          rw [← stored]
          split <;> simpa using shorter
        split
        next => exact Stop.noConfusion
        next few =>
          refine Parses.bind (parseRedr_parses _ _ s₂ (Nat.lt_succ_of_le s₂.length_tokens_le)) ?_
          intro out s₃ readsRedr
          refine Parses.after (readsArg.followedBy readsRedr) (ih _ out s₃ (by omega)
            (Nat.lt_of_le_of_lt readsRedr.tokens shorter₂)) ?_
          rintro _ us out ⟨_, ts, rfl, rfl, rs, redrs, rfl⟩ rest
          exact ArgsFrom.cons redrs rest

/-! ## Procedures -/

/-- The check before `|` and `;` that there is a command on the left, and the
symbol itself. -/
theorem reads_separator {s : Scanner} {token : Token} {ahead : List Token}
    (next : s.tokens = token :: ahead) (cmd : Cmd) (message : String) :
    ∃ s', (if cmd.isEmptyExec then s.skipBlanks.error message else s.skipBlanks).getToken =
        (token.kind.code, token.span, s') ∧ s'.tokens = ahead ∧
      Reads s s' (fun ts => ts = [token] ∧ cmd ≠ .exec [] 0) := by
  have next : s.skipBlanks.tokens = token :: ahead := s.tokens_skipBlanks.trans next
  split
  next =>
    obtain ⟨s', taken, rem, errors⟩ :=
      Scanner.getToken_cons (s := s.skipBlanks.error message) next
    have readsToken : Reads (s.error message) s' (· = [token]) :=
      Reads.token (s.tokens_skipBlanks.symm.trans next) rem errors
    refine ⟨s', taken, rem, ((Reads.error s message).followedBy readsToken).mono ?_⟩
    rintro _ ⟨_, _, _, impossible, _⟩
    exact impossible.elim
  next command =>
    obtain ⟨s', taken, rem, errors⟩ := Scanner.getToken_cons next
    have readsToken : Reads s s' (· = [token]) :=
      Reads.token (s.tokens_skipBlanks.symm.trans next) rem errors
    refine ⟨s', taken, rem, readsToken.mono ?_⟩
    rintro _ rfl
    refine ⟨rfl, ?_⟩
    rintro rfl
    exact command rfl

theorem parsePipe_parses (exec : ∀ s : Scanner, 4 * s.tokens.length + 2 ≤ fuel → Parses s Exec (parseExec fuel s))
    (pipe : ∀ s : Scanner, 4 * s.tokens.length + 3 ≤ fuel → Parses s Pipe (parsePipe fuel s))
    (s : Scanner) (enough : 4 * s.tokens.length + 3 ≤ fuel + 1) : Parses s Pipe (parsePipe (fuel + 1) s) := by
  rw [parsePipe]
  refine Parses.bind (exec s (by omega)) ?_
  intro cmd s₁ readsExec
  simp only [s₁.peek_eq (by decide : ['|'].all isSymbol = true)]
  split
  next found =>
    obtain ⟨span, ahead, next⟩ := exists_of_startsWith .bar found (by decide)
    obtain ⟨s₂, taken, rem, readsBar⟩ := reads_separator next cmd
      "parse_pipe: error sintáctico: no se encontró comando\n"
    have shorter : s₂.tokens.length < s₁.tokens.length := by
      rw [next, rem, List.length_cons]
      omega
    have fewer := readsExec.tokens
    rw [taken]
    refine Parses.bind (pipe s₂ (by omega)) ?_
    intro right s₃ readsRight
    refine (readsExec.followedBy (readsBar.followedBy readsRight)).mono ?_
    rintro _ ⟨ts, _, rfl, derived, _, us, rfl, ⟨rfl, command⟩, rest⟩
    exact .pipe derived command rest
  next =>
    refine (readsExec.followedBy (Reads.skipBlanks s₁)).mono ?_
    rintro _ ⟨ts, _, rfl, derived, rfl⟩
    rw [List.append_nil]
    exact .last derived

theorem parseLine_parses (pipe : ∀ s : Scanner, 4 * s.tokens.length + 3 ≤ fuel → Parses s Pipe (parsePipe fuel s))
    (line : ∀ s : Scanner, 4 * s.tokens.length + 4 ≤ fuel → Parses s Line (parseLine fuel s))
    (s : Scanner) (enough : 4 * s.tokens.length + 4 ≤ fuel + 1) : Parses s Line (parseLine (fuel + 1) s) := by
  rw [parseLine]
  refine Parses.bind (pipe s (by omega)) ?_
  intro cmd s₁ readsPipe
  refine Parses.bind (parseBack_parses _ cmd s₁ (Nat.lt_succ_of_le s₁.length_tokens_le)) ?_
  intro cmd s₂ readsBack
  have reads := readsPipe.followedBy readsBack
  simp only [s₂.peek_eq (by decide : [';'].all isSymbol = true)]
  split
  next found =>
    obtain ⟨span, ahead, next⟩ := exists_of_startsWith .semi found (by decide)
    obtain ⟨s₃, taken, rem, readsSemi⟩ := reads_separator next cmd
      "parse_line: error sintáctico: no se encontró comando\n"
    have shorter : s₃.tokens.length < s₂.tokens.length := by
      rw [next, rem, List.length_cons]
      omega
    have fewer := reads.tokens
    rw [taken]
    refine Parses.bind (line s₃ (by omega)) ?_
    intro right s₄ readsRight
    refine (reads.followedBy (readsSemi.followedBy readsRight)).mono ?_
    rintro _ ⟨_, _, rfl, ⟨ts, amps, rfl, derived, count, back, rfl⟩, _, us, rfl, ⟨rfl, command⟩, rest⟩
    exact .list derived back command rest
  next =>
    refine (reads.followedBy (Reads.skipBlanks s₂)).mono ?_
    rintro _ ⟨_, _, rfl, ⟨ts, amps, rfl, derived, count, back, rfl⟩, rfl⟩
    rw [List.append_nil]
    exact .last derived back

theorem parseExec_parses
    (subs : ∀ (s : Scanner) (span : Span) (ahead : List Token), s.tokens = ⟨.lpar, span⟩ :: ahead →
      4 * s.tokens.length + 1 ≤ fuel → Parses s Exec (parseSubs fuel s))
    (s : Scanner) (enough : 4 * s.tokens.length + 2 ≤ fuel + 1) : Parses s Exec (parseExec (fuel + 1) s) := by
  rw [parseExec]
  simp only [s.peek_eq (by decide : ['('].all isSymbol = true)]
  split
  next found =>
    obtain ⟨span, ahead, next⟩ := exists_of_startsWith .lpar found (by decide)
    rw [← s.tokens_skipBlanks] at next enough
    refine Parses.after (Reads.skipBlanks s) (subs _ span ahead next (by omega)) ?_
    rintro _ us cmd rfl derived
    exact derived
  next =>
    refine Parses.bind (parseRedr_parses _ (.exec [] 0) s.skipBlanks
      (Nat.lt_succ_of_le (Scanner.length_tokens_le _))) ?_
    intro ret s₁ readsRedr
    refine Parses.after ((Reads.skipBlanks s).followedBy readsRedr)
      (parseArgs_parses _ 0 ret s₁ (by decide) (Nat.lt_succ_of_le s₁.length_tokens_le)) ?_
    rintro _ us cmd ⟨_, ts, rfl, rfl, rs, redrs, rfl⟩ args
    obtain ⟨args, rs', derived, few, rfl⟩ := args [] rs rfl rfl
    exact .exec redrs derived (Nat.le_pred_of_lt few)

theorem reads_getToken (s : Scanner) :
    ∃ code span s', s.getToken = (code, span, s') ∧ Reads s s' (fun _ => True) := by
  cases next : s.tokens with
  | nil =>
    obtain ⟨span, s', taken, rem, errors⟩ := Scanner.getToken_nil next
    refine ⟨_, _, _, taken, by simp [errors], by simp [rem], ?_⟩
    exact fun _ => ⟨[], by simp [next, rem]⟩
  | cons token ahead =>
    obtain ⟨s', taken, rem, errors⟩ := Scanner.getToken_cons next
    exact ⟨_, _, _, taken, (Reads.token next rem errors).mono fun _ _ => trivial⟩

theorem parseSubs_parses (line : ∀ s : Scanner, 4 * s.tokens.length + 4 ≤ fuel → Parses s Line (parseLine fuel s))
    (s : Scanner) (span : Span) (ahead : List Token) (next : s.tokens = ⟨.lpar, span⟩ :: ahead)
    (enough : 4 * s.tokens.length + 1 ≤ fuel + 1) : Parses s Exec (parseSubs (fuel + 1) s) := by
  rw [parseSubs]
  obtain ⟨s₁, taken, rem, readsLpar⟩ := Reads.peeked next
  have shorter : s₁.tokens.length < s.tokens.length := by
    rw [next, rem, List.length_cons]
    omega
  have found : startsWith ['('] s.tokens = true := by rw [next]; rfl
  simp only [s.peek_eq (by decide : ['('].all isSymbol = true), found, if_true, taken]
  refine Parses.bind (line s₁ (by omega)) ?_
  intro cmd s₂ readsLine
  simp only [s₂.peek_eq (by decide : [')'].all isSymbol = true)]
  split
  next found =>
    obtain ⟨rpar, ahead', next⟩ := exists_of_startsWith .rpar found (by decide)
    obtain ⟨s₃, taken, rem, readsRpar⟩ := Reads.peeked next
    rw [taken]
    refine Parses.after (readsLpar.followedBy (readsLine.followedBy readsRpar))
      (parseRedr_parses _ (.subs cmd) s₃ (Nat.lt_succ_of_le s₃.length_tokens_le)) ?_
    rintro _ us out ⟨_, _, rfl, rfl, ts, _, rfl, derived, rfl⟩ ⟨rs, redrs, rfl⟩
    rw [List.append_assoc, List.append_assoc]
    exact .subs derived redrs
  next =>
    -- the message excludes a derivation, whatever the parser goes on to read
    have readsError := (Reads.skipBlanks s₂).followedBy
      (Reads.error s₂.skipBlanks "parse_subs: error sintáctico: se esperaba ')'")
    obtain ⟨code, span, s₃, taken, readsToken⟩ := reads_getToken
      (s₂.skipBlanks.error "parse_subs: error sintáctico: se esperaba ')'")
    rw [taken]
    refine Parses.assert (Parses.after (readsLpar.followedBy (readsLine.followedBy
      (readsError.followedBy readsToken)))
      (parseRedr_parses _ (.subs cmd) s₃ (Nat.lt_succ_of_le s₃.length_tokens_le)) ?_)
    rintro _ us out ⟨_, _, -, -, _, _, -, -, _, _, -, ⟨_, _, -, -, impossible⟩, -⟩ _
    exact impossible.elim

theorem parse_parses (fuel : Nat) :
    (∀ s : Scanner, 4 * s.tokens.length + 4 ≤ fuel → Parses s Line (parseLine fuel s)) ∧
    (∀ s : Scanner, 4 * s.tokens.length + 3 ≤ fuel → Parses s Pipe (parsePipe fuel s)) ∧
    (∀ s : Scanner, 4 * s.tokens.length + 2 ≤ fuel → Parses s Exec (parseExec fuel s)) ∧
    ∀ (s : Scanner) (span : Span) (ahead : List Token), s.tokens = ⟨.lpar, span⟩ :: ahead →
      4 * s.tokens.length + 1 ≤ fuel → Parses s Exec (parseSubs fuel s) := by
  induction fuel with
  | zero => exact ⟨by omega, by omega, by omega, by omega⟩
  | succ fuel ih =>
    obtain ⟨line, pipe, exec, subs⟩ := ih
    exact ⟨parseLine_parses pipe line, parsePipe_parses exec pipe, parseExec_parses subs,
      parseSubs_parses line⟩

end Xv6Simplesh.Shell
