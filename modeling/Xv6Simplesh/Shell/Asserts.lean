import Xv6Simplesh.Shell.ParserComplete

/-! # The asserts of the parser

Most of the asserts repeat what a `peek` has just found.  The one behind the line of a block does
not: `parse_subs` prints that it expected `)` and then asserts that it has read one.  `closes`
follows the tokens of a line with a phase and the number of open blocks, and says whether every
block that is opened gets its `)` where the parser expects it.
-/

namespace Xv6Simplesh.Shell

/-! ## Blocks -/

/-- Where in a command the next token stands. -/
inductive Phase where
  | start
  /-- Behind this many arguments. -/
  | args (argc : Nat)
  /-- Behind the symbol of a redirection, in a command with this many arguments. -/
  | file (argc : Nat)
  /-- Behind a block. -/
  | block
  /-- Behind the symbol of a redirection of a block. -/
  | blockFile
  /-- Behind `&`. -/
  | background
deriving DecidableEq, Repr

/-- What a token leads to: another phase and number of open blocks, the end of the parse, or an
assert that fails. -/
inductive Move where
  | go (phase : Phase) (depth : Nat)
  | ends
  | fails
deriving DecidableEq, Repr

/-- The line of the innermost block has ended, and something else than `)` follows. -/
def Move.other (depth : Nat) : Move := if depth = 0 then .ends else .fails

/-- A token behind a command. -/
def Move.separator (depth : Nat) : Kind → Move
  | .bar => .go .start depth
  | .semi => .go .start depth
  | .amp => .go .background depth
  | .rpar => if depth = 0 then .ends else .go .block (depth - 1)
  | _ => .other depth

def Phase.move (depth : Nat) : Phase → Kind → Move
  | .start, .lpar => .go .start (depth + 1)
  -- a `(` that does not stand at the start of a command is taken for an argument
  | .start, .arg => .go (.args 1) depth
  | .start, .less | .start, .great | .start, .greatGreat => .go (.file 0) depth
  | .start, kind => .separator depth kind
  | .args argc, .arg | .args argc, .lpar =>
    if argc + 1 ≥ maxArgs then .ends else .go (.args (argc + 1)) depth
  | .args argc, .less | .args argc, .great | .args argc, .greatGreat => .go (.file argc) depth
  | .args _, kind => .separator depth kind
  | .file argc, _ => .go (.args argc) depth
  | .block, .less | .block, .great | .block, .greatGreat => .go .blockFile depth
  | .block, kind => .separator depth kind
  | .blockFile, _ => .go .block depth
  | .background, .bar => .other depth
  | .background, kind => .separator depth kind

/-- Every open block is closed where the parser expects it. -/
def closes : Phase → Nat → List Token → Bool
  | _, depth, [] => decide (depth = 0)
  | phase, depth, token :: tokens =>
    match phase.move depth token.kind with
    | .go next depth => closes next depth tokens
    | .ends => true
    | .fails => false

/-- The same for what follows the line of the innermost block. -/
def closesLine : Nat → List Token → Bool
  | 0, _ => true
  | _ + 1, [] => false
  | depth + 1, token :: tokens => decide (token.kind = .rpar) && closes .block depth tokens

/-! ## What the procedures do to the blocks -/

/-- A procedure takes the parse from `before` to `after`, unless it fails where `before` says so;
it stops at tokens that satisfy `E`. -/
def Follows (before after : Nat → List Token → Bool) (E : List Token → Prop) (s : Scanner) : Result → Prop
  | .ok (_, s') => (∀ depth, before depth s.tokens = after depth s'.tokens) ∧ E s'.tokens
  | .error .assertFailed => ∀ depth, before depth s.tokens = false
  | .error .tooManyArguments => ∀ depth, before depth s.tokens = true
  | .error .outOfFuel => True

variable {res : Result} {fuel : Nat}

namespace Follows

variable {before middle after : Nat → List Token → Bool} {E F : List Token → Prop} {s s' : Scanner}

theorem moved (same : ∀ depth, before depth s.tokens = middle depth s'.tokens)
    (tracks : Follows middle after E s' res) : Follows before after E s res := by
  match res, tracks with
  | .ok (cmd, s''), ⟨kept, stops⟩ => exact ⟨fun depth => (same depth).trans (kept depth), stops⟩
  | .error .assertFailed, fails => exact fun depth => (same depth).trans (fails depth)
  | .error .tooManyArguments, ends => exact fun depth => (same depth).trans (ends depth)
  | .error .outOfFuel, _ => trivial

theorem bind {next : Cmd × Scanner → Result} (first : Follows before middle E s res)
    (snd : ∀ cmd s', E s'.tokens → Follows middle after F s' (next (cmd, s'))) :
    Follows before after F s (res >>= next) := by
  match res, first with
  | .ok (cmd, s'), ⟨kept, stops⟩ => exact (snd cmd s' stops).moved kept
  | .error .assertFailed, fails => exact fails
  | .error .tooManyArguments, ends => exact ends
  | .error .outOfFuel, _ => trivial

/-- What holds for all numbers of blocks holds for one block more. -/
theorem deeper (tracks : Follows before after E s res) :
    Follows (fun depth => before (depth + 1)) (fun depth => after (depth + 1)) E s res := by
  match res, tracks with
  | .ok (cmd, s''), ⟨kept, stops⟩ => exact ⟨fun depth => kept (depth + 1), stops⟩
  | .error .assertFailed, fails => exact fun depth => fails (depth + 1)
  | .error .tooManyArguments, ends => exact fun depth => ends (depth + 1)
  | .error .outOfFuel, _ => trivial

end Follows

theorem closes_cons (phase : Phase) (depth : Nat) (token : Token) (tokens : List Token) :
    closes phase depth (token :: tokens) = match phase.move depth token.kind with
      | .go next depth => closes next depth tokens
      | .ends => true
      | .fails => false := rfl

/-- No redirection follows. -/
def NoRedr (ts : List Token) : Prop := startsWith ['<', '>'] ts = false

/-- `parse_redr`, in a phase that redirections lead back to. -/
theorem parseRedr_follows {phase file : Phase}
    (symbol : ∀ depth kind make, kind.redr? = some make → phase.move depth kind = .go file depth)
    (name : ∀ depth kind, file.move depth kind = .go phase depth) (fuel : Nat) : ∀ (cmd : Cmd) (s : Scanner),
    Follows (closes phase) (closes phase) NoRedr s (parseRedr fuel cmd s) := by
  induction fuel with
  | zero => exact fun _ _ => trivial
  | succ fuel ih =>
    intro cmd s
    simp only [parseRedr, s.peek_eq (by decide : ['<', '>'].all isSymbol = true)]
    split
    next found =>
      obtain ⟨kind, span, ahead, make, next, redr⟩ := exists_redr_of_startsWith found
      obtain ⟨s₁, taken, rem, -⟩ := Reads.peeked next
      rw [taken]
      simp only [assert_redr redr]
      -- the file is whatever token follows, if there is one
      cases after : s₁.tokens with
      | nil =>
        obtain ⟨span', s₂, takenFile, done, -⟩ := Scanner.getToken_nil after
        rw [takenFile]
        refine Follows.moved ?_ (ih _ _)
        intro depth
        have end₂ : (if '\x00' = 'a' then s₂ else s₂.error "parse_redr: error sintáctico: se esperaba un fichero").tokens
            = [] := done
        rw [end₂, next, ← rem, after, closes_cons, symbol depth kind make redr]
        rfl
      | cons token rest =>
        obtain ⟨s₂, takenFile, rest₂, -⟩ := Scanner.getToken_cons after
        rw [takenFile]
        refine Follows.moved ?_ (ih _ _)
        intro depth
        have tokens₂ : (if token.kind.code = 'a' then s₂
            else s₂.error "parse_redr: error sintáctico: se esperaba un fichero").tokens = rest := by
          split <;> exact rest₂
        rw [tokens₂, next, ← rem, after, closes_cons, symbol depth kind make redr]
        simp only [closes_cons, name]
    next missing =>
      refine ⟨fun depth => by rw [s.tokens_skipBlanks], ?_⟩
      rw [NoRedr, s.tokens_skipBlanks]
      simpa using missing

theorem args_redr (argc : Nat) : ∀ depth kind make, Kind.redr? kind = some make →
    (Phase.args argc).move depth kind = .go (.file argc) depth := by
  intro depth kind make redr
  cases kind <;> cases redr <;> rfl

theorem block_redr : ∀ depth kind make, Kind.redr? kind = some make →
    Phase.block.move depth kind = .go .blockFile depth := by
  intro depth kind make redr
  cases kind <;> cases redr <;> rfl

theorem parseArgs_follows (fuel : Nat) : ∀ (argc : Nat) (ret : Cmd) (s : Scanner), NoRedr s.tokens →
    Follows (closes (.args argc)) (closes .block) NoRedr s (parseArgs fuel argc ret s) := by
  induction fuel with
  | zero => exact fun _ _ _ _ => trivial
  | succ fuel ih =>
    intro argc ret s noRedr
    simp only [parseArgs, s.peek_eq (by decide : ['|', ')', '&', ';'].all isSymbol = true)]
    cases next : s.tokens with
    | nil =>
      -- the end of the line
      obtain ⟨span, s₁, taken, rem, -⟩ := Scanner.getToken_nil (s.tokens_skipBlanks.trans next)
      simp only [startsWith, Bool.false_eq_true, if_false, taken, if_true]
      refine ⟨fun depth => ?_, ?_⟩
      · rw [next, rem]
        rfl
      · rw [rem]
        rfl
    | cons token ahead =>
      split
      next found =>
        refine ⟨fun depth => ?_, ?_⟩
        · rw [s.tokens_skipBlanks, next, closes_cons, closes_cons]
          obtain ⟨kind, span⟩ := token
          cases kind <;> first | rfl | cases found
        · rwa [s.tokens_skipBlanks]
      next missing =>
        obtain ⟨s₁, taken, rem, -⟩ := Reads.peeked next
        rw [taken]
        simp only [code_ne_nul, if_false]
        have argument : ∀ depth, (Phase.args argc).move depth token.kind =
            if argc + 1 ≥ maxArgs then .ends else .go (.args (argc + 1)) depth := by
          intro depth
          rw [NoRedr, next] at noRedr
          obtain ⟨kind, span⟩ := token
          cases kind <;> first | rfl | exact absurd rfl missing | cases noRedr
        split
        next many =>
          intro depth
          rw [next, closes_cons, argument, if_pos many]
        next few =>
          refine Follows.moved ?_ (Follows.bind (parseRedr_follows (args_redr (argc + 1)) (fun _ _ => rfl) _ _ _)
            fun cmd s' => ih (argc + 1) cmd s')
          intro depth
          have ahead' : (if token.kind.code = 'a' then s₁
              else s₁.error "parse_exec: error sintáctico: se esperaba un argumento\n").tokens = ahead := by
            split <;> exact rem
          rw [next, closes_cons, argument, if_neg few, ahead']

theorem parseBack_follows (fuel : Nat) : ∀ (cmd : Cmd) (s : Scanner),
    Follows (closes .background) (closes .background) (startsWith ['&'] · = false) s (parseBack fuel cmd s) := by
  induction fuel with
  | zero => exact fun _ _ => trivial
  | succ fuel ih =>
    intro cmd s
    simp only [parseBack, s.peek_eq (by decide : ['&'].all isSymbol = true)]
    split
    next found =>
      obtain ⟨span, ahead, next⟩ := exists_of_startsWith .amp found (by decide)
      obtain ⟨s₁, taken, rem, -⟩ := Reads.peeked next
      rw [taken]
      refine Follows.moved ?_ (ih _ _)
      intro depth
      rw [next, rem]
      rfl
    next missing =>
      refine ⟨fun depth => by rw [s.tokens_skipBlanks], ?_⟩
      rw [s.tokens_skipBlanks]
      simpa using missing

/-- `get_token` for a separator, with or without a message before it. -/
theorem tokens_separator {s : Scanner} (kind : Kind) (symbol : kind ∈ [Kind.bar, .lpar, .rpar, .semi, .amp])
    (found : startsWith [kind.code] s.tokens = true) (complain : Bool) (message : String) :
    ∃ span span' s', (if complain then s.skipBlanks.error message else s.skipBlanks).getToken =
        (kind.code, span', s') ∧ s.tokens = ⟨kind, span⟩ :: s'.tokens := by
  obtain ⟨span, ahead, next⟩ := exists_of_startsWith kind found symbol
  have tokens : (if complain then s.skipBlanks.error message else s.skipBlanks).tokens = ⟨kind, span⟩ :: ahead := by
    split <;> exact s.tokens_skipBlanks.trans next
  obtain ⟨s', taken, rem, -⟩ := Scanner.getToken_cons tokens
  exact ⟨span, span, s', taken, by rw [next, rem]⟩

theorem parsePipe_follows (exec : ∀ s, Follows (closes .start) (closes .block) NoRedr s (parseExec fuel s))
    (pipe : ∀ s, Follows (closes .start) (closes .background) (fun _ => True) s (parsePipe fuel s)) (s : Scanner) :
    Follows (closes .start) (closes .background) (fun _ => True) s (parsePipe (fuel + 1) s) := by
  rw [parsePipe]
  refine Follows.bind (exec s) ?_
  intro cmd s₁ noRedr
  simp only [s₁.peek_eq (by decide : ['|'].all isSymbol = true)]
  split
  next found =>
    obtain ⟨span, span', s₂, taken, next⟩ := tokens_separator .bar (by decide) found cmd.isEmptyExec
      "parse_pipe: error sintáctico: no se encontró comando\n"
    rw [taken]
    refine Follows.moved ?_ (Follows.bind (pipe s₂) fun right s₃ _ => ⟨fun _ => rfl, trivial⟩)
    intro depth
    rw [next]
    rfl
  next missing =>
    refine ⟨fun depth => ?_, trivial⟩
    rw [s₁.tokens_skipBlanks]
    cases next : s₁.tokens with
    | nil => rfl
    | cons token ahead =>
      rw [NoRedr, next] at noRedr
      rw [next] at missing
      obtain ⟨kind, span⟩ := token
      cases kind <;> first | rfl | exact absurd rfl missing | cases noRedr

theorem parseLine_follows
    (pipe : ∀ s, Follows (closes .start) (closes .background) (fun _ => True) s (parsePipe fuel s))
    (line : ∀ s, Follows (closes .start) closesLine (fun _ => True) s (parseLine fuel s)) (s : Scanner) :
    Follows (closes .start) closesLine (fun _ => True) s (parseLine (fuel + 1) s) := by
  rw [parseLine]
  refine Follows.bind (pipe s) ?_
  intro cmd s₁ _
  refine Follows.bind (parseBack_follows _ cmd s₁) ?_
  intro cmd s₂ noAmp
  simp only [s₂.peek_eq (by decide : [';'].all isSymbol = true)]
  split
  next found =>
    obtain ⟨span, span', s₃, taken, next⟩ := tokens_separator .semi (by decide) found cmd.isEmptyExec
      "parse_line: error sintáctico: no se encontró comando\n"
    rw [taken]
    refine Follows.moved ?_ (Follows.bind (line s₃) fun right s₄ _ => ⟨fun _ => rfl, trivial⟩)
    intro depth
    rw [next]
    rfl
  next missing =>
    refine ⟨fun depth => ?_, trivial⟩
    rw [s₂.tokens_skipBlanks]
    cases next : s₂.tokens with
    | nil => cases depth <;> rfl
    | cons token ahead =>
      rw [next] at missing noAmp
      obtain ⟨kind, span⟩ := token
      cases depth with
      | zero => cases kind <;> first | rfl | exact absurd rfl missing | cases noAmp
      | succ depth => cases kind <;> first | rfl | exact absurd rfl missing | cases noAmp

theorem parseSubs_follows
    (line : ∀ s, Follows (closes .start) closesLine (fun _ => True) s (parseLine fuel s)) (s : Scanner)
    (found : startsWith ['('] s.tokens = true) :
    Follows (closes .start) (closes .block) NoRedr s (parseSubs (fuel + 1) s) := by
  rw [parseSubs]
  obtain ⟨span, ahead, next⟩ := exists_of_startsWith .lpar found (by decide)
  obtain ⟨s₁, taken, rem, -⟩ := Reads.peeked next
  simp only [s.peek_eq (by decide : ['('].all isSymbol = true), found, if_true, taken]
  refine Follows.moved ?_ (Follows.bind (line s₁).deeper ?_)
  · intro depth
    rw [next, rem]
    rfl
  intro cmd s₂ _
  simp only [s₂.peek_eq (by decide : [')'].all isSymbol = true)]
  split
  next closed =>
    obtain ⟨span', ahead', next'⟩ := exists_of_startsWith .rpar closed (by decide)
    obtain ⟨s₃, taken', rem', -⟩ := Reads.peeked next'
    rw [taken']
    refine Follows.moved ?_ (parseRedr_follows block_redr (fun _ _ => rfl) _ (.subs cmd) s₃)
    intro depth
    rw [next', rem']
    rfl
  next missing =>
    -- whatever is read in place of `)`, the assert fails
    cases next' : s₂.tokens with
    | nil =>
      obtain ⟨span', s₃, taken', -⟩ := Scanner.getToken_nil
        (show (s₂.skipBlanks.error "parse_subs: error sintáctico: se esperaba ')'").tokens = [] from
          s₂.tokens_skipBlanks.trans next')
      rw [taken']
      intro depth
      rw [next']
      rfl
    | cons token ahead' =>
      obtain ⟨s₃, taken', -⟩ := Scanner.getToken_cons
        (show (s₂.skipBlanks.error "parse_subs: error sintáctico: se esperaba ')'").tokens = token :: ahead' from
          s₂.tokens_skipBlanks.trans next')
      rw [taken']
      rw [next'] at missing
      obtain ⟨kind, span'⟩ := token
      cases kind <;> first | exact absurd rfl missing | (intro depth; rw [next']; rfl)

theorem parseExec_follows (subs : ∀ s, startsWith ['('] s.tokens = true →
      Follows (closes .start) (closes .block) NoRedr s (parseSubs fuel s)) (s : Scanner) :
    Follows (closes .start) (closes .block) NoRedr s (parseExec (fuel + 1) s) := by
  rw [parseExec]
  simp only [s.peek_eq (by decide : ['('].all isSymbol = true)]
  split
  next found =>
    have found : startsWith ['('] s.skipBlanks.tokens = true := by rwa [s.tokens_skipBlanks]
    refine Follows.moved ?_ (subs s.skipBlanks found)
    intro depth
    rw [s.tokens_skipBlanks]
  next missing =>
    refine Follows.moved ?_ (Follows.bind (parseRedr_follows (args_redr 0) (fun _ _ => rfl) _ _ s.skipBlanks)
      fun cmd s₁ noRedr => parseArgs_follows _ 0 cmd s₁ noRedr)
    intro depth
    rw [s.tokens_skipBlanks]
    cases next : s.tokens with
    | nil => rfl
    | cons token ahead =>
      rw [next] at missing
      obtain ⟨kind, span⟩ := token
      cases kind <;> first | rfl | exact absurd rfl missing

theorem parse_follows (fuel : Nat) : (∀ s, Follows (closes .start) closesLine (fun _ => True) s (parseLine fuel s)) ∧
    (∀ s, Follows (closes .start) (closes .background) (fun _ => True) s (parsePipe fuel s)) ∧
    (∀ s, Follows (closes .start) (closes .block) NoRedr s (parseExec fuel s)) ∧
    ∀ s, startsWith ['('] s.tokens = true →
      Follows (closes .start) (closes .block) NoRedr s (parseSubs fuel s) := by
  induction fuel with
  | zero => exact ⟨fun _ => trivial, fun _ => trivial, fun _ => trivial, fun _ _ => trivial⟩
  | succ fuel ih =>
    obtain ⟨line, pipe, exec, subs⟩ := ih
    exact ⟨parseLine_follows pipe line, parsePipe_follows exec pipe, parseExec_follows subs, parseSubs_follows line⟩

/-! ## The read pointer -/

namespace Scanner

/-- The end of the line, seen from where the pointer is. -/
def finish (s : Scanner) : Nat := s.pos + s.rest.length

theorem finish_advance {s : Scanner} {count : Nat} (inside : count ≤ s.rest.length) :
    (s.advance count).finish = s.finish := by
  simp only [finish, advance, List.length_drop]
  omega

@[simp] theorem finish_skipBlanks (s : Scanner) : s.skipBlanks.finish = s.finish :=
  finish_advance (List.takeWhile_prefix isBlank).length_le

@[simp] theorem finish_error (s : Scanner) (message : String) : (s.error message).finish = s.finish := rfl

@[simp] theorem finish_peek (s : Scanner) (delimiter : List Char) : (s.peek delimiter).2.finish = s.finish := by
  simp only [peek]
  split <;> exact s.finish_skipBlanks

@[simp] theorem finish_getToken (s : Scanner) : s.getToken.2.2.finish = s.finish := by
  have run := (List.takeWhile_prefix isArgChar (l := s.skipBlanks.rest)).length_le
  simp only [getToken]
  split <;> rw [finish_skipBlanks, finish_advance, finish_skipBlanks] <;> simp_all

theorem getToken_finish (s : Scanner) :
    ∃ code span s', s.getToken = (code, span, s') ∧ s'.finish = s.finish := ⟨_, _, _, rfl, s.finish_getToken⟩

end Scanner

/-- The pointer of a procedure's result belongs to the same line. -/
def StaysOn (finish : Nat) : Result → Prop
  | .ok (_, s) => s.finish = finish
  | .error _ => True

namespace StaysOn

variable {finish : Nat}

theorem bind {next : Cmd × Scanner → Result} (first : StaysOn finish res)
    (snd : ∀ cmd s, s.finish = finish → StaysOn finish (next (cmd, s))) : StaysOn finish (res >>= next) := by
  match res, first with
  | .ok (cmd, s), same => exact snd cmd s same
  | .error stop, _ => trivial

theorem assert {condition : Bool} {next : Unit → Result} (stays : StaysOn finish (next ())) :
    StaysOn finish (assert condition >>= next) := by
  cases condition with
  | true => exact stays
  | false => trivial

end StaysOn

theorem parseRedr_staysOn (fuel : Nat) : ∀ (cmd : Cmd) (s : Scanner), StaysOn s.finish (parseRedr fuel cmd s) := by
  induction fuel with
  | zero => exact fun _ _ => trivial
  | succ fuel ih =>
    intro cmd s
    simp only [parseRedr, s.peek_eq (by decide : ['<', '>'].all isSymbol = true)]
    split
    · obtain ⟨code, span, s₁, taken, same⟩ := s.skipBlanks.getToken_finish
      obtain ⟨code', span', s₂, taken', same'⟩ := s₁.getToken_finish
      rw [taken]
      refine StaysOn.assert ?_
      dsimp only
      rw [taken']
      have line : (if code' = 'a' then s₂
          else s₂.error "parse_redr: error sintáctico: se esperaba un fichero").finish = s.finish := by
        rw [apply_ite Scanner.finish, Scanner.finish_error, ite_self, same', same, s.finish_skipBlanks]
      rw [← line]
      exact ih _ _
    · exact s.finish_skipBlanks

theorem parseArgs_staysOn (fuel : Nat) : ∀ (argc : Nat) (ret : Cmd) (s : Scanner),
    StaysOn s.finish (parseArgs fuel argc ret s) := by
  induction fuel with
  | zero => exact fun _ _ _ => trivial
  | succ fuel ih =>
    intro argc ret s
    simp only [parseArgs, s.peek_eq (by decide : ['|', ')', '&', ';'].all isSymbol = true)]
    split
    · exact s.finish_skipBlanks
    · obtain ⟨code, span, s₁, taken, same⟩ := s.skipBlanks.getToken_finish
      rw [taken]
      have line : ∀ message, (if code = 'a' then s₁ else s₁.error message).finish = s.finish := by
        intro message
        rw [apply_ite Scanner.finish, Scanner.finish_error, ite_self, same, s.finish_skipBlanks]
      dsimp only
      split
      · exact same.trans s.finish_skipBlanks
      · split
        · trivial
        · rw [← line]
          refine StaysOn.bind (parseRedr_staysOn ..) ?_
          intro cmd s₂ same₂
          rw [← same₂]
          exact ih ..

theorem parseBack_staysOn (fuel : Nat) : ∀ (cmd : Cmd) (s : Scanner), StaysOn s.finish (parseBack fuel cmd s) := by
  induction fuel with
  | zero => exact fun _ _ => trivial
  | succ fuel ih =>
    intro cmd s
    simp only [parseBack, s.peek_eq (by decide : ['&'].all isSymbol = true)]
    split
    · obtain ⟨code, span, s₁, taken, same⟩ := s.skipBlanks.getToken_finish
      rw [taken]
      refine StaysOn.assert ?_
      rw [← s.finish_skipBlanks, ← same]
      exact ih ..
    · exact s.finish_skipBlanks

/-- `get_token` for a separator, with or without a message before it. -/
theorem finish_separator (s : Scanner) (complain : Bool) (message : String) :
    ∃ code span s', (if complain then s.skipBlanks.error message else s.skipBlanks).getToken = (code, span, s') ∧
      s'.finish = s.finish := by
  obtain ⟨code, span, s', taken, same⟩ :=
    (if complain then s.skipBlanks.error message else s.skipBlanks).getToken_finish
  refine ⟨code, span, s', taken, same.trans ?_⟩
  rw [apply_ite Scanner.finish, Scanner.finish_error, ite_self, s.finish_skipBlanks]

theorem parsePipe_staysOn (exec : ∀ s : Scanner, StaysOn s.finish (parseExec fuel s))
    (pipe : ∀ s : Scanner, StaysOn s.finish (parsePipe fuel s)) (s : Scanner) :
    StaysOn s.finish (parsePipe (fuel + 1) s) := by
  rw [parsePipe]
  refine StaysOn.bind (exec s) ?_
  intro cmd s₁ same
  simp only [s₁.peek_eq (by decide : ['|'].all isSymbol = true)]
  split
  · obtain ⟨code, span, s₂, taken, same₂⟩ := finish_separator s₁ cmd.isEmptyExec
      "parse_pipe: error sintáctico: no se encontró comando\n"
    rw [taken, ← same, ← same₂]
    exact StaysOn.assert (StaysOn.bind (pipe s₂) fun right s₃ same₃ => same₃)
  · exact s₁.finish_skipBlanks.trans same

theorem parseLine_staysOn (pipe : ∀ s : Scanner, StaysOn s.finish (parsePipe fuel s))
    (line : ∀ s : Scanner, StaysOn s.finish (parseLine fuel s)) (s : Scanner) :
    StaysOn s.finish (parseLine (fuel + 1) s) := by
  rw [parseLine]
  refine StaysOn.bind (pipe s) ?_
  intro cmd s₁ same₁
  rw [← same₁]
  refine StaysOn.bind (parseBack_staysOn _ cmd s₁) ?_
  intro cmd s₂ same
  simp only [s₂.peek_eq (by decide : [';'].all isSymbol = true)]
  split
  · obtain ⟨code, span, s₃, taken, same₃⟩ := finish_separator s₂ cmd.isEmptyExec
      "parse_line: error sintáctico: no se encontró comando\n"
    rw [taken, ← same, ← same₃]
    exact StaysOn.assert (StaysOn.bind (line s₃) fun right s₄ same₄ => same₄)
  · exact s₂.finish_skipBlanks.trans same

theorem parseSubs_staysOn (line : ∀ s : Scanner, StaysOn s.finish (parseLine fuel s)) (s : Scanner) :
    StaysOn s.finish (parseSubs (fuel + 1) s) := by
  -- the parentheses are taken whether or not a message comes before them
  have paren : ∀ (s : Scanner) (found : Bool) (message : String), ∃ code span s',
      (if found then s.skipBlanks else s.skipBlanks.error message).getToken = (code, span, s') ∧
        s'.finish = s.finish := by
    intro s found message
    obtain ⟨code, span, s', taken, same⟩ := finish_separator s (!found) message
    refine ⟨code, span, s', ?_, same⟩
    cases found <;> exact taken
  rw [parseSubs]
  simp only [s.peek_eq (by decide : ['('].all isSymbol = true)]
  obtain ⟨code, span, s₁, taken, same⟩ := paren s (startsWith ['('] s.tokens)
    "parse_subs: error sintáctico: se esperaba '('"
  rw [taken, ← same]
  refine StaysOn.assert (StaysOn.bind (line s₁) ?_)
  intro cmd s₂ same₂
  simp only [s₂.peek_eq (by decide : [')'].all isSymbol = true)]
  obtain ⟨code', span', s₃, taken', same₃⟩ := paren s₂ (startsWith [')'] s₂.tokens)
    "parse_subs: error sintáctico: se esperaba ')'"
  rw [taken', ← same₂, ← same₃]
  exact StaysOn.assert (parseRedr_staysOn ..)

theorem parseExec_staysOn (subs : ∀ s : Scanner, StaysOn s.finish (parseSubs fuel s)) (s : Scanner) :
    StaysOn s.finish (parseExec (fuel + 1) s) := by
  rw [parseExec]
  simp only [s.peek_eq (by decide : ['('].all isSymbol = true)]
  rw [← s.finish_skipBlanks]
  split
  · exact subs s.skipBlanks
  · refine StaysOn.bind (parseRedr_staysOn ..) ?_
    intro cmd s₁ same
    rw [← same]
    exact parseArgs_staysOn ..

theorem parse_staysOn (fuel : Nat) :
    (∀ s : Scanner, StaysOn s.finish (parseLine fuel s)) ∧ (∀ s : Scanner, StaysOn s.finish (parsePipe fuel s)) ∧
      (∀ s : Scanner, StaysOn s.finish (parseExec fuel s)) ∧ ∀ s : Scanner, StaysOn s.finish (parseSubs fuel s) := by
  induction fuel with
  | zero => exact ⟨fun _ => trivial, fun _ => trivial, fun _ => trivial, fun _ => trivial⟩
  | succ fuel ih =>
    obtain ⟨line, pipe, exec, subs⟩ := ih
    exact ⟨parseLine_staysOn pipe line, parsePipe_staysOn exec pipe, parseExec_staysOn subs, parseSubs_staysOn line⟩

/-! ## Which lines pass the asserts -/

/-- `parse_cmd` returns, or stops for too many arguments, with the pointer inside of the line, if
and only if every block is closed where it must be.  Whether or not it returns, no `peek` and no
`get_token` takes the pointer out of the line. -/
theorem asserts_hold_iff (line : CommandLine) :
    ((∃ cmd errors, parseCmd line = .ok (cmd, errors)) ∨ parseCmd line = .error .tooManyArguments) ∧
        (∀ cmd s, parseLine (4 * line.chars.length + 4) ⟨0, line.chars, []⟩ = .ok (cmd, s) →
          s.pos ≤ line.chars.length) ∧
        (∀ s : Scanner, s.finish = line.chars.length → s.pos ≤ line.chars.length ∧
          s.getToken.2.2.finish = line.chars.length ∧ ∀ delimiter, (s.peek delimiter).2.finish = line.chars.length) ↔
      closes .start 0 line.tokens = true := by
  have inside : ∀ cmd s, parseLine (4 * line.chars.length + 4) ⟨0, line.chars, []⟩ = .ok (cmd, s) →
      s.pos ≤ line.chars.length := by
    intro cmd s parsed
    have stays := (parse_staysOn (4 * line.chars.length + 4)).1 ⟨0, line.chars, []⟩
    rw [parsed] at stays
    have finish : s.pos + s.rest.length = 0 + line.chars.length := stays
    omega
  have tracks := (parse_follows (4 * line.chars.length + 4)).1 ⟨0, line.chars, []⟩
  have enough := parseCmd_ne_outOfFuel line
  rw [and_iff_left ⟨inside, fun s same => ⟨same ▸ Nat.le_add_right .., s.finish_getToken.trans same,
    fun delimiter => (s.finish_peek delimiter).trans same⟩⟩]
  simp only [parseCmd] at enough ⊢
  cases res : parseLine (4 * line.chars.length + 4) ⟨0, line.chars, []⟩ with
  | ok out =>
    obtain ⟨cmd, s⟩ := out
    rw [res] at tracks
    have closed : closes .start 0 line.tokens = true := tracks.1 0
    simp [bind, Except.bind, closed]
  | error stop =>
    rw [res] at tracks enough
    cases stop with
    | assertFailed =>
      have fails : closes .start 0 line.tokens = false := tracks 0
      simp [bind, Except.bind, fails]
    | tooManyArguments =>
      have ends : closes .start 0 line.tokens = true := tracks 0
      simp [bind, Except.bind, ends]
    | outOfFuel => exact absurd rfl enough

/-- The line `(`: the block is not closed, and the assert behind it fails. -/
theorem assert_fails_lpar : ∃ line : CommandLine, line.chars = ['('] ∧ parseCmd line = .error .assertFailed :=
  ⟨⟨['('], by decide⟩, rfl, by decide⟩

end Xv6Simplesh.Shell
