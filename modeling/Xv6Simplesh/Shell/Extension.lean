import Xv6Simplesh.Shell.OldParser
import Xv6Simplesh.Shell.ParserComplete

/-! # The parser extends that of 2016-17

Both parsers run over the same line in step: the same procedures call each other in the
same order and take the same tokens, up to the point where the old one panics.  The new
one may print on the way, so its scanner is compared without the messages.
-/

namespace Xv6Simplesh.Shell

/-! ## Trees and scanners of both -/

/-- The tree with every `SUBS` node replaced by its child, as the old structures have it. -/
def Cmd.withoutSubs : Cmd → Old.Cmd
  | .exec argv _ => .exec argv
  | .redr cmd fields => .redir cmd.withoutSubs fields.file fields.flags fields.fd
  | .pipe left right => .pipe left.withoutSubs right.withoutSubs
  | .list left right => .list left.withoutSubs right.withoutSubs
  | .back cmd => .back cmd.withoutSubs
  | .subs cmd => cmd.withoutSubs

/-- An `EXEC` node, possibly inside redirections. -/
def Cmd.Simple : Cmd → Prop
  | .exec _ _ => True
  | .redr cmd _ => cmd.Simple
  | _ => False

theorem withoutSubs_addArg {cmd : Cmd} (simple : cmd.Simple) (span : Span) (argc : Nat) :
    (cmd.addArg span argc).withoutSubs = cmd.withoutSubs.addArg span := by
  induction cmd with
  | exec argv count => rfl
  | redr cmd redr ih =>
    exact congrArg (Old.Cmd.redir · redr.file redr.flags redr.fd) (ih simple)
  | pipe left right => exact simple.elim
  | list left right => exact simple.elim
  | back cmd => exact simple.elim
  | subs cmd => exact simple.elim

theorem simple_addArg {cmd : Cmd} (simple : cmd.Simple) (span : Span) (argc : Nat) :
    (cmd.addArg span argc).Simple := by
  induction cmd with
  | exec argv count => trivial
  | redr cmd redr ih => exact ih simple
  | pipe left right => exact simple.elim
  | list left right => exact simple.elim
  | back cmd => exact simple.elim
  | subs cmd => exact simple.elim

theorem withoutSubs_redrcmd {kind : Kind} {make : Span → Redr} (redr : kind.redr? = some make) (cmd : Cmd)
    (file : Span) : (redrcmd kind.code cmd file).withoutSubs = Old.redircmd kind.code cmd.withoutSubs file := by
  cases kind <;> cases redr <;> rfl

namespace Scanner

/-- The scanner without the messages. -/
def silent (s : Scanner) : Scanner := { s with errors := [] }

@[simp] theorem silent_error (s : Scanner) (message : String) : (s.error message).silent = s.silent := rfl

@[simp] theorem silent_rest (s : Scanner) : s.silent.rest = s.rest := rfl

@[simp] theorem tokens_silent (s : Scanner) : s.silent.tokens = s.tokens := rfl

@[simp] theorem skipBlanks_silent (s : Scanner) : s.silent.skipBlanks = s.skipBlanks.silent := rfl

theorem silent_orError (s : Scanner) (condition : Prop) [Decidable condition] (message : String) :
    (if condition then s.error message else s).silent = s.silent := by
  split <;> rfl

theorem getToken_silent (s : Scanner) :
    s.silent.getToken = (s.getToken.1, s.getToken.2.1, s.getToken.2.2.silent) := by
  simp only [getToken, skipBlanks_silent, silent_rest]
  split <;> rfl

end Scanner

/-! ## Simulation -/

/-- The new result matches the old one: the same tokens are left, and the trees agree.
A panic of the old parser is matched by anything. -/
def Extends (P : Cmd → Prop) : Old.Result → Result → Prop
  | .ok (old, t), new => ∃ cmd s, new = .ok (cmd, s) ∧ s.silent = t ∧ cmd.withoutSubs = old ∧ P cmd
  | .error .outOfFuel, new => new = .error .outOfFuel
  | .error (.panic _), _ => True

theorem Extends.bind {P Q : Cmd → Prop} {old : Old.Result} {new : Result} {next : Old.Cmd × Scanner → Old.Result}
    {next' : Cmd × Scanner → Result} (first : Extends P old new)
    (snd : ∀ cmd s, P cmd → Extends Q (next (cmd.withoutSubs, s.silent)) (next' (cmd, s))) :
    Extends Q (old >>= next) (new >>= next') := by
  match old, first with
  | .ok (_, _), ⟨cmd, s, same, rfl, rfl, holds⟩ =>
    rw [same]
    exact snd cmd s holds
  | .error .outOfFuel, same =>
    rw [show new = .error .outOfFuel from same]
    rfl
  | .error (.panic _), _ => trivial

theorem Extends.mono {P Q : Cmd → Prop} {old : Old.Result} {new : Result} (first : Extends P old new)
    (weaken : ∀ cmd, P cmd → Q cmd) : Extends Q old new := by
  match old, first with
  | .ok (_, _), ⟨cmd, s, same, silent, tree, holds⟩ => exact ⟨cmd, s, same, silent, tree, weaken cmd holds⟩
  | .error .outOfFuel, same => exact same
  | .error (.panic _), _ => trivial

theorem extends_ok {P : Cmd → Prop} (cmd : Cmd) {s : Scanner} (holds : P cmd) :
    Extends P (.ok (cmd.withoutSubs, s.silent)) (.ok (cmd, s)) :=
  ⟨cmd, s, rfl, rfl, rfl, holds⟩

theorem parseRedr_extends (fuel : Nat) : ∀ (cmd : Cmd) (s : Scanner),
    Extends (fun out => cmd.Simple → out.Simple) (Old.parseRedirs fuel cmd.withoutSubs s.silent)
      (parseRedr fuel cmd s) := by
  induction fuel with
  | zero => exact fun _ _ => rfl
  | succ fuel ih =>
    intro cmd s
    have symbols : ['<', '>'].all isSymbol = true := by decide
    simp only [Old.parseRedirs, parseRedr, Scanner.peek_eq _ symbols, Scanner.tokens_silent, Scanner.skipBlanks_silent]
    split
    next found =>
      obtain ⟨kind, span, ahead, make, next, redr⟩ := exists_redr_of_startsWith found
      obtain ⟨s₁, taken, -, -⟩ := Scanner.getToken_cons (s.tokens_skipBlanks.trans next)
      simp only [Scanner.getToken_silent, taken, assert_redr redr]
      split
      next => trivial
      next argument =>
        rw [not_not] at argument
        have simple := ih (redrcmd kind.code cmd s₁.getToken.2.1) s₁.getToken.2.2
        rw [withoutSubs_redrcmd redr] at simple
        simp only [argument, if_true]
        refine simple.mono fun out kept inner => kept ?_
        rw [redrcmd_code redr]
        exact inner
    next => exact extends_ok _ id

theorem parseBack_extends (fuel : Nat) : ∀ (cmd : Cmd) (s : Scanner),
    Extends (fun _ => True) (Old.parseBack fuel cmd.withoutSubs s.silent) (parseBack fuel cmd s) := by
  induction fuel with
  | zero => exact fun _ _ => rfl
  | succ fuel ih =>
    intro cmd s
    have symbols : ['&'].all isSymbol = true := by decide
    simp only [Old.parseBack, parseBack, Scanner.peek_eq _ symbols, Scanner.tokens_silent, Scanner.skipBlanks_silent]
    split
    next found =>
      obtain ⟨span, ahead, next⟩ := exists_of_startsWith .amp found (by decide)
      obtain ⟨s₁, taken, -, -⟩ := Scanner.getToken_cons (s.tokens_skipBlanks.trans next)
      simp only [Scanner.getToken_silent, taken]
      exact ih (.back cmd) s₁
    next => exact extends_ok _ trivial

theorem parseArgs_extends (fuel : Nat) : ∀ (argc : Nat) (ret : Cmd) (s : Scanner), ret.Simple →
    Extends (fun _ => True) (Old.parseArgs fuel argc ret.withoutSubs s.silent) (parseArgs fuel argc ret s) := by
  induction fuel with
  | zero => exact fun _ _ _ _ => rfl
  | succ fuel ih =>
    intro argc ret s simple
    have symbols : ['|', ')', '&', ';'].all isSymbol = true := by decide
    simp only [Old.parseArgs, parseArgs, Scanner.peek_eq _ symbols, Scanner.tokens_silent, Scanner.skipBlanks_silent,
      Scanner.getToken_silent]
    split
    next => exact extends_ok _ trivial
    next =>
      generalize s.skipBlanks.getToken = taken
      obtain ⟨token, span, s₁⟩ := taken
      dsimp only
      split
      next => exact extends_ok _ trivial
      next =>
        split
        next => trivial
        next argument =>
          split
          next => trivial
          next few =>
            rw [not_not] at argument
            have enough : ¬ argc + 1 ≥ maxArgs := by
              dsimp only [Old.maxArgs, maxArgs] at few ⊢
              omega
            simp only [argument, if_true, enough, if_false]
            have redirs := parseRedr_extends (s₁.rest.length + 1) (ret.addArg span (argc + 1)) s₁
            rw [withoutSubs_addArg simple] at redirs
            exact redirs.bind fun ret s kept => ih _ ret s (kept (simple_addArg simple span _))

/-- The delimiter that both parsers have seen, with or without a message before it. -/
theorem getToken_separator {s : Scanner} (kind : Kind) (found : startsWith [kind.code] s.tokens = true)
    (symbol : kind ∈ [Kind.bar, .lpar, .rpar, .semi, .amp]) (cmd : Cmd) (message : String) :
    ∃ span s', (if cmd.isEmptyExec then s.skipBlanks.error message else s.skipBlanks).getToken = (kind.code, span, s') ∧
      s.skipBlanks.silent.getToken = (kind.code, span, s'.silent) := by
  obtain ⟨span, ahead, next⟩ := exists_of_startsWith kind found symbol
  obtain ⟨s', taken, -, -⟩ := reads_separator next cmd message
  refine ⟨span, s', taken, ?_⟩
  rw [← s.skipBlanks.silent_orError (cmd.isEmptyExec = true) message, Scanner.getToken_silent, taken]

section Procedures

variable {fuel : Nat}

theorem parsePipe_extends
    (exec : ∀ s : Scanner, Extends (fun _ => True) (Old.parseExec fuel s.silent) (parseExec fuel s))
    (pipe : ∀ s : Scanner, Extends (fun _ => True) (Old.parsePipe fuel s.silent) (parsePipe fuel s)) (s : Scanner) :
    Extends (fun _ => True) (Old.parsePipe (fuel + 1) s.silent) (parsePipe (fuel + 1) s) := by
  rw [Old.parsePipe, parsePipe]
  refine (exec s).bind fun cmd s₁ _ => ?_
  have symbols : ['|'].all isSymbol = true := by decide
  simp only [Scanner.peek_eq _ symbols, Scanner.tokens_silent, Scanner.skipBlanks_silent]
  split
  next found =>
    obtain ⟨span, s₂, taken, takenOld⟩ := getToken_separator .bar found (by decide) cmd
      "parse_pipe: error sintáctico: no se encontró comando\n"
    rw [taken, takenOld]
    exact (pipe s₂).bind fun right s₃ _ => extends_ok (.pipe cmd right) trivial
  next => exact extends_ok _ trivial

theorem parseLine_extends
    (pipe : ∀ s : Scanner, Extends (fun _ => True) (Old.parsePipe fuel s.silent) (parsePipe fuel s))
    (line : ∀ s : Scanner, Extends (fun _ => True) (Old.parseLine fuel s.silent) (parseLine fuel s)) (s : Scanner) :
    Extends (fun _ => True) (Old.parseLine (fuel + 1) s.silent) (parseLine (fuel + 1) s) := by
  rw [Old.parseLine, parseLine]
  refine (pipe s).bind fun cmd s₁ _ => ?_
  refine (parseBack_extends _ cmd s₁).bind fun cmd s₂ _ => ?_
  have symbols : [';'].all isSymbol = true := by decide
  simp only [Scanner.peek_eq _ symbols, Scanner.tokens_silent, Scanner.skipBlanks_silent]
  split
  next found =>
    obtain ⟨span, s₃, taken, takenOld⟩ := getToken_separator .semi found (by decide) cmd
      "parse_line: error sintáctico: no se encontró comando\n"
    rw [taken, takenOld]
    exact (line s₃).bind fun right s₄ _ => extends_ok (.list cmd right) trivial
  next => exact extends_ok _ trivial

theorem parseExec_extends
    (block : ∀ s : Scanner, Extends (fun _ => True) (Old.parseBlock fuel s.silent) (parseSubs fuel s)) (s : Scanner) :
    Extends (fun _ => True) (Old.parseExec (fuel + 1) s.silent) (parseExec (fuel + 1) s) := by
  rw [Old.parseExec, parseExec]
  have symbols : ['('].all isSymbol = true := by decide
  simp only [Scanner.peek_eq _ symbols, Scanner.tokens_silent, Scanner.skipBlanks_silent]
  split
  next => exact block s.skipBlanks
  next =>
    refine (parseRedr_extends _ (.exec [] 0) s.skipBlanks).bind fun ret s₁ simple => ?_
    exact parseArgs_extends _ 0 ret s₁ (simple trivial)

theorem parseSubs_extends
    (line : ∀ s : Scanner, Extends (fun _ => True) (Old.parseLine fuel s.silent) (parseLine fuel s)) (s : Scanner) :
    Extends (fun _ => True) (Old.parseBlock (fuel + 1) s.silent) (parseSubs (fuel + 1) s) := by
  rw [Old.parseBlock, parseSubs]
  have opening : ['('].all isSymbol = true := by decide
  have closing : [')'].all isSymbol = true := by decide
  simp only [Scanner.peek_eq _ opening, Scanner.tokens_silent, Scanner.skipBlanks_silent]
  split
  next => trivial
  next found =>
    simp only [Bool.not_eq_true, Bool.not_eq_false'] at found
    obtain ⟨span, ahead, next⟩ := exists_of_startsWith .lpar found (by decide)
    obtain ⟨s₁, taken, -, -⟩ := Scanner.getToken_cons (s.tokens_skipBlanks.trans next)
    simp only [found, if_true, Scanner.getToken_silent, taken]
    refine (line s₁).bind fun cmd s₂ _ => ?_
    simp only [Scanner.peek_eq _ closing, Scanner.tokens_silent, Scanner.skipBlanks_silent]
    split
    next => trivial
    next found =>
      simp only [Bool.not_eq_true, Bool.not_eq_false'] at found
      obtain ⟨span, ahead, next⟩ := exists_of_startsWith .rpar found (by decide)
      obtain ⟨s₃, taken, -, -⟩ := Scanner.getToken_cons (s₂.tokens_skipBlanks.trans next)
      simp only [found, if_true, Scanner.getToken_silent, taken]
      exact (parseRedr_extends _ (.subs cmd) s₃).mono fun _ _ => trivial

end Procedures

/-- The four procedures, by induction on the depth of their calls. -/
theorem parse_extends (fuel : Nat) :
    (∀ s : Scanner, Extends (fun _ => True) (Old.parseLine fuel s.silent) (parseLine fuel s)) ∧
    (∀ s : Scanner, Extends (fun _ => True) (Old.parsePipe fuel s.silent) (parsePipe fuel s)) ∧
    (∀ s : Scanner, Extends (fun _ => True) (Old.parseExec fuel s.silent) (parseExec fuel s)) ∧
    ∀ s : Scanner, Extends (fun _ => True) (Old.parseBlock fuel s.silent) (parseSubs fuel s) := by
  induction fuel with
  | zero => exact ⟨fun _ => rfl, fun _ => rfl, fun _ => rfl, fun _ => rfl⟩
  | succ fuel ih =>
    obtain ⟨line, pipe, exec, block⟩ := ih
    exact ⟨parseLine_extends pipe line, parsePipe_extends exec pipe, parseExec_extends block, parseSubs_extends line⟩

/-- The old parser's calls and loops stay within their bounds, and every tree that it
returns is the new parser's tree without `SUBS` nodes. -/
theorem parseCmd_extends (line : CommandLine) :
    Old.parseCmd line ≠ .error .outOfFuel ∧
      ∀ old, Old.parseCmd line = .ok old →
        ∃ cmd errors, parseCmd line = .ok (cmd, errors) ∧ cmd.withoutSubs = old := by
  have simulated := (parse_extends (4 * line.chars.length + 4)).1 ⟨0, line.chars, []⟩
  have parses := parseLine_parses_chars line
  unfold Old.parseCmd parseCmd
  change Extends _ (Old.parseLine (4 * line.chars.length + 4) ⟨0, line.chars, []⟩) _ at simulated
  match res : Old.parseLine (4 * line.chars.length + 4) ⟨0, line.chars, []⟩ with
  | .ok (old, t) =>
    rw [res] at simulated
    obtain ⟨cmd, s, new, rfl, rfl, -⟩ := simulated
    rw [new]
    simp only [bind, Except.bind]
    constructor
    · split <;> simp
    · intro old returned
      split at returned
      · cases returned
        exact ⟨cmd, _, rfl, rfl⟩
      · cases returned
  | .error .outOfFuel =>
    rw [res] at simulated
    rw [show parseLine (4 * line.chars.length + 4) ⟨0, line.chars, []⟩ = .error .outOfFuel from simulated] at parses
    exact absurd rfl parses
  | .error (.panic message) => exact ⟨nofun, nofun⟩

example : Old.parseCmd ⟨['(', 'a', ')', '>', 'b'], by decide⟩ =
    .ok (.redir (.exec [⟨1, 2⟩]) ⟨4, 5⟩ [.rdwr, .creat, .trunc] 1) := by rfl

end Xv6Simplesh.Shell
