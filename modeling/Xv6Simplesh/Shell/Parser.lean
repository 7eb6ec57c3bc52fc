import Xv6Simplesh.Shell.Scanner

/-! # The parser of simplesh: `parse_cmd`

Five procedures call each other over the shared scanner.  `error` only prints,
so a procedure goes on after it; what ends the parse early is a failed `assert`
or the `panic` for too many arguments.  Every procedure takes a bound on the
depth of the calls below it, and every loop a bound on its iterations; `parseCmd`
supplies bounds that the length of the line justifies.
-/

namespace Xv6Simplesh.Shell

/-- `MAX_ARGS`. -/
abbrev maxArgs : Nat := 16

/-- The flags that `parse_redr` passes to `open`. -/
inductive OpenFlag where
  | rdonly | rdwr | creat | trunc | append
deriving DecidableEq, Repr

/-- The fields of `struct redrcmd` beside the command. -/
structure Redr where
  file : Span
  flags : List OpenFlag
  mode : Nat
  fd : Nat
deriving DecidableEq, Repr

/-- `struct cmd` and the structures that extend it. -/
inductive Cmd where
  | exec (argv : List Span) (argc : Nat)
  | redr (cmd : Cmd) (redr : Redr)
  | pipe (left right : Cmd)
  | list (left right : Cmd)
  | back (cmd : Cmd)
  | subs (cmd : Cmd)
deriving DecidableEq, Repr

/-- `S_IRWXU`. -/
abbrev sIRWXU : Nat := 0o700

/-- `redrcmd` for `<`. -/
def Redr.input (file : Span) : Redr := ⟨file, [.rdonly], 0, 0⟩

/-- `redrcmd` for `>`. -/
def Redr.output (file : Span) : Redr := ⟨file, [.rdwr, .creat, .trunc], sIRWXU, 1⟩

/-- `redrcmd` for `>>`. -/
def Redr.append (file : Span) : Redr := ⟨file, [.rdwr, .creat, .append], sIRWXU, 1⟩

/-- `cmd->type == EXEC && argv[0] == 0`. -/
def Cmd.isEmptyExec : Cmd → Bool
  | .exec argv _ => argv.isEmpty
  | _ => false

/-- `cmd->argv[argc] = start_of_token; cmd->argc = argc + 1`, where `cmd` is the
`EXEC` node that the redirections parsed so far are wrapped around. -/
def Cmd.addArg : Cmd → Span → Nat → Cmd
  | .exec argv _, span, argc => .exec (argv ++ [span]) argc
  | .redr cmd fields, span, argc => .redr (cmd.addArg span argc) fields
  | cmd, _, _ => cmd

/-- Why a parse ends without returning a command. -/
inductive Stop where
  | assertFailed
  | tooManyArguments
  | outOfFuel
deriving DecidableEq, Repr

abbrev Result := Except Stop (Cmd × Scanner)

/-- `assert(condition)`. -/
def assert (condition : Bool) : Except Stop Unit :=
  if condition then .ok () else .error .assertFailed

/-- The switch at the end of the loop of `parse_redr`. -/
def redrcmd (delimiter : Char) (cmd : Cmd) (file : Span) : Cmd :=
  match delimiter with
  | '<' => .redr cmd (.input file)
  | '>' => .redr cmd (.output file)
  | '+' => .redr cmd (.append file)
  | _ => cmd

/-- The loop of `parse_redr`. -/
def parseRedr : Nat → Cmd → Scanner → Result
  | 0, _, _ => .error .outOfFuel
  | fuel + 1, cmd, s => do
    let (found, s) := s.peek ['<', '>']
    if found then
      let (delimiter, _, s) := s.getToken
      assert (delimiter = '<' || delimiter = '>' || delimiter = '+')
      let (token, file, s) := s.getToken
      let s := if token = 'a' then s
        else s.error "parse_redr: error sintáctico: se esperaba un fichero"
      parseRedr fuel (redrcmd delimiter cmd file) s
    else .ok (cmd, s)

/-- The loop of `parse_exec`, which has stored `argc` arguments. -/
def parseArgs : Nat → Nat → Cmd → Scanner → Result
  | 0, _, _, _ => .error .outOfFuel
  | fuel + 1, argc, ret, s => do
    let (found, s) := s.peek ['|', ')', '&', ';']
    if found then .ok (ret, s)
    else
      let (token, span, s) := s.getToken
      if token = '\x00' then .ok (ret, s)
      else
        let s := if token = 'a' then s
          else s.error "parse_exec: error sintáctico: se esperaba un argumento\n"
        let ret := ret.addArg span (argc + 1)
        if argc + 1 ≥ maxArgs then .error .tooManyArguments
        else
          let (ret, s) ← parseRedr (s.rest.length + 1) ret s
          parseArgs fuel (argc + 1) ret s

/-- The loop of `parse_line` over `&`. -/
def parseBack : Nat → Cmd → Scanner → Result
  | 0, _, _ => .error .outOfFuel
  | fuel + 1, cmd, s => do
    let (found, s) := s.peek ['&']
    if found then
      let (delimiter, _, s) := s.getToken
      assert (delimiter = '&')
      parseBack fuel (.back cmd) s
    else .ok (cmd, s)

mutual

def parseLine : Nat → Scanner → Result
  | 0, _ => .error .outOfFuel
  | fuel + 1, s => do
    let (cmd, s) ← parsePipe fuel s
    let (cmd, s) ← parseBack (s.rest.length + 1) cmd s
    let (found, s) := s.peek [';']
    if found then
      let s := if cmd.isEmptyExec then
          s.error "parse_line: error sintáctico: no se encontró comando\n"
        else s
      let (delimiter, _, s) := s.getToken
      assert (delimiter = ';')
      let (right, s) ← parseLine fuel s
      .ok (.list cmd right, s)
    else .ok (cmd, s)

def parsePipe : Nat → Scanner → Result
  | 0, _ => .error .outOfFuel
  | fuel + 1, s => do
    let (cmd, s) ← parseExec fuel s
    let (found, s) := s.peek ['|']
    if found then
      let s := if cmd.isEmptyExec then
          s.error "parse_pipe: error sintáctico: no se encontró comando\n"
        else s
      let (delimiter, _, s) := s.getToken
      assert (delimiter = '|')
      let (right, s) ← parsePipe fuel s
      .ok (.pipe cmd right, s)
    else .ok (cmd, s)

def parseExec : Nat → Scanner → Result
  | 0, _ => .error .outOfFuel
  | fuel + 1, s => do
    let (found, s) := s.peek ['(']
    if found then parseSubs fuel s
    else
      let (ret, s) ← parseRedr (s.rest.length + 1) (.exec [] 0) s
      parseArgs (s.rest.length + 1) 0 ret s

def parseSubs : Nat → Scanner → Result
  | 0, _ => .error .outOfFuel
  | fuel + 1, s => do
    let (found, s) := s.peek ['(']
    let s := if found then s else s.error "parse_subs: error sintáctico: se esperaba '('"
    let (delimiter, _, s) := s.getToken
    assert (delimiter = '(')
    let (scmd, s) ← parseLine fuel s
    let (found, s) := s.peek [')']
    let s := if found then s else s.error "parse_subs: error sintáctico: se esperaba ')'"
    let (delimiter, _, s) := s.getToken
    assert (delimiter = ')')
    parseRedr (s.rest.length + 1) (.subs scmd) s

end

/-- A line that `parse_cmd` can be given: a C string ends at its first NUL. -/
structure CommandLine where
  chars : List Char
  nulFree : '\x00' ∉ chars

/-- `parse_cmd`: the command, and the messages printed on the way, last one first. -/
def parseCmd (line : CommandLine) : Except Stop (Cmd × List String) := do
  let (cmd, s) ← parseLine (4 * line.chars.length + 4) ⟨0, line.chars, []⟩
  let (_, s) := s.peek []
  let s := if s.rest.isEmpty then s else s.error "parse_cmd: error sintáctico: "
  .ok (cmd, s.errors)

end Xv6Simplesh.Shell
