import Xv6Simplesh.Shell.Parser

/-! # The parser of the 2016-17 shell

`gettoken` and `peek` are the functions that the later version kept.  The procedures
above them differ from it in three points: an error is a `panic` and ends the shell, a
command has one argument less, and a parenthesised line is the line itself.
-/

namespace Xv6Simplesh.Shell.Old

/-- `MAXARGS`. -/
abbrev maxArgs : Nat := 15

/-- `struct cmd` and the structures that extend it. -/
inductive Cmd where
  | exec (argv : List Span)
  | redir (cmd : Cmd) (file : Span) (mode : List OpenFlag) (fd : Nat)
  | pipe (left right : Cmd)
  | list (left right : Cmd)
  | back (cmd : Cmd)
deriving DecidableEq, Repr

/-- `cmd->argv[argc] = q`, where `cmd` is the `EXEC` node inside the redirections. -/
def Cmd.addArg : Cmd → Span → Cmd
  | .exec argv, span => .exec (argv ++ [span])
  | .redir cmd file mode fd, span => .redir (cmd.addArg span) file mode fd
  | cmd, _ => cmd

inductive Stop where
  | panic (message : String)
  | outOfFuel
deriving DecidableEq, Repr

abbrev Result := Except Stop (Cmd × Scanner)

/-- The switch at the end of the loop of `parse_redirs`. -/
def redircmd (tok : Char) (cmd : Cmd) (file : Span) : Cmd :=
  match tok with
  | '<' => .redir cmd file [.rdonly] 0
  | '>' => .redir cmd file [.rdwr, .creat, .trunc] 1
  | '+' => .redir cmd file [.rdwr, .creat, .append] 1
  | _ => cmd

/-- The loop of `parse_redirs`. -/
def parseRedirs : Nat → Cmd → Scanner → Result
  | 0, _, _ => .error .outOfFuel
  | fuel + 1, cmd, s =>
    let (found, s) := s.peek ['<', '>']
    if found then
      let (tok, _, s) := s.getToken
      let (next, file, s) := s.getToken
      if next ≠ 'a' then .error (.panic "missing file for redirection")
      else parseRedirs fuel (redircmd tok cmd file) s
    else .ok (cmd, s)

/-- The loop of `parse_exec`, which has stored `argc` arguments. -/
def parseArgs : Nat → Nat → Cmd → Scanner → Result
  | 0, _, _, _ => .error .outOfFuel
  | fuel + 1, argc, ret, s => do
    let (found, s) := s.peek ['|', ')', '&', ';']
    if found then .ok (ret, s)
    else
      let (tok, span, s) := s.getToken
      if tok = '\x00' then .ok (ret, s)
      else if tok ≠ 'a' then .error (.panic "syntax")
      else if argc + 1 ≥ maxArgs then .error (.panic "too many args")
      else
        let (ret, s) ← parseRedirs (s.rest.length + 1) (ret.addArg span) s
        parseArgs fuel (argc + 1) ret s

/-- The loop of `parse_line` over `&`. -/
def parseBack : Nat → Cmd → Scanner → Result
  | 0, _, _ => .error .outOfFuel
  | fuel + 1, cmd, s =>
    let (found, s) := s.peek ['&']
    if found then
      let (_, _, s) := s.getToken
      parseBack fuel (.back cmd) s
    else .ok (cmd, s)

mutual

def parseLine : Nat → Scanner → Result
  | 0, _ => .error .outOfFuel
  | fuel + 1, s => do
    let (cmd, s) ← parsePipe fuel s
    let (cmd, s) ← parseBack (s.rest.length + 1) cmd s
    let (found, s) := s.peek [';']
    if found then
      let (_, _, s) := s.getToken
      let (right, s) ← parseLine fuel s
      .ok (.list cmd right, s)
    else .ok (cmd, s)

def parsePipe : Nat → Scanner → Result
  | 0, _ => .error .outOfFuel
  | fuel + 1, s => do
    let (cmd, s) ← parseExec fuel s
    let (found, s) := s.peek ['|']
    if found then
      let (_, _, s) := s.getToken
      let (right, s) ← parsePipe fuel s
      .ok (.pipe cmd right, s)
    else .ok (cmd, s)

def parseExec : Nat → Scanner → Result
  | 0, _ => .error .outOfFuel
  | fuel + 1, s => do
    let (found, s) := s.peek ['(']
    if found then parseBlock fuel s
    else
      let (ret, s) ← parseRedirs (s.rest.length + 1) (.exec []) s
      parseArgs (s.rest.length + 1) 0 ret s

def parseBlock : Nat → Scanner → Result
  | 0, _ => .error .outOfFuel
  | fuel + 1, s => do
    let (found, s) := s.peek ['(']
    if !found then .error (.panic "parse_block")
    else
      let (_, _, s) := s.getToken
      let (cmd, s) ← parseLine fuel s
      let (found, s) := s.peek [')']
      if !found then .error (.panic "syntax - missing )")
      else
        let (_, _, s) := s.getToken
        parseRedirs (s.rest.length + 1) cmd s

end

/-- `parse_cmd`.  The strings that `nulterminate` then ends with a NUL are the spans. -/
def parseCmd (line : CommandLine) : Except Stop Cmd := do
  let (cmd, s) ← parseLine (4 * line.chars.length + 4) ⟨0, line.chars, []⟩
  let (_, s) := s.peek []
  if s.rest.isEmpty then .ok cmd else .error (.panic "syntax")

end Xv6Simplesh.Shell.Old
