import Mathlib.Tactic.Common
import Mathlib.Data.List.TakeWhile

/-! # The scanner of simplesh: `get_token` and `peek`

The parser walks over the command line with one moving pointer.  A `Scanner` is
that pointer: its offset in the line, the characters from there to the end, and
the messages that `error` has printed so far, since `error` does not stop the
parser.  Dereferencing the pointer at the end of the line gives the terminating
NUL, which is the empty `rest` here.
-/

namespace Xv6Simplesh.Shell

/-- `start_of_token` and `end_of_token`, as offsets in the line. -/
structure Span where
  start : Nat
  stop : Nat
deriving DecidableEq, Repr

/-- Membership in `WHITESPACE`. -/
def isBlank (c : Char) : Bool := c ∈ [' ', '\t', '\r', '\n', '\x0b']

/-- Membership in `SYMBOLS`. -/
def isSymbol (c : Char) : Bool := c ∈ ['<', '|', '>', '&', ';', '(', ')']

/-- The characters that the loop in the default case of `get_token` runs over. -/
def isArgChar (c : Char) : Bool := !isBlank c && !isSymbol c

structure Scanner where
  pos : Nat
  rest : List Char
  errors : List String
deriving DecidableEq, Repr

namespace Scanner

/-- Move over `count` characters. -/
def advance (s : Scanner) (count : Nat) : Scanner :=
  { s with pos := s.pos + count, rest := s.rest.drop count }

/-- `while (s < end_of_str && strchr(WHITESPACE, *s)) s++;` -/
def skipBlanks (s : Scanner) : Scanner := s.advance (s.rest.takeWhile isBlank).length

/-- `error`: print the message and go on. -/
def error (s : Scanner) (message : String) : Scanner := { s with errors := message :: s.errors }

/-- `peek`: is the next character that is not blank in `delimiter`? -/
def peek (s : Scanner) (delimiter : List Char) : Bool × Scanner :=
  let s := s.skipBlanks
  match s.rest with
  | [] => (false, s)
  | c :: _ => (decide (c ∈ delimiter), s)

/-- `get_token`: the code of the token (`'a'` for an argument, `'+'` for `>>`,
NUL at the end of the line) and where it stands. -/
def getToken (s : Scanner) : Char × Span × Scanner :=
  let s := s.skipBlanks
  let token (code : Char) (length : Nat) :=
    (code, (⟨s.pos, s.pos + length⟩ : Span), (s.advance length).skipBlanks)
  match s.rest with
  | [] => token '\x00' 0
  | '|' :: _ => token '|' 1
  | '(' :: _ => token '(' 1
  | ')' :: _ => token ')' 1
  | ';' :: _ => token ';' 1
  | '&' :: _ => token '&' 1
  | '<' :: _ => token '<' 1
  | '>' :: '>' :: _ => token '+' 2
  | '>' :: _ => token '>' 1
  | rest => token 'a' (rest.takeWhile isArgChar).length

end Scanner

end Xv6Simplesh.Shell
