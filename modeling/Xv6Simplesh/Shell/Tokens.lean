import Xv6Simplesh.Shell.Scanner

/-! # The tokens of a line

`lex` says what the tokens of a line are without a moving pointer.  The scanner
is then seen through the tokens that are still ahead of it: `peek` looks at the
first one and `get_token` takes it away.  The parser's proofs use only these
facts and never look at characters.
-/

namespace Xv6Simplesh.Shell

/-- The kinds of token on a line. -/
inductive Kind where
  | bar | lpar | rpar | semi | amp | less | great | greatGreat | arg
deriving DecidableEq, Repr

structure Token where
  kind : Kind
  span : Span
deriving DecidableEq, Repr

/-- The symbol that the characters begin with, and its length. -/
def symbol? : List Char → Option (Kind × Nat)
  | '|' :: _ => some (.bar, 1)
  | '(' :: _ => some (.lpar, 1)
  | ')' :: _ => some (.rpar, 1)
  | ';' :: _ => some (.semi, 1)
  | '&' :: _ => some (.amp, 1)
  | '<' :: _ => some (.less, 1)
  | '>' :: '>' :: _ => some (.greatGreat, 2)
  | '>' :: _ => some (.great, 1)
  | _ => none

theorem symbol?_pos {rest : List Char} {kind : Kind} {length : Nat}
    (found : symbol? rest = some (kind, length)) : 0 < length := by
  unfold symbol? at found
  split at found <;> cases found <;> decide

/-- The tokens of a line whose first character has offset `pos`: the symbols, and
the maximal runs of characters that are neither symbols nor blanks. -/
def lex (pos : Nat) : List Char → List Token
  | [] => []
  | c :: cs =>
    if isBlank c then lex (pos + 1) cs
    else
      match found : symbol? (c :: cs) with
      | some (kind, length) =>
        ⟨kind, ⟨pos, pos + length⟩⟩ :: lex (pos + length) ((c :: cs).drop length)
      | none =>
        -- the run has `c` in it, and ends before the first blank or symbol after it
        let length := 1 + (cs.takeWhile isArgChar).length
        ⟨.arg, ⟨pos, pos + length⟩⟩ :: lex (pos + length) (cs.drop (length - 1))
termination_by rest => rest.length
decreasing_by
  all_goals simp only [List.length_drop, List.length_cons]
  · omega
  · have := symbol?_pos found
    omega
  · omega

/-! ## What the scanner sees -/

namespace Kind

/-- What `get_token` returns for the token. -/
def code : Kind → Char
  | .bar => '|'
  | .lpar => '('
  | .rpar => ')'
  | .semi => ';'
  | .amp => '&'
  | .less => '<'
  | .great => '>'
  | .greatGreat => '+'
  | .arg => 'a'

/-- The character that `peek` finds where the symbol stands. -/
def first? : Kind → Option Char
  | .arg => none
  | .greatGreat => some '>'
  | kind => some kind.code

end Kind

/-- Does the first token begin with one of the delimiters? -/
def startsWith (delimiter : List Char) : List Token → Bool
  | [] => false
  | token :: _ => delimiter.any (token.kind.first? = some ·)

theorem symbol?_first {c : Char} {cs : List Char} {kind : Kind} {length : Nat}
    (found : symbol? (c :: cs) = some (kind, length)) : kind.first? = some c := by
  unfold symbol? at found
  split at found <;> cases found <;> simp_all [Kind.first?, Kind.code]

theorem isSymbol_of_symbol? (c : Char) (cs : List Char) : (symbol? (c :: cs)).isSome = isSymbol c := by
  unfold symbol?
  split <;> simp_all [isSymbol]

namespace Scanner

/-- The tokens from the scanner's position on. -/
def tokens (s : Scanner) : List Token := lex s.pos s.rest

@[simp] theorem tokens_error (s : Scanner) (message : String) : (s.error message).tokens = s.tokens := rfl

@[simp] theorem errors_error (s : Scanner) (message : String) :
    (s.error message).errors.length = s.errors.length + 1 := rfl

theorem lex_dropWhile_isBlank (rest : List Char) : ∀ pos,
    lex (pos + (rest.takeWhile isBlank).length) (rest.drop (rest.takeWhile isBlank).length) =
      lex pos rest := by
  induction rest with
  | nil => intro pos; rfl
  | cons c cs ih =>
    intro pos
    by_cases blank : isBlank c = true
    · rw [List.takeWhile_cons_of_pos blank, List.length_cons, List.drop_succ_cons,
        show pos + ((cs.takeWhile isBlank).length + 1) = pos + 1 + (cs.takeWhile isBlank).length by omega,
        ih]
      conv_rhs => rw [lex, if_pos blank]
    · rw [List.takeWhile_cons_of_neg blank]
      rfl

@[simp] theorem tokens_skipBlanks (s : Scanner) : s.skipBlanks.tokens = s.tokens :=
  lex_dropWhile_isBlank s.rest s.pos

@[simp] theorem errors_skipBlanks (s : Scanner) : s.skipBlanks.errors = s.errors := rfl

section

variable {s : Scanner} {c : Char} {cs : List Char} (ahead : s.skipBlanks.rest = c :: cs)

include ahead

theorem not_isBlank_of_skipBlanks : isBlank c = false := by
  have dropped : s.rest.drop (s.rest.takeWhile isBlank).length = c :: cs := ahead
  generalize s.rest = rest at dropped
  induction rest with
  | nil => cases dropped
  | cons d ds ih =>
    by_cases blank : isBlank d = true
    · rw [List.takeWhile_cons_of_pos blank] at dropped
      exact ih dropped
    · rw [List.takeWhile_cons_of_neg blank] at dropped
      cases dropped
      simpa using blank

/-- What stands at the first character that is not blank, as `lex` has it. -/
theorem tokens_cons : ∃ kind length, s.tokens = ⟨kind, ⟨s.skipBlanks.pos, s.skipBlanks.pos + length⟩⟩ ::
        (s.skipBlanks.advance length).tokens ∧
      (symbol? (c :: cs) = some (kind, length) ∨
        symbol? (c :: cs) = none ∧ kind = .arg ∧ length = ((c :: cs).takeWhile isArgChar).length) := by
  have blank : ¬ isBlank c = true := by simp [not_isBlank_of_skipBlanks ahead]
  rw [← tokens_skipBlanks, tokens, ahead, lex, if_neg blank]
  split
  next kind length found =>
    exact ⟨kind, length, by simp [tokens, advance, ahead], .inl found⟩
  next missing =>
    have argChar : isArgChar c = true := by
      have symbol := isSymbol_of_symbol? c cs
      rw [missing] at symbol
      simp [isArgChar, ← symbol, blank]
    refine ⟨.arg, ((c :: cs).takeWhile isArgChar).length, ?_, .inr ⟨missing, rfl, rfl⟩⟩
    simp [tokens, advance, ahead, List.takeWhile_cons_of_pos argChar, Nat.add_comm]

end

theorem tokens_nil {s : Scanner} (ahead : s.skipBlanks.rest = []) : s.tokens = [] := by
  rw [← tokens_skipBlanks, tokens, ahead, lex]

theorem peek_eq (s : Scanner) {delimiter : List Char} (symbols : delimiter.all isSymbol = true) :
    s.peek delimiter = (startsWith delimiter s.tokens, s.skipBlanks) := by
  cases ahead : s.skipBlanks.rest with
  | nil =>
    simp only [peek, ahead, tokens_nil ahead]
    rfl
  | cons c cs =>
    simp only [peek, ahead]
    obtain ⟨kind, length, next, found | ⟨missing, rfl, -⟩⟩ := tokens_cons ahead
    · rw [next, startsWith, symbol?_first found]
      simp [List.any_eq, eq_comm]
    · -- an argument does not begin with a symbol, so no delimiter is found
      have symbol := isSymbol_of_symbol? c cs
      rw [missing] at symbol
      have other : c ∉ delimiter := by
        intro mem
        rw [List.all_eq_true.mp symbols c mem] at symbol
        cases symbol
      rw [next, startsWith]
      simp [other, Kind.first?]

theorem getToken_nil {s : Scanner} (done : s.tokens = []) :
    ∃ span s', s.getToken = ('\x00', span, s') ∧ s'.tokens = [] ∧ s'.errors = s.errors := by
  cases ahead : s.skipBlanks.rest with
  | nil =>
    refine ⟨⟨s.skipBlanks.pos, s.skipBlanks.pos⟩, (s.skipBlanks.advance 0).skipBlanks, ?_, ?_, rfl⟩
    · simp only [getToken, ahead, Nat.add_zero]
    · rw [tokens_skipBlanks, advance, tokens, ahead, List.drop_nil, lex]
  | cons c cs =>
    obtain ⟨kind, length, next, -⟩ := tokens_cons ahead
    rw [done] at next
    cases next

theorem getToken_cons {s : Scanner} {token : Token} {ahead : List Token} (next : s.tokens = token :: ahead) :
    ∃ s', s.getToken = (token.kind.code, token.span, s') ∧ s'.tokens = ahead ∧
      s'.errors = s.errors := by
  cases rest : s.skipBlanks.rest with
  | nil =>
    rw [tokens_nil rest] at next
    cases next
  | cons c cs =>
    obtain ⟨kind, length, split, found⟩ := tokens_cons rest
    rw [next] at split
    cases split
    refine ⟨(s.skipBlanks.advance length).skipBlanks, ?_, tokens_skipBlanks _, rfl⟩
    rcases found with found | ⟨missing, rfl, rfl⟩
    · unfold symbol? at found
      split at found <;> cases found <;> simp_all [getToken, Kind.code]
    · unfold symbol? at missing
      split at missing <;> cases missing
      simp_all [getToken, Kind.code]

theorem length_lex_le (pos : Nat) (rest : List Char) : (lex pos rest).length ≤ rest.length := by
  fun_induction lex pos rest with
  | case1 => exact Nat.le_refl 0
  | case2 pos c cs blank ih =>
    simp only [List.length_cons]
    omega
  | case3 pos c cs blank kind length found ih =>
    have positive := symbol?_pos found
    simp only [List.length_drop, List.length_cons] at ih ⊢
    omega
  | case4 pos c cs blank missing length ih =>
    simp only [List.length_drop, List.length_cons] at ih ⊢
    omega

theorem length_tokens_le (s : Scanner) : s.tokens.length ≤ s.rest.length :=
  length_lex_le s.pos s.rest

end Scanner

end Xv6Simplesh.Shell
