import Mathlib.Logic.Function.Iterate
import Xv6Simplesh.Shell.Parser
import Xv6Simplesh.Shell.Tokens

/-! # The grammar of simplesh's command lines

    line ::= pipe '&'* | pipe '&'* ';' line
    pipe ::= exec | exec '|' pipe
    exec ::= '(' line ')' redr* | redr* (ARG redr*)*
    redr ::= ('<' | '>' | '>>') ARG

Each relation derives a list of tokens together with the command that is the tree
of the derivation.  An `exec` without parentheses has at most `MAX_ARGS - 1`
arguments, and the left side of `|` or `;` is not the command without arguments
and redirections.
-/

namespace Xv6Simplesh.Shell

/-- The redirection that a symbol stands for, once its file is known. -/
def Kind.redr? : Kind → Option (Span → Redr)
  | .less => some .input
  | .great => some .output
  | .greatGreat => some .append
  | _ => none

/-- `redr*`, with the redirections in the order of the line. -/
inductive Redrs : List Token → List Redr → Prop where
  | nil : Redrs [] []
  | cons {kind : Kind} {symbol file : Span} {make : Span → Redr} {ts : List Token} {rs : List Redr}
      (redr : kind.redr? = some make) (rest : Redrs ts rs) :
      Redrs (⟨kind, symbol⟩ :: ⟨.arg, file⟩ :: ts) (make file :: rs)

/-- `(ARG redr*)*`, with the arguments and the redirections in the order of the line. -/
inductive Args : List Token → List Span → List Redr → Prop where
  | nil : Args [] [] []
  | cons {arg : Span} {ts us : List Token} {rs rs' : List Redr} {args : List Span}
      (redrs : Redrs ts rs) (rest : Args us args rs') :
      Args (⟨.arg, arg⟩ :: (ts ++ us)) (arg :: args) (rs ++ rs')

/-- `'&'*`, with the number of `&`. -/
inductive Amps : List Token → Nat → Prop where
  | nil : Amps [] 0
  | cons {symbol : Span} {ts : List Token} {count : Nat} (rest : Amps ts count) :
      Amps (⟨.amp, symbol⟩ :: ts) (count + 1)

/-- Each redirection around the ones before it. -/
def Cmd.wrap (cmd : Cmd) (redrs : List Redr) : Cmd := redrs.foldl Cmd.redr cmd

mutual

inductive Line : List Token → Cmd → Prop where
  | last {ts amps : List Token} {cmd : Cmd} {count : Nat} (pipe : Pipe ts cmd)
      (back : Amps amps count) : Line (ts ++ amps) (Cmd.back^[count] cmd)
  | list {ts amps us : List Token} {cmd right : Cmd} {count : Nat} {symbol : Span}
      (pipe : Pipe ts cmd) (back : Amps amps count)
      (command : Cmd.back^[count] cmd ≠ .exec [] 0) (rest : Line us right) :
      Line (ts ++ amps ++ ⟨.semi, symbol⟩ :: us) (.list (Cmd.back^[count] cmd) right)

inductive Pipe : List Token → Cmd → Prop where
  | last {ts : List Token} {cmd : Cmd} (exec : Exec ts cmd) : Pipe ts cmd
  | pipe {ts us : List Token} {cmd right : Cmd} {symbol : Span} (exec : Exec ts cmd)
      (command : cmd ≠ .exec [] 0) (rest : Pipe us right) :
      Pipe (ts ++ ⟨.bar, symbol⟩ :: us) (.pipe cmd right)

inductive Exec : List Token → Cmd → Prop where
  | subs {ts us : List Token} {cmd : Cmd} {rs : List Redr} {lpar rpar : Span}
      (line : Line ts cmd) (redrs : Redrs us rs) :
      Exec (⟨.lpar, lpar⟩ :: (ts ++ ⟨.rpar, rpar⟩ :: us)) ((Cmd.subs cmd).wrap rs)
  | exec {ts us : List Token} {rs rs' : List Redr} {args : List Span}
      (redrs : Redrs ts rs) (rest : Args us args rs') (few : args.length ≤ maxArgs - 1) :
      Exec (ts ++ us) ((Cmd.exec args args.length).wrap (rs ++ rs'))

end

end Xv6Simplesh.Shell
