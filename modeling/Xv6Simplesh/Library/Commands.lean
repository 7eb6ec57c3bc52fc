import Mathlib.Tactic.Common

/-! # Commands on a state that may stop

A command reads and changes a state and returns a value, or stops with an error.  `wp`
is its weakest precondition: the postcondition holds of the value and the state it
returns, and `fail` holds of the error it stops with.  The rules follow the way commands
are put together, so that a proof about a command has the shape of its text.
-/

namespace Xv6Simplesh.Library

abbrev Command (State Error Value : Type) := StateT State (Except Error) Value

namespace Command

variable {State Error Value Result : Type} {post mid : Value → State → Prop} {fail : Error → Prop} {s : State}

def wp (command : Command State Error Value) (post : Value → State → Prop) (fail : Error → Prop) (s : State) : Prop :=
  match command s with
  | .ok (val, next) => post val next
  | .error error => fail error

theorem wp_get {next : State → Command State Error Value} (rest : wp (next s) post fail s) :
    wp (get >>= next) post fail s := rest

variable {next : PUnit → Command State Error Value}

theorem wp_set {s' : State} (rest : wp (next ⟨⟩) post fail s') : wp (set s' >>= next) post fail s := rest

theorem wp_modify {change : State → State}
    (rest : wp (next ⟨⟩) post fail (change s)) : wp (modify change >>= next) post fail s := rest

section

variable {command : Command State Error Value}

theorem wp_mono {weaker : Value → State → Prop}
    (holds : wp command post fail s) (weaken : ∀ val s', post val s' → weaker val s') : wp command weaker fail s := by
  unfold wp at holds ⊢
  cases ran : command s with
  | error error =>
    rw [ran] at holds
    exact holds
  | ok res =>
    rw [ran] at holds
    exact weaken _ _ holds

variable {next : Value → Command State Error Result}

/-- One command after the other, by what holds between the two. -/
theorem wp_bind {final : Result → State → Prop} (first : wp command mid fail s)
    (snd : ∀ val s', mid val s' → wp (next val) final fail s') : wp (command >>= next) final fail s := by
  have unfolded : (command >>= next) s = command s >>= fun res => next res.1 res.2 := rfl
  unfold wp at first
  cases ran : command s with
  | error error =>
    rw [ran] at first
    rw [wp, unfolded, ran]
    exact first
  | ok res =>
    rw [ran] at first
    have rest := snd _ _ first
    rw [wp, unfolded, ran]
    exact rest

/-- Two commands return if the first does, and the second does from there. -/
theorem bind_eq_ok {res : Result × State} :
    (command >>= next) s = .ok res ↔ ∃ val s', command s = .ok (val, s') ∧ next val s' = .ok res := by
  have unfolded : (command >>= next) s = command s >>= fun res => next res.1 res.2 := rfl
  rw [unfolded]
  cases ran : command s with
  | error error =>
    constructor
    · nofun
    · rintro ⟨_, _, returned, -⟩
      cases returned
  | ok first =>
    constructor
    · exact fun rest => ⟨first.1, first.2, rfl, rest⟩
    · rintro ⟨_, _, returned, rest⟩
      cases returned
      exact rest

theorem post_of_wp (holds : wp command post fail s) {val : Value} {s' : State}
    (ran : command s = .ok (val, s')) : post val s' := by
  rw [wp, ran] at holds
  exact holds

theorem fail_of_wp (holds : wp command post fail s) {error : Error}
    (ran : command s = .error error) : fail error := by
  rw [wp, ran] at holds
  exact holds

end

end Command

end Xv6Simplesh.Library
