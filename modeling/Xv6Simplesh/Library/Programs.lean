import Mathlib.Logic.Relation

/-! # Programs under interference

A program makes calls to its environment and goes on with the answers.  While it waits
for an answer, and after it has returned, the environment makes moves of its own.  `wp`
is the weakest precondition for every interleaving of the two: whenever a call can be
made its guard holds, and whenever the program has returned the postcondition does.
-/

namespace Xv6Simplesh.Library

inductive Prog (Call : Type) (Answer : Call → Type) where
  | done : Prog Call Answer
  | call (c : Call) (next : Answer c → Prog Call Answer) : Prog Call Answer

namespace Prog

variable {Call : Type} {Answer : Call → Type}

def seq : Prog Call Answer → Prog Call Answer → Prog Call Answer
  | done, q => q
  | call c next, q => call c fun a => (next a).seq q

theorem seq_assoc (p q r : Prog Call Answer) : (p.seq q).seq r = p.seq (q.seq r) := by
  induction p with
  | done => rfl
  | call c next ih => simp only [seq, ih]

/-- The call that waits for its answer. -/
def pending : Prog Call Answer → Option Call
  | done => none
  | call c _ => some c

theorem pending_seq {p : Prog Call Answer} {c : Call} (waiting : p.pending = some c) (q : Prog Call Answer) :
    (p.seq q).pending = some c := by
  cases p with
  | done => cases waiting
  | call c next => exact waiting

end Prog

structure Environment (Call : Type) (Answer : Call → Type) (State : Type) where
  answers : State → (c : Call) → Answer c → State → Prop
  /-- A move that is not the program's, while the given call waits for its answer. -/
  moves : Option Call → State → State → Prop

variable {Call State : Type} {Answer : Call → Type}

namespace Environment

inductive Step (env : Environment Call Answer State) :
    Prog Call Answer × State → Prog Call Answer × State → Prop where
  | answer {c : Call} {next : Answer c → Prog Call Answer} {a : Answer c} {s s' : State}
      (answered : env.answers s c a s') : Step env (.call c next, s) (next a, s')
  | move {p : Prog Call Answer} {s s' : State} (moved : env.moves p.pending s s') : Step env (p, s) (p, s')

def Reaches (env : Environment Call Answer State) :
    Prog Call Answer × State → Prog Call Answer × State → Prop := Relation.ReflTransGen env.Step

/-- The runs of the environment in which every answer and every move is admitted. -/
def restrict (env : Environment Call Answer State) (mayAnswer : State → Call → Prop)
    (mayMove : State → State → Prop) : Environment Call Answer State where
  answers s c a s' := env.answers s c a s' ∧ mayAnswer s c
  moves pending s s' := env.moves pending s s' ∧ mayMove s s'

/-- The moves of the environment keep the property. -/
def Stable (env : Environment Call Answer State) (pending : Option Call) (P : State → Prop) : Prop :=
  ∀ s s', P s → env.moves pending s s' → P s'

section

variable {env : Environment Call Answer State} {config : Prog Call Answer × State} {p : Prog Call Answer} {s s' : State}
  {pending : Option Call} {P Q : State → Prop}

theorem Reaches.trans {first snd third : Prog Call Answer × State}
    (before : env.Reaches first snd) (after : env.Reaches snd third) : env.Reaches first third :=
  Relation.ReflTransGen.trans before after

theorem Reaches.answer {c : Call} {next : Answer c → Prog Call Answer} {a : Answer c}
    (before : env.Reaches config (.call c next, s))
    (answered : env.answers s c a s') : env.Reaches config (next a, s') :=
  before.tail (.answer answered)

theorem Reaches.move (before : env.Reaches config (p, s)) (moved : env.moves p.pending s s') :
    env.Reaches config (p, s') :=
  before.tail (.move moved)

theorem Reaches.moves (before : env.Reaches config (p, s))
    (moved : Relation.ReflTransGen (env.moves p.pending) s s') : env.Reaches config (p, s') := by
  induction moved with
  | refl => exact before
  | tail _ last ih => exact ih.move last

theorem Stable.restrict {mayAnswer : State → Call → Prop} {mayMove : State → State → Prop}
    (stable : env.Stable pending P) : (env.restrict mayAnswer mayMove).Stable pending P :=
  fun s s' holds moved => stable s s' holds moved.1

theorem Stable.and (first : env.Stable pending P) (snd : env.Stable pending Q) : env.Stable pending fun s => P s ∧ Q s :=
  fun s s' holds moved => ⟨first s s' holds.1 moved, snd s s' holds.2 moved⟩

theorem Stable.moves (stable : env.Stable pending P) (holds : P s)
    (moved : Relation.ReflTransGen (env.moves pending) s s') : P s' := by
  induction moved with
  | refl => exact holds
  | tail _ last ih => exact stable _ _ ih last

end

end Environment

/-! ## Weakest preconditions -/

def Prog.wp (env : Environment Call Answer State) (guard : Call → State → Prop) :
    Prog Call Answer → (State → Prop) → State → Prop
  | .done, Q, s => ∀ s', Relation.ReflTransGen (env.moves none) s s' → Q s'
  | .call c next, Q, s => ∀ s', Relation.ReflTransGen (env.moves (some c)) s s' →
      guard c s' ∧ ∀ a s'', env.answers s' c a s'' → (next a).wp env guard Q s''

section Rules

variable {env : Environment Call Answer State} {guard : Call → State → Prop} {P Q R : State → Prop} {s s' : State}
  {p p' q : Prog Call Answer} {c : Call} {next : Answer c → Prog Call Answer}

theorem wp_done (stable : env.Stable none P) (holds : P s) : Prog.wp env guard .done P s :=
  fun _ moved => stable.moves holds moved

theorem wp_call (stable : env.Stable (some c) P) (holds : P s)
    (guarded : ∀ s, P s → guard c s) (answered : ∀ s a s', P s → env.answers s c a s' → (next a).wp env guard Q s') :
    Prog.wp env guard (.call c next) Q s := by
  intro s' moved
  have holds' := stable.moves holds moved
  exact ⟨guarded s' holds', fun a s'' => answered s' a s'' holds'⟩

theorem wp_mono (weaken : ∀ s, Q s → R s) (holds : p.wp env guard Q s) : p.wp env guard R s := by
  induction p generalizing s with
  | done => exact fun s' moved => weaken s' (holds s' moved)
  | call c next ih =>
    intro s' moved
    obtain ⟨guarded, answered⟩ := holds s' moved
    exact ⟨guarded, fun a s'' answer => ih a (answered a s'' answer)⟩

theorem wp_seq (first : p.wp env guard R s) (snd : ∀ s, R s → q.wp env guard Q s) :
    (p.seq q).wp env guard Q s := by
  induction p generalizing s with
  | done => exact snd s (first s .refl)
  | call c next ih =>
    intro s' moved
    obtain ⟨guarded, answered⟩ := first s' moved
    exact ⟨guarded, fun a s'' answer => ih a (answered a s'' answer)⟩

/-! ## Runs -/

theorem wp_move (holds : p.wp env guard Q s) (moved : env.moves p.pending s s') : p.wp env guard Q s' := by
  cases p with
  | done => exact fun s'' later => holds s'' (.head moved later)
  | call c next => exact fun s'' later => holds s'' (.head moved later)

theorem wp_reaches (holds : p.wp env guard Q s) (reaches : env.Reaches (p, s) (p', s')) : p'.wp env guard Q s' := by
  generalize target : (p', s') = config at reaches
  induction reaches generalizing p' s' with
  | refl =>
    cases target
    exact holds
  | tail _ last ih =>
    cases last with
    | answer answered =>
      cases target
      exact ((ih rfl) _ .refl).2 _ _ answered
    | move moved =>
      cases target
      exact wp_move (ih rfl) moved

theorem guard_of_pending (holds : p.wp env guard Q s) (waiting : p.pending = some c) : guard c s := by
  cases p with
  | done => cases waiting
  | call c next =>
    cases waiting
    exact (holds s .refl).1

theorem guard_of_reaches (holds : p.wp env guard Q s)
    (reaches : env.Reaches (p, s) (.call c next, s')) : guard c s' :=
  (wp_reaches holds reaches s' .refl).1

theorem post_of_reaches (holds : p.wp env guard Q s) (reaches : env.Reaches (p, s) (.done, s')) : Q s' :=
  wp_reaches holds reaches s' .refl

end Rules

/-! ## Programs as trees -/

/-- Every call that the program may ever make, with what follows it, has the property. -/
def Prog.Every (property : (c : Call) → (Answer c → Prog Call Answer) → Prop) : Prog Call Answer → Prop
  | .done => True
  | .call c next => property c next ∧ ∀ a, (next a).Every property

section Every

variable {property : (c : Call) → (Answer c → Prog Call Answer) → Prop}

theorem every_seq {p q : Prog Call Answer}
    (composed : ∀ c next, property c next → property c fun a => (next a).seq q) (first : p.Every property)
    (snd : q.Every property) : (p.seq q).Every property := by
  induction p with
  | done => exact snd
  | call c next ih =>
    exact ⟨composed c next first.1, fun a => ih a (first.2 a)⟩

theorem every_of_reaches {env : Environment Call Answer State} {p p' : Prog Call Answer} {s s' : State}
    (every : p.Every property) (reaches : env.Reaches (p, s) (p', s')) : p'.Every property := by
  generalize target : (p', s') = config at reaches
  induction reaches generalizing p' s' with
  | refl =>
    cases target
    exact every
  | tail _ last ih =>
    cases last with
    | answer answered =>
      cases target
      exact (ih rfl).2 _
    | move moved =>
      cases target
      exact ih rfl

end Every

end Xv6Simplesh.Library
