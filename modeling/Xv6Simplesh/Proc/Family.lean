import Xv6Simplesh.Proc.Table

/-! # Parents and children

What the process table says about who is whose child, without scheduling and signals: a
slot is free, taken by a `fork` that is not done, alive or dead.  Every step of the table
is a step of this family or leaves it as it is, and the family keeps its order: parents are
alive, and no two processes ever have the same serial number.
-/

namespace Xv6Simplesh.Ptable

open Library Function
open Vm (ProcState Switches)

inductive Standing where
  | free
  | embryo
  | alive
  | dead
deriving DecidableEq, Repr

def standing : ProcState → Standing
  | .unused => .free
  | .embryo => .embryo
  | .sleeping | .runnable | .running => .alive
  | .zombie => .dead

/-- The child of a `fork` that is not done, and whether it has its parent. -/
def Phase.stage : Phase → Option (Fin nproc × Bool)
  | .forkStack np | .forkCopy np => some (np, false)
  | .forkPublish np => some (np, true)
  | .user | .waiting => none

structure Member where
  standing : Standing
  parent : Option (Fin nproc)
  stage : Option (Fin nproc × Bool)
  pid : Int
  serial : Nat
  creator : Nat

def Proc.member (proc : Proc) : Member :=
  ⟨Ptable.standing proc.state, proc.parent, proc.phase.stage, proc.pid, proc.serial, proc.creator⟩

structure Family where
  members : Fin nproc → Member
  nextpid : Int
  initproc : Fin nproc
  created : Nat
  exited : List Nat
  reaped : List Reaped

def Table.family (t : Table) : Family :=
  ⟨fun p => (t.procs p).member, t.nextpid, t.initproc, t.created, t.exited, t.reaped⟩

namespace Family

def set (f : Family) (p : Fin nproc) (mem : Member) : Family :=
  { f with members := update f.members p mem }

def setStage (f : Family) (p : Fin nproc) (stage : Option (Fin nproc × Bool)) : Family :=
  f.set p { f.members p with stage }

def take (f : Family) (p np : Fin nproc) : Family :=
  ({ f.set np { f.members np with
      standing := .embryo
      pid := f.nextpid
      serial := f.created
      creator := (f.members p).serial } with
    nextpid := int (f.nextpid + 1)
    created := f.created + 1 }).setStage p (some (np, false))

def fail (f : Family) (p np : Fin nproc) : Family :=
  (f.set np { f.members np with standing := .free }).setStage p none

def adopt (f : Family) (p np : Fin nproc) : Family :=
  (f.set np { f.members np with parent := some p }).setStage p (some (np, true))

def publish (f : Family) (p np : Fin nproc) : Family :=
  (f.set np { f.members np with standing := .alive, stage := none }).setStage p none

def abandonChildren (f : Family) (p : Fin nproc) : Family :=
  { f with members := fun q =>
      { f.members q with
        parent := if (f.members q).parent = some p then some f.initproc else (f.members q).parent } }

def die (f : Family) (p : Fin nproc) : Family :=
  { f.set p { f.members p with standing := .dead } with exited := (f.members p).serial :: f.exited }

def exit (f : Family) (p : Fin nproc) : Family := (f.abandonChildren p).die p

def reap (f : Family) (p q : Fin nproc) : Family :=
  { (f.set q { f.members q with standing := .free, pid := 0, parent := none }).setStage p none with
    reaped := ⟨(f.members q).pid, (f.members q).serial⟩ :: f.reaped }

/-- What happens to a family, done by slot `p`. -/
inductive Step (f : Family) : Family → Prop
  | take {p np : Fin nproc} (alive : (f.members p).standing = .alive) (idle : (f.members p).stage = none)
      (free : (f.members np).standing = .free) : Step f (f.take p np)
  | fail {p np : Fin nproc} (alive : (f.members p).standing = .alive)
      (forking : (f.members p).stage = some (np, false)) : Step f (f.fail p np)
  | adopt {p np : Fin nproc} (alive : (f.members p).standing = .alive)
      (forking : (f.members p).stage = some (np, false)) : Step f (f.adopt p np)
  | publish {p np : Fin nproc} (alive : (f.members p).standing = .alive)
      (forking : (f.members p).stage = some (np, true)) : Step f (f.publish p np)
  | exit {p : Fin nproc} (alive : (f.members p).standing = .alive) (idle : (f.members p).stage = none)
      (other : p ≠ f.initproc) : Step f (f.exit p)
  | reap {p q : Fin nproc} (alive : (f.members p).standing = .alive) (idle : (f.members p).stage = none)
      (child : (f.members q).parent = some p) (dead : (f.members q).standing = .dead) : Step f (f.reap p q)

/-! ## What a step changes -/

/-- Only the members at `p` and `np` have changed, and init is the same. -/
structure Changes (f f' : Family) (p np : Fin nproc) (atForker atChild : Member) : Prop where
  forker : f'.members p = atForker
  child : f'.members np = atChild
  other : ∀ q, q ≠ p → q ≠ np → f'.members q = f.members q
  initproc : f'.initproc = f.initproc

theorem changes_set_setStage (f : Family) {p np : Fin nproc} (ne : p ≠ np) (mem : Member)
    (stage : Option (Fin nproc × Bool)) :
    Changes f ((f.set np mem).setStage p stage) p np { f.members p with stage } mem where
  forker := by simp [setStage, set, ne]
  child := by simp [setStage, set, ne.symm]
  other q q_p q_np := by simp [setStage, set, q_p, q_np]
  initproc := rfl

variable {f f' : Family} {p np q : Fin nproc}

theorem changes_take (f : Family) (ne : p ≠ np) :
    Changes f (f.take p np) p np { f.members p with stage := some (np, false) }
      { f.members np with
        standing := .embryo, pid := f.nextpid, serial := f.created, creator := (f.members p).serial } :=
  let changes := changes_set_setStage f ne _ _
  ⟨changes.forker, changes.child, changes.other, rfl⟩

theorem changes_fail (f : Family) (ne : p ≠ np) :
    Changes f (f.fail p np) p np { f.members p with stage := none } { f.members np with standing := .free } :=
  changes_set_setStage f ne _ _

theorem changes_adopt (f : Family) (ne : p ≠ np) :
    Changes f (f.adopt p np) p np { f.members p with stage := some (np, true) }
      { f.members np with parent := some p } :=
  changes_set_setStage f ne _ _

theorem changes_publish (f : Family) (ne : p ≠ np) :
    Changes f (f.publish p np) p np { f.members p with stage := none }
      { f.members np with standing := .alive, stage := none } :=
  changes_set_setStage f ne _ _

theorem changes_reap (f : Family) (ne : p ≠ q) : Changes f (f.reap p q) p q { f.members p with stage := none }
      { f.members q with standing := .free, pid := 0, parent := none } :=
  let changes := changes_set_setStage f ne _ _
  ⟨changes.forker, changes.child, changes.other, rfl⟩

theorem exit_members (f : Family) (p q : Fin nproc) : (f.exit p).members q = { f.members q with
      standing := if q = p then .dead else (f.members q).standing
      parent := if (f.members q).parent = some p then some f.initproc else (f.members q).parent } := by
  simp only [exit, die, set, abandonChildren, update_apply]
  split
  · next same => rw [same]
  · rfl

/-! ## Forks that are not done -/

structure Forks (f : Family) : Prop where
  init : (f.members f.initproc).standing = .alive
  busy : ∀ p child, (f.members p).stage = some child → (f.members p).standing = .alive
  /-- The child of a `fork` is an embryo, and no other `fork` has taken it. -/
  child : ∀ p np adopted, (f.members p).stage = some (np, adopted) →
    (f.members np).standing = .embryo ∧ (f.members np).creator = (f.members p).serial
  forker : ∀ p p' np adopted adopted', (f.members p).stage = some (np, adopted) →
    (f.members p').stage = some (np, adopted') → p = p'

variable {adopted : Bool}

theorem Forks.ne_child (forks : f.Forks) (forking : (f.members p).stage = some (np, adopted)) : p ≠ np := by
  intro same
  have alive := forks.busy p _ forking
  rw [same, (forks.child p np adopted forking).1] at alive
  cases alive

theorem ne_of_standing (alive : (f.members p).standing = .alive) (other : (f.members q).standing ≠ .alive) :
    p ≠ q := by
  rintro rfl
  exact other alive

/-! ## Parents -/

structure Parents (f : Family) : Prop where
  free : ∀ q, (f.members q).standing = .free → (f.members q).parent = none
  embryo : ∀ p q, (f.members q).standing = .embryo → (f.members q).parent = some p →
    (f.members p).stage = some (q, true)
  adopted : ∀ p q, (f.members p).stage = some (q, true) → (f.members q).parent = some p
  parent : ∀ p q, (f.members q).parent = some p → (f.members p).standing = .alive ∧
    ((f.members p).serial = (f.members q).creator ∨ p = f.initproc ∧ (f.members q).creator ∈ f.exited)
  born : ∀ q, q ≠ f.initproc → (f.members q).standing = .alive ∨ (f.members q).standing = .dead →
    (f.members q).parent ≠ none

/-- A child whose `fork` has not come so far has no parent. -/
theorem Parents.unadopted (parents : f.Parents) (forks : f.Forks) (forking : (f.members p).stage = some (np, false)) :
    (f.members np).parent = none := by
  cases found : (f.members np).parent with
  | none => rfl
  | some r =>
    have adopted := parents.embryo r np (forks.child p np false forking).1 found
    obtain rfl := forks.forker p r np false true forking adopted
    rw [forking] at adopted
    cases adopted

/-! ## Steps at two slots -/

/-- What a step of `p` that has to do with slot `np` may make of it: `mem`, with `stage` for `p`.  Nobody else has to
do with the slot, and only `p` can be the parent. -/
structure Handover (f : Family) (p np : Fin nproc) (stage : Option (Fin nproc × Bool)) (mem : Member) : Prop where
  alive : (f.members p).standing = .alive
  target : (f.members np).standing ≠ .alive
  only : ∀ q adopted, (f.members q).stage = some (np, adopted) → q = p
  own : ∀ q adopted, (f.members p).stage = some (q, adopted) → q = np
  calm : mem.stage = none
  staged : ∀ q adopted, stage = some (q, adopted) → q = np ∧ mem.standing = .embryo ∧
    mem.creator = (f.members p).serial ∧ (adopted = true → mem.parent = some p)
  free : mem.standing = .free → mem.parent = none
  parent : ∀ r, mem.parent = some r → r = p ∧ mem.creator = (f.members p).serial ∧
    (mem.standing = .embryo → stage = some (np, true))
  born : mem.standing = .alive ∨ mem.standing = .dead → mem.parent ≠ none

section Handover

variable {stage : Option (Fin nproc × Bool)} {mem : Member}

/-- Who forks after the step: `p`, or another process as before. -/
theorem Handover.forks (handover : Handover f p np stage mem)
    (changes : Changes f f' p np { f.members p with stage } mem) {c : Fin nproc}
    (staged : (f'.members q).stage = some (c, adopted)) :
    q = p ∧ stage = some (c, adopted) ∨ q ≠ p ∧ q ≠ np ∧ (f.members q).stage = some (c, adopted) := by
  by_cases atForker : q = p
  · rw [atForker, changes.forker] at staged
    exact .inl ⟨atForker, staged⟩
  · by_cases atChild : q = np
    · rw [atChild, changes.child, handover.calm] at staged
      cases staged
    · rw [changes.other q atForker atChild] at staged
      exact .inr ⟨atForker, atChild, staged⟩

theorem Forks.handover (forks : f.Forks) (handover : Handover f p np stage mem)
    (changes : Changes f f' p np { f.members p with stage } mem) : f'.Forks := by
  constructor
  · rw [changes.initproc]
    by_cases atForker : f.initproc = p
    · rw [atForker, changes.forker]
      exact handover.alive
    · rw [changes.other _ atForker fun same => handover.target (same ▸ forks.init)]
      exact forks.init
  · rintro q ⟨c, adopted⟩ staged
    rcases handover.forks changes staged with ⟨rfl, -⟩ | ⟨other, other', before⟩
    · rw [changes.forker]
      exact handover.alive
    · rw [changes.other q other other']
      exact forks.busy q _ before
  · intro q c adopted staged
    rcases handover.forks changes staged with ⟨rfl, new⟩ | ⟨other, other', before⟩
    · obtain ⟨rfl, embryo, creator, -⟩ := handover.staged c adopted new
      rw [changes.child, changes.forker]
      exact ⟨embryo, creator⟩
    · obtain ⟨embryo, creator⟩ := forks.child q c adopted before
      have notForker : c ≠ p := by
        rintro rfl
        rw [handover.alive] at embryo
        cases embryo
      have notChild : c ≠ np := by
        rintro rfl
        exact other (handover.only q adopted before)
      rw [changes.other c notForker notChild, changes.other q other other']
      exact ⟨embryo, creator⟩
  · intro q q' c adopted adopted' staged staged'
    rcases handover.forks changes staged with ⟨rfl, new⟩ | ⟨other, -, before⟩
    · obtain ⟨rfl, -⟩ := handover.staged c adopted new
      rcases handover.forks changes staged' with ⟨rfl, -⟩ | ⟨-, -, before'⟩
      · rfl
      · exact (handover.only q' adopted' before').symm
    · rcases handover.forks changes staged' with ⟨rfl, new'⟩ | ⟨-, -, before'⟩
      · obtain ⟨rfl, -⟩ := handover.staged c adopted' new'
        exact handover.only q adopted before
      · exact forks.forker q q' c adopted adopted' before before'

/-- Away from the slot, a step at two slots changes no parent, no number and no standing. -/
theorem Changes.away (changes : Changes f f' p np { f.members p with stage } mem) (other : q ≠ np) :
    (f'.members q).standing = (f.members q).standing ∧ (f'.members q).parent = (f.members q).parent ∧
      (f'.members q).serial = (f.members q).serial ∧ (f'.members q).creator = (f.members q).creator := by
  by_cases atForker : q = p
  · rw [atForker, changes.forker]
    exact ⟨rfl, rfl, rfl, rfl⟩
  · rw [changes.other q atForker other]
    exact ⟨rfl, rfl, rfl, rfl⟩

theorem Parents.handover (parents : f.Parents) (handover : Handover f p np stage mem)
    (changes : Changes f f' p np { f.members p with stage } mem) (exited : f'.exited = f.exited) : f'.Parents := by
  have alive : (f'.members p).standing = .alive := by
    rw [changes.forker]
    exact handover.alive
  have serial : (f'.members p).serial = (f.members p).serial := by rw [changes.forker]
  constructor
  · intro q free
    by_cases atChild : q = np
    · rw [atChild, changes.child] at free ⊢
      exact handover.free free
    · obtain ⟨standing, parent, -⟩ := changes.away atChild
      rw [parent]
      exact parents.free q (standing ▸ free)
  · intro r q embryo parent
    by_cases atChild : q = np
    · subst atChild
      rw [changes.child] at embryo parent
      obtain ⟨rfl, -, staged⟩ := handover.parent r parent
      rw [changes.forker]
      exact staged embryo
    · obtain ⟨standing, same, -⟩ := changes.away atChild
      have before := parents.embryo r q (standing ▸ embryo) (same ▸ parent)
      have notForker : r ≠ p := by
        rintro rfl
        exact atChild (handover.own q true before)
      have notChild : r ≠ np := by
        rintro rfl
        exact handover.target (parents.parent r q (same ▸ parent)).1
      rwa [changes.other r notForker notChild]
  · intro r q staged
    rcases handover.forks changes staged with ⟨rfl, new⟩ | ⟨other, -, before⟩
    · obtain ⟨rfl, -, -, adopted⟩ := handover.staged q true new
      rw [changes.child]
      exact adopted rfl
    · have notChild : q ≠ np := by
        rintro rfl
        exact other (handover.only r true before)
      rw [(changes.away notChild).2.1]
      exact parents.adopted r q before
  · intro r q parent
    rw [changes.initproc, exited]
    by_cases atChild : q = np
    · subst atChild
      rw [changes.child] at parent ⊢
      obtain ⟨rfl, creator, -⟩ := handover.parent r parent
      exact ⟨alive, .inl (serial.trans creator.symm)⟩
    · obtain ⟨-, same, -, creator⟩ := changes.away atChild
      obtain ⟨living, known⟩ := parents.parent r q (same ▸ parent)
      obtain ⟨standing, -, number, -⟩ := changes.away fun same : r = np => handover.target (same ▸ living)
      rw [standing, number, creator]
      exact ⟨living, known⟩
  · intro q notInit settled
    rw [changes.initproc] at notInit
    by_cases atChild : q = np
    · rw [atChild, changes.child] at settled ⊢
      exact handover.born settled
    · obtain ⟨standing, parent, -⟩ := changes.away atChild
      rw [parent]
      exact parents.born q notInit (standing ▸ settled)

end Handover

section

variable (forks : f.Forks)

include forks

/-- A slot without a process, or with one that is dead, has nothing to do with a `fork`. -/
theorem Forks.unforked (settled : (f.members np).standing ≠ .embryo) : (f.members q).stage ≠ some (np, adopted) :=
  fun forking => settled (forks.child q np adopted forking).1

theorem Forks.stage_none (still : (f.members q).standing ≠ .alive) : (f.members q).stage = none := by
  by_contra busy
  obtain ⟨child, forking⟩ := Option.ne_none_iff_exists'.mp busy
  exact still (forks.busy q child forking)

theorem handover_take (parents : f.Parents) (alive : (f.members p).standing = .alive)
    (idle : (f.members p).stage = none) (free : (f.members np).standing = .free) :
    Handover f p np (some (np, false)) { f.members np with
      standing := .embryo, pid := f.nextpid, serial := f.created, creator := (f.members p).serial } where
  alive := alive
  target := by simp [free]
  only q adopted forking := absurd forking (forks.unforked (by simp [free]))
  own q adopted forking := by simp [idle] at forking
  calm := forks.stage_none (by simp [free])
  staged q adopted same := by
    cases same
    exact ⟨rfl, rfl, rfl, fun adopted => by cases adopted⟩
  free same := by cases same
  parent r same := by simp [parents.free np free] at same
  born settled := by simp at settled

/-- The child of a `fork`, for the steps that go on with it. -/
theorem Forks.forking (forking : (f.members p).stage = some (np, adopted)) :
    (f.members np).standing = .embryo ∧ (f.members np).standing ≠ .alive ∧
      (∀ q adopted, (f.members q).stage = some (np, adopted) → q = p) ∧
      (∀ q adopted, (f.members p).stage = some (q, adopted) → q = np) ∧ (f.members np).stage = none ∧
      (f.members np).creator = (f.members p).serial := by
  obtain ⟨embryo, creator⟩ := forks.child p np adopted forking
  have still : (f.members np).standing ≠ .alive := by simp [embryo]
  refine ⟨embryo, still, fun q _ other => forks.forker q p np _ _ other forking, fun q _ other => ?_,
    forks.stage_none still, creator⟩
  rw [forking] at other
  exact (congrArg Prod.fst (Option.some.inj other)).symm

theorem handover_fail (parents : f.Parents) (alive : (f.members p).standing = .alive)
    (forking : (f.members p).stage = some (np, false)) :
    Handover f p np none { f.members np with standing := .free } := by
  obtain ⟨-, still, only, own, calm, -⟩ := forks.forking forking
  have unadopted := parents.unadopted forks forking
  exact {
    alive, target := still, only, own, calm
    staged := fun q adopted same => by cases same
    free := fun _ => unadopted
    parent := fun r same => by simp [unadopted] at same
    born := fun settled => by simp at settled }

theorem handover_adopt (alive : (f.members p).standing = .alive) (forking : (f.members p).stage = some (np, false)) :
    Handover f p np (some (np, true)) { f.members np with parent := some p } := by
  obtain ⟨embryo, still, only, own, calm, creator⟩ := forks.forking forking
  exact {
    alive, target := still, only, own, calm
    staged := fun q adopted same => by
      cases same
      exact ⟨rfl, embryo, creator, fun _ => rfl⟩
    free := fun free => by simp [embryo] at free
    parent := fun r same => by
      cases same
      exact ⟨rfl, creator, fun _ => rfl⟩
    born := fun _ => Option.some_ne_none p }

theorem handover_publish (parents : f.Parents) (alive : (f.members p).standing = .alive)
    (forking : (f.members p).stage = some (np, true)) :
    Handover f p np none { f.members np with standing := .alive, stage := none } := by
  obtain ⟨-, still, only, own, -, creator⟩ := forks.forking forking
  have adopted := parents.adopted p np forking
  exact {
    alive, target := still, only, own, calm := rfl
    staged := fun q adopted same => by cases same
    free := fun free => by cases free
    parent := fun r same => by
      refine ⟨Option.some.inj (same.symm.trans adopted), creator, fun embryo => ?_⟩
      cases embryo
    born := fun _ => by simp [adopted] }

theorem handover_reap (alive : (f.members p).standing = .alive) (idle : (f.members p).stage = none)
    (dead : (f.members q).standing = .dead) :
    Handover f p q none { f.members q with standing := .free, pid := 0, parent := none } where
  alive := alive
  target := by simp [dead]
  only r adopted forking := absurd forking (forks.unforked (by simp [dead]))
  own r adopted forking := by simp [idle] at forking
  calm := forks.stage_none (by simp [dead])
  staged r adopted same := by cases same
  free _ := rfl
  parent r same := by cases same
  born settled := by simp at settled

end

theorem Step.handover (step : f.Step f') (forks : f.Forks) (parents : f.Parents) :
    (∃ p, (f.members p).standing = .alive ∧ (f.members p).stage = none ∧ p ≠ f.initproc ∧ f' = f.exit p) ∨
      ∃ p np stage mem, Handover f p np stage mem ∧ Changes f f' p np { f.members p with stage } mem ∧
        f'.exited = f.exited := by
  cases step with
  | @take p np alive idle free =>
    have ne : p ≠ np := ne_of_standing alive (by simp [free])
    exact .inr ⟨p, np, _, _, handover_take forks parents alive idle free, f.changes_take ne, rfl⟩
  | @fail p np alive forking =>
    exact .inr ⟨p, np, _, _, handover_fail forks parents alive forking, f.changes_fail (forks.ne_child forking), rfl⟩
  | @adopt p np alive forking =>
    exact .inr ⟨p, np, _, _, handover_adopt forks alive forking, f.changes_adopt (forks.ne_child forking), rfl⟩
  | @publish p np alive forking =>
    exact .inr ⟨p, np, _, _, handover_publish forks parents alive forking, f.changes_publish (forks.ne_child forking), rfl⟩
  | @exit p alive idle notInit => exact .inl ⟨p, alive, idle, notInit, rfl⟩
  | @reap p q alive idle child dead =>
    have ne : p ≠ q := ne_of_standing alive (by simp [dead])
    exact .inr ⟨p, q, _, _, handover_reap forks alive idle dead, f.changes_reap ne, rfl⟩

/-! ## `exit` -/

theorem Forks.exit (forks : f.Forks) (alive : (f.members p).standing = .alive) (idle : (f.members p).stage = none)
    (notInit : p ≠ f.initproc) : (f.exit p).Forks := by
  have standing : ∀ q, q ≠ p → ((f.exit p).members q).standing = (f.members q).standing := by
    intro q other
    rw [exit_members]
    exact if_neg other
  have stage : ∀ q, ((f.exit p).members q).stage = (f.members q).stage := fun q => by rw [exit_members]
  constructor
  · exact (standing _ notInit.symm).trans forks.init
  · intro q child forking
    rw [stage] at forking
    have other : q ≠ p := by
      rintro rfl
      rw [idle] at forking
      cases forking
    rw [standing q other]
    exact forks.busy q child forking
  · intro q c adopted forking
    rw [stage] at forking
    obtain ⟨embryo, creator⟩ := forks.child q c adopted forking
    rw [standing c (ne_of_standing alive (by simp [embryo])).symm, exit_members, exit_members]
    exact ⟨embryo, creator⟩
  · intro q q' c adopted adopted' forking forking'
    rw [stage] at forking forking'
    exact forks.forker q q' c adopted adopted' forking forking'

/-- After `exit` a parent is init for the children of the process that exits, and another
process for the others. -/
theorem exit_parent {r : Fin nproc} (parent : ((f.exit p).members q).parent = some r) :
    (f.members q).parent = some p ∧ r = f.initproc ∨ (f.members q).parent = some r ∧ r ≠ p := by
  rw [exit_members] at parent
  grind

theorem Parents.exit (parents : f.Parents) (forks : f.Forks) (alive : (f.members p).standing = .alive)
    (idle : (f.members p).stage = none) (notInit : p ≠ f.initproc) : (f.exit p).Parents := by
  have members := f.exit_members p
  constructor
  · intro q free
    have := parents.free q
    grind
  · intro r q embryo parent
    have := parents.embryo p q
    have := parents.embryo r q
    have := exit_parent parent
    grind
  · intro r q adopting
    have := parents.adopted r q
    grind
  · intro r q parent
    change _ ∧ (_ ∨ r = f.initproc ∧ _ ∈ (f.members p).serial :: f.exited)
    rcases exit_parent parent with ⟨orphan, rfl⟩ | ⟨kept, other⟩
    · -- The creator of an orphan is the process that exits, or was gone before.
      obtain ⟨-, creator⟩ := parents.parent p q orphan
      have := forks.init
      grind
    · have := parents.parent r q kept
      grind
  · intro q other settled
    have := parents.born q other
    grind

theorem Forks.step (forks : f.Forks) (parents : f.Parents) (step : f.Step f') : f'.Forks := by
  rcases step.handover forks parents with ⟨p, alive, idle, notInit, rfl⟩ | ⟨p, np, stage, mem, handover, changes, -⟩
  · exact forks.exit alive idle notInit
  · exact forks.handover handover changes

theorem Parents.step (parents : f.Parents) (forks : f.Forks) (step : f.Step f') : f'.Parents := by
  rcases step.handover forks parents with
    ⟨p, alive, idle, notInit, rfl⟩ | ⟨p, np, stage, mem, handover, changes, exited⟩
  · exact parents.exit forks alive idle notInit
  · exact parents.handover handover changes exited

/-! ## Numbers

A serial number is never given twice, and a process number is its serial number cut to 32 bits. -/

structure Serials (f : Family) : Prop where
  init : (f.members f.initproc).serial = 0
  taken : ∀ q, (f.members q).standing ≠ .free →
    (f.members q).serial < f.created ∧ (f.members q).pid = int ((f.members q).serial + 1)
  distinct : ∀ p q, (f.members p).standing ≠ .free → (f.members q).standing ≠ .free →
    (f.members p).serial = (f.members q).serial → p = q
  nextpid : f.nextpid = int (f.created + 1)
  reaped : ∀ r ∈ f.reaped, r.serial < f.created ∧ r.pid = int (r.serial + 1)
  gone : ∀ r ∈ f.reaped, ∀ q, (f.members q).standing ≠ .free → (f.members q).serial ≠ r.serial
  once : (f.reaped.map Reaped.serial).Nodup

/-- A step that gives no slot and frees none keeps the numbers. -/
theorem Serials.congr (serials : f.Serials) (initproc : f'.initproc = f.initproc)
    (same : ∀ q, (f'.members q).standing ≠ .free → (f.members q).standing ≠ .free ∧
      (f'.members q).serial = (f.members q).serial ∧ (f'.members q).pid = (f.members q).pid)
    (init : (f'.members f.initproc).serial = (f.members f.initproc).serial)
    (created : f'.created = f.created) (nextpid : f'.nextpid = f.nextpid) (reaped : f'.reaped = f.reaped) :
    f'.Serials := by
  constructor
  · rw [initproc, init, serials.init]
  · intro q used
    obtain ⟨used, serial, pid⟩ := same q used
    rw [serial, pid, created]
    exact serials.taken q used
  · intro p q p_used q_used
    obtain ⟨p_used, p_serial, -⟩ := same p p_used
    obtain ⟨q_used, q_serial, -⟩ := same q q_used
    rw [p_serial, q_serial]
    exact serials.distinct p q p_used q_used
  · rw [nextpid, created, serials.nextpid]
  · rw [reaped, created]
    exact serials.reaped
  · rw [reaped]
    intro r gone q used
    obtain ⟨used, serial, -⟩ := same q used
    rw [serial]
    exact serials.gone r gone q used
  · rw [reaped]
    exact serials.once

theorem int_add_one (n : Int) : int (int n + 1) = int (n + 1) := Int.bmod_add_bmod ..

theorem Serials.take (serials : f.Serials) (forks : f.Forks) (alive : (f.members p).standing = .alive)
    (free : (f.members np).standing = .free) : (f.take p np).Serials := by
  obtain ⟨at_p, at_np, other, initproc⟩ := f.changes_take (ne_of_standing alive (q := np) (by simp [free]))
  have created : (f.take p np).created = f.created + 1 := rfl
  have nextpid : (f.take p np).nextpid = int (f.nextpid + 1) := rfl
  have reaped : (f.take p np).reaped = f.reaped := rfl
  have running := forks.init
  obtain ⟨init, taken, distinct, next, numbers, gone, once⟩ := serials
  constructor
  · grind
  · grind
  · grind
  · rw [nextpid, next, int_add_one, created]
    rfl
  · grind
  · grind
  · exact once

theorem Serials.reap (serials : f.Serials) (forks : f.Forks) (alive : (f.members p).standing = .alive)
    (dead : (f.members q).standing = .dead) : (f.reap p q).Serials := by
  obtain ⟨at_p, at_q, other, initproc⟩ := f.changes_reap (ne_of_standing alive (q := q) (by simp [dead]))
  have created : (f.reap p q).created = f.created := rfl
  have nextpid : (f.reap p q).nextpid = f.nextpid := rfl
  have reaped : (f.reap p q).reaped = ⟨(f.members q).pid, (f.members q).serial⟩ :: f.reaped := rfl
  have running := forks.init
  obtain ⟨init, taken, distinct, next, numbers, gone, once⟩ := serials
  constructor
  · grind
  · grind
  · grind
  · exact next
  · grind
  · grind
  · rw [reaped, List.map_cons, List.nodup_cons]
    refine ⟨fun again => ?_, once⟩
    obtain ⟨r, listed, same⟩ := List.mem_map.mp again
    exact gone r listed q (by simp [dead]) same.symm

theorem Serials.step (serials : f.Serials) (forks : f.Forks) (step : f.Step f') : f'.Serials := by
  cases step with
  | take alive idle free => exact serials.take forks alive free
  | @fail p np alive forking =>
    obtain ⟨at_p, at_np, other, initproc⟩ := f.changes_fail (forks.ne_child forking)
    exact serials.congr initproc (by grind) (by grind) rfl rfl rfl
  | @adopt p np alive forking =>
    obtain ⟨at_p, at_np, other, initproc⟩ := f.changes_adopt (forks.ne_child forking)
    exact serials.congr initproc (by grind) (by grind) rfl rfl rfl
  | @publish p np alive forking =>
    obtain ⟨at_p, at_np, other, initproc⟩ := f.changes_publish (forks.ne_child forking)
    obtain ⟨embryo, -⟩ := forks.child p np _ forking
    exact serials.congr initproc (by grind) (by grind) rfl rfl rfl
  | @exit p alive idle notInit =>
    have members := f.exit_members p
    exact serials.congr rfl (by grind) (by grind) rfl rfl rfl
  | reap alive idle child dead => exact serials.reap forks alive dead

end Family

/-! ## The table and the family -/

namespace Table

variable (t : Table) (p : Fin nproc)

theorem family_setProc (proc : Proc) : (t.setProc p proc).family = t.family.set p proc.member := by
  simp only [family, setProc, Family.set]
  congr 1
  funext q
  simp only [update_apply]
  split <;> rfl

theorem family_setPhase (phase : Phase) : (t.setPhase p phase).family = t.family.setStage p phase.stage :=
  t.family_setProc p _

theorem family_mapProcs {change : Fin nproc → Proc → Proc}
    (same : ∀ q, (change q (t.procs q)).member = (t.procs q).member) : (t.mapProcs change).family = t.family := by
  simp only [family, mapProcs, same]

theorem family_setProc_self {proc : Proc} (same : proc.member = (t.procs p).member) :
    (t.setProc p proc).family = t.family := by
  rw [family_setProc, same]
  simp only [Family.set, family, update_eq_self_iff.mpr]

theorem family_wakeup1 : (t.wakeup1 p).family = t.family := by
  refine t.family_mapProcs fun q => ?_
  split
  · next asleep => simp [Proc.member, standing, asleep.1]
  · rfl

theorem family_abandonChildren : (t.abandonChildren p).family = t.family.abandonChildren p := by
  simp only [family, abandonChildren, mapProcs, Family.abandonChildren]
  congr 1
  funext q
  split
  · next child => simp [Proc.member, child]
  · next other => simp [Proc.member, other]

theorem family_die :
    { t.setProc p { t.procs p with state := .zombie } with exited := (t.procs p).serial :: t.exited }.family =
      t.family.die p := by
  have set := t.family_setProc p { t.procs p with state := .zombie }
  exact congrArg (fun f : Family => { f with exited := (t.procs p).serial :: t.exited }) set

theorem family_wakeupParent : (t.wakeupParent p).family = t.family := by
  unfold wakeupParent
  cases (t.procs p).parent with
  | none => rfl
  | some parent => exact t.family_wakeup1 parent

theorem family_reparent : (t.reparent p).family = t.family.abandonChildren p := by
  unfold reparent
  split
  · rw [family_wakeup1, family_abandonChildren]
  · exact t.family_abandonChildren p

theorem family_exit : (t.exit p).family = t.family.exit p := by
  unfold exit Family.exit
  rw [← t.family_wakeupParent p, ← family_reparent]
  exact family_die _ p

theorem standing_wake (state : ProcState) : standing (wake state) = standing state := by
  cases state <;> rfl

theorem family_kill (pid : Int) : (t.kill pid).2.family = t.family := by
  have recorded : (t.mapProcs fun _ proc => { proc with kills := pid :: proc.kills }).family = t.family :=
    t.family_mapProcs fun _ => rfl
  unfold kill
  cases t.target pid with
  | none => exact recorded
  | some q =>
    refine (family_setProc_self _ _ ?_).trans recorded
    simp only [Proc.member, mapProcs, standing_wake]

theorem family_found (np : Fin nproc) : ((t.found p np).setPhase p (.forkStack np)).family = t.family.take p np := by
  have set := t.family_setProc np { t.procs np with
    state := .embryo, pid := t.nextpid, serial := t.created, creator := (t.procs p).serial, kills := [] }
  rw [family_setPhase]
  exact congrArg (fun f : Family => ({ f with
    nextpid := int (t.nextpid + 1), created := t.created + 1 }).setStage p (some (np, false))) set

theorem family_forkFail (np : Fin nproc) : (t.forkFail p np).family = t.family.fail p np := by
  have set := t.family_setProc np { t.procs np with state := .unused }
  exact ((t.setProc np _).family_setPhase p .user).trans (congrArg (Family.setStage · p none) set)

theorem family_adopt (np : Fin nproc) : (t.adopt p np).family = t.family.adopt p np := by
  have set := t.family_setProc np { t.procs np with parent := some p }
  exact ((t.setProc np _).family_setPhase p _).trans (congrArg (Family.setStage · p (some (np, true))) set)

theorem family_publish (np : Fin nproc) : (t.publish p np).family = t.family.publish p np := by
  have set := t.family_setProc np { t.procs np with state := .runnable, phase := .user }
  exact ((t.setProc np _).family_setPhase p .user).trans (congrArg (Family.setStage · p none) set)

theorem family_reap (q : Fin nproc) : (t.reap p q).family = t.family.reap p q := by
  have set := t.family_setProc q { t.procs q with state := .unused, pid := 0, parent := none, killed := false }
  exact congrArg (fun f : Family => { f with reaped := ⟨(t.procs q).pid, (t.procs q).serial⟩ :: t.reaped })
    (((t.setProc q _).family_setPhase p .user).trans (congrArg (Family.setStage · p none) set))

theorem stage_of_child {phase : Phase} (idle : phase.child = none) : phase.stage = none := by
  cases phase <;> simp_all [Phase.child, Phase.stage]

/-- Every step of the table is a step of the family, or the family does not show it. -/
theorem family_step {t t' : Table} {event : Event} (taken : t.step event = some t') :
    t'.family = t.family ∨ t.family.Step t'.family := by
  have alive {p : Fin nproc} (running : (t.procs p).state = .running) :
      (t.family.members p).standing = .alive := by
    change standing (t.procs p).state = _
    rw [running, standing]
  have stage {p : Fin nproc} {phase : Phase} (known : (t.procs p).phase = phase) :
      (t.family.members p).stage = phase.stage := congrArg Phase.stage known
  cases transition_of_step taken with
  | full => exact .inl rfl
  | @found p np running user unused =>
    rw [family_found]
    exact .inr (.take (alive running) (stage user) (congrArg standing unused))
  | @stack p np running forking =>
    left
    exact t.family_setProc_self p (by simp [Proc.member, forking, Phase.stage])
  | stackFail running forking =>
    rw [family_forkFail]
    exact .inr (.fail (alive running) (stage forking))
  | copy running forking =>
    rw [family_adopt]
    exact .inr (.adopt (alive running) (stage forking))
  | copyFail running forking =>
    rw [family_forkFail]
    exact .inr (.fail (alive running) (stage forking))
  | publish running forking =>
    rw [family_publish]
    exact .inr (.publish (alive running) (stage forking))
  | exit running user notInit =>
    rw [family_exit]
    exact .inr (.exit (alive running) (stage user) notInit)
  | reap running idle dead =>
    rw [family_reap]
    obtain ⟨child, zombie⟩ := deadChild_eq_some dead
    exact .inr (.reap (alive running) (stage_of_child idle) child (congrArg standing zombie))
  | giveUp idle =>
    left
    refine t.family_setProc_self _ ?_
    simp only [Proc.member, stage_of_child idle]
    rfl
  | sleep running idle =>
    left
    refine t.family_setProc_self _ ?_
    simp only [Proc.member, stage_of_child idle, running]
    rfl
  | kill => exact .inl (t.family_kill _)
  | @switch p state switches =>
    left
    refine t.family_setProc_self p ?_
    have same : standing state = standing (t.procs p).state := by
      revert switches
      cases (t.procs p).state <;> cases state <;> simp [Switches, standing]
    simp [Proc.member, same]

end Table

/-! ## Every run -/

/-- The order of the family of a table. -/
structure Ordered (t : Table) : Prop where
  forks : t.family.Forks
  parents : t.family.Parents
  serials : t.family.Serials

theorem ordered_boot : Ordered boot := by
  have init : boot.family.members 0 = ⟨.alive, none, none, 1, 0, 0⟩ := rfl
  have other : ∀ q, q ≠ 0 → boot.family.members q = ⟨.free, none, none, 0, 0, 0⟩ := by
    intro q ne
    simp only [Table.family, boot, if_neg ne]
    rfl
  have initproc : boot.family.initproc = 0 := rfl
  have created : boot.family.created = 1 := rfl
  have reaped : boot.family.reaped = [] := rfl
  have first : int (0 + 1) = 1 := by decide
  refine ⟨?_, ?_, ?_⟩
  · constructor <;> grind
  · constructor <;> grind
  · constructor
    case nextpid => decide
    all_goals grind

theorem ordered_of_reachable {allowed : Table → Event → Prop} {t : Table} (reach : system.Reachable allowed t) :
    Ordered t := by
  refine reach.invariant Ordered ?_ ?_
  · rintro t rfl
    exact ordered_boot
  · intro t event t' _ ordered _ taken
    obtain ⟨forks, parents, serials⟩ := ordered
    rcases Table.family_step taken with same | step
    · refine ⟨?_, ?_, ?_⟩
      · rwa [same]
      · rwa [same]
      · rwa [same]
    · exact ⟨forks.step parents step, parents.step forks step, serials.step forks step⟩

end Xv6Simplesh.Ptable
