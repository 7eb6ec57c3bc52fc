import Xv6Simplesh.Names.Links

/-! # Entries that dangle

The directories in use are the root, the current directories of processes, and what their entries
lead to.  Links keep what entries name, `..` apart: the `..` of a removed directory counts as no link.  So
an entry in use dangles when a call drops a directory above the current directory of a process, and, as
long as no count of links comes around to zero, only then.
-/

namespace Xv6Simplesh.Names

open Library Library.Command Function

variable {Pid : Type}

/-! ## Directories in use -/

/-- The root, a current directory, or what an entry of a directory in use names. -/
inductive InUse (inodes : Inodes) (cwds : Pid → Option Nat) : Nat → Prop where
  | root : InUse inodes cwds rootIno
  | cwd {p : Pid} {i : Nat} (alive : cwds p = some i) : InUse inodes cwds i
  | entry {d : Nat} {de : Dirent} (before : InUse inodes cwds d) (isDir : (inodes d).type = .dir)
      (mem : de ∈ (inodes d).slots) (used : de.inum ≠ 0) : InUse inodes cwds de.inum

/-- No entry of a directory in use names a free inode. -/
def Attached (inodes : Inodes) (cwds : Pid → Option Nat) : Prop :=
  ∀ d, InUse inodes cwds d → (inodes d).type = .dir → ∀ de ∈ (inodes d).slots, de.inum ≠ 0 →
    (inodes de.inum).type ≠ .free

/-- The current directory of a process, or a directory above one. -/
inductive Above (inodes : Inodes) (cwds : Pid → Option Nat) : Nat → Prop where
  | cwd {p : Pid} {i : Nat} (alive : cwds p = some i) : Above inodes cwds i
  | parent {d i : Nat} (below : Above inodes cwds d) (up : (inodes d).parent = some i) : Above inodes cwds i

/-- What proper names lead to from the root and from the directories above current ones. -/
inductive Below (inodes : Inodes) (cwds : Pid → Option Nat) : Nat → Prop where
  | root : Below inodes cwds rootIno
  | above {i : Nat} (above : Above inodes cwds i) : Below inodes cwds i
  | entry {d i : Nat} (before : Below inodes cwds d) (entry : 0 < (inodes d).entriesFor i) : Below inodes cwds i

section InUse

variable {inodes inodes' : Inodes} {cwds cwds' : Pid → Option Nat} {limit d i j : Nat} {lost : Nat → Nat}

theorem InUse.leads (use : InUse inodes cwds i) (leads : Leads inodes i j) : InUse inodes cwds j := by
  induction leads with
  | here => exact use
  | entry _ isDir mem used ih => exact .entry ih isDir mem used

theorem InUse.visits {p : Pid} {cwd : Nat} (alive : cwds p = some cwd) (visits : Visits inodes cwd i) :
    InUse inodes cwds i := by
  cases visits with
  | inl leads => exact InUse.root.leads leads
  | inr leads => exact (InUse.cwd alive).leads leads

theorem Shaped.mem_parent {node : Inode} (shaped : Shaped d node.slots) (up : node.parent = some i) :
    (⟨i, dotdot⟩ : Dirent) ∈ node.slots ∧ i ≠ 0 := by
  obtain ⟨parent, rest, slots, pos, -⟩ := shaped
  rw [Inode.parent_eq slots pos] at up
  cases up
  rw [slots]
  exact ⟨.tail _ (.head _), pos⟩

/-- An entry is `.`, `..` or a name that counts. -/
theorem Shaped.cases {node : Inode} {de : Dirent} (shaped : Shaped d node.slots) (isDir : node.type = .dir)
    (mem : de ∈ node.slots) (used : de.inum ≠ 0) :
    de.inum = d ∨ node.parent = some de.inum ∨ 0 < node.entriesFor de.inum := by
  obtain ⟨parent, rest, slots, pos, names⟩ := shaped
  have whole := mem
  rw [slots, List.mem_cons, List.mem_cons] at mem
  rcases mem with rfl | rfl | mem
  · exact .inl rfl
  · exact .inr (.inl (Inode.parent_eq slots pos))
  · exact .inr (.inr (Inode.entriesFor_pos isDir whole ⟨rfl, used, names de mem used⟩))

/-- The inodes and the current directories between two calls, as long as nothing dangles. -/
structure Grounded (inodes : Inodes) (cwds : Pid → Option Nat) : Prop where
  tree : ∃ lost, Tree 65536 inodes [] lost
  above : ∀ i, Above inodes cwds i → (inodes i).type = .dir

namespace Grounded

/-- What is above a directory that proper names lead to, is a directory that they lead to. -/
theorem up (grounded : Grounded inodes cwds) (below : Below inodes cwds d) (isDir : (inodes d).type = .dir)
    (up : (inodes d).parent = some i) : Below inodes cwds i ∧ (inodes i).type = .dir := by
  obtain ⟨lost, tree⟩ := grounded.tree
  cases below with
  | root =>
    rw [tree.top] at up
    cases up
    exact ⟨.root, tree.root⟩
  | above above =>
    have above := above.parent up
    exact ⟨.above above, grounded.above i above⟩
  | @entry c _ before entry =>
    rw [(tree.child c d entry isDir).2.1] at up
    cases up
    exact ⟨before, Inode.dir_of_entriesFor entry⟩

theorem below (grounded : Grounded inodes cwds) (use : InUse inodes cwds i) : Below inodes cwds i := by
  obtain ⟨lost, tree⟩ := grounded.tree
  induction use with
  | root => exact .root
  | cwd alive => exact .above (.cwd alive)
  | entry _ isDir mem used ih =>
    rcases (tree.shaped _ isDir).cases isDir mem used with same | up | entry
    · rw [same]
      exact ih
    · exact (grounded.up ih isDir up).1
    · exact .entry ih entry

theorem attached (grounded : Grounded inodes cwds) : Attached inodes cwds := by
  intro d use isDir de mem used
  obtain ⟨lost, tree⟩ := grounded.tree
  rcases (tree.shaped d isDir).cases isDir mem used with same | up | entry
  · rw [same, isDir]
    decide
  · rw [(grounded.up (grounded.below use) isDir up).2]
    decide
  · exact tree.named _ (tree.entryCount_pos entry)

end Grounded

end InUse

/-! ## Calls -/

variable [DecidableEq Pid] {s s' : State Pid} {p q : Pid} {cwd i : Nat} {call : Call}

def State.cwds (s : State Pid) (q : Pid) : Option Nat := (s.procs q).cwd

/-- The current directories that the call leaves. -/
def State.cwdsAfter (s : State Pid) (p : Pid) (cwd : Nat) : Call → Pid → Option Nat
  | .chdir (some path) => update s.cwds p (moved s.inodes cwd path (s.procs p)).cwd
  | .exit => update s.cwds p none
  | _ => s.cwds

theorem update_cwd (procs : Pid → Proc) (p : Pid) (proc : Proc) (q : Pid) :
    (update procs p proc q).cwd = update (fun q => (procs q).cwd) p proc.cwd q := by
  rw [update_apply, update_apply]
  split <;> rfl

theorem update_cwd_self (s : State Pid) (p q : Pid) : update s.cwds p (s.procs p).cwd q = s.cwds q := by
  have same : update s.cwds p (s.cwds p) = s.cwds := update_eq_self p s.cwds
  exact congrFun same q

section Plans

variable [Fintype Pid]

theorem State.withFile_cwd (s : State Pid) (p : Pid) (ip : Option Nat) (q : Pid) : (s.withFile p ip q).cwd = s.cwds q := by
  cases ip with
  | none => rfl
  | some ip =>
    cases new : s.newFd p with
    | none =>
      simp only [withFile, new]
      rfl
    | some fd =>
      simp only [withFile, new, update_cwd]
      exact update_cwd_self s p q

theorem plan_cwd (s : State Pid) (p : Pid) (cwd : Nat) (call : Call) (q : Pid) :
    ((plan s p cwd call).2 q).cwd = s.cwdsAfter p cwd call q := by
  unfold plan
  split
  · exact s.withFile_cwd p _ q
  · rfl
  · rfl
  · rfl
  · rfl
  · rw [update_cwd]
    rfl
  · rw [update_cwd, Proc.closed]
    split <;> exact update_cwd_self s p q
  · rw [update_cwd]
    rfl
  next noChdir _ noExit =>
    unfold State.cwdsAfter
    split
    · exact absurd rfl (noChdir _)
    · exact absurd rfl noExit
    · rfl

omit [Fintype Pid] in
theorem cwdsAfter_cases (alive : (s.procs p).cwd = some cwd) (there : s.cwdsAfter p cwd call q = some i) :
    s.cwds q = some i ∨ InUse s.inodes s.cwds i ∧ (s.inodes i).type = .dir := by
  unfold State.cwdsAfter at there
  split at there
  · rw [update_apply] at there
    split at there
    next same =>
      unfold moved at there
      split at there
      · exact .inl (same ▸ there)
      next found =>
        split at there
        next isDir =>
          cases there
          exact .inr ⟨.visits (p := p) alive (.find found), isDir⟩
        · exact .inl (same ▸ there)
    · exact .inl there
  · rw [update_apply] at there
    split at there
    · cases there
    · exact .inl there
  · exact .inl there

omit [Fintype Pid] in
theorem Grounded.above_after (grounded : Grounded s.inodes s.cwds) (alive : (s.procs p).cwd = some cwd)
    (above : Above s.inodes (s.cwdsAfter p cwd call) i) : Below s.inodes s.cwds i ∧ (s.inodes i).type = .dir := by
  induction above with
  | cwd there =>
    rcases cwdsAfter_cases alive there with same | ⟨use, isDir⟩
    · exact ⟨.above (.cwd same), grounded.above _ (.cwd same)⟩
    · exact ⟨grounded.below use, isDir⟩
  | parent _ up ih => exact grounded.up ih.1 ih.2 up

section

variable (grounded : Grounded s.inodes s.cwds) (settled : Settled s) (alive : (s.procs p).cwd = some cwd)
  (fits : ¬ Overflows (-1) s.inodes cwd call)

include grounded settled alive fits

/-- A call that does not drop a directory above a current one leaves nothing that dangles. -/
theorem Grounded.kept (guarded : ∀ i, Drops s p cwd call i → ¬ Above s.inodes (s.cwdsAfter p cwd call) i) :
    Grounded (outcome s p cwd call) (s.cwdsAfter p cwd call) := by
  obtain ⟨lost, tree⟩ := grounded.tree
  have change := plan_change s p cwd call
  refine ⟨⟨_, (tree.change change fits).sweep _⟩, fun i above => ?_⟩
  have stays {i : Nat} (above : Above s.inodes (s.cwdsAfter p cwd call) i) :
      outcome s p cwd call i = (plan s p cwd call).1 i :=
    if_neg fun lapsed => guarded i ((lapses_iff_drops settled tree fits alive).mp lapsed) above
  have before : Above s.inodes (s.cwdsAfter p cwd call) i := by
    induction above with
    | cwd there => exact .cwd there
    | parent _ up ih =>
      rw [stays ih, (tree.change_dir change (grounded.above_after alive ih).2).2] at up
      exact ih.parent up
  rw [stays before]
  exact (tree.change_dir change (grounded.above_after alive before).2).1

/-- The call that drops a directory above a current one leaves an entry that dangles. -/
theorem Grounded.detached (drops : Drops s p cwd call i) (above : Above s.inodes (s.cwdsAfter p cwd call) i) :
    ¬ Attached (outcome s p cwd call) (s.cwdsAfter p cwd call) := by
  intro attached
  obtain ⟨lost, tree⟩ := grounded.tree
  have change := plan_change s p cwd call
  -- the directories above current ones are all in use
  have there : InUse (outcome s p cwd call) (s.cwdsAfter p cwd call) i ∧ (outcome s p cwd call i).type ≠ .free := by
    clear drops
    induction above with
    | @cwd q i there =>
      refine ⟨.cwd there, ?_⟩
      have isDir := (tree.change_dir change (grounded.above_after alive (.cwd there)).2).1
      rw [← plan_cwd] at there
      have used := uses_cwd_pos there
      rw [outcome, sweep, if_neg fun lapsed => absurd lapsed.2.2 (Nat.ne_of_gt used), isDir]
      decide
    | @parent d i below up ih =>
      obtain ⟨use, alloc⟩ := ih
      obtain ⟨isDir, same⟩ := tree.change_dir change (grounded.above_after alive below).2
      obtain ⟨mem, used⟩ := ((tree.change change fits).shaped d isDir).mem_parent (same.trans up)
      have stays : outcome s p cwd call d = (plan s p cwd call).1 d := sweep_of_alloc alloc
      rw [← stays] at isDir mem
      exact ⟨.entry use isDir mem used, attached d use isDir _ mem used⟩
  exact not_lapsed_of_sweep there.2 ((lapses_iff_drops settled tree fits alive).mpr drops)

end

end Plans

/-! ## Runs -/

variable [Fintype Pid]

/-- The call does not make a link to a file whose count of links comes around to zero. -/
def Unwrapped (s : State Pid) (event : Pid × Call) : Prop :=
  ∀ cwd, (s.procs event.1).cwd = some cwd → ¬ Overflows (-1) s.inodes cwd event.2

/-- The call does not drop a directory that is above the current directory of a process. -/
def Guarded (s : State Pid) (event : Pid × Call) : Prop :=
  ∀ cwd, (s.procs event.1).cwd = some cwd → ∀ i, Drops s event.1 cwd event.2 i →
    ¬ Above s.inodes (s.cwdsAfter event.1 cwd event.2) i

/-- No entry of a directory in use names a free inode, and no call stops because of one. -/
def Intact (s : State Pid) : Prop :=
  Attached s.inodes s.cwds ∧
    ∀ p cwd call, (s.procs p).cwd = some cwd → perform p cwd call s ≠ .error .ilockNoType

omit [DecidableEq Pid] in
theorem Grounded.of_boot (boot : Boot s) : Grounded s.inodes s.cwds := by
  have tree : Tree 65536 s.inodes [] fun _ => 0 := boot.tree (by decide)
  refine ⟨⟨_, tree⟩, fun i above => ?_⟩
  suffices i = rootIno by rw [this, tree.root]
  induction above with
  | cwd alive =>
    rw [State.cwds, boot.procs] at alive
    exact (Option.some.inj alive).symm
  | parent _ up ih =>
    rw [ih, tree.top] at up
    exact (Option.some.inj up).symm

theorem Grounded.intact (grounded : Grounded s.inodes s.cwds) (settled : Settled s) : Intact s := by
  refine ⟨grounded.attached, fun p cwd call alive stopped => ?_⟩
  obtain ⟨lost, tree⟩ := grounded.tree
  have alloc : ∀ j, InUse s.inodes s.cwds j → (s.inodes j).type ≠ .free := by
    intro j use
    cases use with
    | root => rw [tree.root]; decide
    | cwd alive => exact settled.alloc_of_uses tree.root (uses_cwd_pos alive)
    | entry before isDir mem used => exact grounded.attached _ before isDir _ mem used
  have ready : Ready s.inodes s.procs (uses s.procs) cwd False s :=
    settled.ready tree.root_ok alive fun j visits free => alloc j (.visits (p := p) alive visits) free
  exact fail_of_wp (wp_perform ready alive settled.counts call) stopped rfl

/-- In runs in which no count of links comes around to zero, entries never dangle as long as no call drops
a directory above a current one, and no longer. -/
theorem intact_iff_guarded (boot : Boot s) {events : List (Pid × Call)}
    (unwrapped : (system Pid).Throughout Unwrapped s events) :
    (system Pid).Always Intact s events ↔ (system Pid).Throughout Guarded s events := by
  refine System.always_iff_throughout (fun s => Settled s ∧ Grounded s.inodes s.cwds)
    (fun s both => both.2.intact both.1) ?_ ⟨boot.settled, .of_boot boot⟩ unwrapped
  rintro s ⟨p, call⟩ s' ⟨settled, grounded⟩ unwrapped taken
  obtain ⟨lost, tree⟩ := grounded.tree
  obtain ⟨cwd, alive, disk, procs, settled'⟩ := settled.step tree.root_ok taken
  have fits := unwrapped cwd alive
  have cwds : s'.cwds = s.cwdsAfter p cwd call := by
    funext q
    rw [State.cwds, procs, plan_cwd]
  constructor
  · rintro ⟨attached, -⟩ cwd' alive' i drops above
    obtain rfl : cwd = cwd' := Option.some.inj (alive.symm.trans alive')
    rw [disk, cwds] at attached
    exact grounded.detached settled alive fits drops above attached
  · intro guarded
    refine ⟨settled', ?_⟩
    rw [disk, cwds]
    exact grounded.kept settled alive fits (guarded cwd alive)

omit [Fintype Pid] [DecidableEq Pid] in
theorem Above.mem {inodes : Inodes} {cwds : Pid → Option Nat} {known : List Nat}
    (start : ∀ q i, cwds q = some i → i ∈ known)
    (closed : ∀ d ∈ known, ∀ e, (inodes d).parent = some e → e ∈ known) (above : Above inodes cwds i) : i ∈ known := by
  induction above with
  | cwd alive => exact start _ _ alive
  | parent _ up ih => exact closed _ ih _ up

/-- The directories from `d` upwards, as far as three steps lead. -/
def upwards (inodes : Inodes) (d : Nat) : List Nat := List.iterate (fun d => (inodes d).parent.getD d) d 4

/-- A check that the call is unwrapped and guarded. -/
def sheltered (s : State Unit) (event : Unit × Call) : Bool :=
  (s.cwds ()).all fun cwd =>
    let known := ((s.cwdsAfter () cwd event.2 ()).map (upwards s.inodes)).getD []
    known.all (fun d => (s.inodes d).parent.all (· ∈ known)) &&
      (touched s () cwd event.2).all fun i => (s.inodes i).nlink ≠ -1 ∧ (s.Lasting i ∨ i ∉ known)

theorem sheltered_sound (s : State Unit) (event : Unit × Call) (check : sheltered s event = true) :
    Unwrapped s event ∧ Guarded s event := by
  obtain ⟨⟨⟩, call⟩ := event
  suffices ∀ cwd, s.cwds () = some cwd → ¬ Overflows (-1) s.inodes cwd call ∧
      ∀ i, Drops s () cwd call i → ¬ Above s.inodes (s.cwdsAfter () cwd call) i from
    ⟨fun cwd alive => (this cwd alive).1, fun cwd alive => (this cwd alive).2⟩
  intro cwd alive
  simp only [sheltered, alive, Option.all_some, Bool.and_eq_true, List.all_eq_true, decide_eq_true_eq] at check
  obtain ⟨closed, each⟩ := check
  constructor
  · intro overflows
    obtain ⟨i, mem, full⟩ := overflows.touched (s := s) (p := ())
    exact (each i mem).1 full
  · intro i drops above
    rcases (each i drops.mem_touched).2 with lasting | outside
    · exact drops.not_lasting lasting
    · refine outside (above.mem (fun q i there => ?_) fun d mem e up => ?_)
      · rw [show q = () from rfl] at there
        rw [there]
        exact .head _
      · have inside := closed d mem
        rw [up] at inside
        exact of_decide_eq_true inside

theorem intact_errands : Boot bootState ∧ (system Unit).Throughout Unwrapped bootState errands ∧
      (system Unit).Always Intact bootState errands := by
  have ran : ((system Unit).run sheltered bootState errands).isSome := by decide +kernel
  have unwrapped := System.throughout_of_run (fun s event check => (sheltered_sound s event check).1) ran
  have guarded := System.throughout_of_run (fun s event check => (sheltered_sound s event check).2) ran
  exact ⟨boot_bootState, unwrapped, (intact_iff_guarded boot_bootState unwrapped).mpr guarded⟩

/-- `mkdir /a`, `mkdir /a/b`, `chdir /a/b`, `unlink /a/b`, `unlink /a`: the current directory has a `..` that
names a free inode, and `open ..` stops. -/
theorem dangling_removed_parent : ¬ (system Unit).Always Intact bootState
      [((), .mkdir (some [47, 97])), ((), .mkdir (some [47, 97, 47, 98])), ((), .chdir (some [47, 97, 47, 98])),
        ((), .unlink (some [47, 97, 47, 98])), ((), .unlink (some [47, 97]))] := by
  intro always
  have ran : ((system Unit).run (fun _ _ => true) bootState
      [((), .mkdir (some [47, 97])), ((), .mkdir (some [47, 97, 47, 98])), ((), .chdir (some [47, 97, 47, 98])),
        ((), .unlink (some [47, 97, 47, 98])), ((), .unlink (some [47, 97]))]).map
      (fun s => decide ((s.procs ()).cwd = some 3) &&
        match perform () 3 (.openFile (some [46, 46]) (some oRdonly)) s with
        | .error .ilockNoType => true
        | _ => false) = some true := by
    decide +kernel
  obtain ⟨final, reached, found⟩ := Option.map_eq_some_iff.mp ran
  rw [Bool.and_eq_true] at found
  refine (always.of_run reached).2 () 3 (.openFile (some [46, 46]) (some oRdonly)) (of_decide_eq_true found.1) ?_
  have stopped := found.2
  split at stopped
  next same => exact same
  · cases stopped

end Xv6Simplesh.Names
