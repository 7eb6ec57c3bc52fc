import Xv6Simplesh.Log.Commit
import Xv6Simplesh.Log.GroupCommit

/-! # The log across crashes

The machine may stop at any moment: between two sections of `log.c`, or in a phase of `commit` with
any number of the disk writes of that phase done.  It then boots from what is on the disk and runs
`recover_from_log`, which may be cut short as well.  Here the sections of concurrent operations, the
buffers, the disk and such crashes are put together.

A write is `done` once a header write has committed it and `current` before.  What the system keeps
is that a crash leaves on the disk exactly the writes done, in the order in which they were logged,
and that the writes of one operation are done all together.
-/

namespace Xv6Simplesh.Log

open Library Function

/-- New contents that operation `op` logs for a block; operations are numbered from each boot on. -/
structure Write where
  boot : Nat
  op : Nat
  block : Nat
  data : Bytes

/-- `base` with the writes made one after the other. -/
def replay (writes : List Write) (base : Disk) : Disk :=
  applyWrites (writes.map fun write => (write.block, write.data)) base

structure World where
  log : State
  cache : Disk
  disk : Disk
  boots : Nat
  /-- History: the writes that have been committed. -/
  done : List Write
  /-- History: the writes of the transaction in progress. -/
  current : List Write

inductive Moment where
  /-- A section of `log.c`; `data` is what the buffer holds that `log_write` is called for. -/
  | run (event : Event) (data : Bytes)
  /-- The machine stops when `count` of the disk writes of the phase that `proc` is in are done,
  and boots until recovery is through; it is cut after each of the numbers of writes in `cuts`. -/
  | crash (proc count : Nat) (cuts : List Nat)

/-- What a phase of `commit` does to the buffers and the disk. -/
def runPhase (geom : Geometry) (lh : List Nat) : CommitPhase → Machine → Machine
  | .writeLog => writeLog geom 0 lh
  | .writeHead | .eraseHead => writeHead geom lh
  | .installTrans => installTrans geom 0 lh
  | .clear | .finish => id

/-- Boot and recover, cut after `cuts` writes each time. -/
def recover (geom : Geometry) : List Nat → Disk → Disk
  | [], disk => applyWrites (recoverFromLog geom (.boot disk)).issued disk
  | count :: cuts, disk => recover geom cuts ((recoverFromLog geom (.boot disk)).crash disk count)

namespace World

variable (geom : Geometry)

def boot (disk : Disk) (boots : Nat) (done : List Write) : World where
  log := initlog geom.size
  cache := disk
  disk := disk
  boots := boots
  done := done
  current := []

/-- The machine after the phase of `commit` that `proc` is in. -/
def phase (w : World) (proc : Nat) : Machine :=
  match w.log.pc proc with
  | .committing phase => runPhase geom w.log.lh phase ⟨w.cache, []⟩
  | _ => ⟨w.cache, []⟩

/-- The header write is the one that commits. -/
def commits (w : World) (proc count : Nat) : Bool :=
  w.log.pc proc = .committing .writeHead ∧ 0 < count

/-- What a section does beside its effect on `log`. -/
def follow (w : World) (next : State) (data : Bytes) : Event → World
  | .append proc =>
    match w.log.pc proc with
    | .logging op block =>
      { w with
        log := next
        cache := update w.cache block data
        current := w.current ++ [⟨w.boots, op, block, data⟩] }
    | _ => { w with log := next }
  | .commit proc =>
    let machine := w.phase geom proc
    let committed := w.commits proc 1
    { w with
      log := next
      cache := machine.cache
      disk := applyWrites machine.issued w.disk
      done := if committed then w.done ++ w.current else w.done
      current := if committed then [] else w.current }
  | _ => { w with log := next }

def step (w : World) : Moment → Option World
  | .run event data => (Log.step w.log event).map fun next => w.follow geom next data event
  | .crash proc count cuts =>
    let disk := (w.phase geom proc).crash w.disk count
    let done := if w.commits proc count then w.done ++ w.current else w.done
    some (.boot geom (recover geom cuts disk) (w.boots + 1) done)

end World

/-- The kernel on a disk whose log is empty. -/
def crashing (geom : Geometry) (base : Disk) : System World Moment where
  initial w := w = .boot geom base 0 []
  step := World.step geom

/-- `log_write` is called for blocks outside the log, and there is a log block for each of them. -/
def Proper (geom : Geometry) (w : World) : Moment → Prop
  | .run (.logWrite _ block) _ => ¬ geom.inLog block ∧ block < 2 ^ 32
  | .run (.append proc) _ => ∀ op block, w.log.pc proc = .logging op block →
      block ∈ w.log.lh ∨ w.log.lh.length < geom.dataBlocks
  | _ => True

/-! ## Disks that recover -/

variable {geom : Geometry} {base target disk : Disk}

/-- `log.lh.block` has an entry for each data block of the log. -/
theorem Geometry.lt_logSize (geom : Geometry) {n : Nat} (room : n < geom.dataBlocks) : n < logSize :=
  room.trans_le (min_le_left _ _)

theorem recover_recovers (cuts : List Nat) (disk : Disk) : Recovers geom disk (recover geom cuts disk) := by
  induction cuts generalizing disk with
  | nil => exact .complete disk
  | cons count cuts ih => exact .cut disk count (ih _)

theorem Clean.congr (clean : Clean geom base disk)
    (same : ∀ block, ¬ geom.inLog block → base block = target block) : Clean geom target disk :=
  ⟨clean.head, fun block outside => (clean.same block outside).trans (same block outside)⟩

/-- The log holds a transaction that makes the disk `target`. -/
def Holds (geom : Geometry) (target disk : Disk) (blocks : List Nat) : Prop :=
  ∃ (txn : Transaction geom) (base : Disk), txn.blocks = blocks ∧ Committed txn base disk ∧
    ∀ block, ¬ geom.inLog block → txn.updated base block = target block

/-- Recovery makes the disk `target`. -/
def Settles (geom : Geometry) (target disk : Disk) : Prop :=
  Clean geom target disk ∨ ∃ blocks, Holds geom target disk blocks

theorem Settles.recover (settles : Settles geom target disk) (cuts : List Nat) :
    Clean geom target (recover geom cuts disk) := by
  rcases settles with clean | ⟨blocks, txn, base, -, committed, same⟩
  · exact (recover_recovers cuts disk).of_clean clean
  · exact ((recover_recovers cuts disk).of_committed committed).congr same

variable {block proc : Nat} {state : State}

namespace Holds

variable {blocks : List Nat}

/-- What the transaction writes is what the block has to be. -/
theorem contents_eq {txn : Transaction geom} (mem : block ∈ txn.blocks)
    (same : ∀ block, ¬ geom.inLog block → txn.updated base block = target block) :
    txn.contents block = target block := by
  rw [← same block (txn.home block mem), Transaction.updated, if_pos mem]

section

variable (holds : Holds geom target disk blocks)

include holds

theorem logged (entry : Nat) (bound : entry < blocks.length) :
    disk (geom.start + 0 + 1 + entry) = target blocks[entry] := by
  obtain ⟨txn, base, rfl, committed, same⟩ := holds
  rw [committed.logged entry bound, contents_eq (List.getElem_mem bound) same]

theorem install {writes : List (Nat × Bytes)}
    (home : ∀ write ∈ writes, write.1 ∈ blocks) : Holds geom target (applyWrites writes disk) blocks := by
  obtain ⟨txn, base, rfl, committed, same⟩ := holds
  exact ⟨txn, base, rfl, committed.install home, same⟩

theorem installed (outside : ¬ geom.inLog block) :
    applyWrites (blocks.map fun b => (b, target b)) disk block = target block := by
  obtain ⟨txn, base, rfl, committed, same⟩ := holds
  have writes : (txn.blocks.map fun b => (b, target b)) = txn.blocks.map fun b => (b, txn.contents b) :=
    List.map_congr_left fun b mem => by rw [contents_eq mem same]
  rw [writes, committed.installed block outside, same block outside]

end

end Holds

theorem applyWrites_congr {writes : List (Nat × Bytes)} {disk' : Disk}
    (same : disk block = disk' block) : applyWrites writes disk block = applyWrites writes disk' block := by
  induction writes generalizing disk disk' with
  | nil => exact same
  | cons write writes ih =>
    apply ih
    by_cases here : block = write.1
    · simp [here]
    · rw [update_of_ne here, update_of_ne here, same]

theorem replay_snoc (writes : List Write) (write : Write) (base : Disk) :
    replay (writes ++ [write]) base = update (replay writes base) write.block write.data := by
  simp [replay, applyWrites_append, applyWrites]

/-! ## The invariant -/

/-- What is on the disk in a phase of `commit`. -/
def DiskAt (geom : Geometry) (base : Disk) (w : World) : CommitPhase → Prop
  | .writeLog | .finish => Clean geom (replay w.done base) w.disk
  | .writeHead => Clean geom (replay w.done base) w.disk ∧
      ∀ entry (bound : entry < w.log.lh.length),
        w.disk (geom.start + 0 + 1 + entry) = w.cache w.log.lh[entry]
  | .installTrans => Holds geom (replay w.done base) w.disk w.log.lh ∧ w.current = []
  | .clear => (∃ blocks, Holds geom (replay w.done base) w.disk blocks) ∧ w.current = [] ∧
      ∀ block, ¬ geom.inLog block → w.disk block = replay w.done base block
  | .eraseHead => (∃ blocks, Holds geom (replay w.done base) w.disk blocks) ∧
      ∀ block, ¬ geom.inLog block → w.disk block = replay w.done base block

structure Consistent (geom : Geometry) (base : Disk) (w : World) : Prop where
  control : Control w.log
  contents : Contents w.log
  fits : w.log.lh.length ≤ geom.dataBlocks
  home : ∀ block, (block ∈ w.log.lh ∨ ∃ proc op, w.log.pc proc = .logging op block) →
    ¬ geom.inLog block ∧ block < 2 ^ 32
  /-- The buffers hold every write. -/
  cache : ∀ block, ¬ geom.inLog block → w.cache block = replay (w.done ++ w.current) base block
  mirror : ∀ block, geom.inLog block → w.cache block = w.disk block
  pending : ∀ write ∈ w.current, write.block ∈ w.log.lh
  settles : Settles geom (replay w.done base) w.disk
  calm : w.log.committing = false → Clean geom (replay w.done base) w.disk
  phase : ∀ proc phase, w.log.pc proc = .committing phase → DiskAt geom base w phase
  past : ∀ write ∈ w.done ++ w.current,
    write.boot ≤ w.boots ∧ (write.boot = w.boots → write.op < w.log.nextOp)
  /-- No write of an operation in progress has been committed. -/
  whole : ∀ proc op, (w.log.pc proc).op = some op →
    ∀ write ∈ w.done, ¬ (write.boot = w.boots ∧ write.op = op)

namespace Consistent

variable {w : World}

theorem boot {boots : Nat} {done : List Write} (clean : Clean geom (replay done base) disk)
    (past : ∀ write ∈ done, write.boot < boots) : Consistent geom base (.boot geom disk boots done) := by
  constructor
  · exact control_initlog _
  · exact contents_initlog _
  · exact Nat.zero_le _
  · rintro block (mem | ⟨proc, op, there⟩)
    · cases mem
    · cases there
  · intro block outside
    simpa [World.boot] using clean.same block outside
  · intro block inside
    rfl
  · intro write mem
    cases mem
  · exact .inl clean
  · intro calm
    exact clean
  · intro proc phase there
    cases there
  · intro write mem
    have before := past write (by simpa [World.boot] using mem)
    simp only [World.boot]
    exact ⟨by omega, by omega⟩
  · intro proc op inside
    cases inside

/-! ### Sections outside `commit` -/

variable {op : Nat}

/-- Moving a process elsewhere puts nobody into `log_write`. -/
theorem setPc_logging {other : Nat} {loc : Pc} (free : ∀ op block, loc ≠ .logging op block)
    (there : (state.setPc proc loc).pc other = .logging op block) : state.pc other = .logging op block := by
  by_cases here : other = proc
  · subst here
    exact absurd (by simpa [State.setPc] using there) (free op block)
  · simpa [State.setPc, here] using there

theorem wakeup_logging (there : state.wakeup.pc proc = .logging op block) : state.pc proc = .logging op block := by
  simp only [State.wakeup] at there
  split at there
  · cases there
  · exact there

/-- A section that changes neither the buffers nor the header. -/
theorem relog (inv : Consistent geom base w) {event : Event} {next : State}
    (transition : Transition w.log event next) (lh : next.lh = w.log.lh)
    (ops : w.log.nextOp ≤ next.nextOp) (calm : next.committing = false → w.log.committing = false)
    (logging : ∀ proc op block, next.pc proc = .logging op block → ¬ geom.inLog block ∧ block < 2 ^ 32)
    (phase : ∀ proc phase, next.pc proc = .committing phase →
      w.log.pc proc = .committing phase ∨ phase = .writeLog ∧ w.log.committing = false) :
    Consistent geom base { w with log := next } where
  control := inv.control.step transition
  contents := inv.contents.step inv.control transition
  fits := lh ▸ inv.fits
  home := by
    rintro block (mem | ⟨proc, op, there⟩)
    · exact inv.home block (.inl (lh ▸ mem))
    · exact logging proc op block there
  cache := inv.cache
  mirror := inv.mirror
  pending := by
    intro write mem
    rw [lh]
    exact inv.pending write mem
  settles := inv.settles
  calm := fun still => inv.calm (calm still)
  phase := by
    intro proc now there
    rcases phase proc now there with same | ⟨rfl, before⟩
    · have disk := inv.phase proc now same
      cases next
      dsimp only at lh
      subst lh
      cases now <;> exact disk
    · exact inv.calm before
  past := by
    intro write mem
    have before := inv.past write mem
    exact ⟨before.1, fun now => (before.2 now).trans_le ops⟩
  whole := by
    intro proc op inside write mem same
    rcases transition.op_cases inside with before | ⟨-, rfl⟩
    · exact inv.whole proc op before write mem same
    · have earlier := (inv.past write (List.mem_append_left _ mem)).2 same.1
      omega

/-- The locked part of `log_write`, for a buffer that holds `data`. -/
theorem record (inv : Consistent geom base w) (loc : w.log.pc proc = .logging op block)
    (room : block ∈ w.log.lh ∨ w.log.lh.length < geom.dataBlocks) (data : Bytes) :
    Consistent geom base
      (w.follow geom (w.log.record proc op block) data (.append proc)) := by
  have transition := Transition.append proc op block loc (room.imp_right geom.lt_logSize)
  have inside : (w.log.pc proc).op = some op := by rw [loc]; rfl
  have outside := (inv.home block (.inr ⟨proc, op, loc⟩)).1
  have calm : w.log.committing = false := by
    cases busy : w.log.committing with
    | false => rfl
    | true =>
      rw [inv.control.op_eq_none busy] at inside
      cases inside
  have entries : ∀ b, b ∈ (w.log.record proc op block).lh ↔ b ∈ w.log.lh ∨ b = block := by
    intro b
    simp only [State.record]
    exact mem_absorb
  -- `end_op` commits only when no operation is in progress, and this one is
  have busyNot : ∀ p phase, (w.log.record proc op block).pc p ≠ .committing phase := by
    intro p phase there
    have := inv.control.committer p phase (setPc_committing (by simp) there)
    rw [calm] at this
    cases this
  simp only [World.follow, loc]
  constructor
  · exact inv.control.step transition
  · exact inv.contents.step inv.control transition
  · have fits := inv.fits
    rcases room with known | room
    · simpa [State.record, known] using fits
    · simp only [State.record]
      split
      · exact fits
      · simpa using Nat.succ_le_of_lt room
  · rintro b (mem | ⟨p, op', there⟩)
    · rcases (entries b).mp mem with before | rfl
      · exact inv.home b (.inl before)
      · exact inv.home b (.inr ⟨proc, op, loc⟩)
    · have apart : p ≠ proc := by
        rintro rfl
        simp [State.record, State.setPc] at there
      exact inv.home b (.inr ⟨p, op', by simpa [State.record, State.setPc, apart] using there⟩)
  · intro b home
    rw [← List.append_assoc, replay_snoc]
    by_cases here : b = block
    · subst here
      simp
    · simp only [update_of_ne here]
      exact inv.cache b home
  · intro b inLog
    have apart : b ≠ block := by
      rintro rfl
      exact outside inLog
    simp only [update_of_ne apart]
    exact inv.mirror b inLog
  · intro write mem
    rw [entries]
    rcases List.mem_append.mp mem with before | new
    · exact .inl (inv.pending write before)
    · rw [List.mem_singleton.mp new]
      exact .inr rfl
  · exact inv.settles
  · intro _
    exact inv.calm calm
  · intro p phase there
    exact absurd there (busyNot p phase)
  · intro write mem
    rw [← List.append_assoc] at mem
    rcases List.mem_append.mp mem with before | new
    · exact inv.past write before
    · rw [List.mem_singleton.mp new]
      exact ⟨le_rfl, fun _ => inv.contents.numbered proc op inside⟩
  · intro p op' there
    rcases transition.op_cases there with before | ⟨-, rfl⟩
    · exact inv.whole p op' before
    · intro write mem same
      have earlier := (inv.past write (List.mem_append_left _ mem)).2 same.1
      omega

end Consistent

/-! ### Phases of `commit` -/

/-- The phase after this one. -/
def CommitPhase.next (lh : List Nat) : CommitPhase → Option CommitPhase
  | .writeLog => if lh.length > 0 then some .writeHead else some .finish
  | .writeHead => some .installTrans
  | .installTrans => some .clear
  | .clear => some .eraseHead
  | .eraseHead => some .finish
  | .finish => none

theorem Control.commit_phase {other : Nat} {phase next : CommitPhase} (control : Control state)
    (loc : state.pc proc = .committing phase)
    (there : (state.commitPhase proc phase).pc other = .committing next) : phase.next state.lh = some next := by
  have moved : ∀ place, update state.pc proc place other = .committing next → place = .committing next := by
    intro place there
    by_cases here : other = proc
    · subst here
      simpa using there
    · have before : state.pc other = .committing next := by simpa [here] using there
      exact absurd (control.single other proc next phase before loc) here
  cases phase with
  | writeLog =>
    simp only [State.commitPhase] at there
    simp only [CommitPhase.next]
    split at there
    · next some' =>
      cases moved _ there
      rw [if_pos some']
    · next none' =>
      cases moved _ there
      rw [if_neg none']
  | writeHead | installTrans | clear | eraseHead =>
    cases moved _ there
    rfl
  | finish => cases moved .idle (wakeup_committing there)

/-- The disk writes of a phase. -/
def World.writes (geom : Geometry) (base : Disk) (w : World) : CommitPhase → List (Nat × Bytes)
  | .writeLog => logCopies geom w.cache 0 w.log.lh
  | .writeHead | .eraseHead => [(geom.start, putHead w.log.lh (w.cache geom.start))]
  | .installTrans => w.log.lh.map fun block => (block, replay w.done base block)
  | .clear | .finish => []

namespace Consistent

variable {w : World} {proc : Nat} {phase : CommitPhase} (inv : Consistent geom base w)

include inv

/-- Writes of the transaction in progress are to blocks in the header. -/
theorem replay_elsewhere (absent : block ∉ w.log.lh) :
    replay (w.done ++ w.current) base block = replay w.done base block := by
  simp only [replay, List.map_append, applyWrites_append]
  apply applyWrites_of_notMem
  intro write mem same
  obtain ⟨logged, inCurrent, rfl⟩ := List.mem_map.mp mem
  exact absent (same ▸ inv.pending logged inCurrent)

theorem entries_home : ∀ block ∈ w.log.lh, ¬ geom.inLog block :=
  fun block mem => (inv.home block (.inl mem)).1

/-- The transaction that the header write commits. -/
def txn : Transaction geom where
  blocks := w.log.lh
  contents := w.cache
  distinct := inv.contents.nodup
  home := inv.entries_home
  uint := fun block mem => (inv.home block (.inl mem)).2
  fits := inv.fits

theorem phase_eq (loc : w.log.pc proc = .committing phase) :
    w.phase geom proc =
      ⟨applyWrites (w.writes geom base phase) w.cache, w.writes geom base phase⟩ := by
  have room := (inv.txn).room
  have disk := inv.phase proc phase loc
  simp only [World.phase, loc]
  cases phase with
  | writeLog => exact writeLog_eq_emit _ _ _ _ room inv.entries_home
  | writeHead | eraseHead => exact writeHead_eq_emit _ _ _
  | installTrans =>
    refine installTrans_eq_emit _ _ _ _ _ room inv.entries_home fun entry bound => ?_
    have inLog : geom.inLog (geom.start + 0 + 1 + entry) := by
      simp only [txn] at room
      exact ⟨by omega, by omega⟩
    exact (inv.mirror _ inLog).trans (disk.1.logged entry bound)
  | clear | finish => rfl

/-- The writes before the header write go to the log blocks. -/
theorem logCopies_inLog : ∀ write ∈ logCopies geom w.cache 0 w.log.lh, geom.inLog write.1 ∧ write.1 ≠ geom.start := by
  intro write mem
  have bounds := mem_logCopies mem
  have room := (inv.txn).room
  simp only [txn] at room
  exact ⟨⟨by omega, by omega⟩, by omega⟩

/-- The header write commits the writes of the transaction. -/
theorem header (disk : DiskAt geom base w .writeHead) :
    Holds geom (replay (w.done ++ w.current) base)
      (applyWrites (w.writes geom base .writeHead) w.disk) w.log.lh := by
  refine ⟨inv.txn, replay w.done base, rfl,
    committed_of_header (inv.txn) disk.1.same disk.2 _, fun block outside => ?_⟩
  by_cases mem : block ∈ w.log.lh
  · exact (if_pos mem).trans (inv.cache block outside)
  · exact (if_neg mem).trans (inv.replay_elsewhere mem).symm

theorem erased (loc : w.log.pc proc = .committing .eraseHead) (disk : DiskAt geom base w .eraseHead) :
    Clean geom (replay w.done base) (applyWrites (w.writes geom base .eraseHead) w.disk) := by
  simp only [World.writes, inv.contents.cleared proc (.inl loc)]
  exact clean_of_clear disk.2 _

/-- However many writes of a phase are done, recovery gives the writes that are committed. -/
theorem cut (proc count : Nat) :
    Settles geom (replay (if w.commits proc count then w.done ++ w.current else w.done) base)
      ((w.phase geom proc).crash w.disk count) := by
  cases there : w.log.pc proc with
  | committing phase =>
    have disk := inv.phase proc phase there
    rw [inv.phase_eq there]
    simp only [Machine.crash, World.commits, there]
    cases phase with
    | writeLog =>
      refine .inl (Clean.write_inLog disk fun write mem => ?_)
      exact inv.logCopies_inLog write (List.mem_of_mem_take mem)
    | writeHead =>
      -- a single write: before it nothing is committed, after it everything
      cases count with
      | zero => exact .inl disk.1
      | succ count =>
        rw [List.take_of_length_le (by simp [World.writes])]
        simpa using .inr ⟨_, inv.header disk⟩
    | installTrans =>
      refine .inr ⟨w.log.lh, disk.1.install fun write mem => ?_⟩
      obtain ⟨block, entry, rfl⟩ := List.mem_map.mp (List.mem_of_mem_take mem)
      exact entry
    | clear => simpa [World.writes, applyWrites] using .inr disk.1
    | eraseHead =>
      cases count with
      | zero => exact .inr disk.1
      | succ count =>
        rw [List.take_of_length_le (by simp [World.writes])]
        exact .inl (inv.erased there disk)
    | finish => simpa [World.writes, applyWrites] using .inl disk
  | idle | beginOp | sleeping | inOp | logging =>
    simpa [World.commits, World.phase, there, Machine.crash, applyWrites] using inv.settles

section

variable (loc : w.log.pc proc = .committing phase)

include loc

/-- The writes of a phase leave the buffers of home blocks as they are. -/
theorem keeps_home (outside : ¬ geom.inLog block) :
    applyWrites (w.writes geom base phase) w.cache block = w.cache block := by
  cases phase with
  | writeLog =>
    apply applyWrites_of_notMem
    rintro write mem rfl
    exact outside (inv.logCopies_inLog write mem).1
  | writeHead | eraseHead =>
    apply applyWrites_of_notMem
    simp only [World.writes, List.mem_singleton, forall_eq]
    rintro rfl
    exact outside geom.start_inLog
  | installTrans =>
    by_cases mem : block ∈ w.log.lh
    · have current := (inv.phase proc _ loc).2
      have cached := inv.cache block outside
      rw [current, List.append_nil] at cached
      rw [World.writes, applyWrites_map mem, cached]
    · apply applyWrites_of_notMem
      rintro write written rfl
      obtain ⟨b, entry, rfl⟩ := List.mem_map.mp written
      exact mem entry
  | clear | finish => rfl

theorem next_disk (data : Bytes) (next : CommitPhase) (follows : phase.next w.log.lh = some next) :
    DiskAt geom base (w.follow geom (w.log.commitPhase proc phase) data (.commit proc)) next := by
  have disk := inv.phase proc phase loc
  simp only [World.follow, inv.phase_eq loc, World.commits, loc]
  cases phase with
  | writeLog =>
    have clean : Clean geom (replay w.done base) _ :=
      Clean.write_inLog disk (inv.logCopies_inLog)
    simp only [CommitPhase.next] at follows
    split at follows
    · next some' =>
      cases follows
      have same : (w.log.commitPhase proc .writeLog).lh = w.log.lh := by
        simp only [State.commitPhase, if_pos some']
        rfl
      simp only [DiskAt, same]
      refine ⟨by simpa [World.writes] using clean, fun entry bound => ?_⟩
      rw [inv.keeps_home loc (inv.entries_home _ (List.getElem_mem bound))]
      exact applyWrites_logCopies geom w.cache 0 w.log.lh w.disk bound
    · cases follows
      simpa [DiskAt, World.writes] using clean
  | writeHead =>
    cases follows
    exact ⟨by simpa [State.commitPhase, State.setPc] using inv.header disk, by simp⟩
  | installTrans =>
    cases follows
    refine ⟨⟨w.log.lh, ?_⟩, by simpa using disk.2, fun block outside => ?_⟩
    · simpa using disk.1.install fun write mem => by
        obtain ⟨block, entry, rfl⟩ := List.mem_map.mp mem
        exact entry
    · simpa [World.writes] using disk.1.installed outside
  | clear =>
    cases follows
    simpa [DiskAt, World.writes, applyWrites] using ⟨disk.1, disk.2.2⟩
  | eraseHead =>
    cases follows
    simpa [DiskAt] using inv.erased loc disk
  | finish => cases follows

theorem advance (data : Bytes) :
    Consistent geom base
      (w.follow geom (w.log.commitPhase proc phase) data (.commit proc)) := by
  have transition := Transition.commit proc phase loc
  have busy := inv.control.committer proc phase loc
  have idle := inv.control.commit_op loc
  obtain ⟨-, nextOp, header, goesOn⟩ := commitPhase_frame w.log proc phase
  have history : ∀ committed : Bool, (if committed then w.done ++ w.current else w.done) ++
      (if committed then [] else w.current) = w.done ++ w.current := by
    intro committed
    cases committed <;> simp
  -- a phase that is through is the cut after all its writes
  have settled := inv.cut proc ((w.writes geom base phase).length + 1)
  have disks := inv.next_disk loc data
  simp only [World.follow, inv.phase_eq loc] at disks ⊢
  constructor
  · exact inv.control.step transition
  · exact inv.contents.step inv.control transition
  · rcases header with same | ⟨-, none'⟩
    · exact same ▸ inv.fits
    · exact none' ▸ Nat.zero_le _
  · rintro block (mem | ⟨other, op, there⟩)
    · rcases header with same | ⟨-, none'⟩
      · exact inv.home block (.inl (same ▸ mem))
      · rw [none'] at mem
        cases mem
    · have out := idle other
      rw [there] at out
      cases out
  · intro block outside
    simp only [history]
    exact (inv.keeps_home loc outside).trans (inv.cache block outside)
  · intro block inLog
    exact applyWrites_congr (inv.mirror block inLog)
  · intro write mem
    have before : write ∈ w.current := by
      simp only at mem
      split at mem
      · cases mem
      · exact mem
    rcases header with same | ⟨rfl, -⟩
    · exact same ▸ inv.pending write before
    · have none' := (inv.phase proc _ loc).2.1
      rw [none'] at before
      cases before
  · rw [inv.phase_eq loc] at settled
    simpa [Machine.crash, World.commits, List.take_of_length_le] using settled
  · intro calm
    rcases goesOn with same | rfl
    · rw [same, busy] at calm
      cases calm
    · have clean : Clean geom (replay w.done base) w.disk := inv.phase proc _ loc
      simpa [World.commits, loc, World.writes, applyWrites] using clean
  · intro other next there
    exact disks next (inv.control.commit_phase loc there)
  · intro write mem
    simp only [history] at mem
    rw [nextOp]
    exact inv.past write mem
  · intro other op inside
    rw [idle other] at inside
    cases inside

end

theorem step {moment : Moment} {next : World} (may : Proper geom w moment) (taken : w.step geom moment = some next) :
    Consistent geom base next := by
  cases moment with
  | crash proc count cuts =>
    cases taken
    refine .boot ((inv.cut proc count).recover cuts) fun write mem => ?_
    have inHistory : write ∈ w.done ++ w.current := by
      split at mem
      · exact mem
      · exact List.mem_append_left _ mem
    exact Nat.lt_succ_of_le (inv.past write inHistory).1
  | run event data =>
    obtain ⟨state, stepped, rfl⟩ := Option.map_eq_some_iff.mp taken
    obtain ⟨-, transition⟩ := step_transition stepped
    have relog := inv.relog transition
    have logging := fun proc op block there => inv.home block (.inr ⟨proc, op, there⟩)
    cases transition with
    | call proc loc | wait proc loc =>
      exact relog rfl le_rfl id (fun p op block there => logging p op block (setPc_logging (by simp) there))
        fun p phase there => .inl (setPc_committing (by simp) there)
    | enter proc loc calm enough =>
      exact relog rfl (Nat.le_succ _) id (fun p op block there => logging p op block (setPc_logging (by simp) there))
        fun p phase there => .inl (setPc_committing (by simp) there)
    | overflow | outside | endBusy => exact relog rfl le_rfl id logging fun p phase there => .inl there
    | tested proc op block loc enough =>
      refine relog rfl le_rfl id (fun p op' block' there => ?_) fun p phase there => .inl (setPc_committing (by simp) there)
      by_cases here : p = proc
      · subst here
        simp only [State.setPc, update_self, Pc.logging.injEq] at there
        exact there.2 ▸ may
      · exact logging p op' block' (by simpa [State.setPc, here] using there)
    | append proc op block loc => exact inv.record loc (may op block loc) data
    | overrun proc op block loc full =>
      exact absurd ((may op block loc).imp_right geom.lt_logSize) full
    | endLast proc op loc calm last =>
      refine relog rfl le_rfl (fun _ => calm)
        (fun p op block there => logging p op block (setPc_logging (by simp) there)) fun p phase there => ?_
      by_cases here : p = proc
      · subst here
        simp only [State.setPc, update_self, Pc.committing.injEq] at there
        exact .inr ⟨there.symm, calm⟩
      · exact .inl (by simpa [State.setPc, here] using there)
    | endOther proc op loc calm others =>
      exact relog rfl le_rfl id
        (fun p op block there => logging p op block (setPc_logging (by simp) (wakeup_logging there)))
        fun p phase there => .inl (setPc_committing (by simp) (wakeup_committing there))
    | commit proc phase loc => exact inv.advance loc data

end Consistent

theorem consistent_of_reachable {w : World} (empty : (base geom.start).word 0 = 0)
    (reach : (crashing geom base).Reachable (Proper geom) w) : Consistent geom base w := by
  refine reach.invariant (Consistent geom base) ?_ ?_
  · rintro _ rfl
    exact .boot ⟨empty, fun _ _ => rfl⟩ (by simp)
  · intro w moment next _ inv may taken
    exact inv.step may taken

/-- **The log is atomic across crashes.**  Take any interleaving of operations that fit in the log with
any number of crashes, at any point of `commit` or of a recovery.  The running kernel sees all the
writes, in the order in which they were logged.  After a crash the disk has exactly the writes that
were committed; the transaction in progress is among them, whole, or it is lost, and it
can be among them only when all its operations have ended.  No write of an operation in progress is
ever committed, and there is nothing left to commit when the last operation has ended. -/
theorem log_crash_atomic {w : World} (empty : (base geom.start).word 0 = 0)
    (reach : (crashing geom base).Reachable (Proper geom) w) :
    (∀ block, ¬ geom.inLog block → w.cache block = replay (w.done ++ w.current) base block) ∧
    (∀ proc op, (w.log.pc proc).op = some op →
      ∀ write ∈ w.done, ¬ (write.boot = w.boots ∧ write.op = op)) ∧
    (w.log.committing = false → w.log.outstanding = 0 → w.current = []) ∧
    ∀ proc count cuts next, w.step geom (.crash proc count cuts) = some next →
      (∀ block, ¬ geom.inLog block → next.disk block = replay next.done base block) ∧
      (next.done = w.done ∨
        next.done = w.done ++ w.current ∧ ∀ other, (w.log.pc other).op = none) := by
  have inv := consistent_of_reachable empty reach
  refine ⟨inv.cache, inv.whole, fun calm last => ?_, fun proc count cuts next crashed => ?_⟩
  · refine List.eq_nil_iff_forall_not_mem.mpr fun write mem => ?_
    have logged := inv.pending write mem
    rw [inv.contents.drained calm last] at logged
    cases logged
  · have after := inv.step (show Proper geom w (.crash proc count cuts) from trivial) crashed
    cases crashed
    refine ⟨(after.calm rfl).same, ?_⟩
    simp only [World.boot]
    split
    · next committed =>
      have loc : w.log.pc proc = .committing .writeHead := (of_decide_eq_true committed).1
      exact .inr ⟨rfl, inv.control.op_eq_none (inv.control.committer proc _ loc)⟩
    · exact .inl rfl

/-- Operations of two processes overlap and write blocks 70 and 80; the power fails when the header and
nothing else is written, and again in the recovery. -/
theorem log_crash_atomic_overlapping : ∃ w next,
    (crashing mkfsLog fun _ => .fill 0).Reachable (Proper mkfsLog) w ∧ (w.log.pc 5).op = none ∧
    w.step mkfsLog (.crash 6 1 [0]) = some next ∧ next.disk 70 = .fill 2 ∧ next.disk 80 = .fill 3 ∧
    next.disk 90 = .fill 0 := by
  have called : (crashing mkfsLog fun _ => .fill 0).Reachable (Proper mkfsLog) _ :=
    .step (.run (.call 6) (.fill 0)) (.step (.run (.call 5) (.fill 0)) (.initial rfl) trivial rfl) trivial rfl
  have begun : (crashing mkfsLog fun _ => .fill 0).Reachable (Proper mkfsLog) _ :=
    .step (.run (.beginOp 6) (.fill 0)) (.step (.run (.beginOp 5) (.fill 0)) called trivial rfl) trivial rfl
  have logged : (crashing mkfsLog fun _ => .fill 0).Reachable (Proper mkfsLog) _ :=
    .step (.run (.append 5) (.fill 2))
      (.step (.run (.logWrite 5 70) (.fill 0)) begun (by simp [Proper, Geometry.inLog, mkfsLog]) rfl)
      (fun _ _ _ => .inr (by decide)) rfl
  have ended : (crashing mkfsLog fun _ => .fill 0).Reachable (Proper mkfsLog) _ :=
    .step (.run (.endOp 5) (.fill 0)) logged trivial rfl
  have logged' : (crashing mkfsLog fun _ => .fill 0).Reachable (Proper mkfsLog) _ :=
    .step (.run (.append 6) (.fill 3))
      (.step (.run (.logWrite 6 80) (.fill 0)) ended (by simp [Proper, Geometry.inLog, mkfsLog]) rfl)
      (fun _ _ _ => .inr (by decide)) rfl
  have written : (crashing mkfsLog fun _ => .fill 0).Reachable (Proper mkfsLog) _ :=
    .step (.run (.commit 6) (.fill 0)) (.step (.run (.endOp 6) (.fill 0)) logged' trivial rfl) trivial rfl
  have atomic := (log_crash_atomic rfl written).2.2.2 6 1 [0] _ rfl
  exact ⟨_, _, written, rfl, rfl, atomic.1 70 (by simp [Geometry.inLog, mkfsLog]),
    atomic.1 80 (by simp [Geometry.inLog, mkfsLog]), atomic.1 90 (by simp [Geometry.inLog, mkfsLog])⟩

end Xv6Simplesh.Log
