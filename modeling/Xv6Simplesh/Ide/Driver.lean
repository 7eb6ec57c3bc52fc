import Xv6Simplesh.Bio.Buffers
import Xv6Simplesh.Library.Bytes
import Xv6Simplesh.Library.Queues

/-! # The IDE driver

`ide.c` under any interleaving of processes in `iderw` with the interrupts of the disk.  What is done
under `idelock` is one step.  The disk works on one command at a time, raises an interrupt when it
is through with it, and takes what to do from the registers alone.

A process holds the sleep-lock of the buffers that it works with.  `memide.c` does the requests for disk 1 at
once, each in its call of `iderw`.  The driver does them in the interrupts, in the order in which they came.
-/

namespace Xv6Simplesh.Ide

open Library Function
open Bio (nbuf)

structure Buf where
  dev : Nat
  blockno : Nat
  /-- `B_VALID`. -/
  valid : Bool
  /-- `B_DIRTY`. -/
  dirty : Bool
  data : Bytes

/-- `(flags & (B_VALID|B_DIRTY)) == B_VALID`. -/
def Buf.synced (buf : Buf) : Bool := buf.valid && !buf.dirty

/-- The buffer and the blocks of its disk after the transfer. -/
def transfer (buf : Buf) (blocks : Nat → Bytes) : Buf × (Nat → Bytes) :=
  if buf.dirty then ({ buf with dirty := false, valid := true }, update blocks buf.blockno buf.data)
  else ({ buf with data := blocks buf.blockno, valid := true }, blocks)

inductive MemPanic where
  | notLocked
  | nothingToDo
  | notDisk1
  | outOfRange
deriving DecidableEq

/-- `iderw` of `memide.c`, by a process that is `holding` the lock of the buffer or not. -/
def memiderw (disksize : Nat) (holding : Bool) (buf : Buf) (blocks : Nat → Bytes) :
    Except MemPanic (Buf × (Nat → Bytes)) :=
  if !holding then .error .notLocked
  else if buf.synced then .error .nothingToDo
  else if buf.dev ≠ 1 then .error .notDisk1
  else if buf.blockno ≥ disksize then .error .outOfRange
  else .ok (transfer buf blocks)

/-- What has been written to the registers 0x1f3 to 0x1f6, and to 0x1f0 if it is a write. -/
structure Command where
  low : Nat
  mid : Nat
  high : Nat
  select : Nat
  write : Option Bytes

/-- The registers as `idestart` sets them; a block is one sector. -/
def command (buf : Buf) : Command where
  low := buf.blockno % 256
  mid := buf.blockno / 2 ^ 8 % 256
  high := buf.blockno / 2 ^ 16 % 256
  select := 0xe0 + buf.dev % 2 * 2 ^ 4 + buf.blockno / 2 ^ 24 % 16  -- these bits do not overlap
  write := if buf.dirty then some buf.data else none

/-- The sector that the disk takes from the registers. -/
def Command.sector (command : Command) : Nat :=
  command.low + command.mid * 2 ^ 8 + command.high * 2 ^ 16 + command.select % 16 * 2 ^ 24

def Command.drive (command : Command) : Nat := command.select / 2 ^ 4 % 2

inductive Panic where
  | incorrectBlockno
  | notLocked
  | nothingToDo
  | disk1NotPresent
deriving DecidableEq

inductive Doing where
  | other
  /-- In `sleep`, in the loop at the end of `iderw`. -/
  | sleeping (b : Fin nbuf)
  /-- Woken up, before the next test of the loop. -/
  | woken (b : Fin nbuf)
deriving DecidableEq

structure State where
  buf : Fin nbuf → Buf
  /-- Who holds `b->lock`. -/
  lock : Fin nbuf → Option Nat
  /-- `b->qnext`. -/
  qnext : Fin nbuf → Option (Fin nbuf)
  idequeue : Option (Fin nbuf)
  /-- What the disk is working on. -/
  command : Option Command
  disk : Nat → Nat → Bytes
  doing : Nat → Doing
  panic : Option Panic

namespace State

def setBuf (s : State) (b : Fin nbuf) (buf : Buf) : State := { s with buf := update s.buf b buf }

def idestart (s : State) (b : Fin nbuf) : State :=
  if (s.buf b).blockno ≥ fsSize then { s with panic := some .incorrectBlockno }
  else { s with command := some (Ide.command (s.buf b)) }

/-- The loop that looks for the end of the queue, and the store there. -/
def append (s : State) (b : Fin nbuf) : State :=
  match s.idequeue with
  | none => { s with idequeue := some b }
  | some first =>
    match lastNode s.qnext nbuf first with
    | some last => { s with qnext := update s.qnext last (some b) }
    | none => s

/-- A test of the loop at the end of `iderw`. -/
def await (s : State) (p : Nat) (b : Fin nbuf) : State :=
  { s with doing := update s.doing p (if (s.buf b).synced then .other else .sleeping b) }

def iderw (s : State) (havedisk1 : Bool) (p : Nat) (b : Fin nbuf) : State :=
  if s.lock b ≠ some p then { s with panic := some .notLocked }
  else if (s.buf b).synced then { s with panic := some .nothingToDo }
  else if (s.buf b).dev ≠ 0 ∧ !havedisk1 then { s with panic := some .disk1NotPresent }
  else
    let s := { s with qnext := update s.qnext b none }.append b
    let s := if s.idequeue = some b then s.idestart b else s
    s.await p b

/-- The disk does what it has been told to. -/
def carryOut (s : State) (command : Command) : State :=
  match command.write with
  | some data =>
    let blocks := update (s.disk command.drive) command.sector data
    { s with disk := update s.disk command.drive blocks }
  | none => s

def wakeup (s : State) (b : Fin nbuf) : State :=
  { s with doing := fun p => if s.doing p = .sleeping b then .woken b else s.doing p }

/-- Start the disk on the next buffer in the queue. -/
def startNext (s : State) : State :=
  match s.idequeue with
  | some next => s.idestart next
  | none => s

/-- `ideintr`; `sector` is what the disk has read, or `none` if `idewait` reports an error. -/
def ideintr (s : State) (sector : Option Bytes) : State :=
  match s.idequeue with
  | none => s
  | some b =>
    let s := { s with idequeue := s.qnext b }
    let s := match (s.buf b).dirty, sector with
      | false, some data => s.setBuf b { s.buf b with data }
      | _, _ => s
    ((s.setBuf b { s.buf b with valid := true, dirty := false }).wakeup b).startNext

end State

inductive Event where
  | iderw (p : Nat) (b : Fin nbuf)
  /-- A process that has been woken up goes on. -/
  | resume (p : Nat)
  /-- The disk is through with its command. -/
  | interrupt (error : Bool)
  | acquiresleep (p : Nat) (b : Fin nbuf)
  | releasesleep (p : Nat) (b : Fin nbuf)
  /-- A process changes a buffer that it has locked, or in `bget` one that nobody has. -/
  | change (p : Nat) (b : Fin nbuf) (buf : Buf)

def step (havedisk1 : Bool) (s : State) (event : Event) : Option State :=
  match s.panic, event with
  | some _, _ => none
  | none, .iderw p b => if s.doing p = .other then some (s.iderw havedisk1 p b) else none
  | none, .resume p =>
    match s.doing p with
    | .woken b => some (s.await p b)
    | _ => none
  | none, .interrupt error =>
    s.command.map fun command =>
      let read := if error then none else some (s.disk command.drive command.sector)
      ({ s with command := none }.carryOut command).ideintr read
  | none, .acquiresleep p b =>
    if s.doing p = .other ∧ s.lock b = none then some { s with lock := update s.lock b (some p) } else none
  | none, .releasesleep p b =>
    if s.doing p = .other ∧ s.lock b = some p then some { s with lock := update s.lock b none } else none
  | none, .change p b buf =>
    if s.doing p = .other ∧ (s.lock b = some p ∨ s.lock b = none) then some (s.setBuf b buf) else none

def driver (havedisk1 : Bool) : System State Event where
  initial s := s.idequeue = none ∧ s.command = none ∧ s.doing = (fun _ => .other) ∧ s.panic = none
  step := step havedisk1

/-- The process is in `iderw` with the buffer. -/
def State.Uses (s : State) (p : Nat) (b : Fin nbuf) : Prop := s.doing p = .sleeping b ∨ s.doing p = .woken b

/-- The disk makes no errors. -/
def Faultless (_ : State) (event : Event) : Prop := event ≠ .interrupt true

/-! ## The registers -/

theorem command_sector {buf : Buf} (exists' : buf.blockno < fsSize) : (command buf).sector = buf.blockno := by
  have size : fsSize = 20000 := rfl
  simp only [Command.sector, command]
  omega

theorem command_drive (buf : Buf) : (command buf).drive = buf.dev % 2 := by
  simp only [Command.drive, command]
  omega

theorem transfer_synced (buf : Buf) (blocks : Nat → Bytes) : (transfer buf blocks).1.synced = true := by
  cases dirty : buf.dirty <;> simp [transfer, dirty, Buf.synced]

/-! ## The queue -/

/-- The requests in the queue are those that a process waits for, and the disk works on the first. -/
structure Queued (s : State) (queue : List (Fin nbuf)) : Prop where
  chain : Chain s.qnext s.idequeue queue
  distinct : queue.Nodup
  waits : ∀ b, b ∈ queue ↔ ∃ p, s.doing p = .sleeping b
  works : s.command = queue.head?.map fun b => command (s.buf b)
  ready : ∀ b ∈ queue, (s.buf b).synced = false
  small : ∀ b ∈ queue.head?, (s.buf b).blockno < fsSize
  woken : ∀ p b, s.doing p = .woken b → (s.buf b).synced = true
  locked : ∀ p b, s.Uses p b → s.lock b = some p

namespace Queued

variable {s : State} {queue : List (Fin nbuf)} {havedisk1 : Bool} {p : Nat} {b : Fin nbuf}

theorem unused (inv : Queued s queue) (free : s.doing p = .other) (mine : s.lock b = some p ∨ s.lock b = none) (q : Nat) :
    ¬ s.Uses q b := by
  intro uses
  rcases mine with mine | none
  · rw [inv.locked q b uses] at mine
    cases mine
    rcases uses with there | there
    all_goals
      rw [free] at there
      cases there
  · rw [inv.locked q b uses] at none
    cases none

theorem fresh (inv : Queued s queue) (unused : ∀ q, ¬ s.Uses q b) : b ∉ queue := by
  intro mem
  obtain ⟨p, asleep⟩ := (inv.waits b).mp mem
  exact unused p (.inl asleep)

theorem append (chain : Chain s.qnext s.idequeue queue) (distinct : queue.Nodup) (fresh : b ∉ queue)
    (ends : s.qnext b = none) :
    ∃ qnext idequeue, s.append b = { s with qnext, idequeue } ∧ Chain qnext idequeue (queue ++ [b]) := by
  cases head : s.idequeue with
  | none =>
    rw [head] at chain
    cases queue with
    | nil => exact ⟨s.qnext, some b, by simp [State.append, head], rfl, ends⟩
    | cons => cases chain.1
  | some first =>
    rw [head] at chain
    have short : queue.length ≤ nbuf := by
      simpa using distinct.length_le_card
    cases isLast : queue.getLast? with
    | none =>
      rw [List.getLast?_eq_none_iff] at isLast
      subst isLast
      cases chain
    | some last =>
      have found := (chain.lastNode short).trans isLast
      exact ⟨_, _, by simp only [State.append, head, found], chain.snoc distinct fresh ends isLast⟩

/-- `iderw` puts the buffer at the end of the queue, and starts the disk if it is idle. -/
theorem iderw_eq (inv : Queued s queue) (unused : ∀ q, ¬ s.Uses q b) (mine : s.lock b = some p)
    (busy : (s.buf b).synced = false) (present : (s.buf b).dev = 0 ∨ havedisk1 = true) :
    ∃ qnext idequeue, Chain qnext idequeue (queue ++ [b]) ∧ s.iderw havedisk1 p b = { s with
      qnext
      idequeue
      command := if queue = [] ∧ (s.buf b).blockno < fsSize then some (command (s.buf b)) else s.command
      doing := update s.doing p (.sleeping b)
      panic := if queue = [] ∧ fsSize ≤ (s.buf b).blockno then some .incorrectBlockno else s.panic } := by
  have new := inv.fresh unused
  have apart : ∀ other ∈ queue, other ≠ b := fun other mem same => new (same ▸ mem)
  obtain ⟨qnext, idequeue, appended, chain⟩ := append (s := { s with qnext := update s.qnext b none })
    (inv.chain.congr fun other mem => update_of_ne (apart other mem) _ _) inv.distinct new
    (update_self ..)
  have there : ¬ ((s.buf b).dev ≠ 0 ∧ (!havedisk1) = true) := by
    rintro ⟨snd, absent⟩
    simp [snd] at present
    simp [present] at absent
  refine ⟨qnext, idequeue, chain, ?_⟩
  simp only [State.iderw, mine, ne_eq, not_true, busy, Bool.false_eq_true, if_false, there, appended]
  cases queue with
  | nil =>
    have first : idequeue = some b := chain.1
    by_cases small : (s.buf b).blockno < fsSize
    · simp [first, State.idestart, State.await, busy, small, Nat.not_le.mpr small]
    · simp [first, State.idestart, State.await, busy, small, Nat.not_lt.mp small]
  | cons first queue =>
    have before : idequeue = some first := chain.1
    simp [before, apart first (by simp), State.await, busy]

/-- What `iderw` needs so that it does not panic. -/
theorem iderw_running (inv : Queued s queue) (running : s.panic = none) (free : s.doing p = .other) :
    (s.iderw havedisk1 p b).panic = none ↔ s.lock b = some p ∧ (s.buf b).synced = false ∧
      ((s.buf b).dev = 0 ∨ havedisk1 = true) ∧ (queue = [] → (s.buf b).blockno < fsSize) := by
  by_cases mine : s.lock b = some p
  · cases busy : (s.buf b).synced with
    | true => simp [State.iderw, mine, busy]
    | false =>
      by_cases present : (s.buf b).dev = 0 ∨ havedisk1 = true
      · obtain ⟨_, _, -, eq⟩ := inv.iderw_eq (inv.unused free (.inl mine)) mine busy present
        rw [eq]
        simp [mine, present, running]
      · obtain ⟨snd, absent⟩ := not_or.mp present
        simp [State.iderw, mine, busy, snd, absent]
  · simp [State.iderw, mine]

theorem iderw (inv : Queued s queue) (running : s.panic = none) (free : s.doing p = .other)
    (running' : (s.iderw havedisk1 p b).panic = none) : Queued (s.iderw havedisk1 p b) (queue ++ [b]) := by
  obtain ⟨mine, busy, present, small⟩ := (inv.iderw_running running free).mp running'
  have unused := inv.unused free (.inl mine)
  have apart : ∀ other ∈ queue, other ≠ b := fun other mem same => inv.fresh unused (same ▸ mem)
  obtain ⟨qnext, idequeue, chain, eq⟩ := inv.iderw_eq unused mine busy present
  have others : ∀ {q : Nat}, q ≠ p → update s.doing p (.sleeping b) q = s.doing q :=
    fun apart => update_of_ne apart _ _
  rw [eq]
  constructor
  · exact chain
  · exact List.nodup_append.mpr ⟨inv.distinct, by simp, by simpa using apart⟩
  · intro b'
    simp only [List.mem_append, List.mem_singleton, inv.waits]
    constructor
    · rintro (⟨q, asleep⟩ | rfl)
      · have apart : q ≠ p := by
          rintro rfl
          rw [free] at asleep
          cases asleep
        exact ⟨q, (others apart).trans asleep⟩
      · exact ⟨p, update_self ..⟩
    · rintro ⟨q, asleep⟩
      by_cases here : q = p
      · subst here
        simp only [update_self, Doing.sleeping.injEq] at asleep
        exact .inr asleep.symm
      · exact .inl ⟨q, (others here).symm.trans asleep⟩
  · cases queue with
    | nil => simp [small rfl]
    | cons first queue => simp [inv.works]
  · intro b' mem
    rcases List.mem_append.mp mem with before | now
    · exact inv.ready b' before
    · cases List.mem_singleton.mp now
      exact busy
  · cases queue with
    | nil => simp [small rfl]
    | cons first queue => simpa using inv.small
  · intro q b' woken
    by_cases here : q = p
    · simp [here] at woken
    · exact inv.woken q b' ((others here).symm.trans woken)
  · intro q b' uses
    by_cases here : q = p
    · subst here
      simp only [State.Uses, update_self, Doing.sleeping.injEq, reduceCtorEq, or_false] at uses
      exact uses ▸ mine
    · exact inv.locked q b' (by simpa [State.Uses, here] using uses)

theorem startNext {t : State} {rest : List (Fin nbuf)} (chain : Chain t.qnext t.idequeue rest)
    (idle : t.command = none) (running : t.panic = none) : t.startNext = { t with
      command := if ∀ b ∈ rest.head?, (t.buf b).blockno < fsSize then rest.head?.map fun b => command (t.buf b) else none
      panic := if ∀ b ∈ rest.head?, (t.buf b).blockno < fsSize then none else some .incorrectBlockno } := by
  cases rest with
  | nil =>
    have none' : t.idequeue = none := chain
    have same : t.startNext = t := by simp [State.startNext, none']
    rw [same]
    cases t
    cases idle
    cases running
    simp
  | cons first rest =>
    have first' : t.idequeue = some first := chain.1
    by_cases small : (t.buf first).blockno < fsSize
    · simp [State.startNext, first', State.idestart, small, Nat.not_le.mpr small, running]
    · simp [State.startNext, first', State.idestart, small, Nat.not_lt.mp small, idle]

/-- The first request is done, and the disk has not been started on the next. -/
def served (s : State) (b : Fin nbuf) : State := { s with
  buf := update s.buf b (transfer (s.buf b) (s.disk ((s.buf b).dev % 2))).1
  idequeue := s.qnext b
  command := none
  disk := update s.disk ((s.buf b).dev % 2) (transfer (s.buf b) (s.disk ((s.buf b).dev % 2))).2
  doing := fun p => if s.doing p = .sleeping b then .woken b else s.doing p }

theorem served_sleeping {b' : Fin nbuf} : (served s b).doing p = .sleeping b' ↔ s.doing p = .sleeping b' ∧ b' ≠ b := by
  dsimp only [served]
  split
  next mine => simp [mine, eq_comm]
  next other =>
    constructor
    · intro there
      exact ⟨there, fun same => other (same ▸ there)⟩
    · exact And.left

theorem served_woken {b' : Fin nbuf} (there : (served s b).doing p = .woken b') :
    s.doing p = .woken b' ∨ b' = b ∧ s.doing p = .sleeping b := by
  dsimp only [served] at there
  split at there
  next mine =>
    cases there
    exact .inr ⟨rfl, mine⟩
  · exact .inl there

section Interrupt

variable {rest : List (Fin nbuf)} {next : State}

section

variable (inv : Queued s (b :: rest))

include inv

theorem ne_first : ∀ other ∈ rest, other ≠ b := by
  rintro other mem rfl
  exact (List.nodup_cons.mp inv.distinct).1 mem

theorem served_buf {other : Fin nbuf} (mem : other ∈ rest) : (served s b).buf other = s.buf other :=
  update_of_ne (inv.ne_first other mem) _ _

/-- The disk has only the registers, the driver only the queue: both mean the first buffer. -/
theorem interrupt_eq (running : s.panic = none)
    (taken : step havedisk1 s (.interrupt false) = some next) : next = (served s b).startNext := by
  have head : s.idequeue = some b := inv.chain.1
  have works : s.command = some (command (s.buf b)) := inv.works
  have sector := command_sector (inv.small b rfl)
  have drive := command_drive (s.buf b)
  have write : (command (s.buf b)).write = if (s.buf b).dirty then some (s.buf b).data else none := rfl
  simp only [step, running, works, Option.map_some, Option.some.injEq] at taken
  rw [← taken]
  cases dirty : (s.buf b).dirty <;>
    simp [State.carryOut, State.ideintr, sector, drive, write, dirty, head, State.setBuf, State.wakeup, served,
      transfer, running]

theorem of_served (fits : ∀ b ∈ rest.head?, (s.buf b).blockno < fsSize) (panic : Option Panic) :
    Queued { served s b with command := rest.head?.map fun b' => command ((served s b).buf b'), panic } rest := by
  refine ⟨inv.chain.2, (List.nodup_cons.mp inv.distinct).2, fun b' => ?_, rfl, fun b' mem => ?_, fun b' mem => ?_,
    fun p b' there => ?_, ?_⟩
  · constructor
    · intro mem
      obtain ⟨p, there⟩ := (inv.waits b').mp (.tail _ mem)
      exact ⟨p, served_sleeping.mpr ⟨there, inv.ne_first b' mem⟩⟩
    · rintro ⟨p, there⟩
      obtain ⟨before, other⟩ := served_sleeping.mp there
      exact List.mem_of_ne_of_mem other ((inv.waits b').mpr ⟨p, before⟩)
  · exact (congrArg Buf.synced (inv.served_buf mem)).trans (inv.ready b' (.tail _ mem))
  · exact (congrArg Buf.blockno (inv.served_buf (List.mem_of_mem_head? mem))).trans_lt (fits b' mem)
  · by_cases here : b' = b
    · subst here
      simp [served, transfer_synced]
    · rcases served_woken there with before | ⟨same, -⟩
      · simpa [served, here] using inv.woken p b' before
      · exact absurd same here
  · rintro p b' (there | there)
    · exact inv.locked p b' (.inl (served_sleeping.mp there).1)
    · rcases served_woken there with before | ⟨rfl, before⟩
      · exact inv.locked p b' (.inr before)
      · exact inv.locked p b' (.inl before)

/-- The disk is through with the first request, and the driver starts it on the next. -/
theorem interrupt (running : s.panic = none) (taken : step havedisk1 s (.interrupt false) = some next) :
    Chain next.qnext next.idequeue rest ∧ next.buf = (served s b).buf ∧ next.disk = (served s b).disk ∧
    (next.panic = none ↔ ∀ b ∈ rest.head?, (s.buf b).blockno < fsSize) ∧ (next.panic = none → Queued next rest) := by
  have small : (∀ b' ∈ rest.head?, ((served s b).buf b').blockno < fsSize) ↔
      ∀ b ∈ rest.head?, (s.buf b).blockno < fsSize :=
    forall₂_congr fun b' mem => by rw [inv.served_buf (List.mem_of_mem_head? mem)]
  rw [inv.interrupt_eq running taken, startNext (t := served s b) inv.chain.2 rfl running]
  simp only [small]
  refine ⟨inv.chain.2, trivial, trivial, ?_⟩
  by_cases fits : ∀ b ∈ rest.head?, (s.buf b).blockno < fsSize
  · rw [if_pos fits, if_pos fits]
    exact ⟨iff_of_true rfl fits, fun _ => inv.of_served fits none⟩
  · rw [if_neg fits]
    exact ⟨iff_of_false (by simp) fits, by simp⟩

end

end Interrupt

/-- A process goes on: it has been woken up because its request is done. -/
theorem resume (inv : Queued s queue) (there : s.doing p = .woken b) : Queued (s.await p b) queue := by
  have done := inv.woken p b there
  have eq : s.await p b = { s with doing := update s.doing p .other } := by
    simp [State.await, done]
  have others : ∀ {q : Nat} {doing : Doing}, doing ≠ .other →
      update s.doing p .other q = doing → s.doing q = doing := by
    intro q doing some' now
    by_cases here : q = p
    · subst here
      exact absurd (by simpa using now.symm) some'
    · simpa [here] using now
  refine ⟨eq ▸ inv.chain, inv.distinct, fun b' => ?_, eq ▸ inv.works, eq ▸ inv.ready, eq ▸ inv.small, ?_, ?_⟩
  · rw [inv.waits, eq]
    constructor
    · rintro ⟨q, asleep⟩
      have apart : q ≠ p := by
        rintro rfl
        simp [there] at asleep
      exact ⟨q, by simpa [apart] using asleep⟩
    · rintro ⟨q, asleep⟩
      exact ⟨q, others (by simp) asleep⟩
  · rw [eq]
    intro q b' now
    exact inv.woken q b' (others (by simp) now)
  · rw [eq]
    intro q b' uses
    exact inv.locked q b' (uses.imp (others (by simp)) (others (by simp)))

/-- The holder of a buffer that is not in the queue changes it. -/
theorem change (inv : Queued s queue) (unused : ∀ q, ¬ s.Uses q b) (buf : Buf) : Queued (s.setBuf b buf) queue := by
  have same : ∀ other, (∃ q, s.Uses q other) → (s.setBuf b buf).buf other = s.buf other := by
    rintro other ⟨q, uses⟩
    have apart : other ≠ b := by
      rintro rfl
      exact unused q uses
    simp [State.setBuf, apart]
  have queued : ∀ other ∈ queue, (s.setBuf b buf).buf other = s.buf other := by
    intro other mem
    obtain ⟨q, asleep⟩ := (inv.waits other).mp mem
    exact same other ⟨q, .inl asleep⟩
  refine ⟨inv.chain, inv.distinct, inv.waits, ?_, fun other mem => ?_, fun other mem => ?_, fun q other woken => ?_, inv.locked⟩
  · cases queue with
    | nil => exact inv.works
    | cons first rest =>
      show s.command = some (command ((s.setBuf b buf).buf first))
      rw [queued first (by simp)]
      exact inv.works
  · rw [queued other mem]
    exact inv.ready other mem
  · rw [queued other (List.mem_of_mem_head? mem)]
    exact inv.small other mem
  · rw [same other ⟨q, .inr woken⟩]
    exact inv.woken q other woken

/-- The lock of a buffer that is not in the queue changes hands. -/
theorem relock (inv : Queued s queue) (unused : ∀ q, ¬ s.Uses q b) (holder : Option Nat) (panic : Option Panic) :
    Queued { s with lock := update s.lock b holder, panic } queue := by
  refine { inv with locked := fun q other uses => ?_ }
  have apart : other ≠ b := by
    rintro rfl
    exact unused q uses
  exact (update_of_ne apart _ _).trans (inv.locked q other uses)

end Queued

theorem queued_of_reachable {havedisk1 : Bool} {s : State} (reach : (driver havedisk1).Reachable Faultless s)
    (running : s.panic = none) : ∃ queue, Queued s queue := by
  revert running
  refine reach.invariant (fun s => s.panic = none → ∃ queue, Queued s queue) ?_ ?_
  · rintro s ⟨empty, idle, nobody, -⟩ -
    refine ⟨[], empty, .nil, fun b => ?_, idle, by simp, by simp, fun p b woken => ?_, fun p b uses => ?_⟩
    · simp [nobody]
    · simp [nobody] at woken
    · simp [State.Uses, nobody] at uses
  · rintro s event next - before faultless taken running'
    have running : s.panic = none := by
      by_contra stopped
      obtain ⟨panic, stopped⟩ := Option.ne_none_iff_exists'.mp stopped
      simp [driver, step, stopped] at taken
    obtain ⟨queue, inv⟩ := before running
    cases event with
    | iderw p b =>
      simp only [driver, step, running] at taken
      split at taken
      · next free =>
        cases taken
        exact ⟨_, inv.iderw running free running'⟩
      · cases taken
    | resume p =>
      simp only [driver, step, running] at taken
      split at taken
      · next b there =>
        cases taken
        exact ⟨_, inv.resume there⟩
      · cases taken
    | interrupt error =>
      cases error with
      | true => exact absurd rfl faultless
      | false =>
        cases queue with
        | nil => simp [driver, step, running, inv.works] at taken
        | cons b rest => exact ⟨rest, (inv.interrupt running taken).2.2.2.2 running'⟩
    | acquiresleep p b =>
      simp only [driver, step, running] at taken
      split at taken
      · next may =>
        cases taken
        exact ⟨_, inv.relock (inv.unused may.1 (.inr may.2)) _ _⟩
      · cases taken
    | releasesleep p b =>
      simp only [driver, step, running] at taken
      split at taken
      · next may =>
        cases taken
        exact ⟨_, inv.relock (inv.unused may.1 (.inl may.2)) _ _⟩
      · cases taken
    | change p b buf =>
      simp only [driver, step, running] at taken
      split at taken
      · next may =>
        cases taken
        exact ⟨_, inv.change (inv.unused may.1 may.2) buf⟩
      · cases taken

/-- **The driver serves requests in order.**  In every interleaving of processes and interrupts the requests
in the queue are those that some process sleeps for, which holds the lock, and the disk is busy as long as
there are any; who has been woken up finds its request done, so that no wakeup is lost.  The interrupt
finishes the first request, as `memide.c` does at once if it is one for disk 1, and leaves the others in
their order; a new one goes to the end.  The kernel stops only for the block numbers, locks, flags and
disks that the tests are for. -/
theorem ide_serves_in_order {havedisk1 : Bool} {s : State} (reach : (driver havedisk1).Reachable Faultless s)
    (running : s.panic = none) :
    ∃ queue, Chain s.qnext s.idequeue queue ∧ queue.Nodup ∧
      (∀ b, b ∈ queue ↔ ∃ p, s.doing p = .sleeping b) ∧ (s.command = none ↔ queue = []) ∧
      (∀ p b, s.Uses p b → s.lock b = some p) ∧ (∀ p b, s.doing p = .woken b → (s.buf b).synced = true) ∧
      (∀ next, step havedisk1 s (.interrupt false) = some next → ∃ b rest buf blocks, queue = b :: rest ∧
        Chain next.qnext next.idequeue rest ∧
        (buf, blocks) = transfer (s.buf b) (s.disk ((s.buf b).dev % 2)) ∧
        next.buf = update s.buf b buf ∧ next.disk = update s.disk ((s.buf b).dev % 2) blocks ∧
        ((s.buf b).dev = 1 → ∀ disksize > (s.buf b).blockno,
          memiderw disksize true (s.buf b) (s.disk 1) = .ok (buf, blocks)) ∧
        (next.panic = none ↔ ∀ b ∈ rest.head?, (s.buf b).blockno < fsSize)) ∧
      ∀ p b next, step havedisk1 s (.iderw p b) = some next →
        (next.panic = none ↔ s.lock b = some p ∧ (s.buf b).synced = false ∧
          ((s.buf b).dev = 0 ∨ havedisk1 = true) ∧ (queue = [] → (s.buf b).blockno < fsSize)) ∧
        (next.panic = none → Chain next.qnext next.idequeue (queue ++ [b])) := by
  obtain ⟨queue, inv⟩ := queued_of_reachable reach running
  refine ⟨queue, inv.chain, inv.distinct, inv.waits, ?_, inv.locked, inv.woken, fun next taken => ?_, fun p b next taken => ?_⟩
  · rw [inv.works]
    cases queue <;> simp
  · cases queue with
    | nil => simp [step, running, inv.works] at taken
    | cons b rest =>
      obtain ⟨chain, bufs, disk, stops, -⟩ := inv.interrupt running taken
      refine ⟨b, rest, (transfer (s.buf b) (s.disk ((s.buf b).dev % 2))).1,
        (transfer (s.buf b) (s.disk ((s.buf b).dev % 2))).2, rfl, chain, rfl, bufs, disk, fun one disksize inside => ?_, stops⟩
      simp [memiderw, inv.ready b (by simp), one, Nat.not_le.mpr inside]
  · simp only [step, running] at taken
    split at taken
    · next free =>
      cases taken
      exact ⟨inv.iderw_running running free, fun running' => (inv.iderw running free running').chain⟩
    · cases taken

/-- Process 8 writes through buffer 5 while process 7 reads into buffer 2: two interrupts. -/
theorem ide_serves_in_order_two : ∃ s next, (driver true).Reachable Faultless s ∧ s.panic = none ∧
    s.doing 7 = .woken 2 ∧ s.doing 8 = .sleeping 5 ∧ s.buf 2 = ⟨1, 50, true, false, .fill 1⟩ ∧
    step true s (.interrupt false) = some next ∧ next.disk 1 60 = .fill 3 ∧ (next.buf 5).synced = true := by
  have start : (driver true).Reachable Faultless
      ⟨fun _ => ⟨1, 50, false, false, .fill 0⟩, fun _ => none, fun _ => none, none, none, fun _ _ => .fill 1,
        fun _ => .other, none⟩ :=
    .initial ⟨rfl, rfl, rfl, rfl⟩
  have lock₇ : (driver true).Reachable Faultless _ := .step (.acquiresleep 7 2) start (by simp [Faultless]) rfl
  have lock₈ : (driver true).Reachable Faultless _ := .step (.acquiresleep 8 5) lock₇ (by simp [Faultless]) rfl
  have change : (driver true).Reachable Faultless _ :=
    .step (.change 8 5 ⟨1, 60, true, true, .fill 3⟩) lock₈ (by simp [Faultless]) rfl
  have read : (driver true).Reachable Faultless _ := .step (.iderw 7 2) change (by simp [Faultless]) rfl
  have write : (driver true).Reachable Faultless _ := .step (.iderw 8 5) read (by simp [Faultless]) rfl
  have served : (driver true).Reachable Faultless _ := .step (.interrupt false) write (by simp [Faultless]) rfl
  obtain ⟨queue, chain, -, -, -, -, -, finishes, -⟩ := ide_serves_in_order served rfl
  obtain ⟨b, rest, buf, blocks, split, -, moved, bufs, disk, -⟩ := finishes _ rfl
  subst split
  have first : some 5 = some b := chain.1
  cases first
  cases moved
  refine ⟨_, _, served, rfl, rfl, rfl, rfl, rfl, ?_, ?_⟩
  · rw [disk]
    rfl
  · rw [bufs]
    rfl

end Xv6Simplesh.Ide
