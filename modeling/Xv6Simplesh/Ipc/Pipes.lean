import Xv6Simplesh.Library.Ring
import Xv6Simplesh.Library.Runs

/-! # Pipes

`pipewrite` and `piperead` on one pipe, by any number of processes.  A call holds the lock
of the pipe from its start or from where it slept to its end or to where it sleeps next, so
these sections are the steps.  The counters have 32 bits and are compared for equality.
-/

namespace Xv6Simplesh.Ipc

open Library Function

abbrev pipesize : Nat := 512

structure Pipe where
  /-- The cells below `pipesize`. -/
  data : Nat → UInt8
  nread : UInt32
  nwrite : UInt32
  readopen : Bool
  writeopen : Bool

namespace Pipe

/-- `p->data[p->nwrite++ % PIPESIZE] = byte`. -/
def store (pipe : Pipe) (byte : UInt8) : Pipe :=
  { pipe with data := update pipe.data (pipe.nwrite.toNat % pipesize) byte, nwrite := pipe.nwrite + 1 }

/-- `p->data[p->nread % PIPESIZE]`. -/
def front (pipe : Pipe) : UInt8 := pipe.data (pipe.nread.toNat % pipesize)

/-- `p->nread++`. -/
def drop (pipe : Pipe) : Pipe := { pipe with nread := pipe.nread + 1 }

/-- `p->nwrite == p->nread + PIPESIZE`. -/
def full (pipe : Pipe) : Bool := pipe.nwrite = pipe.nread + 512

def empty (pipe : Pipe) : Bool := pipe.nread = pipe.nwrite

end Pipe

/-- How a section of a call ends. -/
inductive Outcome where
  | returns (val : Int)
  /-- It returns -1 without a wakeup. -/
  | fails
  /-- It sleeps; a writer has stored `i` bytes so far. -/
  | sleeps (i : Nat)
deriving DecidableEq, Repr

/-- The loop of `pipewrite` from byte `i` on, with `left` bytes to go: the pipe, the bytes that
were stored, and how the section ends. -/
def writeLoop (killed : Bool) (addr : Nat → UInt8) (n : Int) : Nat → Nat → Pipe → Pipe × List UInt8 × Outcome
  | 0, _, pipe => (pipe, [], .returns n)
  | left + 1, i, pipe =>
    if pipe.full then
      if pipe.readopen = false ∨ killed then (pipe, [], .fails) else (pipe, [], .sleeps i)
    else
      let (pipe, bytes, outcome) := writeLoop killed addr n left (i + 1) (pipe.store (addr i))
      (pipe, addr i :: bytes, outcome)

/-- The copying loop of `piperead`: the pipe and the bytes that were taken. -/
def readLoop : Nat → Pipe → Pipe × List UInt8
  | 0, pipe => (pipe, [])
  | left + 1, pipe =>
    if pipe.empty then (pipe, [])
    else
      let (pipe', bytes) := readLoop left pipe.drop
      (pipe', pipe.front :: bytes)

/-- A section of `pipewrite`. -/
def pipewrite (killed : Bool) (addr : Nat → UInt8) (n : Int) (i : Nat) (pipe : Pipe) : Pipe × List UInt8 × Outcome :=
  writeLoop killed addr n (n - i).toNat i pipe

/-- A section of `piperead`. -/
def piperead (killed : Bool) (n : Int) (pipe : Pipe) : Pipe × List UInt8 × Outcome :=
  if pipe.empty ∧ pipe.writeopen then (pipe, [], if killed then .fails else .sleeps 0)
  else
    let (pipe, bytes) := readLoop n.toNat pipe
    (pipe, bytes, .returns bytes.length)

/-! ## Processes -/

inductive Call where
  | write (addr : Nat → UInt8) (n : Int)
  | read (n : Int)

namespace Call

def run (killed : Bool) (i : Nat) (pipe : Pipe) : Call → Pipe × List UInt8 × Outcome
  | write addr n => pipewrite killed addr n i pipe
  | read n => piperead killed n pipe

def stored (bytes : List UInt8) : Call → List UInt8
  | write _ _ => bytes
  | read _ => []

def taken (bytes : List UInt8) : Call → List UInt8
  | write _ _ => []
  | read _ => bytes

/-- A writer wakes the readers before it sleeps and at its end, a reader the writers at its end. -/
def wakes (outcome : Outcome) : Call → Bool
  | write _ _ => outcome ≠ .fails
  | read _ =>
    match outcome with
    | .returns _ => true
    | _ => false

end Call

/-- What a process is doing with the pipe. -/
inductive Phase where
  | idle
  /-- In a call, in which a writer has stored `i` bytes; `asleep` until it is woken. -/
  | waiting (call : Call) (i : Nat) (asleep : Bool)
  | returned (call : Call) (val : Int)

namespace Phase

/-- Where `wakeup` is called for the readers, or for the writers. -/
def wake (readers : Bool) : Phase → Phase
  | waiting (.read n) i asleep => waiting (.read n) i (asleep && !readers)
  | waiting (.write addr n) i asleep => waiting (.write addr n) i (asleep && readers)
  | phase => phase

def ofOutcome (call : Call) : Outcome → Phase
  | .returns val => returned call val
  | .fails => returned call (-1)
  | .sleeps i => waiting call i true

def rouse : Phase → Phase
  | waiting call i _ => waiting call i false
  | phase => phase

end Phase

structure State (Pid : Type) where
  pipe : Pipe
  procs : Pid → Phase
  killed : Pid → Bool
  /-- All bytes that calls of `pipewrite` have stored. -/
  stored : List UInt8
  /-- All bytes that calls of `piperead` have taken. -/
  taken : List UInt8

inductive Event (Pid : Type) where
  | call (p : Pid) (call : Call)
  /-- A process that was woken goes on. -/
  | resume (p : Pid)
  | kill (p : Pid)
  /-- The last descriptor of an end of the pipe is closed. -/
  | close (writable : Bool)

variable {Pid : Type} [DecidableEq Pid]

def Call.readers : Call → Bool
  | write _ _ => true
  | read _ => false

/-- A process runs the next section of its call. -/
def State.advance (s : State Pid) (p : Pid) (call : Call) (i : Nat) : State Pid :=
  let (pipe, bytes, outcome) := call.run (s.killed p) i s.pipe
  let procs := if call.wakes outcome then fun q => (s.procs q).wake call.readers else s.procs
  { s with
    pipe
    procs := update procs p (.ofOutcome call outcome)
    stored := s.stored ++ call.stored bytes
    taken := s.taken ++ call.taken bytes }

/-- `pipeclose`; the pipe is not used any more when both ends are closed. -/
def State.pipeclose (s : State Pid) (writable : Bool) : State Pid :=
  let pipe := if writable then { s.pipe with writeopen := false } else { s.pipe with readopen := false }
  { s with pipe, procs := fun q => (s.procs q).wake writable }

variable (Pid) in
/-- The counters start with any value, equal to each other. -/
def system : System (State Pid) (Event Pid) where
  initial s := s.pipe.nread = s.pipe.nwrite ∧ (∀ p, s.procs p = .idle) ∧ s.stored = [] ∧ s.taken = []
  step s
    | .call p call =>
      match s.procs p with
      | .waiting _ _ _ => none
      | _ => some (s.advance p call 0)
    | .resume p =>
      match s.procs p with
      | .waiting call i false => some (s.advance p call i)
      | _ => none
    | .kill p =>
      some { s with
        killed := update s.killed p true
        procs := update s.procs p (s.procs p).rouse }
    | .close writable => some (s.pipeclose writable)

/-! ## The bytes in the pipe -/

/-- How many bytes are in the pipe, as the counters say it. -/
def Pipe.count (pipe : Pipe) : Nat := (pipe.nwrite - pipe.nread).toNat

/-- The bytes from `nread` to `nwrite`. -/
def Pipe.contents (pipe : Pipe) : List UInt8 :=
  (List.range pipe.count).map fun i => pipe.data ((pipe.nread + UInt32.ofNat i).toNat % pipesize)

/-- The counters are those of a ring buffer from which `taken` bytes were taken and in which
`stored` bytes were stored, counted from some start, and its items are `bytes`. -/
structure Holds (pipe : Pipe) (taken stored : Nat) (bytes : List UInt8) : Prop where
  nread : pipe.nread.toNat = taken % 2 ^ 32
  nwrite : pipe.nwrite.toNat = stored % 2 ^ 32
  ordered : taken ≤ stored
  room : stored ≤ taken + pipesize
  bytes : window pipesize pipe.data taken stored = bytes

namespace Holds

variable {pipe : Pipe} {taken stored : Nat} {bytes : List UInt8}

theorem empty_iff (holds : Holds pipe taken stored bytes) : pipe.empty ↔ taken = stored := by
  have close : stored < taken + 2 ^ 32 := by
    have room := holds.room
    dsimp only [pipesize] at room
    omega
  rw [Pipe.empty, decide_eq_true_iff, ← UInt32.toNat_inj, holds.nread, holds.nwrite,
    counter_eq_iff holds.ordered close]

theorem full_iff (holds : Holds pipe taken stored bytes) : pipe.full ↔ stored = taken + pipesize := by
  have next : (pipe.nread + 512).toNat = (taken + pipesize) % 2 ^ 32 := by
    rw [UInt32.toNat_add, holds.nread]
    exact Nat.mod_add_mod ..
  have close : taken + pipesize < stored + 2 ^ 32 := by
    have ordered := holds.ordered
    dsimp only [pipesize]
    omega
  rw [Pipe.full, decide_eq_true_iff, ← UInt32.toNat_inj, next, holds.nwrite, counter_eq_iff holds.room close]

/-- The cells that the wrapping counters lead to are those of the true ones. -/
theorem cell {counter : Nat} : counter % 2 ^ 32 % pipesize = counter % pipesize :=
  Nat.mod_mod_of_dvd _ (by decide)

section

variable (holds : Holds pipe taken stored bytes)

include holds

theorem store (room : ¬ pipe.full) (byte : UInt8) : Holds (pipe.store byte) taken (stored + 1) (bytes ++ [byte]) := by
  have space : stored < taken + pipesize := by
    have room := mt holds.full_iff.mpr room
    have bound := holds.room
    omega
  refine ⟨holds.nread, ?_, ?_, space, ?_⟩
  · rw [Pipe.store, UInt32.toNat_add, holds.nwrite]
    exact Nat.mod_add_mod ..
  · have ordered := holds.ordered
    omega
  · rw [Pipe.store, holds.nwrite, cell, window_store holds.ordered space, holds.bytes]

theorem front (some : ¬ pipe.empty) :
    ∃ rest, bytes = pipe.front :: rest ∧ Holds pipe.drop (taken + 1) stored rest := by
  have present : taken < stored := by
    have ne := mt holds.empty_iff.mpr some
    have ordered := holds.ordered
    omega
  refine ⟨window pipesize pipe.data (taken + 1) stored, ?_, ?_, holds.nwrite, present, ?_, rfl⟩
  · rw [← holds.bytes, window_take present, Pipe.front, holds.nread, cell]
  · rw [Pipe.drop, UInt32.toNat_add, holds.nread]
    exact Nat.mod_add_mod ..
  · have room := holds.room
    omega

theorem count : pipe.count = stored - taken := by
  have ordered := holds.ordered
  have room := holds.room
  dsimp only [pipesize] at room
  rw [Pipe.count, UInt32.toNat_sub, holds.nwrite, holds.nread]
  omega

theorem contents : pipe.contents = bytes := by
  rw [← holds.bytes, Pipe.contents, window, holds.count]
  apply List.map_congr_left
  intro i _
  have next : (pipe.nread + UInt32.ofNat i).toNat = (taken + i) % 2 ^ 32 := by
    rw [UInt32.toNat_add, UInt32.toNat_ofNat', holds.nread, ← Nat.add_mod]
  rw [next, cell]

end

end Holds

/-! ## Sections and runs -/

variable {pipe : Pipe}

theorem writeLoop_holds (killed : Bool) (addr : Nat → UInt8) (n : Int) (left i : Nat)
    {taken stored : Nat} {bytes : List UInt8} (holds : Holds pipe taken stored bytes) :
    ∃ stored', Holds (writeLoop killed addr n left i pipe).1 taken stored'
      (bytes ++ (writeLoop killed addr n left i pipe).2.1) := by
  induction left generalizing i pipe stored bytes with
  | zero => exact ⟨stored, by rwa [writeLoop, List.append_nil]⟩
  | succ left ih =>
    rw [writeLoop]
    split
    · -- the buffer is full: nothing is stored, whether the call sleeps or fails
      refine ⟨stored, ?_⟩
      split <;> rwa [List.append_nil]
    next room =>
      have rest := ih (i + 1) (holds.store room (addr i))
      simpa only [List.append_assoc, List.singleton_append] using rest

theorem readLoop_holds (left : Nat) {taken stored : Nat} {bytes : List UInt8}
    (holds : Holds pipe taken stored bytes) :
    ∃ taken' rest, bytes = (readLoop left pipe).2 ++ rest ∧ Holds (readLoop left pipe).1 taken' stored rest := by
  induction left generalizing pipe taken bytes with
  | zero => exact ⟨taken, bytes, rfl, holds⟩
  | succ left ih =>
    rw [readLoop]
    split
    · exact ⟨taken, bytes, rfl, holds⟩
    next some =>
      obtain ⟨tail, rfl, dropped⟩ := holds.front some
      obtain ⟨taken', rest, rfl, after⟩ := ih dropped
      exact ⟨taken', rest, rfl, after⟩

theorem readLoop_empty {left : Nat} (pos : 0 < left) (none : (readLoop left pipe).2 = []) :
    pipe.empty ∧ (readLoop left pipe).1 = pipe := by
  cases left with
  | zero => exact absurd pos (Nat.lt_irrefl 0)
  | succ left =>
    rw [readLoop] at none ⊢
    split at none
    next empty => exact ⟨empty, by rw [if_pos empty]⟩
    · cases none

/-- `piperead` returns 0 for a positive length only at the end of the input. -/
theorem piperead_zero {killed : Bool} {n : Int} (pos : 0 < n) (zero : (piperead killed n pipe).2.2 = .returns 0) :
    (piperead killed n pipe).1.empty ∧ (piperead killed n pipe).1.writeopen = false := by
  unfold piperead at zero ⊢
  split at zero
  · split at zero <;> cases zero
  next goes =>
    rw [if_neg goes]
    have length : (((readLoop n.toNat pipe).2.length : Nat) : Int) = 0 := Outcome.returns.inj zero
    have none : (readLoop n.toNat pipe).2 = [] := List.length_eq_zero_iff.mp (by omega)
    obtain ⟨empty, same⟩ := readLoop_empty (by omega) none
    dsimp only
    rw [same]
    exact ⟨empty, by simpa [empty] using goes⟩

/-- The bytes in the pipe are those that were stored and have not been taken. -/
def Fifo (s : State Pid) : Prop :=
  ∃ taken stored bytes, Holds s.pipe taken stored bytes ∧ s.stored = s.taken ++ bytes

variable {s s' : State Pid}

theorem Fifo.advance (fifo : Fifo s) (p : Pid) (call : Call) (i : Nat) : Fifo (s.advance p call i) := by
  obtain ⟨taken, stored, bytes, holds, log⟩ := fifo
  cases call with
  | write addr n =>
    obtain ⟨stored', after⟩ := writeLoop_holds (s.killed p) addr n (n - i).toNat i holds
    refine ⟨taken, stored', _, after, ?_⟩
    simp only [State.advance, Call.run, Call.stored, Call.taken, List.append_nil, log, List.append_assoc]
    rfl
  | read n =>
    simp only [Fifo, State.advance, Call.run, Call.stored, Call.taken, List.append_nil, log]
    unfold piperead
    split
    · exact ⟨taken, stored, bytes, holds, by rw [List.append_nil]⟩
    · obtain ⟨taken', rest, rfl, after⟩ := readLoop_holds n.toNat holds
      exact ⟨taken', stored, rest, after, by rw [List.append_assoc]⟩

omit [DecidableEq Pid] in
theorem Fifo.pipeclose (fifo : Fifo s) (writable : Bool) : Fifo (s.pipeclose writable) := by
  obtain ⟨taken, stored, bytes, holds, log⟩ := fifo
  refine ⟨taken, stored, bytes, ?_, log⟩
  unfold State.pipeclose
  dsimp only
  split
  · exact ⟨holds.nread, holds.nwrite, holds.ordered, holds.room, holds.bytes⟩
  · exact ⟨holds.nread, holds.nwrite, holds.ordered, holds.room, holds.bytes⟩

theorem Fifo.step {event : Event Pid} (fifo : Fifo s) (taken : (system Pid).step s event = some s') : Fifo s' := by
  cases event with
  | call p call =>
    simp only [system] at taken
    split at taken
    · cases taken
    · cases taken
      exact fifo.advance p call 0
  | resume p =>
    simp only [system] at taken
    split at taken
    next call i _ =>
      cases taken
      exact fifo.advance p call i
    · cases taken
  | kill p =>
    cases taken
    exact fifo
  | close writable =>
    cases taken
    exact fifo.pipeclose writable

theorem fifo_of_reachable (reach : (system Pid).Reachable (fun _ _ => True) s) : Fifo s := by
  refine reach.invariant Fifo ?_ fun _ _ _ _ fifo _ => fifo.step
  intro s start
  obtain ⟨counters, -, stored, taken⟩ := start
  refine ⟨s.pipe.nread.toNat, s.pipe.nread.toNat, [], ⟨?_, ?_, le_rfl, by omega, window_self⟩, ?_⟩
  · exact (Nat.mod_eq_of_lt s.pipe.nread.toNat_lt).symm
  · rw [← counters]
    exact (Nat.mod_eq_of_lt s.pipe.nread.toNat_lt).symm
  · rw [stored, taken, List.append_nil]

theorem procs_advance (s : State Pid) (p : Pid) (call : Call) (i : Nat) :
    (s.advance p call i).procs p = .ofOutcome call (call.run (s.killed p) i s.pipe).2.2 :=
  update_self ..

/-- A section of `pipewrite` stores the next bytes of its buffer, and all that are left if it returns `n`. -/
theorem writeLoop_bytes (killed : Bool) (addr : Nat → UInt8) (n : Int) (left i : Nat) (pipe : Pipe) :
    ∃ k, (writeLoop killed addr n left i pipe).2.1 = (List.range' i k).map addr ∧
      ((writeLoop killed addr n left i pipe).2.2 = .sleeps (i + k) ∨
        (writeLoop killed addr n left i pipe).2.2 = .returns n ∧ k = left ∨
        (writeLoop killed addr n left i pipe).2.2 = .fails) := by
  induction left generalizing i pipe with
  | zero => exact ⟨0, rfl, .inr (.inl ⟨rfl, rfl⟩)⟩
  | succ left ih =>
    rw [writeLoop]
    split
    · split
      · exact ⟨0, rfl, .inr (.inr rfl)⟩
      · exact ⟨0, rfl, .inl rfl⟩
    · obtain ⟨k, bytes, outcome⟩ := ih (i + 1) (pipe.store (addr i))
      refine ⟨k + 1, congrArg (addr i :: ·) bytes, ?_⟩
      rcases outcome with asleep | ⟨done, rfl⟩ | failed
      · exact .inl (asleep.trans (by rw [Nat.add_right_comm, Nat.add_assoc]))
      · exact .inr (.inl ⟨done, rfl⟩)
      · exact .inr (.inr failed)

/-- In every state that any number of processes reach by calls in any order, from any common
value of the counters, the bytes stored are those taken and then those in the pipe, of which
there are at most `PIPESIZE`; a writer stores the bytes of its buffer one after the other, up to where it
sleeps, and up to the end if it returns `n`; and a read of a positive length that now returns 0 does so
because the pipe is empty and its write end closed. -/
theorem pipe_fifo (reach : (system Pid).Reachable (fun _ _ => True) s) :
    s.pipe.count ≤ pipesize ∧ s.stored = s.taken ++ s.pipe.contents ∧ s.taken <+: s.stored ∧
      s.pipe.contents.length = s.pipe.count ∧
      (∀ event s' p addr n i, (system Pid).step s event = some s' →
        (event = .call p (.write addr n) ∧ i = 0 ∨ event = .resume p ∧ s.procs p = .waiting (.write addr n) i false) →
        ∃ k, s'.stored = s.stored ++ (List.range' i k).map addr ∧
          (s'.procs p = .waiting (.write addr n) (i + k) true ∨
            s'.procs p = .returned (.write addr n) n ∧ k = (n - i).toNat ∨ s'.procs p = .returned (.write addr n) (-1))) ∧
      ∀ event s' p n, (system Pid).step s event = some s' →
        ((∃ call, event = .call p call) ∨ event = .resume p) →
        s'.procs p = .returned (.read n) 0 → 0 < n →
        s'.pipe.nread = s'.pipe.nwrite ∧ s'.pipe.writeopen = false := by
  obtain ⟨taken, stored, bytes, holds, log⟩ := fifo_of_reachable reach
  refine ⟨?_, ?_, ⟨bytes, log.symm⟩, ?_, ?_, ?_⟩
  · rw [holds.count]
    have room := holds.room
    omega
  · rw [holds.contents, log]
  · rw [Pipe.contents, List.length_map, List.length_range]
  · intro event s' p addr n i step actor
    have ran : s' = s.advance p (.write addr n) i := by
      rcases actor with ⟨rfl, rfl⟩ | ⟨rfl, there⟩
      · simp only [system] at step
        split at step
        · cases step
        · exact (Option.some.inj step).symm
      · simp only [system, there] at step
        exact (Option.some.inj step).symm
    obtain ⟨k, bytes, outcome⟩ := writeLoop_bytes (s.killed p) addr n (n - i).toNat i s.pipe
    have now := procs_advance s p (.write addr n) i
    rw [Call.run, pipewrite] at now
    rw [ran]
    refine ⟨k, congrArg (s.stored ++ ·) bytes, ?_⟩
    rcases outcome with asleep | ⟨done, whole⟩ | failed
    · exact .inl (by rw [now, asleep, Phase.ofOutcome])
    · exact .inr (.inl ⟨by rw [now, done, Phase.ofOutcome], whole⟩)
    · exact .inr (.inr (by rw [now, failed, Phase.ofOutcome]))
  · intro event s' p n step actor returned pos
    -- either way the process has run a section of its call
    have ran : ∃ call i, s' = s.advance p call i := by
      rcases actor with ⟨call, rfl⟩ | rfl
      · simp only [system] at step
        split at step
        · cases step
        · exact ⟨call, 0, (Option.some.inj step).symm⟩
      · simp only [system] at step
        split at step
        next call i _ => exact ⟨call, i, (Option.some.inj step).symm⟩
        · cases step
    obtain ⟨call, i, rfl⟩ := ran
    rw [procs_advance] at returned
    cases outcome : (call.run (s.killed p) i s.pipe).2.2 with
    | sleeps i => rw [outcome] at returned; cases returned
    | fails => rw [outcome] at returned; cases returned
    | returns val =>
      rw [outcome] at returned
      cases returned
      obtain ⟨empty, closed⟩ := piperead_zero pos outcome
      exact ⟨of_decide_eq_true empty, closed⟩

/-- The counters wrap around between the two bytes that are stored. -/
theorem pipe_fifo_wraps : ∃ s : State Unit, s.pipe.nwrite = 1 ∧ s.pipe.nread = 0 ∧ s.taken = [7] ∧
    s.stored = [7, 8] ∧ s.pipe.contents = [8] ∧ s.taken <+: s.stored := by
  let first : State Unit :=
    ⟨⟨fun _ => 0, 4294967295, 4294967295, true, true⟩, fun _ => .idle, fun _ => false, [], []⟩
  let write : Call := .write (fun i => UInt8.ofNat (7 + i)) 2
  have start : (system Unit).Reachable (fun _ _ => True) first := .initial ⟨rfl, fun _ => rfl, rfl, rfl⟩
  have wrote : (system Unit).Reachable (fun _ _ => True) (first.advance () write 0) :=
    .step (.call () write) start trivial rfl
  have outcome : (write.run false 0 first.pipe).2.2 = .returns 2 := by decide
  have back : (first.advance () write 0).procs () = .returned write 2 := by
    rw [procs_advance, outcome, Phase.ofOutcome]
  have read : (system Unit).Reachable (fun _ _ => True) ((first.advance () write 0).advance () (.read 1) 0) := by
    refine .step (.call () (.read 1)) wrote trivial ?_
    simp only [system, back]
  exact ⟨_, by decide, by decide, by decide, by decide, by decide, (pipe_fifo read).2.2.1⟩

end Xv6Simplesh.Ipc
