import Mathlib.Data.List.ReduceOption
import Xv6Simplesh.Library.Counting
import Xv6Simplesh.Library.LinkedLists
import Xv6Simplesh.Library.Runs
import Xv6Simplesh.Param

/-! # The buffer cache

`bio.c` with processes that read, write and release buffers in any order.  What is done
under `bcache.lock` is one step; a process that waits for the sleep lock of a buffer or for
the disk has the next step when it goes on.  All blocks are on one device, as in the file
system.  The contents of the buffers are left out.
-/

namespace Xv6Simplesh.Bio

open Library Function

abbrev nbuf : Nat := maxOpBlocks * 3

abbrev rootDev : Nat := 1

structure Buf (Pid : Type) where
  dev : Nat
  blockno : Nat
  refcnt : Nat
  /-- `B_VALID`. -/
  valid : Bool
  /-- `B_DIRTY`. -/
  dirty : Bool
  /-- The process that holds the sleep lock. -/
  holder : Option Pid

inductive Doing where
  | ready
  /-- In `bget`, before `acquiresleep` returns. -/
  | locking (b : Fin nbuf)
  /-- In the `iderw` of `bread`. -/
  | reading (b : Fin nbuf)
  /-- In the `iderw` of `bwrite`. -/
  | writing (b : Fin nbuf)
  /-- In `brelse`, after `releasesleep`. -/
  | releasing (b : Fin nbuf)
deriving DecidableEq, Repr

structure Proc where
  /-- The buffers that `bread` has returned and that have not been released. -/
  held : List (Fin nbuf)
  doing : Doing

structure State (Pid : Type) where
  bufs : Fin nbuf → Buf Pid
  /-- The list through `next` and `prev`; `none` is `bcache.head`. -/
  links : Links (Option (Fin nbuf))
  procs : Pid → Proc

variable {Pid : Type}

namespace State

def setBuf (s : State Pid) (b : Fin nbuf) (buf : Buf Pid) : State Pid :=
  { s with bufs := update s.bufs b buf }

/-- The buffers in the order of the list, forwards. -/
def forward (s : State Pid) : Option (List (Fin nbuf)) :=
  (Links.traverse none s.links.next nbuf (s.links.next none)).map List.reduceOption

/-- The buffers in the order of the list, backwards. -/
def backward (s : State Pid) : Option (List (Fin nbuf)) :=
  (Links.traverse none s.links.prev nbuf (s.links.prev none)).map List.reduceOption

/-- The section of `bget`; `none` if it panics, or if a loop over the list does not end. -/
def bget (s : State Pid) (dev blockno : Nat) : Option (Fin nbuf × State Pid) :=
  s.forward.bind fun order =>
    match order.find? fun b => (s.bufs b).dev = dev ∧ (s.bufs b).blockno = blockno with
    | some b => some (b, s.setBuf b { s.bufs b with refcnt := (s.bufs b).refcnt + 1 })
    | none =>
      s.backward.bind fun order =>
        match order.find? fun b => (s.bufs b).refcnt = 0 ∧ (s.bufs b).dirty = false with
        | some b =>
          some (b, s.setBuf b { s.bufs b with dev, blockno, valid := false, dirty := false, refcnt := 1 })
        | none => none

/-- The section of `brelse`. -/
def unref (s : State Pid) (b : Fin nbuf) : State Pid :=
  let s := s.setBuf b { s.bufs b with refcnt := (s.bufs b).refcnt - 1 }
  if (s.bufs b).refcnt = 0 then { s with links := (s.links.unlink (some b)).push none (some b) } else s

variable [DecidableEq Pid]

def setProc (s : State Pid) (p : Pid) (held : List (Fin nbuf)) (doing : Doing) : State Pid :=
  { s with procs := update s.procs p ⟨held, doing⟩ }

/-- `bget` goes on with the lock: `bread` returns the buffer or reads it first. -/
def locked (s : State Pid) (p : Pid) (b : Fin nbuf) : State Pid :=
  let s := s.setBuf b { s.bufs b with holder := some p }
  if (s.bufs b).valid then s.setProc p (b :: (s.procs p).held) .ready
  else s.setProc p (s.procs p).held (.reading b)

/-- The disk is done with the buffer. -/
def synced (s : State Pid) (b : Fin nbuf) : State Pid :=
  s.setBuf b { s.bufs b with valid := true, dirty := false }

end State

inductive Event (Pid : Type) where
  /-- A process calls `bread`. -/
  | bread (p : Pid) (blockno : Nat)
  /-- It gets the lock that it waits for. -/
  | acquire (p : Pid)
  /-- `ideintr` for the buffer that the process waits for. -/
  | complete (p : Pid)
  | bwrite (p : Pid) (b : Fin nbuf)
  | logWrite (p : Pid) (b : Fin nbuf)
  | brelse (p : Pid) (b : Fin nbuf)
  /-- The section of `brelse`. -/
  | unref (p : Pid)

variable [DecidableEq Pid]

/-- A buffer is used only between `bread` and `brelse`. -/
def State.step (s : State Pid) : Event Pid → Option (State Pid)
  | .bread p blockno =>
    if (s.procs p).doing = .ready then
      (s.bget rootDev blockno).map fun (b, s) => s.setProc p (s.procs p).held (.locking b)
    else none
  | .acquire p =>
    match (s.procs p).doing with
    | .locking b => if (s.bufs b).holder = none then some (s.locked p b) else none
    | _ => none
  | .complete p =>
    match (s.procs p).doing with
    | .reading b => some ((s.synced b).setProc p (b :: (s.procs p).held) .ready)
    | .writing b => some ((s.synced b).setProc p (s.procs p).held .ready)
    | _ => none
  | .bwrite p b =>
    if (s.procs p).doing = .ready ∧ b ∈ (s.procs p).held ∧ (s.bufs b).holder = some p then
      some ((s.setBuf b { s.bufs b with dirty := true }).setProc p (s.procs p).held (.writing b))
    else none
  | .logWrite p b =>
    if (s.procs p).doing = .ready ∧ b ∈ (s.procs p).held then some (s.setBuf b { s.bufs b with dirty := true })
    else none
  | .brelse p b =>
    if (s.procs p).doing = .ready ∧ b ∈ (s.procs p).held ∧ (s.bufs b).holder = some p then
      some ((s.setBuf b { s.bufs b with holder := none }).setProc p ((s.procs p).held.erase b) (.releasing b))
    else none
  | .unref p =>
    match (s.procs p).doing with
    | .releasing b => some ((s.unref b).setProc p (s.procs p).held .ready)
    | _ => none

/-- The links that `binit` makes. -/
def binit : Links (Option (Fin nbuf)) :=
  (List.finRange nbuf).foldl (fun links b => links.push none (some b)) ⟨fun _ => none, fun _ => none⟩

variable (Pid) in
def system : System (State Pid) (Event Pid) where
  initial s := (∀ b, s.bufs b = ⟨0, 0, 0, false, false, none⟩) ∧ s.links = binit ∧ ∀ p, s.procs p = ⟨[], .ready⟩
  step := State.step

/-! ## Holders and waiters -/

/-- Whether the call that the process is in counts for the buffer, beside those it holds. -/
def Doing.uses (b : Fin nbuf) : Doing → Nat
  | locking other | reading other | releasing other => if other = b then 1 else 0
  | ready | writing _ => 0

def Proc.uses (b : Fin nbuf) (proc : Proc) : Nat := proc.held.count b + proc.doing.uses b

/-- How many processes hold the buffer or wait for it, those in `brelse` included. -/
def State.users [Fintype Pid] (s : State Pid) (b : Fin nbuf) : Nat := ∑ p, (s.procs p).uses b

variable {s s' : State Pid} {p : Pid} {b : Fin nbuf}

theorem users_setProc [Fintype Pid] (s : State Pid) (p : Pid) (held : List (Fin nbuf)) (doing : Doing)
    (b : Fin nbuf) :
    (s.setProc p held doing).users b + (s.procs p).uses b = s.users b + (⟨held, doing⟩ : Proc).uses b :=
  sum_update_add s.procs (fun proc => proc.uses b) p ⟨held, doing⟩

/-! ## The list -/

/-- The links in both directions are a list of all buffers. -/
def Ring (links : Links (Option (Fin nbuf))) (order : List (Fin nbuf)) : Prop :=
  order.Perm (List.finRange nbuf) ∧ links.Segment none (order.map some) none

namespace Ring

variable {links : Links (Option (Fin nbuf))} {order : List (Fin nbuf)}

section

variable (ring : Ring links order)

include ring

theorem mem (b : Fin nbuf) : b ∈ order := ring.1.mem_iff.mpr (List.mem_finRange b)

theorem nodup : order.Nodup := ring.1.nodup_iff.mpr (List.nodup_finRange nbuf)

theorem length : order.length = nbuf := by
  rw [ring.1.length_eq, List.length_finRange]

theorem traverse_next : Links.traverse none links.next nbuf (links.next none) = some (order.map some) :=
  ring.2.traverse_next (by simp) (by rw [List.length_map, ring.length])

theorem traverse_prev : Links.traverse none links.prev nbuf (links.prev none) = some (order.reverse.map some) := by
  rw [ring.2.traverse_prev (by simp) (by rw [List.length_map, ring.length]), List.map_reverse]

/-- The list after `brelse` has moved a buffer to its front. -/
theorem move (b : Fin nbuf) : Ring ((links.unlink (some b)).push none (some b)) (b :: order.erase b) := by
  obtain ⟨before, after, split⟩ := List.append_of_mem (ring.mem b)
  have distinct := ring.nodup
  have segment := ring.2
  subst split
  have absent : b ∉ before := by
    rw [List.nodup_append] at distinct
    exact fun member => distinct.2.2 b member b (List.mem_cons_self ..) rfl
  rw [List.map_append, List.map_cons, Links.segment_append] at segment
  have rest : (before ++ b :: after).erase b = before ++ after := by
    rw [List.erase_append_right _ absent, List.erase_cons_head]
  have distinct' : ((none : Option (Fin nbuf)) :: (before.map some ++ some b :: after.map some)).Nodup := by
    have nodes := distinct.map (Option.some_injective (Fin nbuf))
    rw [List.map_append, List.map_cons] at nodes
    rw [List.nodup_cons]
    exact ⟨by simp, nodes⟩
  have out := segment.1.unlink segment.2 distinct' (by simp)
  have kept : (before ++ after).Nodup ∧ b ∉ before ++ after := by
    rw [← rest]
    exact ⟨distinct.erase b, List.Nodup.not_mem_erase distinct⟩
  refine ⟨?_, ?_⟩
  · exact (List.perm_cons_erase (ring.mem b)).symm.trans ring.1
  · rw [rest, List.map_cons, List.map_append]
    apply out.push
    · rw [List.nodup_cons, ← List.map_append]
      exact ⟨by simp, kept.1.map (Option.some_injective _)⟩
    · rw [← List.map_append]
      simp only [List.mem_cons, List.mem_map, reduceCtorEq, Option.some.injEq, exists_eq_right, false_or]
      exact kept.2

end

end Ring

theorem ring_binit : ∃ order, Ring binit order := by
  -- the buffers linked so far are those of the list that the loop has passed
  have linked : ∀ (bs done : List (Fin nbuf)) (links : Links (Option (Fin nbuf))), (bs ++ done).Nodup →
      links.Segment none (done.map some) none →
      (bs.foldl (fun links b => links.push none (some b)) links).Segment none ((bs.reverse ++ done).map some) none := by
    intro bs
    induction bs with
    | nil => exact fun done links _ segment => segment
    | cons b bs ih =>
      intro done links distinct segment
      rw [List.cons_append, List.nodup_cons, List.mem_append, not_or] at distinct
      have distinct' : (bs ++ b :: done).Nodup := List.nodup_middle.mpr (List.nodup_cons.mpr
        ⟨by rw [List.mem_append, not_or]; exact distinct.1, distinct.2⟩)
      have pushed : (links.push none (some b)).Segment none ((b :: done).map some) none := by
        apply segment.push
        · rw [List.nodup_cons]
          exact ⟨by simp, (List.Nodup.of_append_right distinct.2).map (Option.some_injective _)⟩
        · simpa using distinct.1.2
      have rest := ih (b :: done) _ distinct' pushed
      rwa [List.reverse_cons, List.append_assoc]
  refine ⟨(List.finRange nbuf).reverse, List.reverse_perm _, ?_⟩
  have all := linked (List.finRange nbuf) [] ⟨fun _ => none, fun _ => none⟩
    (by rw [List.append_nil]; exact List.nodup_finRange nbuf) ⟨rfl, rfl⟩
  rwa [List.append_nil] at all

/-! ## Runs -/

variable [Fintype Pid]

omit [DecidableEq Pid] [Fintype Pid] in
theorem field_update {Value : Type} (field : Buf Pid → Value) {bufs : Fin nbuf → Buf Pid} {buf : Buf Pid}
    (same : field buf = field (bufs b)) (other : Fin nbuf) :
    field (update bufs b buf other) = field (bufs other) := by
  by_cases this : other = b
  · rw [this, update_self, same]
  · rw [update_of_ne this]

structure Inv (s : State Pid) : Prop where
  ring : ∃ order, Ring s.links order
  refcnt : ∀ b, (s.bufs b).refcnt = s.users b
  unique : ∀ b b', (s.bufs b).dev = rootDev → (s.bufs b').dev = (s.bufs b).dev →
    (s.bufs b').blockno = (s.bufs b).blockno → b' = b

omit [DecidableEq Pid] in
/-- The blocks of the buffers and their counts stay as they are. -/
theorem Inv.keep (inv : Inv s) (links : s'.links = s.links) (dev : ∀ b, (s'.bufs b).dev = (s.bufs b).dev)
    (blockno : ∀ b, (s'.bufs b).blockno = (s.bufs b).blockno)
    (refcnt : ∀ b, (s'.bufs b).refcnt = (s.bufs b).refcnt) (users : ∀ b, s'.users b = s.users b) : Inv s' := by
  refine ⟨?_, fun b => ?_, fun b b' root sameDev sameBlock => ?_⟩
  · rw [links]
    exact inv.ring
  · rw [refcnt, users, inv.refcnt]
  · rw [dev] at root
    rw [dev, dev] at sameDev
    rw [blockno, blockno] at sameBlock
    exact inv.unique b b' root sameDev sameBlock

/-- A process goes on in its call, with other flags or another lock of one buffer. -/
theorem Inv.setProc (inv : Inv s) {buf : Buf Pid} {held : List (Fin nbuf)} {doing : Doing}
    (dev : buf.dev = (s.bufs b).dev) (blockno : buf.blockno = (s.bufs b).blockno)
    (refcnt : buf.refcnt = (s.bufs b).refcnt)
    (uses : ∀ other, (⟨held, doing⟩ : Proc).uses other = (s.procs p).uses other) :
    Inv ((s.setBuf b buf).setProc p held doing) := by
  refine inv.keep rfl (field_update Buf.dev dev) (field_update Buf.blockno blockno)
    (field_update Buf.refcnt refcnt) fun other => ?_
  have sum := users_setProc (s.setBuf b buf) p held doing other
  rw [uses] at sum
  exact Nat.add_right_cancel sum

/-- A process takes a buffer, whose count goes up by one. -/
theorem users_take (ready : (s.procs p).doing = .ready) (other : Fin nbuf) :
    (s.setProc p (s.procs p).held (.locking b)).users other = s.users other + if other = b then 1 else 0 := by
  have sum := users_setProc s p (s.procs p).held (.locking b) other
  simp only [Proc.uses, ready, Doing.uses, eq_comm (a := b)] at sum
  omega

omit [DecidableEq Pid] in
/-- `bget` finds the buffer of the block, or takes one that is not in use for it. -/
theorem bget_spec (inv : Inv s) {blockno : Nat} (got : s.bget rootDev blockno = some (b, s')) :
    s'.links = s.links ∧ s'.procs = s.procs ∧ ∃ buf, s'.bufs = update s.bufs b buf ∧
      buf.refcnt = (s.bufs b).refcnt + 1 ∧
      (buf.dev = (s.bufs b).dev ∧ buf.blockno = (s.bufs b).blockno ∨
        (s.bufs b).refcnt = 0 ∧ (s.bufs b).dirty = false ∧ buf.dev = rootDev ∧ buf.blockno = blockno ∧
        ∀ other, ¬ ((s.bufs other).dev = rootDev ∧ (s.bufs other).blockno = blockno)) := by
  obtain ⟨order, ring⟩ := inv.ring
  have forward : s.forward = some order := by
    rw [State.forward, ring.traverse_next, Option.map_some]
    simp [List.reduceOption]
  simp only [State.bget, forward, Option.bind_some] at got
  split at got
  next b' found =>
    simp only [Option.some.injEq, Prod.mk.injEq] at got
    obtain ⟨rfl, rfl⟩ := got
    exact ⟨rfl, rfl, _, rfl, rfl, .inl ⟨rfl, rfl⟩⟩
  next missing =>
    obtain ⟨backward, -, got⟩ := Option.bind_eq_some_iff.mp got
    split at got
    next b' found =>
      simp only [Option.some.injEq, Prod.mk.injEq] at got
      obtain ⟨rfl, rfl⟩ := got
      have free := List.find?_some found
      simp only [Bool.decide_and, Bool.and_eq_true, decide_eq_true_eq] at free
      refine ⟨rfl, rfl, _, rfl, by rw [free.1], .inr ⟨free.1, free.2, rfl, rfl, fun other => ?_⟩⟩
      have absent := List.find?_eq_none.mp missing other (ring.mem other)
      simpa using absent
    · cases got

theorem Inv.bread (inv : Inv s) {blockno : Nat} (ready : (s.procs p).doing = .ready)
    (got : s.bget rootDev blockno = some (b, s')) : Inv (s'.setProc p (s'.procs p).held (.locking b)) := by
  obtain ⟨links, procs, buf, bufs, refcnt, block⟩ := bget_spec inv got
  have users : ∀ other, s'.users other = s.users other := fun other => by rw [State.users, procs]; rfl
  refine ⟨?_, fun other => ?_, ?_⟩
  · simp only [State.setProc, links]
    exact inv.ring
  · rw [users_take (by rw [procs, ready]), users, ← inv.refcnt]
    simp only [State.setProc, bufs]
    by_cases same : other = b
    · rw [same, update_self, refcnt, if_pos rfl]
    · rw [update_of_ne same, if_neg same, Nat.add_zero]
  · intro first snd root sameDev sameBlock
    simp only [State.setProc, bufs] at root sameDev sameBlock
    rcases block with ⟨dev, number⟩ | ⟨-, -, dev, number, absent⟩
    · -- the block was in the cache
      rw [field_update Buf.dev dev] at root
      rw [field_update Buf.dev dev, field_update Buf.dev dev] at sameDev
      rw [field_update Buf.blockno number, field_update Buf.blockno number] at sameBlock
      exact inv.unique first snd root sameDev sameBlock
    · by_cases here : first = b
      · subst here
        by_contra ne
        rw [update_self, update_of_ne ne] at sameDev sameBlock
        exact absent snd ⟨sameDev.trans dev, sameBlock.trans number⟩
      · by_cases there : snd = b
        · subst there
          rw [update_of_ne here] at root sameDev sameBlock
          rw [update_self] at sameDev sameBlock
          exact absurd ⟨root, sameBlock.symm.trans number⟩ (absent first)
        · rw [update_of_ne here] at root sameDev sameBlock
          rw [update_of_ne there] at sameDev sameBlock
          exact inv.unique first snd root sameDev sameBlock

omit [DecidableEq Pid] [Fintype Pid] in
theorem unref_spec (s : State Pid) (b : Fin nbuf) :
    (s.unref b).procs = s.procs ∧
      ((s.unref b).links = s.links ∨ (s.unref b).links = (s.links.unlink (some b)).push none (some b)) ∧
      ∃ buf, (s.unref b).bufs = update s.bufs b buf ∧ buf.refcnt = (s.bufs b).refcnt - 1 ∧
        buf.dev = (s.bufs b).dev ∧ buf.blockno = (s.bufs b).blockno := by
  unfold State.unref
  dsimp only
  by_cases last : ((s.setBuf b { s.bufs b with refcnt := (s.bufs b).refcnt - 1 }).bufs b).refcnt = 0
  · rw [if_pos last]
    exact ⟨rfl, .inr rfl, _, rfl, rfl, rfl, rfl⟩
  · rw [if_neg last]
    exact ⟨rfl, .inl rfl, _, rfl, rfl, rfl, rfl⟩

theorem Inv.unref (inv : Inv s) (releasing : (s.procs p).doing = .releasing b) :
    Inv ((s.unref b).setProc p (s.procs p).held .ready) := by
  obtain ⟨procs, links, buf, bufs, refcnt, dev, blockno⟩ := unref_spec s b
  refine ⟨?_, fun other => ?_, fun first snd root sameDev sameBlock => ?_⟩
  · obtain ⟨order, ring⟩ := inv.ring
    simp only [State.setProc]
    rcases links with links | links
    · rw [links]
      exact ⟨order, ring⟩
    · rw [links]
      exact ⟨_, ring.move b⟩
  · have sum := users_setProc (s.unref b) p (s.procs p).held .ready other
    have users : (s.unref b).users other = s.users other := by rw [State.users, procs]; rfl
    simp only [procs, users, Proc.uses, releasing, Doing.uses, ← inv.refcnt] at sum
    simp only [State.setProc, bufs] at sum ⊢
    by_cases same : other = b
    · rw [same, update_self, refcnt]
      rw [same, if_pos rfl] at sum
      omega
    · rw [update_of_ne same]
      rw [if_neg (Ne.symm same)] at sum
      omega
  · simp only [State.setProc, bufs] at root sameDev sameBlock
    rw [field_update Buf.dev dev] at root
    rw [field_update Buf.dev dev, field_update Buf.dev dev] at sameDev
    rw [field_update Buf.blockno blockno, field_update Buf.blockno blockno] at sameBlock
    exact inv.unique first snd root sameDev sameBlock

/-- What a step can do. -/
inductive Effect (s : State Pid) : State Pid → Prop where
  /-- A process goes on, with the flags or the lock of a buffer changed. -/
  | keeps (p : Pid) (b : Fin nbuf) (buf : Buf Pid) (held : List (Fin nbuf)) (doing : Doing)
      (dev : buf.dev = (s.bufs b).dev) (blockno : buf.blockno = (s.bufs b).blockno)
      (refcnt : buf.refcnt = (s.bufs b).refcnt)
      (uses : ∀ other, (⟨held, doing⟩ : Proc).uses other = (s.procs p).uses other) :
      Effect s ((s.setBuf b buf).setProc p held doing)
  | takes (p : Pid) (blockno : Nat) (b : Fin nbuf) (middle : State Pid) (ready : (s.procs p).doing = .ready)
      (got : s.bget rootDev blockno = some (b, middle)) :
      Effect s (middle.setProc p (middle.procs p).held (.locking b))
  | drops (p : Pid) (b : Fin nbuf) (releasing : (s.procs p).doing = .releasing b) :
      Effect s ((s.unref b).setProc p (s.procs p).held .ready)

omit [Fintype Pid] in
theorem effect_of_step {event : Event Pid} (taken : s.step event = some s') : Effect s s' := by
  cases event with
  | bread p blockno =>
    simp only [State.step] at taken
    split at taken
    next ready =>
      obtain ⟨⟨b, middle⟩, got, rfl⟩ := Option.map_eq_some_iff.mp taken
      exact .takes p blockno b middle ready got
    · cases taken
  | acquire p =>
    simp only [State.step] at taken
    split at taken
    next b doing =>
      split at taken
      · cases taken
        unfold State.locked
        dsimp only
        split
        · refine .keeps p b _ _ _ rfl rfl rfl fun other => ?_
          simp only [State.setBuf, Proc.uses, Doing.uses, doing, List.count_cons, beq_iff_eq]
          omega
        · refine .keeps p b _ _ _ rfl rfl rfl fun other => ?_
          simp only [State.setBuf, Proc.uses, Doing.uses, doing]
      · cases taken
    · cases taken
  | complete p =>
    simp only [State.step] at taken
    split at taken
    next b doing =>
      cases taken
      refine .keeps p b _ _ _ rfl rfl rfl fun other => ?_
      simp only [Proc.uses, Doing.uses, doing, List.count_cons, beq_iff_eq]
      omega
    next b doing =>
      cases taken
      refine .keeps p b _ _ _ rfl rfl rfl fun other => ?_
      simp only [Proc.uses, Doing.uses, doing]
    · cases taken
  | bwrite p b =>
    simp only [State.step] at taken
    split at taken
    next may =>
      cases taken
      refine .keeps p b _ _ _ rfl rfl rfl fun other => ?_
      simp only [Proc.uses, Doing.uses, may.1]
    · cases taken
  | logWrite p b =>
    simp only [State.step] at taken
    split at taken
    next may =>
      cases taken
      have same : (s.setBuf b { s.bufs b with dirty := true }).setProc p (s.procs p).held (s.procs p).doing =
          s.setBuf b { s.bufs b with dirty := true } := by
        simp only [State.setProc, State.setBuf, update_eq_self]
      rw [← same]
      exact .keeps p b _ _ _ rfl rfl rfl fun _ => rfl
    · cases taken
  | brelse p b =>
    simp only [State.step] at taken
    split at taken
    next may =>
      cases taken
      refine .keeps p b _ _ _ rfl rfl rfl fun other => ?_
      have held := List.count_pos_iff.mpr may.2.1
      simp only [Proc.uses, Doing.uses, may.1, List.count_erase, beq_iff_eq]
      by_cases same : b = other
      · rw [if_pos same, ← same]
        omega
      · rw [if_neg same]
        omega
    · cases taken
  | unref p =>
    simp only [State.step] at taken
    split at taken
    next b doing =>
      cases taken
      exact .drops p b doing
    · cases taken

theorem inv_of_reachable (reach : (system Pid).Reachable (fun _ _ => True) s) : Inv s := by
  refine reach.invariant Inv ?_ ?_
  · intro s start
    obtain ⟨bufs, links, procs⟩ := start
    refine ⟨?_, fun b => ?_, fun b b' root => ?_⟩
    · rw [links]
      exact ring_binit
    · rw [bufs, State.users, Finset.sum_eq_zero]
      intro p _
      rw [procs]
      rfl
    · rw [bufs] at root
      cases root
  · intro s event s' _ inv _ taken
    cases effect_of_step taken with
    | keeps p b buf held doing dev blockno refcnt uses => exact inv.setProc dev blockno refcnt uses
    | takes p blockno b middle ready got => exact inv.bread ready got
    | drops p b releasing => exact inv.unref releasing

/-- A step gives another block only to a buffer that is neither referenced nor dirty. -/
theorem block_of_step (inv : Inv s) {event : Event Pid} (taken : s.step event = some s')
    (busy : 0 < (s.bufs b).refcnt ∨ (s.bufs b).dirty) :
    (s'.bufs b).dev = (s.bufs b).dev ∧ (s'.bufs b).blockno = (s.bufs b).blockno := by
  cases effect_of_step taken with
  | keeps p c buf held doing dev blockno => exact ⟨field_update Buf.dev dev b, field_update Buf.blockno blockno b⟩
  | drops p c =>
    obtain ⟨-, -, buf, bufs, -, dev, blockno⟩ := unref_spec s c
    simp only [State.setProc, bufs]
    exact ⟨field_update Buf.dev dev b, field_update Buf.blockno blockno b⟩
  | takes p blockno c middle ready got =>
    obtain ⟨-, -, buf, bufs, -, block⟩ := bget_spec inv got
    simp only [State.setProc, bufs]
    rcases block with ⟨dev, number⟩ | ⟨unused, clean, -⟩
    · exact ⟨field_update Buf.dev dev b, field_update Buf.blockno number b⟩
    · have ne : b ≠ c := by
        rintro rfl
        rw [unused, clean] at busy
        simp at busy
      rw [update_of_ne ne]
      exact ⟨rfl, rfl⟩

/-- In every state that any number of processes reach: following `next` from the head leads
through all buffers and back, and following `prev` through the same in the opposite order; the
reference count of a buffer is the number of its holders and waiters; no two buffers hold one
block; and a buffer that is referenced or dirty keeps its block in the next step, whatever it is. -/
theorem buffers_unique (reach : (system Pid).Reachable (fun _ _ => True) s) :
    (∃ order : List (Fin nbuf), order.Perm (List.finRange nbuf) ∧
      Links.traverse none s.links.next nbuf (s.links.next none) = some (order.map some) ∧
      Links.traverse none s.links.prev nbuf (s.links.prev none) = some (order.reverse.map some)) ∧
    (∀ b, (s.bufs b).refcnt = s.users b) ∧
    (∀ b b', (s.bufs b).dev = rootDev → (s.bufs b').dev = (s.bufs b).dev →
      (s.bufs b').blockno = (s.bufs b).blockno → b' = b) ∧
    ∀ event s', (system Pid).step s event = some s' → ∀ b, 0 < (s.bufs b).refcnt ∨ (s.bufs b).dirty →
      (s'.bufs b).dev = (s.bufs b).dev ∧ (s'.bufs b).blockno = (s.bufs b).blockno := by
  have inv := inv_of_reachable reach
  obtain ⟨order, ring⟩ := inv.ring
  exact ⟨⟨order, ring.1, ring.traverse_next, ring.traverse_prev⟩, inv.refcnt, inv.unique,
    fun event s' taken b busy => block_of_step inv taken busy⟩

/-- Two processes read the same block; the second waits for the first. -/
theorem buffers_unique_shared : ∃ (s : State Bool) (b : Fin nbuf), (s.bufs b).blockno = 7 ∧
    (s.procs false).doing = .reading b ∧ (s.procs true).doing = .locking b ∧ (s.bufs b).refcnt = 2 ∧
    (s.bufs b).refcnt = s.users b := by
  let first : State Bool := ⟨fun _ => ⟨0, 0, 0, false, false, none⟩, binit, fun _ => ⟨[], .ready⟩⟩
  have start : (system Bool).Reachable (fun _ _ => True) first := .initial ⟨fun _ => rfl, rfl, fun _ => rfl⟩
  have ran : ∃ s, (system Bool).run (fun _ _ => true) first
      [.bread false 7, .acquire false, .bread true 7] = some s ∧ (s.bufs 0).blockno = 7 ∧
      (s.procs false).doing = .reading 0 ∧ (s.procs true).doing = .locking 0 ∧ (s.bufs 0).refcnt = 2 := by
    have evaluated : ((system Bool).run (fun _ _ => true) first [.bread false 7, .acquire false, .bread true 7]).any
        (fun s => (s.bufs 0).blockno = 7 ∧ (s.procs false).doing = .reading 0 ∧
          (s.procs true).doing = .locking 0 ∧ (s.bufs 0).refcnt = 2) = true := by decide +kernel
    obtain ⟨s, ran, facts⟩ := (Option.any_eq_true _ _).mp evaluated
    exact ⟨s, ran, of_decide_eq_true facts⟩
  obtain ⟨s, ran, block, reading, locking, two⟩ := ran
  have reach := System.reachable_of_run (fun _ _ _ => trivial) start ran
  exact ⟨s, 0, block, reading, locking, two, (buffers_unique reach).2.1 0⟩

end Xv6Simplesh.Bio
