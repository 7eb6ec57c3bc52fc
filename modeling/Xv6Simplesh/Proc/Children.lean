import Xv6Simplesh.Proc.Sound

/-! # Failed and successful forks

`fork` copies the pages below the size of the process, and takes a page that was never
touched for an error.  If the page table is missing too it panics; otherwise it returns -1
and loses what it has copied.  A process that has touched all of its pages is copied byte
for byte, and where memory runs out nothing is lost.  `nextpid` wraps around: the child that
gets the pid -1 is made, and `fork` returns -1 all the same.
-/

namespace Xv6Simplesh.Vm

open Library

/-! ## A failed fork -/

/-- The free pages are the same as before, and so are the size and the page tables of the
parent in slot `i`; no slot has got into use. -/
structure NoTrace (w w' : World) (i : Nat) : Prop where
  free : ∀ q, q ∈ w'.machine.freelist ↔ q ∈ w.machine.freelist
  sz : (w'.procs i).sz = (w.procs i).sz
  pgdir : (w'.procs i).pgdir = (w.procs i).pgdir
  table : ∀ d, (w.procs i).pgdir = some d → w'.machine.table d = w.machine.table d
  pte : ∀ d, (w.procs i).pgdir = some d → w'.machine.pte d = w.machine.pte d
  slots : ∀ j, (w'.procs j).state = (w.procs j).state ∨ (w'.procs j).state = .unused

/-- There is a slot, and memory for the kernel stack and for a copy up to the first page that
is absent. -/
def Leaks (w : World) (cur : Image) : Prop :=
  (∃ np < nproc, (w.procs np).state = .unused) ∧
    ∃ h < pageCount cur.sz, (∀ u < h, present (w.machine.pte cur.pgdir u)) ∧
      ¬ present (w.machine.pte cur.pgdir h) ∧ copyCost h + 1 ≤ w.machine.freelist.length

/-- There is a slot, and memory for all of the process, but the pid of the child is -1. -/
def Unreported (w : World) (cur : Image) : Prop :=
  w.nextpid = -1 ∧ (∃ np < nproc, (w.procs np).state = .unused) ∧
    (∀ v < pageCount cur.sz, present (w.machine.pte cur.pgdir v)) ∧
      copyCost (pageCount cur.sz) + 1 ≤ w.machine.freelist.length

section Failed

variable {k : Symbols} {w w' : World} {i c sz : Nat}

/-- What was taken from the free list and all given back. -/
theorem mem_freelist_iff {m m' : Machine} (within : Within k (· ∈ m.freelist) m m')
    (all : m'.freelist.length = m.freelist.length) (q : Nat) : q ∈ m'.freelist ↔ q ∈ m.freelist := by
  have sub := List.subperm_of_subset within.pool.nodup within.inside
  exact (sub.perm_of_length_le (Nat.le_of_eq all.symm)).mem_iff

/-- Where all free pages are still free, they are at least as many. -/
theorem length_le_of_free {m m' : Machine} (pool : Pool k m) (free : ∀ q ∈ m.freelist, q ∈ m'.freelist) :
    m.freelist.length ≤ m'.freelist.length :=
  (List.subperm_of_subset pool.nodup free).length_le

theorem noTrace_of_slot {np : Nat} (slot : (w.procs np).state = .unused) (running : (w.procs i).state = .running)
    (pgdir : (w.procs i).pgdir = some c) (kept : Kept w.machine w'.machine c)
    (free : ∀ q, q ∈ w'.machine.freelist ↔ q ∈ w.machine.freelist)
    (others : ∀ j, j ≠ np → w'.procs j = w.procs j) (after : (w'.procs np).state = .unused) : NoTrace w w' i := by
  have parent : w'.procs i = w.procs i := by
    apply others
    rintro rfl
    rw [slot] at running
    cases running
  refine ⟨free, by rw [parent], by rw [parent], ?_, ?_, ?_⟩
  · intro d same
    obtain rfl : c = d := Option.some.inj (pgdir.symm.trans same)
    exact kept.table
  · intro d same
    obtain rfl : c = d := Option.some.inj (pgdir.symm.trans same)
    exact kept.pte
  · intro j
    by_cases same : j = np
    · exact .inr (same ▸ after)
    · exact .inl (by rw [others j same])

/-- Neither exit is taken where there is no memory for the pages that are present. -/
theorem not_leaks_of_few {h : Nat} (inside : h ≤ pageCount sz) (there : ∀ u < h, present (w.machine.pte c u))
    (few : w.machine.freelist.length < copyCost h + 1) : ¬ (Leaks w ⟨c, sz⟩ ∨ Unreported w ⟨c, sz⟩) := by
  rintro (leaks | unreported)
  · obtain ⟨h', -, there', absent, enough⟩ := leaks.2
    -- all pages below `h` are present
    have later : h ≤ h' := Nat.le_of_not_lt fun before => absent (there h' before)
    have cost := copyCost_mono later
    omega
  · have cost := copyCost_mono inside
    have enough := unreported.2.2.2
    dsimp only at enough
    omega

theorem Forked.noTrace_iff (forked : Forked k w i c sz (.ok (-1, w'))) (space : Space k w.machine c)
    (user : sz ≤ kernbase) (running : (w.procs i).state = .running) (pgdir : (w.procs i).pgdir = some c) :
    NoTrace w w' i ↔ ¬ (Leaks w ⟨c, sz⟩ ∨ Unreported w ⟨c, sz⟩) := by
  generalize res : (-1 : Int) = val at forked
  cases forked with
  | full none =>
    refine iff_of_true ?_ ?_
    · exact ⟨fun _ => Iff.rfl, rfl, rfl, fun _ _ => rfl, fun _ _ => rfl, fun _ => .inl rfl⟩
    · rintro (⟨⟨np, slot, unused⟩, -⟩ | ⟨-, ⟨np, slot, unused⟩, -⟩) <;> exact none np slot unused
  | noStack slot unused empty machine others after =>
    refine iff_of_true (noTrace_of_slot unused running pgdir ?_ ?_ others after) ?_
    · rw [machine]
      exact ⟨rfl, rfl, rfl⟩
    · rw [machine]
      exact fun _ => Iff.rfl
    · refine not_leaks_of_few (h := 0) (Nat.zero_le _) nofun ?_
      rw [empty]
      exact Nat.succ_pos _
  | @failed np s rest m' _ slot unused free copied machine others after =>
    have within := copied.within
    have kept : Kept w.machine w'.machine c := by
      refine kept_of_bytes fun q held => ?_
      have taken : q ∉ s :: rest := free ▸ space.apart held
      have other : q ≠ s := fun same => taken (same ▸ List.mem_cons_self)
      rw [machine, m'.mem_push_of_ne other]
      exact within.outside q fun mem => taken (List.mem_cons_of_mem s mem)
    cases copied with
    | @hole h _ inside there table absent enough _ lost =>
      have leaks : Leaks w ⟨c, sz⟩ := by
        refine ⟨⟨np, slot, unused⟩, h, inside, there, absent, ?_⟩
        rw [free]
        exact Nat.succ_le_succ enough
      refine iff_of_false (fun noTrace => ?_) (not_not.mpr (.inl leaks))
      have longer := length_le_of_free space.toPool fun q mem => (noTrace.free q).mpr mem
      rw [machine, Machine.freelist_push, free, List.length_cons, List.length_cons] at longer
      dsimp only at lost
      omega
    | @noMemory h _ inside there few _ all =>
      refine iff_of_true (noTrace_of_slot unused running pgdir kept ?_ others after) (not_leaks_of_few inside there ?_)
      · intro q
        rw [machine, Machine.freelist_push, free, List.mem_cons, List.mem_cons, mem_freelist_iff within all]
      · rw [free]
        exact Nat.succ_lt_succ few
  | @child np s d rest m' _ slot unused free copied machine others state pgdir' kstack size =>
    cases copied with
    | done copying =>
      refine iff_of_false (fun noTrace => ?_) (not_not.mpr (.inr ⟨res.symm, ⟨np, slot, unused⟩, copying.there, ?_⟩))
      · rcases noTrace.slots np with same | same <;> rw [state] at same
        · exact absurd (same.trans unused) (by decide)
        · cases same
      · have cost := copying.length (pageCount_le user)
        rw [free, List.length_cons]
        dsimp only at cost ⊢
        omega

end Failed

/-- In every state that a run with arguments below 32 MB reaches, a `fork` that returns -1
leaves no trace if and only if it neither comes to a page that is absent nor makes the child
with the pid -1. -/
theorem fork_noTrace_iff {k : Symbols} {w w' : World} (reach : (processes k).Reachable ShortArgs w) {i : Nat}
    (inside : i < nproc) (running : (w.procs i).state = .running) {cur : Image} (image : w.image i = some cur)
    (ran : fork k w i cur = .ok (-1, w')) : NoTrace w w' i ↔ ¬ (Leaks w cur ∨ Unreported w cur) := by
  obtain ⟨d, s, seated, rfl⟩ := (sound_of_reachable reach).running inside running image
  have user : (w.procs i).sz ≤ kernbase := Nat.le_of_lt (bounded_of_reachable reach i)
  have forked := fork_forked (i := i) seated.space user
  rw [ran] at forked
  exact forked.noTrace_iff seated.space user running seated.pgdir

/-- The first program grows by a page that it does not touch. -/
theorem untouched_reachable : ∃ w d, (processes smallKernel).Reachable ShortArgs w ∧ (w.procs 0).state = .running ∧
    w.image 0 = some ⟨d, 12288⟩ ∧ (w.procs 1).state = .unused ∧ Space smallKernel w.machine d ∧
    (∀ v < userPages, present (w.machine.pte d v) ↔ v < 2) ∧ 0xC000 ≤ w.machine.freelist.length := by
  obtain ⟨w, d, s, reach, runs⟩ := programRuns_reachable smallKernel (by decide)
  have grown : sysSbrk smallKernel w.machine ⟨d, 8192⟩ 4096 = .ok (8192, ⟨d, 12288⟩, w.machine) := by
    have pos : ¬ (4096 : Int32) < 0 := by decide
    have number : (4096 : Int32).toInt = 4096 := by decide
    simp [sysSbrk, pos, number, kernbase]
  refine ⟨w.setProc 0 { w.procs 0 with sz := 12288 }, d, ?_, ?_, ?_, ?_, runs.space, fun v low => runs.present_iff low,
    runs.free⟩
  · refine .step (.call 0 (.sbrk 4096)) (shortArgs_of_confined reach) trivial ?_
    simp [processes, runs.init, runs.image, perform, grown, nproc, bind, Except.bind, Except.toOption, World.setProc]
  · simp [World.setProc, runs.init]
  · simp [World.image, World.setProc, runs.init]
  · simp [World.setProc, runs.slot]

/-- `fork` of a process of three pages whose third page is absent. -/
theorem fork_untouched {k : Symbols} {w : World} {d : Nat} (space : Space k w.machine d)
    (slot : (w.procs 1).state = .unused) (pages : ∀ v < userPages, present (w.machine.pte d v) ↔ v < 2)
    (free : 0xC000 ≤ w.machine.freelist.length) :
    Leaks w ⟨d, 12288⟩ ∧ ∃ w', fork k w 0 ⟨d, 12288⟩ = .ok (-1, w') ∧
      w'.machine.freelist.length < w.machine.freelist.length := by
  have below : ∀ u < 2, present (w.machine.pte d u) := fun u low =>
    (pages u (Nat.lt_trans low (by decide))).mpr low
  have third : ¬ present (w.machine.pte d 2) := fun there => absurd ((pages 2 (by decide)).mp there) (by decide)
  have cost : copyCost 3 = 69 := by decide
  have count : pageCount 12288 = 3 := by decide
  refine ⟨⟨⟨1, by decide, slot⟩, 2, (by decide : 2 < pageCount 12288), below, third, ?_⟩, ?_⟩
  · exact Nat.le_trans (by decide) free
  have forked := fork_forked (i := 0) space (by decide : 12288 ≤ kernbase)
  obtain ⟨res, ran⟩ : ∃ res, fork k w 0 ⟨d, 12288⟩ = res := ⟨_, rfl⟩
  rw [ran] at forked ⊢
  cases forked with
  | full none => exact absurd slot (none 1 (by decide))
  | noStack slot unused empty machine others after =>
    rw [empty] at free
    cases free
  | @failed np s rest m' w' slot unused list copied machine others after =>
    refine ⟨w', rfl, ?_⟩
    rw [list, List.length_cons] at free
    cases copied with
    | hole inside there table absent enough within lost =>
      rw [machine, Machine.freelist_push, list, List.length_cons, List.length_cons]
      exact Nat.succ_lt_succ lost
    | @noMemory h _ inside there few within all =>
      have limit := copyCost_mono inside
      rw [count, cost] at limit
      dsimp only at few
      omega
  | @panicked np s rest panic slot unused list copied =>
    cases copied with
    | @noTable h inside there absent enough =>
      -- the first page table is there
      have row : h / nptentries = 0 / nptentries := by
        rw [count] at inside
        dsimp only [nptentries]
        omega
      obtain ⟨t, found⟩ := table_of_present (below 0 (by decide))
      rw [row] at absent
      exact absurd (absent.symm.trans found) nofun
  | child slot unused list copied machine others state pgdir kstack size =>
    cases copied with
    | done copying => exact absurd (copying.there 2 (by decide)) third

/-- A page that was not touched: `fork` returns -1, and a page is missing from the free list. -/
theorem fork_leaves_trace : ∃ w d w', (processes smallKernel).Reachable ShortArgs w ∧
    (w.procs 0).state = .running ∧ w.image 0 = some ⟨d, 12288⟩ ∧ fork smallKernel w 0 ⟨d, 12288⟩ = .ok (-1, w') ∧
    ∃ q ∈ w.machine.freelist, q ∉ w'.machine.freelist := by
  obtain ⟨w, d, reach, running, image, slot, space, pages, free⟩ := untouched_reachable
  obtain ⟨-, w', ran, lost⟩ := fork_untouched space slot pages free
  refine ⟨w, d, w', reach, running, image, ran, ?_⟩
  by_contra none
  simp only [not_exists, not_and, not_not] at none
  exact Nat.not_lt.mpr (length_le_of_free space.toPool none) lost

theorem fork_noTrace_untouched : ∃ w d w', (processes smallKernel).Reachable ShortArgs w ∧
    w.image 0 = some ⟨d, 12288⟩ ∧ fork smallKernel w 0 ⟨d, 12288⟩ = .ok (-1, w') ∧
    Leaks w ⟨d, 12288⟩ ∧ ¬ NoTrace w w' 0 := by
  obtain ⟨w, d, reach, running, image, slot, space, pages, free⟩ := untouched_reachable
  obtain ⟨leaks, w', ran, -⟩ := fork_untouched space slot pages free
  exact ⟨w, d, w', reach, image, ran, leaks, fun noTrace =>
    (fork_noTrace_iff reach (by decide) running image ran).mp noTrace (.inl leaks)⟩

/-! ## A successful fork -/

/-- `fork` by slot `i` makes a child of the same size that reads the same bytes. -/
def Copies (k : Symbols) (w : World) (i : Nat) (cur : Image) : Prop :=
  ∃ pid w' np child, fork k w i cur = .ok (pid, w') ∧ pid ≠ -1 ∧ (w.procs np).state = .unused ∧
    (w'.procs np).state = .runnable ∧ w'.image np = some child ∧ child.sz = cur.sz ∧
    ∀ va < cur.sz, userByte w'.machine child va = userByte w.machine cur va

section Successful

variable {k : Symbols} {w : World} {i c sz : Nat}

theorem present_of_copies (space : Space k w.machine c) (user : sz ≤ kernbase) (copies : Copies k w i ⟨c, sz⟩) :
    (∀ v < pageCount sz, present (w.machine.pte c v)) ∧ w.nextpid ≠ -1 := by
  obtain ⟨pid, w', np, child, ran, success, -⟩ := copies
  have forked := fork_forked (i := i) space user
  rw [ran] at forked
  cases forked with
  | full none => exact absurd rfl success
  | noStack slot unused empty machine others after => exact absurd rfl success
  | failed slot unused free copied machine others after => exact absurd rfl success
  | child slot unused free copied machine others state pgdir kstack size =>
    cases copied with
    | done copying => exact ⟨copying.there, success⟩

theorem copies_of_present (space : Space k w.machine c) (user : sz ≤ kernbase)
    (slot : ∃ np < nproc, (w.procs np).state = .unused) (enough : copyCost (pageCount sz) + 1 ≤ w.machine.freelist.length)
    (there : ∀ v < pageCount sz, present (w.machine.pte c v)) (pid : w.nextpid ≠ -1) : Copies k w i ⟨c, sz⟩ := by
  have forked := fork_forked (i := i) space user
  obtain ⟨res, ran⟩ : ∃ res, fork k w i ⟨c, sz⟩ = res := ⟨_, rfl⟩
  rw [ran] at forked
  cases forked with
  | full none =>
    obtain ⟨np, inside, unused⟩ := slot
    exact absurd unused (none np inside)
  | noStack slot unused empty machine others after =>
    rw [empty] at enough
    cases enough
  | failed slot unused free copied machine others after =>
    cases copied with
    | hole inside _ table absent enough within lost => exact absurd (there _ inside) absent
    | noMemory inside _ few within all =>
      have cost := copyCost_mono inside
      rw [free, List.length_cons] at enough
      dsimp only at few
      omega
  | panicked slot unused free copied =>
    cases copied with
    | @noTable h inside _ absent _ =>
      obtain ⟨t, found⟩ := table_of_present (there h inside)
      exact absurd (absent.symm.trans found) nofun
  | @child np s d rest m' w' slot unused free copied machine others state pgdir kstack size =>
    refine ⟨_, w', np, ⟨d, sz⟩, ran, pid, unused, state, ?_, rfl, ?_⟩
    · rw [World.image, pgdir, size]
      rfl
    · cases copied with
      | done copying =>
        intro va below
        have low : va < kernbase := Nat.lt_of_lt_of_le below user
        have inside : va / pgsize < pageCount sz := by
          dsimp only [pageCount, pgsize]
          dsimp only at below
          omega
        rw [userByte_eq _ _ low, userByte_eq _ _ low, machine]
        dsimp only
        rw [copying.view, if_pos inside]
        rfl

end Successful

/-- In every state that a run with arguments below 32 MB reaches, where there is a slot and
memory for all of the process, `fork` copies it if and only if every page below its size is
present and the next pid is not -1. -/
theorem fork_copies_iff {k : Symbols} {w : World} (reach : (processes k).Reachable ShortArgs w) {i : Nat}
    (inside : i < nproc) (running : (w.procs i).state = .running) {cur : Image} (image : w.image i = some cur)
    (slot : ∃ np < nproc, (w.procs np).state = .unused)
    (enough : copyCost (pageCount cur.sz) + 1 ≤ w.machine.freelist.length) :
    Copies k w i cur ↔ (∀ v < pageCount cur.sz, present (w.machine.pte cur.pgdir v)) ∧ w.nextpid ≠ -1 := by
  obtain ⟨d, s, seated, rfl⟩ := (sound_of_reachable reach).running inside running image
  have user : (w.procs i).sz ≤ kernbase := Nat.le_of_lt (bounded_of_reachable reach i)
  exact ⟨present_of_copies seated.space user, fun ⟨there, pid⟩ =>
    copies_of_present seated.space user slot enough there pid⟩

/-- The first program, with its guard page and its stack. -/
theorem fork_copies_program : ∃ w d s, (processes smallKernel).Reachable ShortArgs w ∧ ProgramRuns smallKernel w d s ∧
    Copies smallKernel w 0 ⟨d, 8192⟩ := by
  obtain ⟨w, d, s, reach, runs⟩ := programRuns_reachable smallKernel (by decide)
  have reach := shortArgs_of_confined reach
  have enough : copyCost (pageCount 8192) + 1 ≤ w.machine.freelist.length := Nat.le_trans (by decide) runs.free
  refine ⟨w, d, s, reach, runs, (fork_copies_iff reach (by decide) runs.running runs.image ⟨1, by decide, runs.slot⟩
    enough).mpr ⟨fun v below => ?_, ?_⟩⟩
  · have two : pageCount 8192 = 2 := by decide
    dsimp only at below
    rw [two] at below
    exact (runs.present_iff (Nat.lt_trans below (by decide))).mpr below
  · rw [runs.nextpid]
    decide

/-- A page that was not touched: there are a slot and enough memory, and `fork` fails. -/
theorem fork_fails_untouched : ∃ w d w', (processes smallKernel).Reachable ShortArgs w ∧
    (w.procs 0).state = .running ∧ w.image 0 = some ⟨d, 12288⟩ ∧ (w.procs 1).state = .unused ∧
    copyCost (pageCount 12288) + 1 ≤ w.machine.freelist.length ∧ fork smallKernel w 0 ⟨d, 12288⟩ = .ok (-1, w') := by
  obtain ⟨w, d, reach, running, image, slot, space, pages, free⟩ := untouched_reachable
  obtain ⟨-, w', ran, -⟩ := fork_untouched space slot pages free
  exact ⟨w, d, w', reach, running, image, slot, Nat.le_trans (by decide) free, ran⟩

end Xv6Simplesh.Vm
