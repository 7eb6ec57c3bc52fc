import Xv6Simplesh.Proc.Processes
import Xv6Simplesh.Vm.KernelMap

/-! # The first process

`main` hands the memory above the kernel to the allocator in two parts, makes the page
directory of the scheduler in between, and sets up the first process.  If the kernel
leaves 65 free pages below 4 MB, none of it fails.
-/

namespace Xv6Simplesh.Vm

open Library Function

section Boot

variable {k : Symbols} {S : Nat → Prop} {d : Nat} {m₀ m : Machine}

theorem freerange_pool (first count : Nat) (pool : Pool k m)
    (range : ∀ q, first ≤ q → q < first + count → k.Allocatable q ∧ q ∉ m.freelist) :
    ∃ m', (List.range' first count).foldlM (kfree k) m = .ok m' ∧ Pool k m' ∧
      (∀ q, q ∈ m'.freelist ↔ q ∈ m.freelist ∨ first ≤ q ∧ q < first + count) ∧
      m'.freelist.length = m.freelist.length + count := by
  induction count generalizing first m with
  | zero => exact ⟨m, rfl, pool, fun q => (or_iff_left (by omega)).symm, rfl⟩
  | succ count ih =>
    obtain ⟨allocatable, taken⟩ := range first (Nat.le_refl first) (by omega)
    have pool' : Pool k (m.push first) := ⟨List.nodup_cons.mpr ⟨taken, pool.nodup⟩,
      List.forall_mem_cons.mpr ⟨allocatable, pool.allocatable⟩⟩
    obtain ⟨m', ran, pool'', members, length⟩ := ih (first + 1) pool' fun q low high => by
      obtain ⟨allocatable, taken⟩ := range q (by omega) (by omega)
      exact ⟨allocatable, List.not_mem_cons_of_ne_of_not_mem (by omega) taken⟩
    refine ⟨m', ?_, pool'', fun q => ?_, ?_⟩
    · rw [List.range'_succ, List.foldlM_cons, kfree, if_pos allocatable]
      exact ran
    · have next : q = first ∨ first + 1 ≤ q ∧ q < first + 1 + count ↔ first ≤ q ∧ q < first + (count + 1) := by omega
      rw [members, Machine.freelist_push, List.mem_cons, or_right_comm, next, or_comm]
    · rw [length, Machine.freelist_push, List.length_cons]
      omega

theorem freerange_eq (m : Machine) {vstart vend first last : Nat} (start : (vstart + pgsize - 1) / pgsize = first)
    (stop : vend / pgsize = last) :
    freerange k m vstart vend = (List.range' first (last - first)).foldlM (kfree k) m := by
  rw [freerange, start, stop]

theorem inituvm_spec (init : Bytes) {size : Nat} (evo : Evolves k S d m₀ m) (small : size < pgsize)
    (empty : ∀ v, v < userPages → m.view d v = none) (free : 2 ≤ m.freelist.length) :
    ∃ m' page, inituvm m d init size = .ok m' ∧ Evolves k S d m₀ m' ∧
      (page.flags = 7 ∧ ∀ i < size, page.bytes i = init i) ∧ m'.view d = update (m.view d) 0 (some page) ∧ m.freelist.length ≤ m'.freelist.length + 2 := by
  have absent : ¬ present (m.pte d 0) := not_present_of_view (by decide) (empty 0 (by decide))
  unfold inituvm
  rw [if_neg (Nat.not_le.mpr small)]
  match freelist : m.freelist with
  | [] => simp [freelist] at free
  | [_] => simp [freelist] at free
  | q :: next :: rest =>
  rw [kalloc_of_cons freelist]
  obtain ⟨evolves₁, fresh, -, ptes, view, -⟩ := evo.takePage freelist (Bytes.fill 0)
  have mapped := mappages_page (v := 0) evolves₁ fresh (by decide) (by decide : pteW ||| pteU < pgsize)
    (.inl (by decide))
  rw [ptes] at mapped
  rcases mapped with ⟨-, none, -⟩ | ⟨-, there⟩ | ⟨m', ran, -, mapped⟩
  · cases none
  · exact absurd there absent
  · rw [Nat.zero_mul] at ran
    dsimp only
    rw [ran]
    have held : frame 0 (m'.pte d 0) = some q := by
      rw [mapped.pte, update_self]
      exact frame_mkPte (by decide) (.inl (by decide))
    obtain ⟨evo', -, -⟩ := mapped.evo.setPage fresh.inside
      (fun r holds => ⟨0, mapped.evo.space.exclusive holds held⟩) ((m'.mem q).copy 0 init size)
    refine ⟨_, ⟨7, (m'.mem q).copy 0 init size⟩, rfl, evo', ⟨rfl, fun i inside => ?_⟩, ?_, ?_⟩
    · exact (if_pos ⟨Nat.zero_le i, by omega⟩).trans (congrArg init (Nat.sub_zero i))
    · rw [view_setPage mapped.evo.space held, mapped.view, view, mapped.pte, update_self,
        update_idem, pteFlags_mkPte (by decide)]
      rfl
    · have used : (next :: rest).length ≤ m'.freelist.length + 1 := by
        obtain ⟨t, -, ⟨-, same⟩ | ⟨-, first⟩⟩ := mapped.table
        · rw [same]
          exact Nat.le_succ _
        · exact Nat.le_of_eq (congrArg List.length first)
      exact Nat.succ_le_succ used

/-- The state after `main`: the first process in slot 0, with page directory `d` and kernel
stack `s`. -/
structure Booted (k : Symbols) (code : Bytes) (size : Nat) (w : World) (d s : Nat) : Prop where
  init : w.procs 0 = ⟨.runnable, 1, none, pgsize, some d, some s, none, false⟩
  others : ∀ i, i ≠ 0 → w.procs i = .empty
  nextpid : w.nextpid = 2
  initproc : w.initproc = 0
  space : Space k w.machine d
  kernel : KernelMapped k w.machine d
  view : ∃ page : Page, (page.flags = 7 ∧ ∀ i < size, page.bytes i = code i) ∧ w.machine.view d = update (fun _ => none) 0 (some page)
  stack : k.Allocatable s
  taken : s ∉ w.machine.freelist
  unheld : ¬ Held (w.machine.holder d) s
  free : 0xD000 ≤ w.machine.freelist.length

theorem userinit_spec {init : Bytes} {size : Nat} (pool : Pool k m) (small : size < pgsize)
    (free : 0xD000 + 68 ≤ m.freelist.length) : ∃ w d s, userinit k m init size = .ok w ∧ Booted k init size w d s := by
  have first : ((List.range nproc).find? fun i => ((⟨m, fun _ => .empty, 1, 0⟩ : World).procs i).state = .unused) =
      some 0 := rfl
  unfold userinit allocproc
  rw [first]
  dsimp only [World.setProc]
  cases freelist : m.freelist with
  | nil =>
    rw [freelist] at free
    simp at free
  | cons s rest =>
  rw [kalloc_of_cons freelist]
  have nodup := List.nodup_cons.mp (freelist ▸ pool.nodup)
  have allocatable := List.forall_mem_cons.mp (freelist ▸ pool.allocatable)
  have length : m.freelist.length = rest.length + 1 := by rw [freelist, List.length_cons]
  rcases setupkvm_spec (S := (· ∈ rest)) (m := { m with freelist := rest }) ⟨nodup.2, allocatable.2⟩ fun q mem => mem with
    ⟨d, m₁, ran, new⟩ | ⟨m₁, -, -, -, few⟩
  · have enough := new.free
    dsimp only at enough
    obtain ⟨m₂, page, loaded, evo, flags, view, left⟩ := inituvm_spec init new.evo small
      (fun v _ => new.view v) (by omega)
    dsimp only
    rw [ran]
    dsimp only [bind, Except.bind]
    rw [loaded]
    refine ⟨_, d, s, rfl, ?_⟩
    exact {
      init := rfl
      others := fun i other => by
        dsimp only [World.setProc]
        rw [update_of_ne other, update_of_ne other, update_of_ne other]
      nextpid := rfl
      initproc := rfl
      space := evo.space
      kernel := evo.kernelMapped new.kernel
      view := ⟨page, flags, by rw [view, funext new.view]⟩
      stack := allocatable.1
      taken := fun mem => nodup.1 (evo.inside s (.inr mem))
      unheld := fun held => nodup.1 (evo.inside s (.inl held))
      free := by
        dsimp only
        omega }
  · dsimp only at few
    omega

theorem userinit_error (init : Bytes) {size : Nat} (large : pgsize ≤ size) :
    ∃ panic, userinit k m init size = .error panic := by
  cases ran : userinit k m init size with
  | error panic => exact ⟨panic, rfl⟩
  | ok w =>
    unfold userinit at ran
    split at ran
    · cases ran
    · obtain ⟨⟨pgdir, m₁⟩, -, ran⟩ := ok_of_bind ran
      dsimp only at ran
      split at ran
      · cases ran
      · obtain ⟨m₂, loaded, -⟩ := ok_of_bind ran
        rw [inituvm, if_pos large] at loaded
        cases loaded

theorem boot_spec (k : Symbols) (init : Bytes) (size : Nat) :
    (∃ w d s, boot k init size = .ok w ∧ Booted k init size w d s) ∨
      ∃ panic, boot k init size = .error panic ∧ (pgsize ≤ size ∨ 4 * 1024 * 1024 < k.kend + 65 * pgsize) := by
  have kend := k.kend_le
  obtain ⟨first, start⟩ : ∃ first, first = (k.kend + pgsize - 1) / pgsize := ⟨_, rfl⟩
  have pages : k.kend ≤ first * pgsize ∧ first ≤ 1024 := by
    dsimp only [pgsize] at start ⊢
    omega
  have allocatable : ∀ q, first ≤ q → q < 0xE000 → k.Allocatable q := by
    intro q low high
    refine ⟨Nat.le_trans pages.1 (Nat.mul_le_mul_right pgsize low), ?_⟩
    rw [show phystop = 0xE000 * pgsize from rfl]
    exact Nat.mul_lt_mul_of_pos_right high (by decide)
  have empty : Pool k ⟨fun _ => Bytes.fill 0, []⟩ := ⟨List.nodup_nil, nofun⟩
  obtain ⟨m₁, ran₁, pool₁, members₁, length₁⟩ := freerange_pool first (1024 - first) empty
    fun q low high => ⟨allocatable q low (by omega), nofun⟩
  have below : ∀ q ∈ m₁.freelist, q < 1024 := by
    intro q mem
    rcases (members₁ q).mp mem with mem | range
    · cases mem
    · omega
  rw [← freerange_eq _ start.symm (by decide : 4 * 1024 * 1024 / pgsize = 1024)] at ran₁
  simp only [boot, ran₁, bind, Except.bind]
  rcases setupkvm_spec pool₁ below with ⟨kpgdir, m₂, ran₂, new⟩ | ⟨m₂, ran₂, -, -, few⟩
  · rw [ran₂]
    obtain ⟨m₃, ran₃, pool₃, -, length₃⟩ := freerange_pool 1024 (0xE000 - 1024) new.space.toPool
      fun q low high => ⟨allocatable q (by omega) (by omega), fun mem => by
        have := new.inside q (.inr mem)
        omega⟩
    rw [← freerange_eq _ (by decide : (4 * 1024 * 1024 + pgsize - 1) / pgsize = 1024)
      (by decide : phystop / pgsize = 0xE000)] at ran₃
    simp only [ran₃]
    by_cases small : size < pgsize
    · exact .inl (userinit_spec pool₃ small (by omega))
    · obtain ⟨panic, failed⟩ := userinit_error (k := k) (m := m₃) init (Nat.le_of_not_lt small)
      exact .inr ⟨panic, failed, .inl (Nat.le_of_not_lt small)⟩
  · rw [ran₂]
    refine .inr ⟨_, rfl, .inr ?_⟩
    have count : m₁.freelist.length = 1024 - first := by rw [length₁, List.length_nil, Nat.zero_add]
    dsimp only [pgsize] at start ⊢
    omega

/-! ## The first process runs -/

/-- The first process has been scheduled; its program is zeros. -/
structure FirstRuns (k : Symbols) (w : World) (d s : Nat) : Prop where
  init : w.procs 0 = ⟨.running, 1, none, pgsize, some d, some s, none, false⟩
  others : ∀ i, i ≠ 0 → w.procs i = .empty
  nextpid : w.nextpid = 2
  space : Space k w.machine d
  kernel : KernelMapped k w.machine d
  view : ∃ page : Page, (page.flags = 7 ∧ ∀ i < 44, page.bytes i = 0) ∧ w.machine.view d = update (fun _ => none) 0 (some page)
  free : 0xD000 ≤ w.machine.freelist.length

theorem FirstRuns.image {w : World} {d s : Nat} (first : FirstRuns k w d s) : w.image 0 = some ⟨d, 4096⟩ := by
  simp [World.image, first.init]

theorem FirstRuns.present_iff {w : World} {d s v : Nat} (first : FirstRuns k w d s) (low : v < userPages) :
    present (w.machine.pte d v) ↔ v = 0 := by
  obtain ⟨page, -, view⟩ := first.view
  constructor
  · intro there
    by_contra other
    exact not_present_of_view low (by rw [view, update_of_ne other]) there
  · rintro rfl
    have found : w.machine.view d 0 = some page := by rw [view, update_self]
    obtain ⟨q, held, -⟩ := Option.map_eq_some_iff.mp found
    exact (frame_eq_some.mp held).1

theorem firstRuns_reachable (k : Symbols) (allowed : World → Event → Prop)
    (room : k.kend + 65 * pgsize ≤ 4 * 1024 * 1024) (may : ∀ w, allowed w (.switch 0 .running)) :
    ∃ w d s, (processes k).Reachable allowed w ∧ FirstRuns k w d s := by
  rcases boot_spec k (Bytes.fill 0) 44 with ⟨w, d, s, ran, booted⟩ | ⟨panic, -, wrong⟩
  · refine ⟨w.setProc 0 { w.procs 0 with state := .running, chan := none }, d, s, ?_, ?_⟩
    · refine .step (.switch 0 .running) (.initial ⟨_, _, ran⟩) (may w) ?_
      simp [processes, booted.init, Switches, nproc]
    · exact {
        init := by simp [World.setProc, booted.init]
        others := fun i other => by
          dsimp only [World.setProc]
          rw [update_of_ne other, booted.others i other]
        nextpid := booted.nextpid
        space := booted.space
        kernel := booted.kernel
        view := booted.view
        free := booted.free }
  · dsimp only [pgsize] at room wrong
    omega

end Boot

end Xv6Simplesh.Vm
