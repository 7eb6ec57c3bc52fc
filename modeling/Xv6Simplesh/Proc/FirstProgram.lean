import Xv6Simplesh.Proc.Boot
import Xv6Simplesh.Proc.Program

/-! # The first program

The first process calls `exec`.  The word at address 0 of its memory is zero, so the vector of
arguments there is empty, and a program without segments gets a guard page and a page of stack.
-/

namespace Xv6Simplesh.Vm

open Library Function

/-! ## Limits -/

/-- The arguments that `exec` finds in the memory of the process are below 32 MB. -/
def ShortArgs (w : World) : Event → Prop
  | .call i (.exec _ uargv) => ∀ cur argv, w.image i = some cur →
      fetchArgs (userByte w.machine cur) cur.sz uargv 0 maxArg = some argv → ∀ arg ∈ argv, arg.length < argLimit
  | _ => True

/-- Arguments below 32 MB, and user-mode faults in pages below the end of the process. -/
def Confined (w : World) (event : Event) : Prop :=
  ShortArgs w event ∧ ∀ i cr2, event = .call i (.pageFault true cr2) → cr2.toNat / pgsize < pageCount (w.procs i).sz

variable {k : Symbols} {w : World}

theorem shortArgs_of_confined (reach : (processes k).Reachable Confined w) : (processes k).Reachable ShortArgs w :=
  reach.mono fun _ _ may => may.1

/-! ## The memory of a process -/

theorem access_kernel (m : Machine) (d : Nat) {va : Nat} (low : va < kernbase) :
    access m d false false va = frame (va / pgsize) (m.pte d (va / pgsize)) := by
  have user : va / pgsize < userPages := by
    dsimp only [kernbase, pgsize, userPages] at *
    omega
  rw [access, walkpgdir_false (Nat.lt_trans low (by decide)), frame]
  cases table : m.table d (va / pgsize / nptentries) with
  | none =>
    rw [pte_of_none table]
    rfl
  | some t => simp [← pte_of_table table, user]

/-- The bytes of a process are those of its view, zeros where no page is present. -/
theorem userByte_eq (m : Machine) (p : Image) {va : Nat} (low : va < kernbase) :
    userByte m p va = ((m.view p.pgdir (va / pgsize)).map fun page => page.bytes (va % pgsize)).getD 0 := by
  rw [userByte, access_kernel m p.pgdir low, Machine.view, Option.map_map]
  cases frame (va / pgsize) (m.pte p.pgdir (va / pgsize)) with
  | none => rfl
  | some q => rfl

/-! ## `exec` -/

/-- The process in slot 0 runs a program without segments, alone. -/
structure ProgramRuns (k : Symbols) (w : World) (d s : Nat) : Prop where
  init : w.procs 0 = ⟨.running, 1, none, 8192, some d, some s, none, false⟩
  others : ∀ i, i ≠ 0 → w.procs i = .empty
  nextpid : w.nextpid = 2
  executed : ∃ m c, Executed k m c ⟨d, 8192⟩ w.machine
  free : 0xC000 ≤ w.machine.freelist.length

namespace ProgramRuns

variable {k : Symbols} {w : World} {d s : Nat}

section

variable (runs : ProgramRuns k w d s)

include runs

theorem running : (w.procs 0).state = .running := by rw [runs.init]

theorem image : w.image 0 = some ⟨d, 8192⟩ := by simp [World.image, runs.init]

theorem space : Space k w.machine d := by
  obtain ⟨m, c, executed⟩ := runs.executed
  exact executed.space

theorem slot : (w.procs 1).state = .unused := by
  rw [runs.others 1 (by decide)]
  rfl

theorem view (v : Nat) :
    if v < 2 then ∃ bytes, w.machine.view d v = some ⟨pageFlags (some 0) v, bytes⟩ else w.machine.view d v = none := by
  obtain ⟨m, c, executed⟩ := runs.executed
  obtain ⟨n, size, -, there, above⟩ := executed.pages
  obtain rfl : n = 0 := by
    dsimp only [pgsize] at size
    omega
  split
  · next low => exact there v low
  · next high => exact above v (Nat.le_of_not_lt high)

theorem present_iff {v : Nat} (low : v < userPages) : present (w.machine.pte d v) ↔ v < 2 := by
  have view := runs.view v
  split at view
  · next inside =>
    obtain ⟨bytes, found⟩ := view
    obtain ⟨q, held, -⟩ := Option.map_eq_some_iff.mp found
    exact iff_of_true (frame_eq_some.mp held).1 inside
  · next beyond => exact iff_of_false (not_present_of_view low view) beyond

end

end ProgramRuns

theorem FirstRuns.fetchArgs {d s : Nat} (first : FirstRuns k w d s) :
    Vm.fetchArgs (userByte w.machine ⟨d, 4096⟩) 4096 0 0 maxArg = some [] := by
  obtain ⟨page, ⟨-, zeros⟩, view⟩ := first.view
  have zero : ∀ i < 4, userByte w.machine ⟨d, 4096⟩ i = 0 := by
    intro i inside
    have low : i / pgsize = 0 := Nat.div_eq_of_lt (Nat.lt_trans inside (by decide))
    rw [userByte_eq _ _ (Nat.lt_trans inside (by decide)), low, view, update_self,
      Nat.mod_eq_of_lt (Nat.lt_trans inside (by decide))]
    exact zeros i (Nat.lt_trans inside (by decide))
  have word : fetchint (userByte w.machine ⟨d, 4096⟩) 4096 (0 + 4 * UInt32.ofNat 0) = some 0 := by
    rw [fetchint, if_neg (by decide), loadInt]
    simp [Bytes.word, zero]
  rw [show maxArg = 31 + 1 from rfl, Vm.fetchArgs, word]
  rfl

theorem FirstRuns.exec {c s : Nat} (first : FirstRuns k w c s) :
    ∃ d sp m', Vm.exec k w.machine ⟨c, 4096⟩ (some emptyProgram) [] = .ok (some ⟨⟨d, 8192⟩, 0, sp⟩, m') ∧
      Executed k w.machine c ⟨d, 8192⟩ m' ∧ 0xC000 ≤ m'.freelist.length := by
  have free := first.free
  obtain ⟨d, m₀, m₁, laid, outside, total, finish⟩ := exec_emptyProgram ⟨c, 4096⟩ first.space
    (Nat.le_trans (by decide) free)
  -- the stack has room for `ustack`
  obtain ⟨bytes, view⟩ := laid.there 1 (by decide)
  obtain ⟨m₂, copied, -⟩ := laid.copyout_page ⟨c, 4096⟩ 1 4080 16
    (Bytes.ofWords fun i => (ustackWords ⟨8192, []⟩).getD i 0) (by decide) (by decide) (by decide) (by decide) view
  have pushed : pushArgs k m₁ ⟨c, 4096⟩ d 8192 [] = .ok (some 8176, m₂) := by
    have length : (ustackWords ⟨8192, []⟩).length * 4 = 16 := by decide
    have sp : (8192 + 2 ^ 32 - 16) % 2 ^ 32 = 1 * pgsize + 4080 := by decide
    simp only [pushArgs, List.foldlM_nil, pure, Except.pure, bind, Except.bind, length, sp, copied, if_true]
    rfl
  have short : ∀ arg ∈ ([] : List (List UInt8)), arg.length < argLimit := List.forall_mem_nil _
  obtain ⟨sp, m₂', pushed', laid₂, total₂, -⟩ := pushArgs_laid ⟨c, 4096⟩ laid short
  obtain ⟨rfl, rfl⟩ : some 8176 = sp ∧ m₂ = m₂' := by
    have same := pushed.symm.trans pushed'
    simpa using same
  have start : ∀ x, x ∉ w.machine.freelist → m₀.mem x = w.machine.mem x := fun x taken =>
    (laid.evo.outside x taken).symm.trans (outside x taken)
  obtain ⟨-, old⟩ := (laid₂.evo.within.of_outside start).keep first.space
  obtain ⟨m₃, freed, -, length⟩ := freevm_within (.refl old fun _ used => used)
  have ran := finish [] (some 8176) m₂ m₃ pushed freed
  refine ⟨d, 8176, m₃, ran, ?_, ?_⟩
  · rcases exec_spec 4096 (some emptyProgram) first.space short with
      ⟨m', failed, -⟩ | ⟨loaded, m', made, executed, -⟩
    · rw [ran] at failed
      cases failed
    · rw [ran] at made
      cases made
      exact executed
  · have pages : occupied userPages (m₂.view d) = (Finset.range 2).card := by
      refine occupied_eq (fun v low => Nat.lt_trans (Finset.mem_range.mp low) (by decide)) fun v _ => ?_
      rw [Finset.mem_range]
      by_cases low : v < 2
      · obtain ⟨bytes, view⟩ := laid₂.there v low
        rw [view]
        exact iff_of_true rfl low
      · rw [laid₂.above v (Nat.le_of_not_lt low)]
        exact iff_of_false Bool.false_ne_true low
    have tables : occupied npdentries (m₂.table d) ≤ npdentries :=
      (occupied_le fun i inside out => absurd (Finset.mem_range.mpr inside) out).trans_eq (Finset.card_range _)
    rw [Machine.total, pages, Finset.card_range] at total₂
    rw [length, Machine.total]
    dsimp only [npdentries] at tables total total₂ ⊢
    omega

/-- A kernel of 160 KB. -/
def smallKernel : Symbols where
  data := 0x110000
  kend := 0x128000
  data_aligned := by decide
  text := by decide
  data_le := by decide
  kend_le := by decide

theorem programRuns_reachable (k : Symbols) (room : k.kend + 65 * pgsize ≤ 4 * 1024 * 1024) :
    ∃ w d s, (processes k).Reachable Confined w ∧ ProgramRuns k w d s := by
  obtain ⟨w, c, s, reach, first⟩ := firstRuns_reachable k Confined room fun _ => ⟨trivial, nofun⟩
  obtain ⟨d, sp, m', ran, executed, free⟩ := first.exec
  refine ⟨{ w.setProc 0 { w.procs 0 with pgdir := some d, sz := 8192 } with machine := m' }, d, s, ?_, ?_⟩
  · refine .step (.call 0 (.exec (some emptyProgram) 0)) reach ⟨?_, nofun⟩ ?_
    · intro cur argv image fetched
      rw [first.image] at image
      cases image
      rw [first.fetchArgs] at fetched
      cases fetched
      exact List.forall_mem_nil _
    · simp [processes, first.init, first.image, perform, first.fetchArgs, ran, nproc, bind, Except.bind,
        Except.toOption, World.setProc]
  · exact {
      init := by simp [World.setProc, first.init]
      others := fun i other => by
        dsimp only [World.setProc]
        rw [update_of_ne other, first.others i other]
      nextpid := first.nextpid
      executed := ⟨_, _, executed⟩
      free := free }

end Xv6Simplesh.Vm
