import Xv6Simplesh.Proc.Sound

/-! # Page faults

A user-mode access that faults either goes ahead afterwards or costs the process its life,
as long as the entry of its page is absent.  Where the entry is present and only the
permission is missing, as for the guard page and the pages of the kernel, `mappages` reports
success: the access faults again and again, and each time a page of memory is lost.
-/

namespace Xv6Simplesh.Vm

open Library Function

section Mapped

variable {k : Symbols} {S : Nat → Prop} {d v q perm : Nat} {m₀ m m' : Machine}

/-- Mapping a page adds the page, and a page table where there is none. -/
theorem Mapped.holder (mapped : Mapped k S d m₀ m m' v q perm) (flags : perm < pgsize) (visible : perm.testBit 2) :
    ∃ t, m'.holder d = update (update (m.holder d) (.page v) (some q)) (.table (v / nptentries)) (some t) ∧
      (m.table d (v / nptentries) = some t ∧ m'.freelist = m.freelist ∨
        m.table d (v / nptentries) = none ∧ m.freelist = t :: m'.freelist) := by
  obtain ⟨t, found, free⟩ := mapped.table
  refine ⟨t, ?_, free⟩
  funext r
  cases r with
  | dir =>
    have first : Role.dir ≠ .table (v / nptentries) := nofun
    have snd : Role.dir ≠ .page v := nofun
    rw [update_of_ne first, update_of_ne snd]
    rfl
  | table i =>
    by_cases same : i = v / nptentries
    · rw [same, update_self]
      exact found
    · have other : Role.table i ≠ .page v := nofun
      rw [update_of_ne fun both => same (Role.table.inj both), update_of_ne other]
      exact mapped.others i same
  | page u =>
    have table : Role.page u ≠ .table (v / nptentries) := nofun
    rw [update_of_ne table]
    simp only [Machine.holder, mapped.pte]
    by_cases same : u = v
    · rw [same, update_self, update_self, frame_mkPte flags (.inr visible)]
    · rw [update_of_ne same, update_of_ne fun both => same (Role.page.inj both)]
      rfl

end Mapped

/-! ## What a fault should do -/

/-- The process is killed or the access goes ahead, and the pages that were taken from the free
list are the ones that the address space has got: the page of the user and perhaps its page
table. -/
structure Handled (m m' : Machine) (d cr2 : Nat) (store killed : Bool) : Prop where
  answered : killed = true ∨ (access m' d true store cr2).isSome
  taken : ∀ q, q ∈ m.freelist ∧ q ∉ m'.freelist ↔ Held (m'.holder d) q ∧ ¬ Held (m.holder d) q
  entered : ∀ r, m'.holder d r ≠ m.holder d r → r = .page (cr2 / pgsize) ∨ r = .table (cr2 / pgsize / nptentries)

section Handled

variable {k : Symbols} {S : Nat → Prop} {d : Nat} {m m' : Machine} {cr2 q : Nat} {store : Bool}

theorem handled_of_killed (holders : m'.holder d = m.holder d)
    (free : m'.freelist = m.freelist) : Handled m m' d cr2 store true where
  answered := .inl rfl
  taken q := by
    rw [holders, free]
    exact iff_of_false (fun both => both.2 both.1) (fun both => both.2 both.1)
  entered r changed := absurd (congrFun holders r) changed

/-- A user access to a page that has been entered for the user. -/
theorem access_of_pte (store : Bool) (addr : cr2 < 2 ^ 32)
    (entry : m.pte d (cr2 / pgsize) = mkPte (q * pgsize) (pteW ||| pteU)) : access m d true store cr2 = some q := by
  have there : present (m.pte d (cr2 / pgsize)) := by
    rw [entry]
    exact present_mkPte (by decide)
  obtain ⟨t, found⟩ := table_of_present there
  have visible : user (m.pte d (cr2 / pgsize)) = true := by
    rw [entry, user_mkPte (by decide)]
    decide
  have writes : writable (m.pte d (cr2 / pgsize)) = true := by
    rw [entry, writable_mkPte (by decide)]
    decide
  have page : ptePage (m.pte d (cr2 / pgsize)) = q := by rw [entry, ptePage_mkPte (by decide)]
  rw [access, walkpgdir_false addr, found]
  simp only [Option.map_some, ← pte_of_table found, there, visible, writes, page]
  simp

theorem handled_of_mapped {rest : List Nat} {m₀ : Machine} (store : Bool) (addr : cr2 < 2 ^ 32)
    (space : Space k m d) (free : m.freelist = q :: rest) (absent : ¬ present (m.pte d (cr2 / pgsize)))
    (mapped : Mapped k S d m₀ (m.taken q rest (Bytes.fill 0)) m' (cr2 / pgsize) q (pteW ||| pteU)) :
    Handled m m' d cr2 store false := by
  obtain ⟨-, -, tables, ptes, -⟩ := (Evolves.refl space fun _ used => used).takePage free (Bytes.fill 0)
  have before : (m.taken q rest (Bytes.fill 0)).holder d = m.holder d := holder_congr tables ptes
  obtain ⟨t, holders, alternatives⟩ := mapped.holder (by decide) (by decide)
  rw [before] at holders
  rw [tables] at alternatives
  have empty : m.holder d (.page (cr2 / pgsize)) = none := if_neg fun both => absent both.1
  have nodup := List.nodup_cons.mp (free ▸ space.nodup)
  have unheld : ∀ x ∈ m.freelist, ¬ Held (m.holder d) x := fun x mem held => space.apart held mem
  refine ⟨.inr ?_, ?_, ?_⟩
  · have entry : m'.pte d (cr2 / pgsize) = mkPte (q * pgsize) (pteW ||| pteU) := by
      rw [mapped.pte, update_self]
    rw [access_of_pte store addr entry]
    rfl
  · intro x
    rcases alternatives with ⟨table, same⟩ | ⟨none, first⟩
    · -- the page table was there
      have idle : update (update (m.holder d) (.page (cr2 / pgsize)) (some q))
          (.table (cr2 / pgsize / nptentries)) (some t) = update (m.holder d) (.page (cr2 / pgsize)) (some q) := by
        apply update_eq_self_iff.mpr
        have other : Role.table (cr2 / pgsize / nptentries) ≠ .page (cr2 / pgsize) := nofun
        rw [update_of_ne other]
        exact table.symm
      have left : m'.freelist = rest := same
      rw [holders, idle, held_take empty, free, left, List.mem_cons]
      have fresh := unheld q (free ▸ List.mem_cons_self)
      grind
    · have table : update (m.holder d) (.page (cr2 / pgsize)) (some q)
          (.table (cr2 / pgsize / nptentries)) = Option.none := by
        have other : Role.table (cr2 / pgsize / nptentries) ≠ .page (cr2 / pgsize) := nofun
        rw [update_of_ne other]
        exact none
      have left : rest = t :: m'.freelist := first
      have nodup' := List.nodup_cons.mp (left ▸ nodup.2)
      rw [holders, held_take table, held_take empty, free, left, List.mem_cons, List.mem_cons]
      have fresh := unheld q (free ▸ List.mem_cons_self)
      have fresh' := unheld t (free ▸ left ▸ List.mem_cons_of_mem q (.head _))
      grind
  · intro r changed
    rw [holders] at changed
    by_contra neither
    rw [not_or] at neither
    rw [update_of_ne neither.2, update_of_ne neither.1] at changed
    exact changed rfl

/-- The page that was taken where the entry is present belongs to nobody. -/
theorem not_handled_of_lost {rest : List Nat} {killed : Bool} (space : Space k m d)
    (free : m.freelist = q :: rest) : ¬ Handled m (m.taken q rest (Bytes.fill 0)) d cr2 store killed := by
  intro handled
  obtain ⟨-, -, tables, ptes, -⟩ := (Evolves.refl space fun _ used => used).takePage free (Bytes.fill 0)
  have same : (m.taken q rest (Bytes.fill 0)).holder d = m.holder d := holder_congr tables ptes
  have nodup := List.nodup_cons.mp (free ▸ space.nodup)
  have got := (handled.taken q).mp ⟨free ▸ List.mem_cons_self, nodup.1⟩
  exact got.2 (same ▸ got.1)

theorem Faulted.handled_iff {m₀ : Machine} {killed : Bool} (space : Space k m d)
    (addr : cr2 < 2 ^ 32) (faulted : Faulted k S d m₀ m (cr2 / pgsize) killed m') :
    Handled m m' d cr2 store killed ↔ ¬ present (m.pte d (cr2 / pgsize)) ∨ m.freelist = [] := by
  cases faulted with
  | noPage empty => exact iff_of_true (handled_of_killed rfl rfl) (.inr empty)
  | @noTable q last absent =>
    obtain ⟨evo, fresh, tables, ptes, -⟩ := (Evolves.refl space fun _ used => used).takePage last (Bytes.fill 0)
    obtain ⟨-, tables', ptes'⟩ := evo.push fresh
    refine iff_of_true (handled_of_killed (holder_congr (tables'.trans tables) (ptes'.trans ptes)) ?_) (.inl ?_)
    · rw [Machine.freelist_push, last]
      rfl
    · rw [pte_of_none absent]
      decide
  | lost free there =>
    refine iff_of_false (not_handled_of_lost space free) ?_
    rintro (absent | empty)
    · exact absent there
    · rw [free] at empty
      cases empty
  | mapped free absent mapped => exact iff_of_true (handled_of_mapped store addr space free absent mapped) (.inl absent)

end Handled

/-- In every state that a run with arguments below 32 MB reaches, the handler answers a fault of
a user-mode access, load or store, without losing a page if and only if the entry of the page
is absent or there is no free page. -/
theorem pageFault_handled_iff {k : Symbols} {w : World} (reach : (processes k).Reachable ShortArgs w) {i : Nat}
    (inside : i < nproc) (running : (w.procs i).state = .running) {cur : Image} (image : w.image i = some cur)
    (store : Bool) (cr2 : UInt32) :
    ∃ killed m', pageFault k w.machine cur true cr2.toNat = .ok (killed, m') ∧
      (Handled w.machine m' cur.pgdir cr2.toNat store killed ↔
        ¬ present (w.machine.pte cur.pgdir (cr2.toNat / pgsize)) ∨ w.machine.freelist = []) := by
  obtain ⟨d, s, seated, rfl⟩ := (sound_of_reachable reach).running inside running image
  obtain ⟨killed, m', ran, faulted⟩ := pageFault_faulted (Evolves.refl seated.space fun _ used => used) cr2.toNat_lt
    (.inl rfl : true = true ∨ cr2.toNat < (w.procs i).sz)
  exact ⟨killed, m', ran, faulted.handled_iff seated.space cr2.toNat_lt⟩

/-- An access to an absent page, or one that the entry does not permit, faults. -/
theorem access_eq_none {m : Machine} {d va : Nat} (store : Bool) (addr : va < 2 ^ 32)
    (denied : ¬ (present (m.pte d (va / pgsize)) ∧ user (m.pte d (va / pgsize)))) :
    access m d true store va = none := by
  rw [access, walkpgdir_false addr]
  cases found : m.table d (va / pgsize / nptentries) with
  | none => rfl
  | some t =>
    simp only [Option.map_some, ← pte_of_table found]
    exact if_neg fun allowed => denied ⟨allowed.1, allowed.2.1 trivial⟩

/-- The first process stores at 8192, beyond its only page. -/
theorem pageFault_handled_absent : ∃ w d killed m', (processes smallKernel).Reachable ShortArgs w ∧
    w.image 0 = some ⟨d, 4096⟩ ∧ access w.machine d true true 8192 = none ∧
    pageFault smallKernel w.machine ⟨d, 4096⟩ true 8192 = .ok (killed, m') ∧
    Handled w.machine m' d 8192 true killed := by
  obtain ⟨w, d, s, reach, first⟩ := firstRuns_reachable smallKernel ShortArgs (by decide) fun _ => trivial
  have absent : ¬ present (w.machine.pte d 2) := fun there => absurd ((first.present_iff (by decide)).mp there) (by decide)
  obtain ⟨killed, m', ran, handled⟩ := pageFault_handled_iff reach (by decide) (by rw [first.init]) first.image true
    8192
  exact ⟨w, d, killed, m', reach, first.image, access_eq_none true (by decide) fun both => absent both.1, ran,
    handled.mpr (.inl absent)⟩

/-- The first process loads from the first address of the kernel.  The handler takes a page
from the free list and reports success, but the page is in no page table, and the access
faults as before. -/
theorem pageFault_loses_page : ∃ w d m', (processes smallKernel).Reachable ShortArgs w ∧
    (w.procs 0).state = .running ∧ w.image 0 = some ⟨d, 4096⟩ ∧ access w.machine d true false 0x80000000 = none ∧
    pageFault smallKernel w.machine ⟨d, 4096⟩ true 0x80000000 = .ok (false, m') ∧
    access m' d true false 0x80000000 = none ∧ m'.freelist.length + 1 = w.machine.freelist.length ∧
    m'.holder d = w.machine.holder d ∧ ¬ Handled w.machine m' d 0x80000000 false false := by
  obtain ⟨w, d, s, reach, first⟩ := firstRuns_reachable smallKernel ShortArgs (by decide) fun _ => trivial
  have kernel := first.kernel.pte 0x80000 (.inl ⟨by decide, by decide⟩)
  obtain ⟨there, hidden⟩ := kernelPte_flags smallKernel 0x80000
  rw [← kernel] at there hidden
  have space := first.space
  obtain ⟨killed, m', ran, faulted⟩ := pageFault_faulted (Evolves.refl space fun _ used => used)
    (by decide : 0x80000000 < 2 ^ 32) (.inl rfl : true = true ∨ 0x80000000 < 4096)
  have room := first.free
  cases faulted with
  | noPage empty =>
    rw [empty] at room
    cases room
  | noTable last absent =>
    rw [last] at room
    simp at room
  | mapped free absent mapped => exact absurd there absent
  | @lost q rest free _ =>
    obtain ⟨-, -, tables, ptes, -⟩ := (Evolves.refl space fun _ used => used).takePage free (Bytes.fill 0)
    have denied : ¬ (present (w.machine.pte d 0x80000) ∧ user (w.machine.pte d 0x80000)) := by simp [hidden]
    refine ⟨w, d, _, reach, by rw [first.init], first.image, access_eq_none false (by decide) denied, ran,
      access_eq_none false (by decide) ?_, ?_, holder_congr tables ptes, not_handled_of_lost space free⟩
    · rw [ptes]
      exact denied
    · rw [free]
      rfl

/-! ## The pages of the user -/

/-- In every state of a run whose user-mode faults are below the sizes of the processes, every
page that a process can use is below its size, rounded up, and below `KERNBASE`. -/
theorem user_pages_below {k : Symbols} {w : World} (reach : (processes k).Reachable Confined w) {i d v : Nat}
    (inside : i < nproc) (live : (w.procs i).state.live) (pgdir : (w.procs i).pgdir = some d)
    (there : present (w.machine.pte d v)) (visible : user (w.machine.pte d v)) :
    v * pgsize < pgroundup (w.procs i).sz ∧ v * pgsize < kernbase := by
  have sound : Sound k True w := sound_of_allowed (fun _ _ may => may.1) (fun _ _ i cr2 may => may.2 i cr2 rfl) reach
  obtain ⟨d', s, seated⟩ := sound.seated i inside live
  obtain rfl : d' = d := Option.some.inj (seated.pgdir.symm.trans pgdir)
  have held : frame v (w.machine.pte d' v) = some (ptePage (w.machine.pte d' v)) :=
    frame_eq_some.mpr ⟨there, .inr visible, rfl⟩
  have below := seated.below trivial v (by rw [view_of_frame held]; nofun)
  have small := bounded_of_reachable reach i
  have rounded : pgroundup (w.procs i).sz = pageCount (w.procs i).sz * pgsize := pgroundup_eq (Nat.le_of_lt small)
  have limit := pageCount_le (Nat.le_of_lt small)
  rw [rounded]
  dsimp only [pgsize, kernbase, userPages] at *
  omega

theorem user_pages_below_program : ∃ w d s, (processes smallKernel).Reachable Confined w ∧
    ProgramRuns smallKernel w d s ∧ present (w.machine.pte d 1) ∧ user (w.machine.pte d 1) ∧
    1 * pgsize < pgroundup (w.procs 0).sz ∧ 1 * pgsize < kernbase := by
  obtain ⟨w, d, s, reach, runs⟩ := programRuns_reachable smallKernel (by decide)
  obtain ⟨bytes, found⟩ : ∃ bytes, w.machine.view d 1 = some ⟨7, bytes⟩ := runs.view 1
  obtain ⟨q, held, same⟩ := Option.map_eq_some_iff.mp found
  have there := (frame_eq_some.mp held).1
  have visible : user (w.machine.pte d 1) = true := by
    have number : pteFlags (w.machine.pte d 1) = 7 := congrArg Page.flags same
    rw [user, ← testBit_pteFlags _ (by decide), number]
    decide
  exact ⟨w, d, s, reach, runs, there, visible,
    user_pages_below reach (by decide) (by rw [runs.init]; rfl) (by rw [runs.init]) there visible⟩

/-- The first program, of size 8192, stores at 12288 and gets a page there. -/
theorem user_page_beyond_size : ∃ w d, (processes smallKernel).Reachable ShortArgs w ∧
    (w.procs 0).state = .running ∧ (w.procs 0).pgdir = some d ∧ (w.procs 0).sz = 8192 ∧
    present (w.machine.pte d 3) ∧ user (w.machine.pte d 3) ∧ pgroundup 8192 < 3 * pgsize := by
  obtain ⟨w, d, s, reach, runs⟩ := programRuns_reachable smallKernel (by decide)
  have absent : ¬ present (w.machine.pte d 3) := fun there => absurd ((runs.present_iff (by decide)).mp there) (by decide)
  obtain ⟨killed, m', ran, faulted⟩ := pageFault_faulted (Evolves.refl runs.space fun _ used => used)
    (by decide : 12288 < 2 ^ 32) (.inl rfl : true = true ∨ 12288 < 8192)
  have room := runs.free
  cases faulted with
  | noPage empty =>
    rw [empty] at room
    cases room
  | noTable last absent =>
    rw [last] at room
    simp at room
  | lost free there => exact absurd there absent
  | mapped free _ mapped =>
    have page : 12288 / pgsize = 3 := by decide
    rw [page] at mapped
    refine ⟨{ w.setProc 0 (w.procs 0) with machine := m' }, d, ?_, ?_, ?_, ?_, ?_, ?_, by decide⟩
    · refine .step (.call 0 (.pageFault true 12288)) (shortArgs_of_confined reach) trivial ?_
      simp [processes, runs.init, runs.image, perform, trapPageFault, ran, nproc, bind, Except.bind, Except.toOption,
        World.setProc]
    · simp [World.setProc, runs.init]
    · simp [World.setProc, runs.init]
    · simp [World.setProc, runs.init]
    · rw [mapped.pte, update_self]
      exact present_mkPte (by decide)
    · rw [mapped.pte, update_self, user_mkPte (by decide)]
      decide

end Xv6Simplesh.Vm
