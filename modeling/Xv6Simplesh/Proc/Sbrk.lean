import Xv6Simplesh.Proc.Sizes

/-! # `sbrk`

Growing is exact: `sys_sbrk` only moves the size, below `KERNBASE`.  Shrinking goes through
`growproc`, which adds in 32 bits and reads the new size 0 as a failure.  So a process that
gives back all of its memory is told that nothing happened, and one that asks for less than
nothing is told that it got it.
-/

namespace Xv6Simplesh.Vm

open Library

variable {k : Symbols}

/-- The loop of `deallocuvm` finds no page and leaves the memory as it is, or it gives pages
back. -/
theorem deallocuvmLoop_freelist {m m' : Machine} {d oldsz v : Nat} (user : oldsz ≤ kernbase)
    (ran : deallocuvmLoop k m d oldsz (v * pgsize) = .ok m') :
    (m' = m ∧ ∀ u, v ≤ u → u < pageCount oldsz → ¬ present (m.pte d u)) ∨
      (m.freelist.length < m'.freelist.length ∧ ∃ u, v ≤ u ∧ u < pageCount oldsz ∧ present (m.pte d u)) := by
  have limit := pageCount_le user
  rw [deallocuvmLoop_eq user] at ran
  induction left : pageCount oldsz - v generalizing v m with
  | zero =>
    rw [left] at ran
    cases ran
    exact .inl ⟨rfl, fun u from' to' => by omega⟩
  | succ count ih =>
    rw [left, List.range'_succ, List.foldlM_cons] at ran
    obtain ⟨m₁, cleared, ran⟩ := ok_of_bind ran
    have rest : pageCount oldsz - (v + 1) = count := by omega
    rw [← rest] at ran
    have later := ih ran rest
    cases freelist_clearPage (by omega) cleared with
    | inl same =>
      -- nothing at `v`: the rest of the range decides
      obtain ⟨rfl, absent⟩ := same
      cases later with
      | inl none =>
        refine .inl ⟨none.1, fun u from' to' => ?_⟩
        by_cases first : u = v
        · rwa [first]
        · exact none.2 u (by omega) to'
      | inr some =>
        obtain ⟨grew, u, from', to', there⟩ := some
        exact .inr ⟨grew, u, by omega, to', there⟩
    | inr freed =>
      refine .inr ⟨?_, v, Nat.le_refl v, by omega, freed.2⟩
      have longer := congrArg List.length freed.1
      rw [List.length_cons] at longer
      cases later with
      | inl none =>
        rw [none.1]
        omega
      | inr some => omega

/-! ## The call -/

/-- A call that returns a value did what was asked for, in exact integers, and one that
returns -1 did nothing. -/
structure Exact (m : Machine) (p : Image) (n : Int) (val : Int) (p' : Image) (m' : Machine) : Prop where
  success : val ≠ -1 → val = p.sz ∧ (p'.sz : Int) = p.sz + n
  failure : val = -1 → p'.sz = p.sz ∧ (∀ v, v < userPages → m'.pte p.pgdir v = m.pte p.pgdir v) ∧
    m'.freelist = m.freelist

/-- What a process of size `sz` may take away from its memory: part of it, all of it if there
is no page, or nothing if it has nothing. -/
def Shrinks (m : Machine) (p : Image) (n : Int) : Prop :=
  p.sz = 0 ∨ 0 < p.sz + n ∨ p.sz + n = 0 ∧ ∀ v, v < pageCount p.sz → ¬ present (m.pte p.pgdir v)

theorem sysSbrk_grow {m m' : Machine} {p p' : Image} {n : Int32} {val : Int} (grows : ¬ n < 0)
    (ran : sysSbrk k m p n = .ok (val, p', m')) : Exact m p n.toInt val p' m' := by
  have nonneg : 0 ≤ n.toInt := by
    rw [Int32.lt_iff_toInt_lt] at grows
    exact Int.not_lt.mp grows
  rw [sysSbrk, if_neg grows] at ran
  split at ran
  · cases ran
    exact ⟨fun no => absurd rfl no, fun _ => ⟨rfl, fun _ _ => rfl, rfl⟩⟩
  · cases ran
    refine ⟨fun _ => ⟨rfl, ?_⟩, fun failed => ?_⟩
    · dsimp only
      omega
    · omega

theorem sysSbrk_shrink {m m' : Machine} {p p' : Image} {n : Int32} {val : Int} (small : p.sz < kernbase)
    (shrinks : n < 0) (ran : sysSbrk k m p n = .ok (val, p', m')) :
    Exact m p n.toInt val p' m' ↔ Shrinks m p n.toInt := by
  have negative : n.toInt < 0 := by rwa [Int32.lt_iff_toInt_lt] at shrinks
  have least := n.le_toInt
  rw [sysSbrk, if_pos shrinks] at ran
  obtain ⟨⟨grown, p₁, m₁⟩, grew, ran⟩ := ok_of_bind ran
  cases ran
  rw [growproc, if_neg (by omega), if_pos negative] at grew
  obtain ⟨⟨sz, m₂⟩, freed, same⟩ := ok_of_bind grew
  dsimp only [kernbase] at small
  unfold deallocuvm at freed
  by_cases beyond : p.sz + n.toInt < 0
  · -- The new size wraps around and is the larger one.
    rw [if_pos (by omega)] at freed
    cases freed
    dsimp only at same
    by_cases nothing : p.sz = 0
    · rw [if_pos nothing] at same
      cases same
      exact iff_of_true ⟨fun no => absurd rfl no, fun _ => ⟨rfl, fun _ _ => rfl, rfl⟩⟩ (.inl nothing)
    · rw [if_neg nothing] at same
      cases same
      refine iff_of_false (fun exact => ?_) ?_
      · have moved := (exact.success (by simp only [if_true]; omega)).2
        dsimp only at moved
        omega
      · rintro (none | some | ⟨zero, -⟩) <;> omega
  · obtain ⟨newsz, new⟩ : ∃ newsz, newsz = ((p.sz + n.toInt) % 2 ^ 32).toNat := ⟨_, rfl⟩
    have size : (newsz : Int) = p.sz + n.toInt := by omega
    rw [← new, if_neg (by omega)] at freed
    obtain ⟨m₃, loop, kept⟩ := ok_of_bind freed
    cases kept
    dsimp only at same
    by_cases all : sz = 0
    · -- All of the memory is given back, and the result 0 is taken for a failure.
      rw [if_pos all] at same
      cases same
      subst all
      have start : pgroundup 0 = 0 * pgsize := rfl
      rw [start] at loop
      rcases deallocuvmLoop_freelist (by dsimp only [kernbase]; omega) loop with ⟨rfl, absent⟩ | ⟨grew, u, -, inside, there⟩
      · refine iff_of_true ⟨fun no => absurd rfl no, fun _ => ⟨rfl, fun _ _ => rfl, rfl⟩⟩ ?_
        exact .inr (.inr ⟨by omega, fun v inside => absent v (Nat.zero_le v) inside⟩)
      · refine iff_of_false (fun exact => ?_) ?_
        · rw [(exact.failure rfl).2.2] at grew
          exact Nat.lt_irrefl _ grew
        · rintro (none | some | ⟨zero, absent⟩)
          · omega
          · omega
          · exact absent u inside there
    · rw [if_neg all] at same
      cases same
      refine iff_of_true ⟨fun _ => ⟨rfl, size⟩, fun failed => ?_⟩ (.inr (.inl (by omega)))
      simp only [if_true] at failed
      omega

/-- For every process of a reachable state and every argument, a call of `sbrk` that returns
is exact or without effect if and only if it grows the process, or takes away a part of it,
or all of it where no page is present, or the process has size 0. -/
theorem sbrk_exact_iff {w : World} (reach : (processes k).Reachable (fun _ _ => True) w) {i : Nat} {cur p' : Image}
    {n : Int32} {val : Int} {m' : Machine} (image : w.image i = some cur)
    (ran : sysSbrk k w.machine cur n = .ok (val, p', m')) :
    Exact w.machine cur n.toInt val p' m' ↔ (n < 0 → Shrinks w.machine cur n.toInt) := by
  obtain ⟨pgdir, -, rfl⟩ := Option.map_eq_some_iff.mp image
  have small := bounded_of_reachable reach i
  by_cases negative : n < 0
  · rw [sysSbrk_shrink small negative ran]
    exact ⟨fun shrinks _ => shrinks, fun shrinks => shrinks negative⟩
  · exact iff_of_true (sysSbrk_grow negative ran) fun no => absurd no negative

/-- The first process takes away 100 bytes. -/
theorem sbrk_exact_iff_part : ∃ w cur p' m', (processes smallKernel).Reachable (fun _ _ => True) w ∧
    w.image 0 = some cur ∧ sysSbrk smallKernel w.machine cur (-100) = .ok (4096, p', m') ∧
    Exact w.machine cur (-100) 4096 p' m' := by
  obtain ⟨w, d, s, reach, first⟩ := firstRuns_reachable smallKernel (fun _ _ => True) (by decide) fun _ => trivial
  have image := first.image
  have ran : sysSbrk smallKernel w.machine ⟨d, 4096⟩ (-100) = .ok (4096, ⟨d, 3996⟩, w.machine) := by
    have loop : deallocuvmLoop smallKernel w.machine d 4096 (pgroundup 3996) = .ok w.machine := by
      rw [deallocuvmLoop, if_neg (by decide)]
    have negative : (-100 : Int32) < 0 := by decide
    have number : (-100 : Int32).toInt = -100 := by decide
    simp [sysSbrk, negative, number, growproc, deallocuvm, loop, bind, Except.bind]
  refine ⟨w, _, _, _, reach, image, ran, (sbrk_exact_iff reach image ran).mpr fun _ => .inr (.inl ?_)⟩
  change (0 : Int) < 4096 + (-100 : Int32).toInt
  decide

/-- The first process has 4096 bytes in one page.  If it gives back all of them, the page is
freed and the call returns -1; if it takes away 8192, the call returns 4096 and the size is
the same as before. -/
theorem sbrk_not_exact : ∃ w cur m', (processes smallKernel).Reachable (fun _ _ => True) w ∧
    w.image 0 = some cur ∧ cur.sz = 4096 ∧
    sysSbrk smallKernel w.machine cur (-4096) = .ok (-1, cur, m') ∧ m'.freelist ≠ w.machine.freelist ∧
    sysSbrk smallKernel w.machine cur (-8192) = .ok (4096, cur, w.machine) := by
  obtain ⟨w, d, s, reach, first⟩ := firstRuns_reachable smallKernel (fun _ _ => True) (by decide) fun _ => trivial
  have image := first.image
  have there : present (w.machine.pte d 0) := (first.present_iff (by decide)).mpr rfl
  obtain ⟨m', loop, -⟩ := deallocuvmLoop_cleared (v := 0) (.refl first.space (fun _ used => used)) (by decide : 4096 ≤ kernbase)
  have whole : deallocuvmLoop smallKernel w.machine d 4096 (pgroundup 0) = .ok m' := loop
  refine ⟨w, _, m', reach, image, rfl, ?_, ?_, ?_⟩
  · have negative : (-4096 : Int32) < 0 := by decide
    have number : (-4096 : Int32).toInt = -4096 := by decide
    simp [sysSbrk, negative, number, growproc, deallocuvm, whole, bind, Except.bind]
  · intro same
    rcases deallocuvmLoop_freelist (by decide) loop with ⟨-, absent⟩ | ⟨grew, -⟩
    · exact absent 0 (Nat.le_refl 0) (by decide) there
    · rw [same] at grew
      exact Nat.lt_irrefl _ grew
  · have negative : (-8192 : Int32) < 0 := by decide
    have number : (-8192 : Int32).toInt = -8192 := by decide
    simp [sysSbrk, negative, number, growproc, deallocuvm, bind, Except.bind]

end Xv6Simplesh.Vm
