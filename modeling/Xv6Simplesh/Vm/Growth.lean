import Xv6Simplesh.Vm.Release

/-! # Growing an address space

The page fault handler enters one zeroed page, `allocuvm` enters all pages up to a size.
Both go through `mappages`, which reports success where the entry is present already:
then the page that was taken for it belongs to nobody.
-/

namespace Xv6Simplesh.Vm

open Library Function

/-- The machine after `kalloc` has taken `q`, with `bytes` stored in it. -/
abbrev Machine.taken (m : Machine) (q : Nat) (rest : List Nat) (bytes : Bytes) : Machine :=
  ({ m with freelist := rest } : Machine).setPage q bytes

section Narrow

variable {k : Symbols} {S : Nat → Prop} {d : Nat} {m₀ m m' : Machine}

/-- What stays within the pages of an evolving space continues its evolution. -/
theorem Evolves.narrow (evo : Evolves k S d m₀ m) (further : Evolves k (m.Footprint d) d m m') :
    Evolves k S d m₀ m' where
  space := further.space
  outside q out := by
    rw [further.outside q fun used => out (evo.inside q used), evo.outside q out]
  inside q used := evo.inside q (further.inside q used)
  kernel v high entry := by
    have same := evo.kernel v high entry
    rw [further.kernel v high (same ▸ entry), same]
  tables i t found := further.tables i t (evo.tables i t found)

theorem Fresh.narrow {q : Nat} (fresh : Fresh k S d m q) (further : Evolves k (m.Footprint d) d m m') :
    Fresh k S d m' q ∧ m'.mem q = m.mem q := by
  have out : ¬ m.Footprint d q := by
    intro used
    cases used with
    | inl held => exact fresh.unheld held
    | inr free => exact fresh.taken free
  constructor
  · exact ⟨fresh.allocatable, fresh.inside, fun held => out (further.inside q (.inl held)),
      fun free => out (further.inside q (.inr free))⟩
  · exact further.outside q out

/-- The entry of a sound space is that of a page of its own. -/
theorem Evolves.footprint (evo : Evolves k S d m₀ m) : Evolves k (m.Footprint d) d m m :=
  .refl evo.space fun _ used => used

end Narrow

/-! ## Accesses -/

section Access

variable {d va : Nat} {m : Machine}

/-- The page behind an entry with all flags is open to every access. -/
theorem access_of_view {bytes : Bytes} (userMode store : Bool) (addr : va < 2 ^ 32)
    (view : m.view d (va / pgsize) = some ⟨7, bytes⟩) :
    ∃ q, frame (va / pgsize) (m.pte d (va / pgsize)) = some q ∧ pteFlags (m.pte d (va / pgsize)) = 7 ∧ m.mem q = bytes ∧
      access m d userMode store va = some q := by
  obtain ⟨q, held, page⟩ := Option.map_eq_some_iff.mp view
  obtain ⟨there, -, target⟩ := frame_eq_some.mp held
  have flags : pteFlags (m.pte d (va / pgsize)) = 7 := congrArg Page.flags page
  obtain ⟨t, found⟩ := table_of_present there
  have bit : ∀ i < 12, (m.pte d (va / pgsize)).testBit i = (7 : Nat).testBit i := by
    intro i low
    rw [← testBit_pteFlags _ low, flags]
  refine ⟨q, held, flags, congrArg Page.bytes page, ?_⟩
  rw [access, walkpgdir_false addr, found]
  simp only [Option.map_some, ← pte_of_table found, present, user, writable, bit 0 (by decide), bit 1 (by decide),
    bit 2 (by decide), target]
  cases userMode <;> cases store <;> rfl

theorem access_of_none (userMode store : Bool) (low : va < kernbase) (empty : m.view d (va / pgsize) = none) :
    access m d userMode store va = none := by
  have user : va / pgsize < userPages := by
    dsimp only [kernbase, pgsize, userPages] at *
    omega
  have absent := not_present_of_view user empty
  rw [access, walkpgdir_false (Nat.lt_trans low (by decide))]
  cases found : m.table d (va / pgsize / nptentries) with
  | none => rfl
  | some t =>
    simp only [Option.map_some, ← pte_of_table found]
    rw [if_neg fun all => absent all.1]

end Access

/-! ## Page faults -/

/-- What the page fault handler does for virtual page `v`: whether the process is marked as
killed, and the machine afterwards. -/
inductive Faulted (k : Symbols) (S : Nat → Prop) (d : Nat) (m₀ m : Machine) (v : Nat) : Bool → Machine → Prop where
  /-- No memory for the page. -/
  | noPage (empty : m.freelist = []) : Faulted k S d m₀ m v true m
  /-- No memory for a page table; the page goes back. -/
  | noTable {q : Nat} (last : m.freelist = [q]) (absent : m.table d (v / nptentries) = none) :
      Faulted k S d m₀ m v true ((m.taken q [] (Bytes.fill 0)).push q)
  /-- The entry is present, and the page is lost. -/
  | lost {q : Nat} {rest : List Nat} (free : m.freelist = q :: rest) (there : present (m.pte d v)) :
      Faulted k S d m₀ m v false (m.taken q rest (Bytes.fill 0))
  | mapped {q : Nat} {rest : List Nat} {m' : Machine} (free : m.freelist = q :: rest)
      (absent : ¬ present (m.pte d v))
      (mapped : Mapped k S d m₀ (m.taken q rest (Bytes.fill 0)) m' v q (pteW ||| pteU)) :
      Faulted k S d m₀ m v false m'

section Fault

variable {k : Symbols} {S : Nat → Prop} {d : Nat} {m₀ m : Machine}

theorem pgrounddown_eq (cr2 : Nat) : pgrounddown cr2 = cr2 / pgsize * pgsize := rfl

theorem pageFault_faulted {sz cr2 : Nat} {userMode : Bool} (evo : Evolves k S d m₀ m) (addr : cr2 < 2 ^ 32)
    (handled : userMode = true ∨ cr2 < sz) :
    ∃ killed m', pageFault k m ⟨d, sz⟩ userMode cr2 = .ok (killed, m') ∧
      Faulted k S d m₀ m (cr2 / pgsize) killed m' := by
  have page : cr2 / pgsize < 2 ^ 20 := by
    dsimp only [pgsize]
    omega
  have goes : ¬ (!userMode ∧ cr2 ≥ sz) := by
    intro both
    cases handled with
    | inl user => simp [user] at both
    | inr below => omega
  unfold pageFault
  rw [if_neg goes]
  cases free : m.freelist with
  | nil =>
    rw [kalloc_of_nil free]
    exact ⟨true, m, rfl, .noPage free⟩
  | cons q rest =>
    rw [kalloc_of_cons free]
    obtain ⟨evolves₁, fresh, tables, ptes, -, -⟩ := evo.takePage free (Bytes.fill 0)
    have outcome := mappages_page (v := cr2 / pgsize) evolves₁ fresh page (by decide : pteW ||| pteU < pgsize)
      (.inr (by decide))
    rw [tables, ptes] at outcome
    dsimp only
    rw [pgrounddown_eq]
    rcases outcome with ⟨ran, empty, absent⟩ | ⟨ran, there⟩ | ⟨m', ran, absent, mapped⟩
    · rw [ran]
      have last : rest = [] := empty
      subst last
      refine ⟨true, _, ?_, .noTable free absent⟩
      dsimp only
      rw [Evolves.kfree fresh]
      rfl
    · rw [ran]
      exact ⟨false, _, rfl, .lost free there⟩
    · rw [ran]
      exact ⟨false, m', rfl, .mapped free absent mapped⟩

theorem Faulted.evo {v : Nat} {killed : Bool} {m' : Machine} (faulted : Faulted k S d m₀ m v killed m')
    (evo : Evolves k S d m₀ m) : Evolves k S d m₀ m' := by
  cases faulted with
  | noPage empty => exact evo
  | noTable last absent =>
    obtain ⟨evolves₁, fresh, -⟩ := evo.takePage last (Bytes.fill 0)
    exact (evolves₁.push fresh).1
  | lost free there => exact (evo.takePage free (Bytes.fill 0)).1
  | mapped free absent mapped => exact mapped.evo

end Fault

/-! ## `allocuvm` -/

/-- `m'` is `m` with zeroed pages from `v` to `n`. -/
structure Grown (k : Symbols) (S : Nat → Prop) (d : Nat) (m₀ m m' : Machine) (v n : Nat) : Prop where
  evo : Evolves k S d m₀ m'
  view : ∀ u, m'.view d u = if v ≤ u ∧ u < n then some ⟨pteW ||| pteU ||| pteP, Bytes.fill 0⟩ else m.view d u
  pte : ∀ u, u < v ∨ n ≤ u → m'.pte d u = m.pte d u
  tables : ∀ i, m'.table d i ≠ none → m.table d i ≠ none ∨ ∃ u, v ≤ u ∧ u < n ∧ i = u / nptentries
  total : ∀ i, n ≤ userPages → n ≤ i * nptentries → m'.total d i = m.total d i

/-- There is no memory for page `v`: no page, or one page and no page table. -/
def Machine.Stuck (m : Machine) (d v : Nat) : Prop :=
  m.freelist = [] ∨ m.freelist.length = 1 ∧ m.table d (v / nptentries) = none

section Alloc

variable {k : Symbols} {S : Nat → Prop} {d : Nat} {m₀ m : Machine}

theorem Grown.refl {v n : Nat} (evo : Evolves k S d m₀ m) (empty : n ≤ v) : Grown k S d m₀ m m v n where
  evo := evo
  view u := by rw [if_neg (by omega)]
  pte _ _ := rfl
  tables _ found := .inl found
  total _ _ _ := rfl

theorem Grown.step {m₁ m' : Machine} {q v n : Nat} {rest : List Nat} (evo : Evolves k S d m₀ m)
    (free : m.freelist = q :: rest) (inside : v < n)
    (mapped : Mapped k S d m₀ (m.taken q rest (Bytes.fill 0)) m₁ v q (pteW ||| pteU))
    (others : Grown k S d m₀ m₁ m' (v + 1) n) : Grown k S d m₀ m m' v n := by
  obtain ⟨-, -, tables, ptes, view, total⟩ := evo.takePage free (Bytes.fill 0)
  refine ⟨others.evo, fun u => ?_, fun u out => ?_, fun i found => ?_, fun i user rows => ?_⟩
  · rw [others.view, mapped.view, view]
    by_cases same : u = v
    · subst same
      rw [if_neg (by omega), if_pos ⟨Nat.le_refl u, inside⟩, update_self, Machine.mem_setPage_self]
    · have shift : v + 1 ≤ u ↔ v ≤ u := by omega
      rw [update_of_ne same]
      simp only [shift]
  · rw [others.pte u (by omega), mapped.pte, update_of_ne (by omega), ptes]
  · rcases others.tables i found with found | ⟨u, from', to', row⟩
    · by_cases row : i = v / nptentries
      · exact .inr ⟨v, Nat.le_refl v, inside, row⟩
      · rw [mapped.others i row, tables] at found
        exact .inl found
    · exact .inr ⟨u, Nat.le_of_succ_le from', to', row⟩
  · have row : v / nptentries < i := Nat.div_lt_of_lt_mul (by rw [Nat.mul_comm]; omega)
    rw [others.total i user rows, mapped.total i (by omega) row]
    exact total i

theorem allocuvmLoop_grown (oldsz : Nat) {newsz v : Nat} (evo : Evolves k S d m₀ m) (user : newsz ≤ kernbase)
    (absent : ∀ u, v ≤ u → u < pageCount newsz → ¬ present (m.pte d u)) :
    (∃ m', allocuvmLoop k m d oldsz newsz (v * pgsize) = .ok (newsz, m') ∧
        Grown k S d m₀ m m' v (pageCount newsz)) ∨
      ∃ m', allocuvmLoop k m d oldsz newsz (v * pgsize) = .ok (0, m') ∧ Evolves k S d m₀ m' ∧
        m.freelist.length < 2 * (pageCount newsz - v) ∧
        (∀ i, pageCount newsz ≤ i * nptentries → m'.total d i = m.total d i) ∧
        ∃ u m₁, v ≤ u ∧ u < pageCount newsz ∧ Grown k S d m₀ m m₁ v u ∧ m₁.Stuck d u := by
  induction left : pageCount newsz - v using Nat.strong_induction_on generalizing v m with
  | _ left ih =>
  subst left
  rw [allocuvmLoop]
  by_cases more : v * pgsize < newsz
  · have inside : v < pageCount newsz := lt_pageCount.mpr more
    have low : v < userPages := Nat.lt_of_lt_of_le inside (pageCount_le user)
    have next : v * pgsize + pgsize = (v + 1) * pgsize := (Nat.succ_mul v pgsize).symm
    rw [if_pos more]
    cases free : m.freelist with
    | nil =>
      rw [kalloc_of_nil free]
      obtain ⟨m', ran, cleared⟩ := deallocuvm_cleared oldsz evo user
      refine .inr ⟨m', ?_, cleared.evo, ?_, fun i _ => cleared.total i, v, m, Nat.le_refl v, inside,
        .refl evo (Nat.le_refl v), .inl free⟩
      · simp only [ran, bind, Except.bind]
      · rw [List.length_nil]
        omega
    | cons q rest =>
      rw [kalloc_of_cons free]
      obtain ⟨evolves₁, fresh, tables, ptes, -, total⟩ := evo.takePage free (Bytes.fill 0)
      have outcome := mappages_page (v := v) evolves₁ fresh (Nat.lt_trans low (by decide))
        (by decide : pteW ||| pteU < pgsize) (.inl low)
      rw [tables, ptes] at outcome
      dsimp only
      rcases outcome with ⟨ran, empty, absent⟩ | ⟨-, there⟩ | ⟨m₁, ran, -, mapped⟩
      · -- no page table: the pages so far are given back, and then the one just taken
        obtain ⟨m₂, cleared, released⟩ := deallocuvm_cleared oldsz evolves₁.footprint user
        obtain ⟨fresh₂, -⟩ := fresh.narrow released.evo
        have evolves₂ := (evolves₁.narrow released.evo).push fresh₂
        have last : rest = [] := empty
        have stuck : m.Stuck d v := .inr ⟨by rw [free, last, List.length_singleton], absent⟩
        refine .inr ⟨m₂.push q, ?_, evolves₂.1, ?_, fun i _ => ?_, v, m, Nat.le_refl v, inside,
          .refl evo (Nat.le_refl v), stuck⟩
        · simp only [ran, cleared, bind, Except.bind, Evolves.kfree fresh₂]
        · rw [last, List.length_singleton]
          omega
        · rw [fresh₂.total_push, released.total]
          exact total i
      · exact absurd there (absent v (Nat.le_refl v) inside)
      · have absent₁ : ∀ u, v + 1 ≤ u → u < pageCount newsz → ¬ present (m₁.pte d u) := by
          intro u from' to'
          rw [mapped.pte, update_of_ne (by omega), ptes]
          exact absent u (by omega) to'
        rw [ran, next]
        rcases ih _ (by omega) mapped.evo absent₁ rfl with
          ⟨m', looped, grown⟩ | ⟨m', looped, evo', few, all, u, m₂, from', to', grown, stuck⟩
        · exact .inl ⟨m', looped, .step evo free inside mapped grown⟩
        · have used : rest.length ≤ m₁.freelist.length + 1 := by
            obtain ⟨t, -, ⟨-, same⟩ | ⟨-, first⟩⟩ := mapped.table
            · rw [same]
              exact Nat.le_succ rest.length
            · exact Nat.le_of_eq (congrArg List.length first)
          refine .inr ⟨m', looped, evo', ?_, fun i rows => ?_, u, m₂, Nat.le_of_succ_le from', to',
            .step evo free from' mapped grown, stuck⟩
          · rw [List.length_cons]
            omega
          · have row : v / nptentries < i := Nat.div_lt_of_lt_mul (by rw [Nat.mul_comm]; omega)
            rw [all i rows, mapped.total i low row]
            exact total i
  · rw [if_neg more]
    exact .inl ⟨m, rfl, .refl evo (Nat.le_of_not_lt fun inside => more (lt_pageCount.mp inside))⟩

end Alloc

end Xv6Simplesh.Vm
