import Xv6Simplesh.Vm.Mapping
import Xv6Simplesh.Vm.Scan

/-! # Giving back an address space

`deallocuvm` clears the entries of a range of user pages and gives the pages back,
skipping over absent page tables; `freevm` gives back all of an address space.  Neither
panics on a sound one.
-/

namespace Xv6Simplesh.Vm

open Library Function

section Release

variable {k : Symbols} {S : Nat → Prop} {d : Nat} {m₀ m : Machine}

/-! ## `deallocuvm` -/

section

variable {t v q : Nat} (evo : Evolves k S d m₀ m) (found : m.table d (v / nptentries) = some t) (low : v < userPages)
  (held : frame v (m.pte d v) = some q)

include evo found low held

theorem Evolves.clearEntry :
    Evolves k S d m₀ (m.setWord t (v % nptentries) 0) ∧ Fresh k S d (m.setWord t (v % nptentries) 0) q ∧
      (m.setWord t (v % nptentries) 0).table d = m.table d ∧
      (m.setWord t (v % nptentries) 0).pte d = update (m.pte d) v 0 ∧
      (m.setWord t (v % nptentries) 0).view d = update (m.view d) v none := by
  have space := evo.space
  have none : ∀ x, frame v 0 = some x → Fresh k S d m x ∨ frame v (m.pte d v) = some x := fun x same => nomatch same
  obtain ⟨evo', tables, ptes⟩ := evo.setEntry found (by decide : 0 < 2 ^ 32)
    (fun high => absurd low (Nat.not_lt.mpr high)) none
  have view := view_setEntry space found (by decide : 0 < 2 ^ 32) none
  have owned := space.owned q ⟨.page v, held⟩
  refine ⟨evo', ⟨owned.1, evo.inside q (.inl ⟨.page v, held⟩), ?_, owned.2⟩, tables, ptes, view⟩
  rintro ⟨r, holds⟩
  cases r with
  | dir =>
    have same : Role.dir = .page v := space.exclusive holds held
    cases same
  | table i =>
    simp only [Machine.holder, tables] at holds
    have same : Role.table i = .page v := space.exclusive holds held
    cases same
  | page u =>
    simp only [Machine.holder, ptes] at holds
    by_cases same : u = v
    · rw [same, update_self] at holds
      cases holds
    · rw [update_of_ne same] at holds
      have same' : Role.page u = .page v := space.exclusive holds held
      exact same (Role.page.inj same')

theorem Evolves.unmap : Evolves k S d m₀ ((m.push q).setWord t (v % nptentries) 0) ∧
      ((m.push q).setWord t (v % nptentries) 0).table d = m.table d ∧
      ((m.push q).setWord t (v % nptentries) 0).pte d = update (m.pte d) v 0 ∧
      ((m.push q).setWord t (v % nptentries) 0).view d = update (m.view d) v none ∧
      ∀ n, ((m.push q).setWord t (v % nptentries) 0).total d n = m.total d n := by
  obtain ⟨evolves₁, fresh, tables₁, ptes₁, view₁⟩ := evo.clearEntry found low held
  obtain ⟨evolves₂, tables₂, ptes₂⟩ := evolves₁.push fresh
  have apart : q ≠ t := evo.space.page_ne (r := .table (v / nptentries)) held found nofun
  have order : (m.push q).setWord t (v % nptentries) 0 = (m.setWord t (v % nptentries) 0).push q := by
    have bytes : (m.push q).mem t = m.mem t := m.mem_push_of_ne apart.symm
    simp only [Machine.setWord, bytes]
    simp only [Machine.push, Machine.setPage, update_comm apart]
  rw [order]
  have view : ((m.setWord t (v % nptentries) 0).push q).view d = update (m.view d) v none := by
    rw [fresh.view_push, view₁]
  refine ⟨evolves₂, tables₂.trans tables₁, ptes₂.trans ptes₁, view, fun n => ?_⟩
  have cleared := occupied_clear low (view_of_frame held)
  simp only [Machine.total, view, tables₂, tables₁, Machine.freelist_push, Machine.freelist_setWord, List.length_cons]
  omega

end

/-- `m'` is `m` without the user pages from `v` to `n`. -/
structure Cleared (k : Symbols) (S : Nat → Prop) (d : Nat) (m₀ m m' : Machine) (v n : Nat) : Prop where
  evo : Evolves k S d m₀ m'
  table : m'.table d = m.table d
  pte : ∀ u, m'.pte d u = if v ≤ u ∧ u < n ∧ present (m.pte d u) then 0 else m.pte d u
  view : ∀ u, m'.view d u = if v ≤ u ∧ u < n then none else m.view d u
  total : ∀ i, m'.total d i = m.total d i

theorem Cleared.refl {v n : Nat} (evo : Evolves k S d m₀ m) (empty : n ≤ v) : Cleared k S d m₀ m m v n where
  evo := evo
  table := rfl
  pte u := by rw [if_neg (by omega)]
  view u := by rw [if_neg (by omega)]
  total _ := rfl

theorem Cleared.clearPage {m' : Machine} {v n : Nat} (cleared : Cleared k S d m₀ m m' v n) (from' : v ≤ n)
    (low : n < userPages) : ∃ m'', Vm.clearPage k d m' n = .ok m'' ∧ Cleared k S d m₀ m m'' v (n + 1) := by
  have entry : m'.pte d n = m.pte d n := by rw [cleared.pte, if_neg (by omega)]
  have seen : m'.view d n = m.view d n := by rw [cleared.view, if_neg (by omega)]
  have wider : ∀ u, u ≠ n → (v ≤ u ∧ u < n ↔ v ≤ u ∧ u < n + 1) := fun u ne => by omega
  by_cases there : present (m'.pte d n)
  · obtain ⟨t, found⟩ := table_of_present there
    have held := frame_of_present low there
    obtain ⟨evo, tables, ptes, view, total⟩ := cleared.evo.unmap found low held
    refine ⟨_, clearPage_of_present low found there (cleared.evo.space.owned _ ⟨.page n, held⟩).1, ?_⟩
    exact {
      evo := evo
      table := tables.trans cleared.table
      pte := fun u => by
        rw [ptes]
        by_cases same : u = n
        · rw [same, update_self, if_pos ⟨from', Nat.lt_succ_self n, entry ▸ there⟩]
        · rw [update_of_ne same, cleared.pte]
          simp only [← and_assoc, wider u same]
      view := fun u => by
        rw [view]
        by_cases same : u = n
        · rw [same, update_self, if_pos ⟨from', Nat.lt_succ_self n⟩]
        · rw [update_of_ne same, cleared.view]
          simp only [wider u same]
      total := fun i => (total i).trans (cleared.total i) }
  · refine ⟨m', clearPage_of_absent k low there, cleared.evo, cleared.table, fun u => ?_, fun u => ?_, cleared.total⟩
    · by_cases same : u = n
      · rw [same, entry, if_neg fun all => there (entry ▸ all.2.2)]
      · rw [cleared.pte]
        simp only [← and_assoc, wider u same]
    · by_cases same : u = n
      · rw [same, if_pos ⟨from', Nat.lt_succ_self n⟩, view_eq_none, frame, if_neg fun both => there both.1]
      · rw [cleared.view]
        simp only [wider u same]

theorem deallocuvmLoop_cleared {oldsz v : Nat} (evo : Evolves k S d m₀ m) (user : oldsz ≤ kernbase) :
    ∃ m', deallocuvmLoop k m d oldsz (v * pgsize) = .ok m' ∧ Cleared k S d m₀ m m' v (pageCount oldsz) := by
  have limit := pageCount_le user
  rw [deallocuvmLoop_eq user]
  by_cases inside : v ≤ pageCount oldsz
  · obtain ⟨m', ran, cleared⟩ : ∃ m', (List.range' v (pageCount oldsz - v)).foldlM (clearPage k d) m = .ok m' ∧
        Cleared k S d m₀ m m' v (v + (pageCount oldsz - v)) :=
      foldlM_range'_invariant (fun n m' => Cleared k S d m₀ m m' v n) (.refl evo (Nat.le_refl v))
        fun n m' from' to' cleared => cleared.clearPage from' (by omega)
    rw [Nat.add_sub_cancel' inside] at cleared
    exact ⟨m', ran, cleared⟩
  · rw [Nat.sub_eq_zero_of_le (by omega)]
    exact ⟨m, rfl, .refl evo (by omega)⟩

theorem deallocuvm_cleared {oldsz : Nat} (newsz : Nat) (evo : Evolves k S d m₀ m) (user : oldsz ≤ kernbase) :
    ∃ m', deallocuvm k m d oldsz newsz = .ok (if newsz ≥ oldsz then oldsz else newsz, m') ∧
      Cleared k S d m₀ m m' (pageCount newsz) (pageCount oldsz) := by
  unfold deallocuvm
  by_cases larger : newsz ≥ oldsz
  · rw [if_pos larger, if_pos larger]
    refine ⟨m, rfl, .refl evo ?_⟩
    dsimp only [pageCount, pgsize]
    omega
  · rw [if_neg larger, if_neg larger, pgroundup_eq (by omega)]
    obtain ⟨m', ran, cleared⟩ := deallocuvmLoop_cleared (v := pageCount newsz) evo user
    exact ⟨m', by rw [ran]; rfl, cleared⟩

/-! ## `freevm` -/

/-- Between `m₀` and `m` only pages in `S` were touched, and the free pages are among them. -/
structure Within (k : Symbols) (S : Nat → Prop) (m₀ m : Machine) : Prop where
  pool : Pool k m
  outside : ∀ q, ¬ S q → m.mem q = m₀.mem q
  inside : ∀ q ∈ m.freelist, S q

theorem Evolves.within (evo : Evolves k S d m₀ m) : Within k S m₀ m :=
  ⟨evo.space.toPool, evo.outside, fun q free => evo.inside q (.inr free)⟩

theorem Within.of_outside {m₁ : Machine} (within : Within k S m₁ m) (outside : ∀ q, ¬ S q → m₁.mem q = m₀.mem q) :
    Within k S m₀ m where
  pool := within.pool
  outside q out := (within.outside q out).trans (outside q out)
  inside := within.inside

/-- An address space is what it was while only free pages were used. -/
theorem Within.keep {c : Nat} {m' : Machine} (within : Within k (· ∈ m.freelist) m m') (space : Space k m c) :
    Kept m m' c ∧ Space k m' c := by
  have kept : Kept m m' c := kept_of_bytes fun q held => within.outside q (space.apart held)
  exact ⟨kept, space.keep within.pool kept fun q held free => space.apart held (within.inside q free)⟩

theorem Within.push {q : Nat} (within : Within k S m₀ m) (allocatable : k.Allocatable q) (inside : S q)
    (taken : q ∉ m.freelist) : Within k S m₀ (m.push q) where
  pool := ⟨List.nodup_cons.mpr ⟨taken, within.pool.nodup⟩,
    List.forall_mem_cons.mpr ⟨allocatable, within.pool.allocatable⟩⟩
  outside x out := by rw [m.mem_push_of_ne (ne_of_outside out inside), within.outside x out]
  inside := List.forall_mem_cons.mpr ⟨inside, within.inside⟩

/-- While `freevm` gives back the page tables, the directory and the tables from `i` on
are still in use. -/
structure Freeing (k : Symbols) (S : Nat → Prop) (d : Nat) (m₀ m : Machine) (i : Nat) (m' : Machine) : Prop where
  within : Within k S m₀ m'
  dirBytes : m'.mem d = m.mem d
  dir : d ∉ m'.freelist
  tables : ∀ j t, i ≤ j → m.table d j = some t → t ∉ m'.freelist
  count : m'.freelist.length = m.freelist.length + occupied i (m.table d)

theorem freeTable_freeing {i : Nat} {m' : Machine} (evo : Evolves k S d m₀ m) (inside : i < npdentries)
    (freeing : Freeing k S d m₀ m i m') : ∃ m'', freeTable k d m' i = .ok m'' ∧ Freeing k S d m₀ m (i + 1) m'' := by
  have space := evo.space
  unfold freeTable
  rw [freeing.dirBytes]
  by_cases entry : present ((m.mem d).word i)
  · have found : m.table d i = some (ptePage ((m.mem d).word i)) := if_pos ⟨inside, entry⟩
    have held : Held (m.holder d) (ptePage ((m.mem d).word i)) := ⟨.table i, found⟩
    have allocatable := (space.owned _ held).1
    have apart : d ≠ ptePage ((m.mem d).word i) := by
      intro same
      have same' : Role.dir = .table i := space.exclusive (congrArg some same) found
      cases same'
    rw [if_pos entry, kfree, if_pos allocatable]
    refine ⟨_, rfl, freeing.within.push allocatable (evo.inside _ (.inl held))
      (freeing.tables i _ (Nat.le_refl i) found), ?_, ?_, fun j t later found' => ?_, ?_⟩
    · rw [m'.mem_push_of_ne apart, freeing.dirBytes]
    · exact List.not_mem_cons_of_ne_of_not_mem apart freeing.dir
    · refine List.not_mem_cons_of_ne_of_not_mem ?_ (freeing.tables j t (by omega) found')
      rintro rfl
      have same : Role.table j = .table i := space.exclusive found' found
      cases same
      omega
    · rw [Machine.freelist_push, List.length_cons, freeing.count, occupied_succ, found]
      rfl
  · have absent : m.table d i = none := if_neg fun both => entry both.2
    rw [if_neg entry]
    refine ⟨m', rfl, freeing.within, freeing.dirBytes, freeing.dir,
      fun j t later found => freeing.tables j t (by omega) found, ?_⟩
    rw [freeing.count, occupied_succ, absent]
    rfl

/-- `freevm` gives back the directory, the page tables and the user part. -/
theorem freevm_within (evo : Evolves k S d m₀ m) :
    ∃ m', freevm k m (some d) = .ok m' ∧ Within k S m₀ m' ∧ m'.freelist.length = m.total d npdentries + 1 := by
  obtain ⟨m₁, ran, cleared⟩ := deallocuvm_cleared 0 evo (Nat.le_refl kernbase)
  have evolves₁ := cleared.evo
  have start : Freeing k S d m₀ m₁ 0 m₁ := {
    within := evolves₁.within
    dirBytes := rfl
    dir := (evolves₁.space.owned d ⟨.dir, rfl⟩).2
    tables := fun j t _ found => (evolves₁.space.owned t ⟨.table j, found⟩).2
    count := rfl }
  obtain ⟨m₂, freed, freeing⟩ : ∃ m₂, (List.range npdentries).foldlM (freeTable k d) m₁ = .ok m₂ ∧
      Freeing k S d m₀ m₁ npdentries m₂ :=
    foldlM_range_invariant _ start fun i m' inside freeing => freeTable_freeing evolves₁ inside freeing
  have owned := evolves₁.space.owned d ⟨.dir, rfl⟩
  refine ⟨m₂.push d, ?_, freeing.within.push owned.1 (evolves₁.inside d (.inl ⟨.dir, rfl⟩)) freeing.dir, ?_⟩
  · simp only [freevm, ran, freed, bind, Except.bind, kfree, if_pos owned.1]
  · -- no user page is left after `deallocuvm`
    have none : occupied userPages (m₁.view d) = 0 := by
      have empty : occupied userPages (m₁.view d) ≤ (∅ : Finset Nat).card := by
        refine occupied_le fun v low _ => ?_
        rw [cleared.view, if_pos ⟨Nat.zero_le v, low⟩]
      exact Nat.le_zero.mp empty
    have same := cleared.total npdentries
    rw [Machine.total, none] at same
    rw [Machine.freelist_push, List.length_cons, freeing.count, ← same]
    omega

end Release

end Xv6Simplesh.Vm
