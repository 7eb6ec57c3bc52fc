import Xv6Simplesh.Library.Counting
import Xv6Simplesh.Vm.Spaces

/-! # How an address space evolves

An address space is sound if no page has two uses and none of its pages is on the free
list.  `Evolves` says what an operation of the kernel on one address space may do: it
keeps it sound, stays within the pages that the space and the free list had, and leaves
entries of the kernel part and page tables in place.  Each store and each call of the
allocator is one step of such an evolution; what it does to the memory that the user
sees is the `view`.
-/

namespace Xv6Simplesh.Vm

open Library Function

/-! ## Sound address spaces -/

structure Pool (k : Symbols) (m : Machine) : Prop where
  nodup : m.freelist.Nodup
  allocatable : ∀ q ∈ m.freelist, k.Allocatable q

structure Space (k : Symbols) (m : Machine) (d : Nat) : Prop extends Pool k m where
  exclusive : Exclusive (m.holder d)
  owned : ∀ q, Held (m.holder d) q → k.Allocatable q ∧ q ∉ m.freelist

/-- A page of memory as its owner sees it. -/
structure Page where
  flags : Nat
  bytes : Bytes

/-- The memory behind the user's entries. -/
def Machine.view (m : Machine) (d v : Nat) : Option Page :=
  (frame v (m.pte d v)).map fun q => ⟨pteFlags (m.pte d v), m.mem q⟩

/-- The pages that an operation on address space `d` can lay its hands on. -/
def Machine.Footprint (m : Machine) (d q : Nat) : Prop := Held (m.holder d) q ∨ q ∈ m.freelist

structure Evolves (k : Symbols) (S : Nat → Prop) (d : Nat) (m m' : Machine) : Prop where
  space : Space k m' d
  outside : ∀ q, ¬ S q → m'.mem q = m.mem q
  inside : ∀ q, m'.Footprint d q → S q
  kernel : ∀ v, userPages ≤ v → present (m.pte d v) → m'.pte d v = m.pte d v
  tables : ∀ i t, m.table d i = some t → m'.table d i = some t

/-- A page that was taken from the free list and is not yet in use. -/
structure Fresh (k : Symbols) (S : Nat → Prop) (d : Nat) (m : Machine) (q : Nat) : Prop where
  allocatable : k.Allocatable q
  inside : S q
  unheld : ¬ Held (m.holder d) q
  taken : q ∉ m.freelist

variable {q t v : Nat}

section Evolution

variable {k : Symbols} {S : Nat → Prop} {d : Nat} {m₀ m m' : Machine}

theorem Evolves.refl (space : Space k m d) (inside : ∀ q, m.Footprint d q → S q) : Evolves k S d m m where
  space := space
  outside _ _ := rfl
  inside := inside
  kernel _ _ _ := rfl
  tables _ _ found := found

theorem ne_of_outside {x : Nat} (out : ¬ S x) (inside : S q) : x ≠ q := fun same => out (same ▸ inside)

/-! ## Steps -/

theorem Evolves.kalloc {rest : List Nat} (evo : Evolves k S d m₀ m) (free : m.freelist = q :: rest) :
    Evolves k S d m₀ { m with freelist := rest } ∧ Fresh k S d { m with freelist := rest } q := by
  have space := evo.space
  have nodup := List.nodup_cons.mp (free ▸ space.nodup)
  have first : q ∈ m.freelist := free ▸ List.mem_cons_self
  have later : ∀ {x}, x ∈ rest → x ∈ m.freelist := fun mem => free ▸ List.mem_cons_of_mem q mem
  constructor
  · exact {
      space := {
        nodup := nodup.2
        allocatable := fun x mem => space.allocatable x (later mem)
        exclusive := space.exclusive
        owned := fun x held => ⟨(space.owned x held).1, fun mem => (space.owned x held).2 (later mem)⟩ }
      outside := evo.outside
      inside := fun x used => evo.inside x (used.imp id later)
      kernel := evo.kernel
      tables := evo.tables }
  · exact ⟨space.allocatable q first, evo.inside q (.inr first), fun held => (space.owned q held).2 first, nodup.1⟩

/-- Storing data, in a page of the user or in a fresh one. -/
theorem Evolves.setPage (evo : Evolves k S d m₀ m) (inside : S q)
    (data : ∀ r, m.holder d r = some q → ∃ v, r = .page v) (bytes : Bytes) :
    Evolves k S d m₀ (m.setPage q bytes) ∧ (m.setPage q bytes).table d = m.table d ∧
      (m.setPage q bytes).pte d = m.pte d := by
  obtain ⟨tables, ptes⟩ := meaning_setPage bytes data
  have holders : (m.setPage q bytes).holder d = m.holder d := holder_congr tables ptes
  refine ⟨?_, tables, ptes⟩
  exact {
    space := {
      nodup := evo.space.nodup
      allocatable := evo.space.allocatable
      exclusive := holders ▸ evo.space.exclusive
      owned := fun x held => evo.space.owned x (holders ▸ held) }
    outside := fun x out => by
      rw [m.mem_setPage_of_ne bytes (ne_of_outside out inside), evo.outside x out]
    inside := fun x used => evo.inside x (used.imp (fun held => holders ▸ held) id)
    kernel := fun v high entry => (congrFun ptes v).trans (evo.kernel v high entry)
    tables := fun i t found => (congrFun tables i).trans (evo.tables i t found) }

theorem Evolves.addTable {i : Nat} (evo : Evolves k S d m₀ m) (fresh : Fresh k S d m t) (inside : i < npdentries)
    (absent : m.table d i = none) :
    Evolves k S d m₀ ((m.setPage t (Bytes.fill 0)).setWord d i (mkPte (t * pgsize) (pteW ||| pteU))) ∧
      ((m.setPage t (Bytes.fill 0)).setWord d i (mkPte (t * pgsize) (pteW ||| pteU))).table d =
        update (m.table d) i (some t) ∧
      ((m.setPage t (Bytes.fill 0)).setWord d i (mkPte (t * pgsize) (pteW ||| pteU))).pte d = m.pte d := by
  have space := evo.space
  obtain ⟨tables, ptes⟩ := meaning_addTable space.exclusive inside absent fresh.unheld fresh.allocatable.lt
  refine ⟨?_, tables, ptes⟩
  have holders : ((m.setPage t (Bytes.fill 0)).setWord d i (mkPte (t * pgsize) (pteW ||| pteU))).holder d =
      update (m.holder d) (.table i) (some t) := by
    funext r
    cases r with
    | dir => rfl
    | table j =>
      simp only [Machine.holder, tables]
      by_cases same : j = i
      · rw [same, update_self, update_self]
      · rw [update_of_ne same, update_of_ne fun both => same (Role.table.inj both)]
        rfl
    | page v =>
      have ne : Role.page v ≠ .table i := nofun
      rw [update_of_ne ne]
      exact congrArg (frame v) (congrFun ptes v)
  have empty : m.holder d (.table i) = none := absent
  have held : ∀ x, Held (update (m.holder d) (.table i) (some t)) x → x = t ∨ Held (m.holder d) x :=
    fun x => (held_take empty t x).mp
  exact {
    space := {
      nodup := space.nodup
      allocatable := space.allocatable
      exclusive := by
        rw [holders]
        exact space.exclusive.take fresh.unheld _
      owned := fun x h => by
        rcases held x (holders ▸ h) with rfl | h
        · exact ⟨fresh.allocatable, fresh.taken⟩
        · exact space.owned x h }
    outside := fun x out => by
      have dir : x ≠ d := ne_of_outside out (evo.inside d (.inl ⟨.dir, rfl⟩))
      rw [Machine.mem_setWord_of_ne _ _ _ dir, m.mem_setPage_of_ne _ (ne_of_outside out fresh.inside),
        evo.outside x out]
    inside := fun x used => by
      rcases used with h | free
      · rcases held x (holders ▸ h) with rfl | h
        · exact fresh.inside
        · exact evo.inside x (.inl h)
      · exact evo.inside x (.inr free)
    kernel := fun v high entry => (congrFun ptes v).trans (evo.kernel v high entry)
    tables := fun j t' found => by
      have found := evo.tables j t' found
      rw [tables, update_of_ne]
      · exact found
      · rintro rfl
        rw [absent] at found
        cases found }

/-- Storing an entry: of no page of the user, of a fresh page or of the page that was
there. -/
theorem Evolves.setEntry {w : Nat} (evo : Evolves k S d m₀ m) (found : m.table d (v / nptentries) = some t)
    (bound : w < 2 ^ 32) (kernel : userPages ≤ v → ¬ present (m.pte d v))
    (page : ∀ q, frame v w = some q → Fresh k S d m q ∨ frame v (m.pte d v) = some q) :
    Evolves k S d m₀ (m.setWord t (v % nptentries) w) ∧ (m.setWord t (v % nptentries) w).table d = m.table d ∧
      (m.setWord t (v % nptentries) w).pte d = update (m.pte d) v w := by
  have space := evo.space
  obtain ⟨tables, ptes⟩ := meaning_setEntry space.exclusive found bound
  refine ⟨?_, tables, ptes⟩
  have holders : (m.setWord t (v % nptentries) w).holder d = update (m.holder d) (.page v) (frame v w) := by
    funext r
    cases r with
    | dir => rfl
    | table j =>
      have ne : Role.table j ≠ .page v := nofun
      rw [update_of_ne ne]
      exact congrFun tables j
    | page u =>
      simp only [Machine.holder, ptes]
      by_cases same : u = v
      · rw [same, update_self, update_self]
      · rw [update_of_ne same, update_of_ne fun both => same (Role.page.inj both)]
        rfl
  have held : ∀ x, Held ((m.setWord t (v % nptentries) w).holder d) x → Fresh k S d m x ∨ Held (m.holder d) x := by
    intro x h
    rw [holders] at h
    rcases held_update h with new | ⟨r, -, holds⟩
    · exact (page x new).imp id fun same => ⟨.page v, same⟩
    · exact .inr ⟨r, holds⟩
  have table : S t := evo.inside t (.inl ⟨.table _, found⟩)
  exact {
    space := {
      nodup := space.nodup
      allocatable := space.allocatable
      exclusive := by
        rw [holders]
        refine space.exclusive.set fun r q ne new holds => ?_
        rcases page q new with fresh | same
        · exact fresh.unheld ⟨r, holds⟩
        · exact ne (space.exclusive holds same)
      owned := fun x h => by
        rcases held x h with fresh | h
        · exact ⟨fresh.allocatable, fresh.taken⟩
        · exact space.owned x h }
    outside := fun x out => by
      rw [Machine.mem_setWord_of_ne _ _ _ (ne_of_outside out table), evo.outside x out]
    inside := fun x used => by
      rcases used with h | free
      · exact (held x h).elim Fresh.inside fun h => evo.inside x (.inl h)
      · exact evo.inside x (.inr free)
    kernel := fun u high entry => by
      have same := evo.kernel u high entry
      rw [ptes, update_of_ne]
      · exact same
      · rintro rfl
        exact kernel high (same ▸ entry)
    tables := fun i t' present => (congrFun tables i).trans (evo.tables i t' present) }

theorem Evolves.push (evo : Evolves k S d m₀ m) (fresh : Fresh k S d m q) :
    Evolves k S d m₀ (m.push q) ∧ (m.push q).table d = m.table d ∧ (m.push q).pte d = m.pte d := by
  obtain ⟨written, tables, ptes⟩ := evo.setPage fresh.inside (fun r holds => absurd ⟨r, holds⟩ fresh.unheld)
    (freePage m.freelist)
  refine ⟨?_, tables, ptes⟩
  have holders : (m.push q).holder d = m.holder d := holder_congr tables ptes
  exact {
    space := {
      nodup := List.nodup_cons.mpr ⟨fresh.taken, evo.space.nodup⟩
      allocatable := List.forall_mem_cons.mpr ⟨fresh.allocatable, evo.space.allocatable⟩
      exclusive := written.space.exclusive
      owned := fun x held => by
        have held' : Held (m.holder d) x := holders ▸ held
        have ne : x ≠ q := fun same => fresh.unheld (same ▸ held')
        exact ⟨(written.space.owned x held).1,
          List.not_mem_cons_of_ne_of_not_mem ne (evo.space.owned x held').2⟩ }
    outside := written.outside
    inside := fun x used => by
      rcases used with held | free
      · exact written.inside x (.inl held)
      · rcases List.mem_cons.mp free with rfl | free
        · exact fresh.inside
        · exact evo.inside x (.inr free)
    kernel := written.kernel
    tables := written.tables }

theorem Evolves.kfree (fresh : Fresh k S d m q) : Vm.kfree k m q = .ok (m.push q) :=
  if_pos fresh.allocatable

end Evolution

/-! ## Views -/

section Views

variable {k : Symbols} {S : Nat → Prop} {d : Nat} {m m' : Machine}

theorem view_congr (ptes : m'.pte d = m.pte d)
    (bytes : ∀ v q, frame v (m.pte d v) = some q → m'.mem q = m.mem q) : m'.view d = m.view d := by
  funext v
  rw [Machine.view, Machine.view, ptes]
  cases held : frame v (m.pte d v) with
  | none => rfl
  | some q => exact congrArg (fun bytes => some (Page.mk (pteFlags (m.pte d v)) bytes)) (bytes v q held)

theorem view_eq_none : m.view d v = none ↔ frame v (m.pte d v) = none := Option.map_eq_none_iff

theorem not_present_of_view (low : v < userPages) (none : m.view d v = none) : ¬ present (m.pte d v) := by
  intro entry
  have free := view_eq_none.mp none
  rw [frame_eq_some.mpr ⟨entry, .inl low, rfl⟩] at free
  cases free

theorem view_of_frame (held : frame v (m.pte d v) = some q) : m.view d v = some ⟨pteFlags (m.pte d v), m.mem q⟩ := by
  rw [Machine.view, held]
  rfl

/-- Data pages are apart from the directory and the page tables. -/
theorem Space.page_ne {r : Role} {x : Nat} (space : Space k m d) (held : frame v (m.pte d v) = some q)
    (other : m.holder d r = some x) (ne : r ≠ .page v) : q ≠ x := by
  rintro rfl
  exact ne (space.exclusive other held)

theorem Fresh.view_setPage (fresh : Fresh k S d m q) (bytes : Bytes) : (m.setPage q bytes).view d = m.view d := by
  obtain ⟨-, ptes⟩ := meaning_setPage bytes fun r holds => absurd ⟨r, holds⟩ fresh.unheld
  refine view_congr ptes fun v x held => m.mem_setPage_of_ne bytes ?_
  rintro rfl
  exact fresh.unheld ⟨.page v, held⟩

theorem Fresh.view_push (fresh : Fresh k S d m q) : (m.push q).view d = m.view d :=
  fresh.view_setPage _

theorem view_addTable {i : Nat} (space : Space k m d) (fresh : Fresh k S d m t) (inside : i < npdentries)
    (absent : m.table d i = none) :
    ((m.setPage t (Bytes.fill 0)).setWord d i (mkPte (t * pgsize) (pteW ||| pteU))).view d = m.view d := by
  obtain ⟨-, ptes⟩ := meaning_addTable space.exclusive inside absent fresh.unheld fresh.allocatable.lt
  refine view_congr ptes fun v x held => ?_
  have dir : x ≠ d := space.page_ne (r := .dir) held rfl nofun
  rw [Machine.mem_setWord_of_ne _ _ _ dir, m.mem_setPage_of_ne]
  rintro rfl
  exact fresh.unheld ⟨.page v, held⟩

theorem view_setEntry {w : Nat} (space : Space k m d) (found : m.table d (v / nptentries) = some t)
    (bound : w < 2 ^ 32) (page : ∀ q, frame v w = some q → Fresh k S d m q ∨ frame v (m.pte d v) = some q) :
    (m.setWord t (v % nptentries) w).view d =
      update (m.view d) v ((frame v w).map fun q => ⟨pteFlags w, m.mem q⟩) := by
  obtain ⟨-, ptes⟩ := meaning_setEntry space.exclusive found bound
  have tableRole : ∀ u x, frame u (m.pte d u) = some x → x ≠ t :=
    fun u x held => space.page_ne (r := .table (v / nptentries)) held found nofun
  funext u
  rw [Machine.view, ptes]
  by_cases same : u = v
  · rw [same, update_self, update_self]
    cases new : frame v w with
    | none => rfl
    | some q =>
      have apart : q ≠ t := by
        rcases page q new with fresh | old
        · rintro rfl
          exact fresh.unheld ⟨.table _, found⟩
        · exact tableRole v q old
      simp only [Option.map_some, Machine.mem_setWord_of_ne _ _ _ apart]
  · rw [update_of_ne same, update_of_ne same, Machine.view]
    cases held : frame u (m.pte d u) with
    | none => rfl
    | some x => simp only [Option.map_some, Machine.mem_setWord_of_ne _ _ _ (tableRole u x held)]

theorem view_setPage (space : Space k m d) (held : frame v (m.pte d v) = some q) (bytes : Bytes) :
    (m.setPage q bytes).view d = update (m.view d) v (some ⟨pteFlags (m.pte d v), bytes⟩) := by
  obtain ⟨-, ptes⟩ := meaning_setPage bytes fun r holds => ⟨v, space.exclusive holds held⟩
  funext u
  rw [Machine.view, ptes]
  by_cases same : u = v
  · rw [same, update_self, held]
    simp
  · rw [update_of_ne same, Machine.view]
    cases other : frame u (m.pte d u) with
    | none => rfl
    | some x =>
      have apart : x ≠ q := space.page_ne (r := .page v) other held fun both => same (Role.page.inj both).symm
      simp only [Option.map_some, m.mem_setPage_of_ne _ apart]

end Views

/-! ## Frames -/

section Frames

variable {k : Symbols} {d : Nat} {m m' : Machine}

/-- An address space means the same in every machine that has its pages as they are. -/
structure Kept (m m' : Machine) (d : Nat) : Prop where
  table : m'.table d = m.table d
  pte : m'.pte d = m.pte d
  view : m'.view d = m.view d

theorem Kept.holder (kept : Kept m m' d) : m'.holder d = m.holder d := holder_congr kept.table kept.pte

theorem kept_of_bytes (same : ∀ q, Held (m.holder d) q → m'.mem q = m.mem q) : Kept m m' d := by
  have dir : m'.mem d = m.mem d := same d ⟨.dir, rfl⟩
  have ptes : m'.pte d = m.pte d := pte_congr dir fun i t found => same t ⟨.table i, found⟩
  exact ⟨table_congr dir, ptes, view_congr ptes fun v q held => same q ⟨.page v, held⟩⟩

/-- The pages of an address space are none of the free pages. -/
theorem Space.apart (space : Space k m d) (held : Held (m.holder d) q) : q ∉ m.freelist :=
  (space.owned q held).2

/-- A sound space stays sound while others use the rest of the memory. -/
theorem Space.keep (space : Space k m d) (pool : Pool k m') (kept : Kept m m' d)
    (taken : ∀ q, Held (m.holder d) q → q ∉ m'.freelist) : Space k m' d where
  toPool := pool
  exclusive := kept.holder ▸ space.exclusive
  owned q held := by
    rw [kept.holder] at held
    exact ⟨(space.owned q held).1, taken q held⟩

end Frames

/-! ## The number of pages -/

/-- The free pages, the pages of the user part, and the page tables with index below `n`. -/
def Machine.total (m : Machine) (d n : Nat) : Nat :=
  m.freelist.length + occupied userPages (m.view d) + occupied n (m.table d)

theorem Fresh.total_push {k : Symbols} {S : Nat → Prop} {d : Nat} {m : Machine} (fresh : Fresh k S d m q) (n : Nat) :
    (m.push q).total d n = m.total d n + 1 := by
  obtain ⟨tables, -⟩ := meaning_setPage (freePage m.freelist) fun r holds => absurd ⟨r, holds⟩ fresh.unheld
  have tables' : (m.push q).table d = m.table d := tables
  rw [Machine.total, Machine.total, fresh.view_push, tables', Machine.freelist_push, List.length_cons]
  omega

/-- New data in a page of the user, or new flags, do not change the number of pages. -/
theorem total_congr {d n : Nat} {m m' : Machine} (tables : m'.table d = m.table d) (free : m'.freelist = m.freelist)
    (pages : ∀ v, (m'.view d v).isSome = (m.view d v).isSome) : m'.total d n = m.total d n := by
  rw [Machine.total, Machine.total, tables, free, occupied_congr fun v _ => pages v]

end Xv6Simplesh.Vm
