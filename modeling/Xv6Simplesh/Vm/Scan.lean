import Mathlib.Data.List.Nodup
import Xv6Simplesh.Library.Loops
import Xv6Simplesh.Vm.Spaces

/-! # `deallocuvm` page by page

The loop of `deallocuvm` steps over a whole page table where there is none.  The plain way is
to visit every page of the range: `clearPage` for one page, `scan` for the range.  The two are
the same function, whatever is in the memory, panics included: from an entry of the directory
that is not present to the next entry no page has a table, and nothing changes on the way.

What the scan does is then a matter of one page: if no page of the memory has two uses, the
entry becomes 0, the page goes to the free list and nothing else moves.
-/

namespace Xv6Simplesh.Vm

open Library Function

/-! ## Sizes and pages -/

/-- The number of pages of a process of the given size. -/
def pageCount (sz : Nat) : Nat := (sz + pgsize - 1) / pgsize

variable {oldsz sz : Nat}

theorem lt_pageCount {v : Nat} : v < pageCount sz ↔ v * pgsize < sz := by
  dsimp only [pageCount, pgsize]
  omega

theorem pageCount_le (bound : sz ≤ kernbase) : pageCount sz ≤ userPages := by
  dsimp only [pageCount, pgsize, kernbase, userPages] at *
  omega

theorem pgroundup_eq (bound : sz ≤ kernbase) : pgroundup sz = pageCount sz * pgsize := by
  dsimp only [pgroundup, pageCount, pgsize, kernbase] at *
  omega

theorem pageCount_mul (n : Nat) : pageCount (n * pgsize) = n := by
  dsimp only [pageCount, pgsize]
  omega

/-! ## The plain scan -/

/-- The pages with an address from `PGROUNDUP(newsz)` to `oldsz`, in order. -/
def pagesBetween (newsz oldsz : Nat) : List Nat :=
  (List.range userPages).filter fun v => pgroundup newsz ≤ v * pgsize ∧ v * pgsize < oldsz

/-- The loop body of `deallocuvm` for page `v`; without a page table there is nothing to do. -/
def clearPage (k : Symbols) (d : Nat) (m : Machine) (v : Nat) : Except Panic Machine :=
  match (walkpgdir m d (v * pgsize) false).1 with
  | none => .ok m
  | some (pgtab, idx) =>
    let pte := (m.mem pgtab).word idx
    if present pte then
      if ptePage pte = 0 then .error .deallocuvm
      else
        match kfree k m (ptePage pte) with
        | .error panic => .error panic
        | .ok m => .ok (m.setWord pgtab idx 0)
    else .ok m

/-- Every page of the range, one by one. -/
def scan (k : Symbols) (m : Machine) (d oldsz newsz : Nat) : Except Panic Machine :=
  (pagesBetween newsz oldsz).foldlM (clearPage k d) m

theorem pagesBetween_eq {newsz : Nat} (smaller : newsz ≤ oldsz) (user : oldsz ≤ kernbase) :
    pagesBetween newsz oldsz = List.range' (pageCount newsz) (pageCount oldsz - pageCount newsz) := by
  have order : pageCount newsz ≤ pageCount oldsz := by
    dsimp only [pageCount, pgsize]
    omega
  have top := pageCount_le user
  have inside : ∀ v, (pgroundup newsz ≤ v * pgsize ∧ v * pgsize < oldsz) ↔ pageCount newsz ≤ v ∧ v < pageCount oldsz := by
    intro v
    rw [lt_pageCount, pgroundup_eq (by omega)]
    exact and_congr_left' (Nat.mul_le_mul_right_iff (by decide))
  -- the pages below the range, the range, and the pages above it
  have split : List.range userPages = List.range' 0 (pageCount newsz) ++
      (List.range' (pageCount newsz) (pageCount oldsz - pageCount newsz) ++
        List.range' (pageCount oldsz) (userPages - pageCount oldsz)) := by
    have upper := List.range'_append_1 (s := pageCount newsz) (m := pageCount oldsz - pageCount newsz)
      (n := userPages - pageCount oldsz)
    have lower := List.range'_append_1 (s := 0) (m := pageCount newsz) (n := userPages - pageCount newsz)
    rw [Nat.add_sub_cancel' order] at upper
    rw [Nat.zero_add, Nat.add_sub_cancel' (Nat.le_trans order top)] at lower
    rw [List.range_eq_range', ← lower, upper]
    congr 2
    omega
  rw [pagesBetween, split, List.filter_append, List.filter_append, List.filter_eq_nil_iff.mpr,
    List.filter_eq_self.mpr, List.filter_eq_nil_iff.mpr, List.nil_append, List.append_nil]
  · intro v member
    simp only [inside, List.mem_range'_1, decide_eq_true_eq] at member ⊢
    omega
  · intro v member
    simp only [inside, List.mem_range'_1, decide_eq_true_eq] at member ⊢
    omega
  · intro v member
    simp only [inside, List.mem_range'_1, decide_eq_true_eq] at member ⊢
    omega

section Scan

variable {k : Symbols} {m m' : Machine} {d v t : Nat}

theorem page_walkpgdir (m : Machine) (d : Nat) (low : v < userPages) :
    (walkpgdir m d (v * pgsize) false).1 = (m.table d (v / nptentries)).map fun t => (t, v % nptentries) := by
  have addr : v * pgsize < 2 ^ 32 := by
    dsimp only [pgsize, userPages] at low ⊢
    omega
  rw [walkpgdir_false addr, Nat.mul_div_cancel v (by decide : 0 < pgsize)]

theorem clearPage_of_none (k : Symbols) (low : v < userPages) (absent : m.table d (v / nptentries) = none) :
    clearPage k d m v = .ok m := by
  rw [clearPage, page_walkpgdir m d low, absent]
  rfl

theorem clearPage_of_table (k : Symbols) (low : v < userPages) (found : m.table d (v / nptentries) = some t) :
    clearPage k d m v =
      if present (m.pte d v) then
        if ptePage (m.pte d v) = 0 then .error .deallocuvm
        else
          match kfree k m (ptePage (m.pte d v)) with
          | .error panic => .error panic
          | .ok m => .ok (m.setWord t (v % nptentries) 0)
      else .ok m := by
  rw [clearPage, page_walkpgdir m d low, found, pte_of_table found]
  rfl

theorem clearPage_of_absent (k : Symbols) (low : v < userPages) (absent : ¬ present (m.pte d v)) :
    clearPage k d m v = .ok m := by
  cases found : m.table d (v / nptentries) with
  | none => exact clearPage_of_none k low found
  | some t => rw [clearPage_of_table k low found, if_neg absent]

theorem clearPage_of_present (low : v < userPages) (found : m.table d (v / nptentries) = some t)
    (there : present (m.pte d v)) (allocatable : k.Allocatable (ptePage (m.pte d v))) :
    clearPage k d m v = .ok ((m.push (ptePage (m.pte d v))).setWord t (v % nptentries) 0) := by
  rw [clearPage_of_table k low found, if_pos there, if_neg allocatable.pos.ne', kfree, if_pos allocatable]

/-- How `clearPage` changes the free list, if it comes to an end. -/
theorem freelist_clearPage (low : v < userPages) (ran : clearPage k d m v = .ok m') :
    m' = m ∧ ¬ present (m.pte d v) ∨
      m'.freelist = ptePage (m.pte d v) :: m.freelist ∧ present (m.pte d v) := by
  by_cases there : present (m.pte d v)
  · obtain ⟨t, found⟩ := table_of_present there
    rw [clearPage_of_table k low found, if_pos there] at ran
    split at ran
    · cases ran
    · rw [kfree] at ran
      split at ran
      next => cases ran
      next m₁ freed =>
        split at freed
        · cases freed
          cases ran
          exact .inr ⟨rfl, there⟩
        · cases freed
  · rw [clearPage_of_absent k low there] at ran
    cases ran
    exact .inl ⟨rfl, there⟩

/-! ## The jump -/

theorem scan_jump {v' n : Nat} (forward : v ≤ v') (limit : n ≤ userPages)
    (absent : ∀ u, v ≤ u → u < v' → m.table d (u / nptentries) = none) :
    (List.range' v (n - v)).foldlM (clearPage k d) m = (List.range' v' (n - v')).foldlM (clearPage k d) m := by
  obtain ⟨count, rfl⟩ := Nat.exists_eq_add_of_le forward
  induction count generalizing v with
  | zero => rfl
  | succ count ih =>
    by_cases inside : v < n
    · have first : n - v = n - (v + 1) + 1 := by omega
      rw [first, List.range'_succ, List.foldlM_cons,
        clearPage_of_none k (by omega) (absent v (Nat.le_refl v) (by omega)), ok_bind,
        ih (by omega) fun u from' to' => absent u (by omega) (by omega)]
      congr 2 <;> omega
    · rw [Nat.sub_eq_zero_of_le (by omega), Nat.sub_eq_zero_of_le (by omega)]
      rfl

/-- The loop of `deallocuvm`, with its jumps, is the plain scan. -/
theorem deallocuvmLoop_eq (user : oldsz ≤ kernbase) (m : Machine) (v : Nat) :
    deallocuvmLoop k m d oldsz (v * pgsize) =
      (List.range' v (pageCount oldsz - v)).foldlM (clearPage k d) m := by
  have limit := pageCount_le user
  induction left : pageCount oldsz - v using Nat.strong_induction_on generalizing v m with
  | _ left ih =>
  subst left
  rw [deallocuvmLoop]
  by_cases more : v * pgsize < oldsz
  · have inside : v < pageCount oldsz := lt_pageCount.mpr more
    have low : v < userPages := Nat.lt_of_lt_of_le inside limit
    have next : v * pgsize + pgsize = (v + 1) * pgsize := (Nat.succ_mul v pgsize).symm
    have first : pageCount oldsz - v = pageCount oldsz - (v + 1) + 1 := by omega
    rw [if_pos more, page_walkpgdir m d low]
    cases found : m.table d (v / nptentries) with
    | none =>
      -- `PGADDR(PDX(a) + 1, 0, 0)` is the first page of the next table
      have jump : (pdx (v * pgsize) + 1) * 2 ^ 22 = (v / nptentries + 1) * nptentries * pgsize := by
        rw [pdx_eq, Nat.mul_div_cancel v (by decide : 0 < pgsize), Nat.mul_assoc,
          show nptentries * pgsize = 2 ^ 22 from rfl]
      have forward : v < (v / nptentries + 1) * nptentries := by
        dsimp only [nptentries]
        omega
      simp only [Option.map_none, jump]
      rw [ih _ (by omega) m _ rfl]
      refine (scan_jump (Nat.le_of_lt forward) limit fun u from' to' => ?_).symm
      have row : u / nptentries = v / nptentries := by
        dsimp only [nptentries] at *
        omega
      rw [row, found]
    | some t =>
      rw [first, List.range'_succ, List.foldlM_cons, clearPage_of_table k low found]
      simp only [Option.map_some, ← pte_of_table found, next]
      -- the same cases on both sides, with the rest of the range after them
      split
      next =>
        split
        next => rfl
        next =>
          cases kfree k m (ptePage (m.pte d v)) with
          | error panic => rfl
          | ok m₁ => exact ih _ (by omega) _ _ rfl
      next => exact ih _ (by omega) _ _ rfl
  · have empty : pageCount oldsz - v = 0 :=
      Nat.sub_eq_zero_of_le (Nat.le_of_not_lt fun inside => more (lt_pageCount.mp inside))
    rw [if_neg more, empty]
    rfl

/-- `deallocuvm` is the plain scan, on every memory and every directory. -/
theorem deallocuvm_eq_scan {newsz : Nat} (smaller : newsz < oldsz) (user : oldsz ≤ kernbase) :
    deallocuvm k m d oldsz newsz = (scan k m d oldsz newsz).map fun m' => (newsz, m') := by
  rw [deallocuvm, if_neg (Nat.not_le.mpr smaller), pgroundup_eq (by omega), deallocuvmLoop_eq user, scan,
    pagesBetween_eq (Nat.le_of_lt smaller) user]
  cases (List.range' (pageCount newsz) (pageCount oldsz - pageCount newsz)).foldlM (clearPage k d) m with
  | error panic => rfl
  | ok m₁ => rfl

/-! ## What the scan does -/

/-- No page of the memory has two uses in the directory, and the pages of the user part are
pages of the allocator that are not free. -/
structure Unshared (k : Symbols) (m : Machine) (d : Nat) : Prop where
  exclusive : Exclusive (m.holder d)
  pages : ∀ v q, v < userPages → frame v (m.pte d v) = some q → k.Allocatable q ∧ q ∉ m.freelist

/-- The physical pages behind a list of virtual ones. -/
def framesOf (m : Machine) (d : Nat) (pages : List Nat) : List Nat := pages.filterMap fun v => frame v (m.pte d v)

/-- `m'` is `m` without the given user pages. -/
structure Scanned (m : Machine) (d : Nat) (pages : List Nat) (m' : Machine) : Prop where
  table : m'.table d = m.table d
  pte : ∀ u, m'.pte d u = if u ∈ pages ∧ present (m.pte d u) then 0 else m.pte d u
  freelist : m'.freelist = (framesOf m d pages).reverse ++ m.freelist
  outside : ∀ q, q ∉ framesOf m d pages → (∀ i, m.table d i ≠ some q) → m'.mem q = m.mem q

theorem frame_of_present (low : v < userPages) (there : present (m.pte d v)) :
    frame v (m.pte d v) = some (ptePage (m.pte d v)) := frame_eq_some.mpr ⟨there, .inl low, rfl⟩

theorem Unshared.clearPage (unshared : Unshared k m d) (low : v < userPages) :
    ∃ m', Vm.clearPage k d m v = .ok m' ∧ Scanned m d [v] m' ∧ Unshared k m' d := by
  by_cases there : present (m.pte d v)
  · obtain ⟨t, found⟩ := table_of_present there
    have held := frame_of_present low there
    generalize page : ptePage (m.pte d v) = q at held
    have exclusive := unshared.exclusive
    have sole : ∀ r, m.holder d r = some q → ∃ u, r = .page u := fun r holds => ⟨v, exclusive holds held⟩
    obtain ⟨tables₁, ptes₁⟩ : (m.push q).table d = m.table d ∧ (m.push q).pte d = m.pte d :=
      meaning_setPage (freePage m.freelist) sole
    have holders₁ : (m.push q).holder d = m.holder d := holder_congr tables₁ ptes₁
    obtain ⟨tables, ptes⟩ := meaning_setEntry (m := m.push q) (w := 0) (holders₁ ▸ exclusive) (tables₁ ▸ found)
      (by decide)
    rw [tables₁] at tables
    rw [ptes₁] at ptes
    have holders : ∀ r x, ((m.push q).setWord t (v % nptentries) 0).holder d r = some x →
        r ≠ .page v ∧ m.holder d r = some x := by
      intro r x holds
      cases r with
      | dir => exact ⟨nofun, holds⟩
      | table i =>
        rw [Machine.holder, tables] at holds
        exact ⟨nofun, holds⟩
      | page u =>
        simp only [Machine.holder, ptes] at holds
        by_cases same : u = v
        · rw [same, update_self] at holds
          cases holds
        · rw [update_of_ne same] at holds
          exact ⟨fun eq => same (Role.page.inj eq), holds⟩
    refine ⟨_, clearPage_of_present low found there (page ▸ (unshared.pages v q low held).1), ?_, ?_⟩
    · rw [page]
      exact {
        table := tables
        pte := fun u => by
          rw [ptes]
          by_cases same : u = v
          · rw [same, update_self, if_pos ⟨List.mem_singleton_self v, there⟩]
          · rw [update_of_ne same, if_neg fun both => same (List.mem_singleton.mp both.1)]
        freelist := by
          simp only [framesOf, List.filterMap_cons, held, List.filterMap_nil]
          rfl
        outside := fun x out notTable => by
          simp only [framesOf, List.filterMap_cons, held, List.filterMap_nil, List.mem_singleton] at out
          have apart : x ≠ t := fun same => notTable _ (same ▸ found)
          rw [Machine.mem_setWord_of_ne _ _ _ apart, m.mem_push_of_ne out] }
    · rw [page]
      exact {
        exclusive := fun r r' x holds holds' => exclusive (holders r x holds).2 (holders r' x holds').2
        pages := fun u x below holds => by
          obtain ⟨ne, holds'⟩ := holders (.page u) x holds
          obtain ⟨allocatable, taken⟩ := unshared.pages u x below holds'
          refine ⟨allocatable, List.not_mem_cons_of_ne_of_not_mem ?_ taken⟩
          intro same
          exact ne (exclusive holds' (same ▸ held)) }
  · refine ⟨m, clearPage_of_absent k low there, ⟨rfl, fun u => ?_, ?_, fun _ _ _ => rfl⟩, unshared⟩
    · rw [if_neg]
      rintro ⟨member, entry⟩
      exact there (List.mem_singleton.mp member ▸ entry)
    · simp [framesOf, frame, there]

theorem framesOf_cons (m : Machine) (d v : Nat) (pages : List Nat) :
    framesOf m d (v :: pages) = framesOf m d [v] ++ framesOf m d pages := by
  rw [framesOf, ← List.singleton_append, List.filterMap_append]
  rfl

variable {pages : List Nat}

theorem Scanned.framesOf (scanned : Scanned m d [v] m') (other : v ∉ pages) :
    Vm.framesOf m' d pages = Vm.framesOf m d pages := by
  apply List.filterMap_congr
  intro u member
  have ne : u ≠ v := fun same => other (same ▸ member)
  rw [scanned.pte, if_neg fun both => ne (List.mem_singleton.mp both.1)]

theorem Scanned.cons {m₁ : Machine} (first : Scanned m d [v] m₁) (rest : Scanned m₁ d pages m')
    (other : v ∉ pages) : Scanned m d (v :: pages) m' where
  table := rest.table.trans first.table
  pte u := by
    rw [rest.pte, first.pte]
    by_cases same : u = v
    · simp [same, other]
    · simp [same]
  freelist := by
    rw [rest.freelist, first.freelist, first.framesOf other, framesOf_cons m d v pages, List.reverse_append,
      List.append_assoc]
  outside q out notTable := by
    rw [framesOf_cons, List.mem_append, not_or] at out
    rw [rest.outside q (first.framesOf other ▸ out.2) (first.table ▸ notTable), first.outside q out.1 notTable]

theorem Unshared.scan (unshared : Unshared k m d) (nodup : pages.Nodup) (low : ∀ v ∈ pages, v < userPages) :
    ∃ m', pages.foldlM (Vm.clearPage k d) m = .ok m' ∧ Scanned m d pages m' := by
  induction pages generalizing m with
  | nil =>
    exact ⟨m, rfl, rfl, fun u => (if_neg fun both => List.not_mem_nil both.1).symm, rfl, fun _ _ _ => rfl⟩
  | cons v pages ih =>
    obtain ⟨other, nodup⟩ := List.nodup_cons.mp nodup
    obtain ⟨m₁, cleared, first, unshared₁⟩ := unshared.clearPage (low v (.head _))
    obtain ⟨m', ran, rest⟩ := ih unshared₁ nodup fun u member => low u (List.mem_cons_of_mem v member)
    refine ⟨m', ?_, first.cons rest other⟩
    rw [List.foldlM_cons, cleared]
    exact ran

theorem Unshared.nodup_framesOf (unshared : Unshared k m d) (nodup : pages.Nodup) : (framesOf m d pages).Nodup := by
  refine List.Nodup.filterMap (fun u v q first snd => ?_) nodup
  have same : Role.page u = .page v := unshared.exclusive first snd
  exact Role.page.inj same

/-- `deallocuvm` does what a visit to every page of the range does: it clears the entries that
are present, gives back their pages, which are all different and none of them free, and
leaves the rest as it is. -/
theorem deallocuvm_plain {oldsz newsz : Nat} (unshared : Unshared k m d) (smaller : newsz < oldsz)
    (user : oldsz ≤ kernbase) :
    deallocuvm k m d oldsz newsz = (scan k m d oldsz newsz).map (fun m' => (newsz, m')) ∧
      ∃ m', deallocuvm k m d oldsz newsz = .ok (newsz, m') ∧ Scanned m d (pagesBetween newsz oldsz) m' ∧
        (framesOf m d (pagesBetween newsz oldsz)).Nodup ∧
        ∀ q ∈ framesOf m d (pagesBetween newsz oldsz), q ∉ m.freelist := by
  have nodup : (pagesBetween newsz oldsz).Nodup := List.nodup_range.filter _
  have low : ∀ v ∈ pagesBetween newsz oldsz, v < userPages := fun v member =>
    List.mem_range.mp (List.mem_filter.mp member).1
  have same := deallocuvm_eq_scan (k := k) (m := m) (d := d) smaller user
  obtain ⟨m', ran, scanned⟩ := unshared.scan nodup low
  refine ⟨same, m', ?_, scanned, ?_, ?_⟩
  · rw [same, scan, ran]
    rfl
  · exact unshared.nodup_framesOf nodup
  · intro q member
    obtain ⟨v, inside, held⟩ := List.mem_filterMap.mp member
    exact (unshared.pages v q (low v inside) held).2

end Scan

/-! ### A directory with a gap -/

/-- Directory 512 has no table for the first 4 MB and page 514 in the table after it. -/
def gapMachine : Machine where
  mem q :=
    if q = 512 then (Bytes.fill 0).setWord 1 (mkPte (513 * pgsize) (pteW ||| pteU))
    else if q = 513 then (Bytes.fill 0).setWord 5 (mkPte (514 * pgsize) (pteW ||| pteU))
    else Bytes.fill 0
  freelist := []

/-- A kernel that ends at 1 MB and 64 KB. -/
def tinyKernel : Symbols := ⟨0x101000, 0x110000, by decide, by decide, by decide, by decide⟩

theorem table_gapMachine (i : Nat) : gapMachine.table 512 i = if i = 1 then some 513 else none := by
  by_cases snd : i = 1
  · subst snd
    decide
  · rw [Machine.table, if_neg snd]
    have word : (gapMachine.mem 512).word i = 0 := Bytes.word_setWord_ne _ _ (Ne.symm snd)
    rw [word]
    exact if_neg fun both => absurd both.2 (by decide)

theorem pte_gapMachine (v : Nat) :
    gapMachine.pte 512 v = if v = 1029 then mkPte (514 * pgsize) (pteW ||| pteU) else 0 := by
  by_cases row : v / nptentries = 1
  · have found : gapMachine.table 512 (v / nptentries) = some 513 := by rw [table_gapMachine, if_pos row]
    rw [pte_of_table found]
    by_cases there : v = 1029
    · rw [there, if_pos rfl]
      decide
    · have column : 5 ≠ v % nptentries := by
        dsimp only [nptentries] at row ⊢
        omega
      rw [if_neg there]
      exact Bytes.word_setWord_ne _ _ column
  · have absent : gapMachine.table 512 (v / nptentries) = none := by rw [table_gapMachine, if_neg row]
    rw [pte_of_none absent, if_neg]
    rintro rfl
    exact row rfl

theorem unshared_gapMachine : Unshared tinyKernel gapMachine 512 := by
  have page : ∀ v q, frame v (gapMachine.pte 512 v) = some q → v = 1029 ∧ q = 514 := by
    intro v q held
    rw [pte_gapMachine] at held
    by_cases there : v = 1029
    · rw [if_pos there, frame_mkPte (by decide) (.inr (by decide))] at held
      exact ⟨there, (Option.some.inj held).symm⟩
    · rw [if_neg there] at held
      cases held
  have table : ∀ i q, gapMachine.table 512 i = some q → i = 1 ∧ q = 513 := by
    intro i q found
    rw [table_gapMachine] at found
    split at found
    next snd => exact ⟨snd, (Option.some.inj found).symm⟩
    next => cases found
  constructor
  · intro r r' q holds holds'
    cases r with
    | dir =>
      cases holds
      cases r' with
      | dir => rfl
      | table j => exact absurd (table j _ holds').2 (by decide)
      | page u => exact absurd (page u _ holds').2 (by decide)
    | table i =>
      obtain ⟨rfl, rfl⟩ := table i q holds
      cases r' with
      | dir => cases holds'
      | table j => rw [(table j _ holds').1]
      | page u => exact absurd (page u _ holds').2 (by decide)
    | page v =>
      obtain ⟨rfl, rfl⟩ := page v q holds
      cases r' with
      | dir => cases holds'
      | table j => exact absurd (table j _ holds').2 (by decide)
      | page u => rw [(page u _ holds').1]
  · intro v q _ held
    obtain ⟨-, rfl⟩ := page v q held
    exact ⟨by decide, List.not_mem_nil⟩

/-- The page behind the gap is found. -/
theorem deallocuvm_plain_gap : ∃ m', deallocuvm tinyKernel gapMachine 512 0x500000 100 = .ok (100, m') ∧
    m'.pte 512 1029 = 0 ∧ 514 ∈ m'.freelist := by
  obtain ⟨-, m', ran, scanned, -, -⟩ := deallocuvm_plain unshared_gapMachine
    (by decide : 100 < 0x500000) (by decide)
  have member : 1029 ∈ pagesBetween 100 0x500000 :=
    List.mem_filter.mpr ⟨List.mem_range.mpr (by decide), by decide⟩
  have entry : gapMachine.pte 512 1029 = mkPte (514 * pgsize) (pteW ||| pteU) := by rw [pte_gapMachine, if_pos rfl]
  refine ⟨m', ran, ?_, ?_⟩
  · rw [scanned.pte, if_pos ⟨member, by rw [entry]; decide⟩]
  · rw [scanned.freelist, List.mem_append, List.mem_reverse]
    refine .inl (List.mem_filterMap.mpr ⟨1029, member, ?_⟩)
    rw [entry]
    exact frame_mkPte (by decide) (.inr (by decide))

end Xv6Simplesh.Vm
