import Xv6Simplesh.Vm.Copyout
import Xv6Simplesh.Vm.Growth
import Xv6Simplesh.Vm.KernelMap

/-! # Filling an address space

`exec` fills a new address space from address 0 on: `allocuvm` enters pages, `loaduvm`
copies the segments into them, `clearpteu` takes one away from the user and `copyout`
writes the arguments.  While it does, the pages below some number are there and no others,
so that every store goes to a page of the new address space.

`copyout` looks at an entry without asking whether there is a page table.  For addresses
below the end of the pages and in the mapped part of the kernel there is one.
-/

namespace Xv6Simplesh.Vm

open Library Function

/-- The flags of page `v`, where page `guard` is not for the user. -/
def pageFlags (guard : Option Nat) (v : Nat) : Nat :=
  if guard = some v then pteW ||| pteP else pteW ||| pteU ||| pteP

/-- An address space with the kernel part and the user pages below `n`. -/
structure Laid (k : Symbols) (S : Nat → Prop) (d : Nat) (m₀ : Machine) (guard : Option Nat) (n : Nat)
    (m : Machine) : Prop where
  evo : Evolves k S d m₀ m
  kernel : KernelMapped k m d
  limit : n ≤ userPages
  there : ∀ v < n, ∃ bytes, m.view d v = some ⟨pageFlags guard v, bytes⟩
  above : ∀ v, n ≤ v → m.view d v = none
  tables : ∀ i, m.table d i ≠ none → i ∈ kernelTables ∨ i * nptentries < n

section Laid

variable {k : Symbols} {S : Nat → Prop} {d n : Nat} {guard : Option Nat} {m₀ m : Machine}

theorem NewSpace.laid (new : NewSpace k S m m₀ d) : Laid k S d m₀ none 0 m₀ where
  evo := new.evo
  kernel := new.kernel
  limit := Nat.zero_le _
  there := nofun
  above v _ := new.view v
  tables i found := by
    by_contra other
    exact found (new.tables i fun kernel => other (.inl kernel))

variable {pte v : Nat}

section

variable (laid : Laid k S d m₀ guard n m)

include laid

theorem Laid.entry (inside : v < n) :
    ∃ t q, m.table d (v / nptentries) = some t ∧ (m.mem t).word (v % nptentries) = m.pte d v ∧
      frame v (m.pte d v) = some q ∧ pteFlags (m.pte d v) = pageFlags guard v := by
  obtain ⟨bytes, view⟩ := laid.there v inside
  obtain ⟨q, held, page⟩ := Option.map_eq_some_iff.mp view
  obtain ⟨t, found⟩ := table_of_present (frame_eq_some.mp held).1
  exact ⟨t, q, found, (pte_of_table found).symm, held, congrArg Page.flags page⟩

theorem Laid.setPage {q : Nat} (inside : v < n)
    (held : frame v (m.pte d v) = some q) (bytes : Bytes) : Laid k S d m₀ guard n (m.setPage q bytes) := by
  have space := laid.evo.space
  have data : ∀ r, m.holder d r = some q → ∃ v, r = .page v := fun r holds => ⟨v, space.exclusive holds held⟩
  obtain ⟨evo, tables, ptes⟩ := laid.evo.setPage (laid.evo.inside q (.inl ⟨.page v, held⟩)) data bytes
  have view := view_setPage space held bytes
  refine ⟨evo, ⟨fun u kernel => by rw [ptes, laid.kernel.pte u kernel]⟩, laid.limit, fun u below => ?_,
    fun u beyond => ?_, fun i found => laid.tables i (tables ▸ found)⟩
  · by_cases same : u = v
    · obtain ⟨-, -, -, -, -, flags⟩ := laid.entry inside
      exact ⟨bytes, by rw [view, same, update_self, flags]⟩
    · obtain ⟨old, there⟩ := laid.there u below
      exact ⟨old, by rw [view, update_of_ne same, there]⟩
  · rw [view, update_of_ne (by omega), laid.above u beyond]

theorem Laid.total_setPage {q : Nat} (held : frame v (m.pte d v) = some q)
    (bytes : Bytes) : (m.setPage q bytes).total d npdentries = m.total d npdentries := by
  have space := laid.evo.space
  obtain ⟨tables, -⟩ := meaning_setPage bytes fun r holds => ⟨v, space.exclusive holds held⟩
  refine total_congr tables rfl fun u => ?_
  rw [view_setPage space held bytes]
  by_cases same : u = v
  · rw [same, update_self, view_of_frame held]
    rfl
  · rw [update_of_ne same]

theorem Laid.walkpgdir (va : Nat) (inside : va / pgsize < n) :
    ∃ t q, (walkpgdir m d va false).1 = some (t, va / pgsize % nptentries) ∧
      (m.mem t).word (va / pgsize % nptentries) = m.pte d (va / pgsize) ∧
      frame (va / pgsize) (m.pte d (va / pgsize)) = some q ∧
      pteFlags (m.pte d (va / pgsize)) = pageFlags guard (va / pgsize) := by
  have limit := laid.limit
  have address : va < 2 ^ 32 := by
    dsimp only [userPages, pgsize] at limit inside
    omega
  obtain ⟨t, q, found, entry, held, flags⟩ := laid.entry inside
  refine ⟨t, q, ?_, entry, held, flags⟩
  rw [walkpgdir_false address, found]
  rfl

end

/-! ## `allocuvm` -/

/-- `allocuvm` adds the pages up to the new size, or fails. -/
theorem Laid.allocuvm {oldsz : Nat} (newsz : Nat) (laid : Laid k S d m₀ none (pageCount oldsz) m)
    (small : oldsz ≤ kernbase) :
    (∃ sz m', Vm.allocuvm k m d oldsz newsz = .ok (sz, m') ∧ sz = max oldsz newsz ∧ newsz < kernbase ∧
        Laid k S d m₀ none (pageCount sz) m' ∧ m'.total d npdentries = m.total d npdentries) ∨
      ∃ m', Vm.allocuvm k m d oldsz newsz = .ok (0, m') ∧ Evolves k S d m₀ m' ∧
        m'.total d npdentries = m.total d npdentries ∧
        (newsz < kernbase → m.freelist.length < 2 * (pageCount newsz - pageCount oldsz)) := by
  unfold Vm.allocuvm
  by_cases large : newsz ≥ kernbase
  · rw [if_pos large]
    exact .inr ⟨m, rfl, laid.evo, rfl, fun small => absurd small (Nat.not_lt.mpr large)⟩
  rw [if_neg large]
  by_cases shorter : newsz < oldsz
  · rw [if_pos shorter]
    exact .inl ⟨oldsz, m, rfl, by omega, by omega, laid, rfl⟩
  · rw [if_neg shorter, pgroundup_eq small]
    have user : newsz ≤ kernbase := by omega
    have limit := pageCount_le user
    have more : pageCount oldsz ≤ pageCount newsz := by
      dsimp only [pageCount, pgsize]
      omega
    have absent : ∀ u, pageCount oldsz ≤ u → u < pageCount newsz → ¬ present (m.pte d u) := fun u from' to' =>
      not_present_of_view (by omega) (laid.above u from')
    have rows : pageCount newsz ≤ npdentries * nptentries := Nat.le_trans limit (by decide)
    rcases allocuvmLoop_grown oldsz laid.evo user absent with
      ⟨m', ran, grown⟩ | ⟨m', ran, evo, few, all, -⟩
    · refine .inl ⟨newsz, m', ran, by omega, by omega, ⟨grown.evo, ⟨fun u kernel => ?_⟩, limit, fun u below => ?_,
        fun u beyond => ?_, fun i found => ?_⟩, grown.total npdentries limit rows⟩
      · have high := kernel.high
        rw [grown.pte u (.inr (by omega)), laid.kernel.pte u kernel]
      · rw [grown.view]
        by_cases new : pageCount oldsz ≤ u
        · exact ⟨Bytes.fill 0, by rw [if_pos ⟨new, below⟩, pageFlags, if_neg nofun]⟩
        · rw [if_neg fun both => new both.1]
          exact laid.there u (Nat.lt_of_not_ge new)
      · rw [grown.view, if_neg (by omega), laid.above u (by omega)]
      · rcases grown.tables i found with old | ⟨u, -, below, row⟩
        · exact (laid.tables i old).imp id fun low => Nat.lt_of_lt_of_le low more
        · refine .inr (Nat.lt_of_le_of_lt ?_ below)
          rw [row]
          exact Nat.div_mul_le_self u nptentries
    · exact .inr ⟨m', ran, evo, all npdentries rows, fun _ => few⟩

/-! ## `loaduvm` -/

theorem Laid.loaduvmLoop (ip : Reader) (offset : Nat) {addr sz i : Nat} (aligned : addr % pgsize = 0)
    (inside : addr + sz ≤ n * pgsize) (laid : Laid k S d m₀ guard n m) :
    ∃ loaded m', Vm.loaduvmLoop m d addr ip offset sz i = .ok (loaded, m') ∧ Laid k S d m₀ guard n m' ∧
      m'.total d npdentries = m.total d npdentries := by
  induction left : sz - i using Nat.strong_induction_on generalizing i m with
  | _ left ih =>
  subst left
  rw [Vm.loaduvmLoop]
  by_cases more : i < sz
  · have limit := laid.limit
    have page : (addr + i) / pgsize < n := by
      dsimp only [pgsize] at *
      omega
    have noWrap : (addr + i) % 2 ^ 32 = addr + i := by
      dsimp only [pgsize, userPages] at *
      omega
    obtain ⟨t, q, walked, entry, held, -⟩ := laid.walkpgdir (addr + i) page
    have target : ptePage (m.pte d ((addr + i) / pgsize)) = q := (frame_eq_some.mp held).2.2
    rw [if_pos more, noWrap, walked]
    dsimp only
    rw [entry, target]
    have stored := laid.setPage page held
      ((m.mem q).copy 0 (ip.read ((offset + i) % 2 ^ 32) (min (sz - i) pgsize)).2
        (ip.read ((offset + i) % 2 ^ 32) (min (sz - i) pgsize)).1.toNat)
    have total := laid.total_setPage held
      ((m.mem q).copy 0 (ip.read ((offset + i) % 2 ^ 32) (min (sz - i) pgsize)).2
        (ip.read ((offset + i) % 2 ^ 32) (min (sz - i) pgsize)).1.toNat)
    split
    · exact ⟨false, _, rfl, stored, total⟩
    · obtain ⟨loaded, m', ran, laid', total'⟩ := ih (sz - (i + pgsize))
        (by dsimp only [pgsize]; omega) stored rfl
      exact ⟨loaded, m', ran, laid', total'.trans total⟩
  · rw [if_neg more]
    exact ⟨true, m, rfl, laid, rfl⟩

/-! ## `clearpteu` -/

theorem testBit_clearUser (word : pte < 2 ^ 32) (i : Nat) :
    (pte &&& (2 ^ 32 - 1 - pteU)).testBit i = (pte.testBit i && decide (i ≠ 2)) := by
  have mask : ∀ i < 32, (2 ^ 32 - 1 - pteU).testBit i = decide (i ≠ 2) := by decide
  rw [Nat.testBit_and]
  by_cases inside : i < 32
  · rw [mask i inside]
  · have high : pte.testBit i = false := Nat.testBit_lt_two_pow
      (Nat.lt_of_lt_of_le word (Nat.pow_le_pow_right (by decide) (Nat.le_of_not_lt inside)))
    rw [high]
    rfl

theorem ptePage_clearUser (word : pte < 2 ^ 32) : ptePage (pte &&& (2 ^ 32 - 1 - pteU)) = ptePage pte := by
  apply Nat.eq_of_testBit_eq
  intro i
  rw [ptePage, ptePage, show pgsize = 2 ^ 12 from rfl, Nat.testBit_div_two_pow, Nat.testBit_div_two_pow,
    testBit_clearUser word]
  simp

theorem pteFlags_clearUser (word : pte < 2 ^ 32) (flags : pteFlags pte = pteW ||| pteU ||| pteP) :
    pteFlags (pte &&& (2 ^ 32 - 1 - pteU)) = pteW ||| pteP := by
  have low : ∀ i < 12, (pteW ||| pteU ||| pteP).testBit i = (pte.testBit i) := by
    intro i inside
    rw [← flags, testBit_pteFlags pte inside]
  have table : ∀ i < 12, ((pteW ||| pteU ||| pteP).testBit i && decide (i ≠ 2)) = (pteW ||| pteP).testBit i := by
    decide
  apply Nat.eq_of_testBit_eq
  intro i
  by_cases inside : i < 12
  · rw [testBit_pteFlags _ inside, testBit_clearUser word, ← low i inside, table i inside]
  · have high : 2 ^ 12 ≤ 2 ^ i := Nat.pow_le_pow_right (by decide) (Nat.le_of_not_lt inside)
    have small : pteFlags (pte &&& (2 ^ 32 - 1 - pteU)) < 2 ^ i :=
      Nat.lt_of_lt_of_le (Nat.mod_lt _ (by decide : pgsize > 0)) high
    have few : pteW ||| pteP < 2 ^ i := Nat.lt_of_lt_of_le (by decide : pteW ||| pteP < 2 ^ 12) high
    rw [Nat.testBit_lt_two_pow small, Nat.testBit_lt_two_pow few]

/-- `clearpteu` of a page that is there makes it the guard. -/
theorem Laid.clearpteu (laid : Laid k S d m₀ none n m) (inside : v < n) :
    ∃ m', Vm.clearpteu m d (v * pgsize) = .ok m' ∧ Laid k S d m₀ (some v) n m' ∧
      m'.total d npdentries = m.total d npdentries := by
  have page : v * pgsize / pgsize = v := Nat.mul_div_cancel v (by decide)
  have limit := laid.limit
  have low : v < userPages := Nat.lt_of_lt_of_le inside limit
  obtain ⟨t, q, walked, entry, held, flags⟩ := laid.walkpgdir (v * pgsize) (by rwa [page])
  rw [page] at walked entry held flags
  obtain ⟨t', -, found, -⟩ := laid.entry inside
  have word := pte_lt m d v
  have user : pteFlags (m.pte d v) = pteW ||| pteU ||| pteP := flags
  have same : t' = t := by
    have address : v * pgsize < 2 ^ 32 := by
      dsimp only [pgsize, userPages] at low ⊢
      omega
    rw [walkpgdir_false address, page, found] at walked
    exact congrArg Prod.fst (Option.some.inj walked)
  subst same
  have bound : m.pte d v &&& (2 ^ 32 - 1 - pteU) < 2 ^ 32 := Nat.lt_of_le_of_lt Nat.and_le_left word
  have kept : frame v (m.pte d v &&& (2 ^ 32 - 1 - pteU)) = some q := by
    obtain ⟨there, -, target⟩ := frame_eq_some.mp held
    refine frame_eq_some.mpr ⟨?_, .inl low, by rw [ptePage_clearUser word, target]⟩
    rw [present, testBit_clearUser word]
    simpa [present] using there
  have new : ∀ x, frame v (m.pte d v &&& (2 ^ 32 - 1 - pteU)) = some x →
      Fresh k S d m x ∨ frame v (m.pte d v) = some x := by
    intro x holds
    rw [kept] at holds
    exact .inr (held.trans holds)
  obtain ⟨evo, tables, ptes⟩ := laid.evo.setEntry found bound (fun high => absurd low (Nat.not_lt.mpr high)) new
  have view := view_setEntry laid.evo.space found bound new
  rw [kept, Option.map_some, pteFlags_clearUser word user] at view
  have total : (m.setWord t' (v % nptentries) (m.pte d v &&& (2 ^ 32 - 1 - pteU))).total d npdentries =
      m.total d npdentries := by
    refine total_congr tables rfl fun u => ?_
    rw [view]
    by_cases same : u = v
    · rw [same, update_self, view_of_frame held]
      rfl
    · rw [update_of_ne same]
  refine ⟨m.setWord t' (v % nptentries) (m.pte d v &&& (2 ^ 32 - 1 - pteU)), ?_, ⟨evo, ⟨fun u kernel => ?_⟩, limit,
    fun u below => ?_, fun u beyond => ?_, fun i there => laid.tables i (tables ▸ there)⟩, total⟩
  · rw [Vm.clearpteu, walked]
    dsimp only
    rw [entry]
  · have high := kernel.high
    rw [ptes, update_of_ne (by omega), laid.kernel.pte u kernel]
  · by_cases here : u = v
    · exact ⟨_, by rw [view, here, update_self, pageFlags, if_pos rfl]⟩
    · obtain ⟨bytes, there⟩ := laid.there u below
      have other : ¬ (some v = some u) := fun both => here (Option.some.inj both).symm
      refine ⟨bytes, ?_⟩
      rw [view, update_of_ne here, there, pageFlags, pageFlags, if_neg other, if_neg (Option.some_ne_none u).symm]
  · rw [view, update_of_ne (by omega), laid.above u beyond]

/-! ## `copyout` -/

/-- Where `copyout` of `len` bytes to `va` finds its entries: within the pages, or in the
mapped part of the kernel, where it fails at once. -/
def Copyable (n va len : Nat) : Prop := va + len ≤ n * pgsize ∨ va < 2 ^ 32 ∧ KernelPage (va / pgsize)

/-- `uva2ka` of a page that is there: its page, unless it is the guard. -/
theorem Laid.uva2ka (cur : Image) (laid : Laid k S d m₀ guard n m) (inside : v < n) :
    ∃ q, frame v (m.pte d v) = some q ∧
      Vm.uva2ka k m cur d (v * pgsize) = .ok (if guard = some v then none else some q, m) := by
  have page : v * pgsize / pgsize = v := Nat.mul_div_cancel v (by decide)
  have limit := laid.limit
  have address : v * pgsize < 2 ^ 32 := by
    dsimp only [pgsize, userPages] at limit ⊢
    omega
  obtain ⟨t, q, found, -, held, flags⟩ := laid.entry inside
  obtain ⟨there, -, target⟩ := frame_eq_some.mp held
  have visible : user (m.pte d v) = (pageFlags guard v).testBit 2 := by
    rw [user, ← testBit_pteFlags _ (by decide), flags]
  have res : m.userPage d v = if guard = some v then none else some q := by
    rw [Machine.userPage, visible, pageFlags, target]
    by_cases hidden : guard = some v
    · rw [if_pos hidden, if_pos hidden, if_neg fun both => absurd both.2 (by decide)]
    · rw [if_neg hidden, if_neg hidden, if_pos ⟨there, by decide⟩]
  have table : m.table d (v * pgsize / pgsize / nptentries) ≠ none := by
    rw [page, found]
    exact Option.some_ne_none t
  refine ⟨q, held, ?_⟩
  rw [uva2ka_of_table k cur address table, page, res]

theorem KernelMapped.uva2ka (cur : Image) (kernel : KernelMapped k m d) (page : KernelPage v) :
    Vm.uva2ka k m cur d (v * pgsize) = .ok (none, m) := by
  obtain ⟨there, hidden⟩ := kernelPte_flags k v
  rw [← kernel.pte v page] at there hidden
  obtain ⟨t, found⟩ := table_of_present there
  have number : v * pgsize / pgsize = v := Nat.mul_div_cancel v (by decide)
  have address : v * pgsize < 2 ^ 32 := by
    dsimp only [KernelPage, pgsize, userPages] at page ⊢
    omega
  have table : m.table d (v * pgsize / pgsize / nptentries) ≠ none := by
    rw [number, found]
    exact Option.some_ne_none t
  rw [uva2ka_of_table k cur address table, number, Machine.userPage, hidden, if_neg fun both => absurd both.2 (by decide)]

theorem copy_rest {va len : Nat} (beyond : va / pgsize + 1 ≤ v) (inside : v * pgsize < va + len) :
    0 < len - min (pgsize - (va - va / pgsize * pgsize)) len ∧
      v * pgsize < (va / pgsize + 1) * pgsize + (len - min (pgsize - (va - va / pgsize * pgsize)) len) := by
  dsimp only [pgsize] at *
  omega

theorem Laid.copyout (cur : Image) {va len : Nat} {p : Nat → UInt8} (laid : Laid k S d m₀ guard n m)
    (copyable : Copyable n va len) :
    ∃ copied m', Vm.copyout k m cur d va p len = .ok (copied, m') ∧ Laid k S d m₀ guard n m' ∧
      m'.total d npdentries = m.total d npdentries ∧
      (copied = true → 0 < len → ∀ v, va / pgsize ≤ v → v * pgsize < va + len → v < n ∧ guard ≠ some v) := by
  induction left : len using Nat.strong_induction_on generalizing va p len m with
  | _ left ih =>
  subst left
  rw [Vm.copyout]
  by_cases more : len > 0
  · rw [if_pos more]
    dsimp only
    rw [pgrounddown_eq]
    cases copyable with
    | inr high =>
      rw [laid.kernel.uva2ka cur high.2]
      exact ⟨false, m, rfl, laid, rfl, fun copied => absurd copied (by decide)⟩
    | inl low =>
      have inside : va / pgsize < n := by
        dsimp only [pgsize] at low ⊢
        omega
      obtain ⟨q, held, found⟩ := laid.uva2ka cur inside
      by_cases hidden : guard = some (va / pgsize)
      · rw [found, if_pos hidden]
        exact ⟨false, m, rfl, laid, rfl, fun copied => absurd copied (by decide)⟩
      · have room := (laid.evo.space.owned q ⟨.page _, held⟩).1.2
        have limit := laid.limit
        rw [found, if_neg hidden]
        dsimp only
        rw [if_neg (Nat.not_le.mpr room)]
        -- the rest begins at the next page
        have copyable : Copyable n ((va / pgsize * pgsize + pgsize) % 2 ^ 32)
            (len - min (pgsize - (va - va / pgsize * pgsize)) len) := by
          refine .inl ?_
          dsimp only [pgsize, userPages] at *
          omega
        have next := ih (len - min (pgsize - (va - va / pgsize * pgsize)) len)
          (by dsimp only [pgsize]; omega) (p := fun i => p (min (pgsize - (va - va / pgsize * pgsize)) len + i))
          (laid.setPage inside held ((m.mem q).copy (va - va / pgsize * pgsize) p
            (min (pgsize - (va - va / pgsize * pgsize)) len))) copyable rfl
        have stored := laid.total_setPage held ((m.mem q).copy (va - va / pgsize * pgsize) p
          (min (pgsize - (va - va / pgsize * pgsize)) len))
        obtain ⟨copied, m', ran, laid', total, pages⟩ := next
        refine ⟨copied, m', ran, laid', total.trans stored, fun done _ v from' to' => ?_⟩
        by_cases first : v = va / pgsize
        · rw [first]
          exact ⟨inside, hidden⟩
        · have address : (va / pgsize * pgsize + pgsize) % 2 ^ 32 = (va / pgsize + 1) * pgsize := by
            dsimp only [pgsize, userPages] at low limit ⊢
            omega
          have beyond : va / pgsize + 1 ≤ v := Nat.lt_of_le_of_ne from' (Ne.symm first)
          obtain ⟨left, ends⟩ := copy_rest beyond to'
          rw [address, Nat.mul_div_cancel _ (by decide : 0 < pgsize)] at pages
          exact pages done left v beyond ends
  · rw [if_neg more]
    exact ⟨true, m, rfl, laid, rfl, fun _ some => absurd some more⟩

theorem Laid.copyout_page (cur : Image) (v start len : Nat) (p : Nat → UInt8) (laid : Laid k S d m₀ guard n m)
    (inside : v < n) (visible : guard ≠ some v) (some : 0 < len) (short : start + len ≤ pgsize) {bytes : Bytes}
    (view : m.view d v = .some ⟨pageFlags guard v, bytes⟩) :
    ∃ m', Vm.copyout k m cur d (v * pgsize + start) p len = .ok (true, m') ∧ Laid k S d m₀ guard n m' ∧
      m'.total d npdentries = m.total d npdentries ∧
      m'.view d v = .some ⟨pageFlags guard v, bytes.copy start p len⟩ := by
  obtain ⟨q, held, found⟩ := laid.uva2ka cur inside
  have room := (laid.evo.space.owned q ⟨.page _, held⟩).1.2
  have page : (v * pgsize + start) / pgsize = v := by
    dsimp only [pgsize] at short ⊢
    omega
  have all : min (pgsize - start) len = len := Nat.min_eq_right (by omega)
  have contents := view_of_frame held
  rw [view, Option.some.injEq, Page.mk.injEq] at contents
  refine ⟨m.setPage q ((m.mem q).copy start p len), ?_, laid.setPage inside held _, laid.total_setPage held _, ?_⟩
  · rw [Vm.copyout, if_pos some]
    dsimp only
    rw [pgrounddown_eq, page, found, if_neg visible]
    dsimp only
    rw [if_neg (Nat.not_le.mpr room), Nat.add_sub_cancel_left, all, Nat.sub_self, Vm.copyout, if_neg (Nat.lt_irrefl 0)]
  · rw [view_setPage laid.evo.space held, update_self, ← contents.1, ← contents.2]

end Laid

end Xv6Simplesh.Vm
