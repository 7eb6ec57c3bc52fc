import Mathlib.Order.Interval.Finset.Nat
import Xv6Simplesh.Vm.Release

/-! # The kernel part of an address space

`setupkvm` makes an address space with nothing but the kernel mappings.  It needs 65
pages: the directory, 56 page tables for the memory and 8 for the devices.
-/

namespace Xv6Simplesh.Vm

open Library Function

/-! ## The kernel mappings -/

/-- The virtual pages that `kmap` covers. -/
def KernelPage (u : Nat) : Prop := userPages ≤ u ∧ u < 0x8E000 ∨ 0xFE000 ≤ u ∧ u < 2 ^ 20

/-- The entry of a page of the kernel part. -/
def kernelPte (k : Symbols) (u : Nat) : Nat :=
  if u < 0x8E000 then
    mkPte ((u - userPages) * pgsize)
      (if extmem / pgsize ≤ u - userPages ∧ u - userPages < k.data / pgsize then 0 else pteW)
  else mkPte (u * pgsize) pteW

structure KernelMapped (k : Symbols) (m : Machine) (d : Nat) : Prop where
  pte : ∀ u, KernelPage u → m.pte d u = kernelPte k u

theorem kernelPte_flags (k : Symbols) (u : Nat) : present (kernelPte k u) = true ∧ user (kernelPte k u) = false := by
  unfold kernelPte
  split
  · split
    · exact ⟨present_mkPte (by decide), user_mkPte (by decide)⟩
    · exact ⟨present_mkPte (by decide), user_mkPte (by decide)⟩
  · exact ⟨present_mkPte (by decide), user_mkPte (by decide)⟩

theorem KernelPage.high {u : Nat} (kernel : KernelPage u) : userPages ≤ u := by
  dsimp only [KernelPage, userPages] at *
  omega

/-- Operations on an address space leave the kernel part alone. -/
theorem Evolves.kernelMapped {k : Symbols} {S : Nat → Prop} {d : Nat} {m₀ m : Machine}
    (evo : Evolves k S d m₀ m) (kernel : KernelMapped k m₀ d) : KernelMapped k m d where
  pte u inside := by
    have same := kernel.pte u inside
    rw [evo.kernel u inside.high (same ▸ (kernelPte_flags k u).1), same]

/-! ## `mappages` in the kernel part -/

variable {n p perm v : Nat}

section Range

variable {k : Symbols} {S : Nat → Prop} {d : Nat} {m₀ m : Machine}

/-- Between `m` and `m'` only entries of the kernel pages from `v` to `v + n` were stored. -/
structure MapsRange (k : Symbols) (S : Nat → Prop) (d : Nat) (m₀ m m' : Machine) (v n : Nat) : Prop where
  evo : Evolves k S d m₀ m'
  view : m'.view d = m.view d
  others : ∀ u, u < v ∨ v + n ≤ u → m'.pte d u = m.pte d u
  tables : ∀ i, m'.table d i ≠ none → m.table d i ≠ none ∨ ∃ u, v ≤ u ∧ u < v + n ∧ i = u / nptentries
  total : m'.total d npdentries = m.total d npdentries

theorem MapsRange.refl (evo : Evolves k S d m₀ m) (v n : Nat) : MapsRange k S d m₀ m m v n :=
  ⟨evo, rfl, fun _ _ => rfl, fun _ found => .inl found, rfl⟩

theorem MapsRange.trans {m' m'' : Machine} {n' : Nat} (first : MapsRange k S d m₀ m m' v n)
    (snd : MapsRange k S d m₀ m' m'' (v + n) n') : MapsRange k S d m₀ m m'' v (n + n') where
  evo := snd.evo
  view := snd.view.trans first.view
  others u out := by rw [snd.others u (by omega), first.others u (by omega)]
  tables i found := by
    rcases snd.tables i found with found | ⟨u, low, high, row⟩
    · exact (first.tables i found).imp id fun ⟨u, low, high, row⟩ => ⟨u, low, by omega, row⟩
    · exact .inr ⟨u, by omega, by omega, row⟩
  total := snd.total.trans first.total

theorem mapsRange_one (evo : Evolves k S d m₀ m) (high : userPages ≤ v) (bound : v < 2 ^ 20)
    (page : p < 2 ^ 20) (flags : perm < pgsize) (hidden : perm.testBit 2 = false) (absent : m.pte d v = 0) :
    (walkpgdir m d (v * pgsize) true = (none, m) ∧ m.freelist = [] ∧ m.table d (v / nptentries) = none) ∨
      ∃ t m₁, walkpgdir m d (v * pgsize) true = (some (t, v % nptentries), m₁) ∧
        (m₁.mem t).word (v % nptentries) = 0 ∧
        MapsRange k S d m₀ m (m₁.setWord t (v % nptentries) (mkPte (p * pgsize) perm)) v 1 ∧
        (m₁.setWord t (v % nptentries) (mkPte (p * pgsize) perm)).pte d v = mkPte (p * pgsize) perm := by
  have addr : v * pgsize < 2 ^ 32 := by
    dsimp only [pgsize]
    omega
  have idx : v * pgsize / pgsize = v := Nat.mul_div_cancel v (by decide)
  have walk := walkpgdir_true evo addr
  rw [idx] at walk
  rcases walk with failed | ⟨t, m₁, walked, grown⟩
  · exact .inl failed
  · refine .inr ⟨t, m₁, walked, by rw [← pte_of_table grown.found, grown.pte, absent], ?_⟩
    have small := mkPte_lt flags page
    have invisible := frame_mkPte_kernel (q := p) flags high hidden
    have unheld : ∀ x, frame v (mkPte (p * pgsize) perm) = some x →
        Fresh k S d m₁ x ∨ frame v (m₁.pte d v) = some x := by
      intro x same
      rw [invisible] at same
      cases same
    obtain ⟨evo', tables, ptes⟩ := grown.evo.setEntry grown.found small
      (fun _ => by rw [grown.pte, absent]; decide) unheld
    have empty : m.view d v = none := by
      rw [view_eq_none, absent]
      rfl
    have view := view_setEntry grown.evo.space grown.found small unheld
    rw [invisible, grown.view, Option.map_none, ← empty, update_eq_self] at view
    refine ⟨⟨evo', view, fun u out => ?_, fun i found => ?_, ?_⟩, by rw [ptes, update_self]⟩
    · rw [ptes, grown.pte, update_of_ne (by omega)]
    · rw [tables] at found
      by_cases row : i = v / nptentries
      · exact .inr ⟨v, Nat.le_refl v, Nat.lt_succ_self v, row⟩
      · exact .inl (grown.others i row ▸ found)
    · have inside : v / nptentries < npdentries := by
        dsimp only [nptentries, npdentries]
        omega
      rw [← grown.total npdentries inside]
      simp only [Machine.total, view, grown.view, tables, Machine.freelist_setWord]

theorem next_address (bound : v + 1 < 2 ^ 20) : (v * pgsize + pgsize) % 2 ^ 32 = (v + 1) * pgsize := by
  dsimp only [pgsize]
  omega

theorem mappagesLoop_kernel (flags : perm < pgsize) (hidden : perm.testBit 2 = false) (rest : Nat) :
    ∀ {m : Machine} {v p : Nat}, Evolves k S d m₀ m → userPages ≤ v → v + rest < 2 ^ 20 → p + rest < 2 ^ 20 →
      (∀ u, v ≤ u → u ≤ v + rest → m.pte d u = 0) →
      ∃ m', MapsRange k S d m₀ m m' v (rest + 1) ∧
        (mappagesLoop m d (v * pgsize) (p * pgsize) perm rest = (true, m') ∧
            (∀ j, j ≤ rest → m'.pte d (v + j) = mkPte ((p + j) * pgsize) perm) ∨
          mappagesLoop m d (v * pgsize) (p * pgsize) perm rest = (false, m') ∧ m'.freelist = [] ∧
            ∃ j, j ≤ rest ∧ m'.table d ((v + j) / nptentries) = none) := by
  induction rest with
  | zero =>
    intro m v p evo high bound page absent
    rw [mappagesLoop]
    rcases mapsRange_one evo high bound page flags hidden (absent v (Nat.le_refl v) (Nat.le_refl v)) with
      ⟨failed, empty, none⟩ | ⟨t, m₁, walked, zero, maps, stored⟩
    · rw [failed]
      exact ⟨m, .refl evo v 1, .inr ⟨rfl, empty, 0, Nat.le_refl 0, none⟩⟩
    · rw [walked]
      refine ⟨_, maps, .inl ⟨by simp only [zero]; rfl, fun j le => ?_⟩⟩
      obtain rfl : j = 0 := by omega
      exact stored
  | succ rest ih =>
    intro m v p evo high bound page absent
    rw [mappagesLoop]
    rcases mapsRange_one evo high (by omega) (by omega : p < 2 ^ 20) flags hidden
        (absent v (Nat.le_refl v) (Nat.le_add_right v _)) with ⟨failed, empty, none⟩ | ⟨t, m₁, walked, zero, maps, stored⟩
    · rw [failed]
      exact ⟨m, .refl evo v _, .inr ⟨rfl, empty, 0, Nat.zero_le _, none⟩⟩
    · have next := next_address (v := v) (by omega)
      have nextPage := next_address (v := p) (by omega)
      obtain ⟨m', maps', outcome⟩ := ih (p := p + 1) maps.evo (by omega : userPages ≤ v + 1)
        (by omega) (by omega) fun u low le => by rw [maps.others u (by omega), absent u (by omega) (by omega)]
      rw [walked]
      refine ⟨m', by simpa only [Nat.add_comm 1] using maps.trans maps', ?_⟩
      have unset : present 0 = false := rfl
      simp only [zero, unset, next, nextPage, Bool.false_eq_true, if_false]
      refine outcome.imp (fun done => ⟨done.1, fun j le => ?_⟩) (fun failed => ⟨failed.1, failed.2.1, ?_⟩)
      · cases j with
        | zero => rw [Nat.add_zero, Nat.add_zero, maps'.others v (by omega), stored]
        | succ j =>
          have stored' := done.2 j (by omega)
          rwa [Nat.add_right_comm, Nat.add_assoc, Nat.add_right_comm p, Nat.add_assoc p] at stored'
      · obtain ⟨j, le, none⟩ := failed.2.2
        exact ⟨j + 1, by omega, by rwa [Nat.add_right_comm, Nat.add_assoc] at none⟩

theorem mappages_range_eq (m : Machine) (d pa perm : Nat) (some : 0 < n) (bound : v + n ≤ 2 ^ 20) :
    mappages m d (v * pgsize) (n * pgsize) pa perm = mappagesLoop m d (v * pgsize) pa perm (n - 1) := by
  have start : pgrounddown (v * pgsize) = v * pgsize := by
    dsimp only [pgrounddown, pgsize]
    omega
  have count : pagesTo (v * pgsize) ((v * pgsize + n * pgsize - 1) % 2 ^ 32) = n - 1 := by
    dsimp only [pagesTo, pgsize]
    have first : v * 4096 / 4096 = v := by omega
    have last : (v * 4096 + n * 4096 - 1) % 2 ^ 32 / 4096 = v + n - 1 := by omega
    rw [first, last, if_neg (by omega)]
    omega
  rw [mappages, start, count]

end Range

/-! ## `setupkvm` -/

/-- The page tables of the kernel part. -/
def kernelTables : Finset Nat := Finset.Ico 512 568 ∪ Finset.Ico 1016 1024

theorem mem_kernelTables {i : Nat} : i ∈ kernelTables ↔ 512 ≤ i ∧ i < 568 ∨ 1016 ≤ i ∧ i < 1024 := by
  simp [kernelTables]

theorem card_kernelTables : kernelTables.card = 64 := by
  have apart : Disjoint (Finset.Ico 512 568) (Finset.Ico 1016 1024) := by
    rw [Finset.disjoint_left]
    intro i first snd
    rw [Finset.mem_Ico] at first snd
    omega
  rw [kernelTables, Finset.card_union_of_disjoint apart, Nat.card_Ico, Nat.card_Ico]

/-- An entry of `kmap` that maps the `n` pages from `p` on at virtual page `v`. -/
structure Kmap.Covers (e : Kmap) (v p n : Nat) : Prop where
  virt : e.virt = v * pgsize
  phys : e.physStart = p * pgsize
  size : (e.physEnd + 2 ^ 32 - e.physStart) % 2 ^ 32 = n * pgsize
  pos : 0 < n
  kernel : ∀ u, v ≤ u → u < v + n → KernelPage u
  bound : p + n ≤ 2 ^ 20
  flags : e.perm < pgsize
  hidden : e.perm.testBit 2 = false

theorem KernelPage.table {u : Nat} (kernel : KernelPage u) : u / nptentries ∈ kernelTables := by
  rw [mem_kernelTables]
  dsimp only [KernelPage, userPages, nptentries] at *
  omega

/-- An address space with no user pages and some of the kernel's page tables. -/
structure Building (k : Symbols) (S : Nat → Prop) (d : Nat) (m₀ : Machine) (count : Nat) (m : Machine) : Prop where
  evo : Evolves k S d m₀ m
  view : ∀ v, m.view d v = none
  tables : ∀ i, i ∉ kernelTables → m.table d i = none
  total : m.total d npdentries = count

section Setup

variable {k : Symbols} {S : Nat → Prop} {d count : Nat} {m₀ m : Machine}

theorem Building.occupied_view (building : Building k S d m₀ count m) : occupied userPages (m.view d) = 0 :=
  occupied_eq_zero building.view

theorem kmapEntry_false (d : Nat) (m : Machine) (es : List Kmap) :
    es.foldl (kmapEntry d) (false, m) = (false, m) := by
  induction es with
  | nil => rfl
  | cons e es ih => exact ih

theorem Building.kmapLoop {e : Kmap} (building : Building k S d m₀ count m) (covers : e.Covers v p n)
    (es : List Kmap) (absent : ∀ u, v ≤ u → u < v + n → m.pte d u = 0) :
    (∃ m', kmapLoop m d (e :: es) = Vm.kmapLoop m' d es ∧ Building k S d m₀ count m' ∧
        (∀ j, j < n → m'.pte d (v + j) = mkPte ((p + j) * pgsize) e.perm) ∧
        ∀ u, u < v ∨ v + n ≤ u → m'.pte d u = m.pte d u) ∨
      ∃ m', kmapLoop m d (e :: es) = (false, m') ∧ Evolves k S d m₀ m' ∧ m'.total d npdentries = count ∧
        count < 64 := by
  have pos := covers.pos
  have high := (covers.kernel v (Nat.le_refl v) (by omega)).high
  have bound : v + n ≤ 2 ^ 20 := by
    have last := covers.kernel (v + n - 1) (by omega) (by omega)
    dsimp only [KernelPage, userPages] at last
    omega
  have pages := covers.bound
  obtain ⟨m', maps, outcome⟩ := mappagesLoop_kernel covers.flags covers.hidden (n - 1) (p := p) building.evo high
    (by omega) (by omega) fun u low le => absent u low (by omega)
  have view : ∀ u, m'.view d u = none := fun u => by rw [maps.view, building.view]
  have tables : ∀ i, i ∉ kernelTables → m'.table d i = none := by
    intro i outside
    by_contra found
    rcases maps.tables i found with found | ⟨u, low, le, row⟩
    · exact found (building.tables i outside)
    · exact outside (row ▸ (covers.kernel u low (by omega)).table)
  have building' : Building k S d m₀ count m' := ⟨maps.evo, view, tables, maps.total.trans building.total⟩
  have first : kmapEntry d (true, m) e = mappagesLoop m d (v * pgsize) (p * pgsize) e.perm (n - 1) := by
    rw [kmapEntry, if_pos rfl, covers.size, covers.virt, covers.phys, mappages_range_eq _ _ _ _ pos bound]
  rw [Vm.kmapLoop, List.foldl_cons, first]
  rcases outcome with ⟨ran, stored⟩ | ⟨ran, empty, j, le, none⟩
  · rw [ran]
    exact .inl ⟨m', rfl, building', fun j less => stored j (by omega), fun u out => maps.others u (by omega)⟩
  · rw [ran, kmapEntry_false]
    refine .inr ⟨m', rfl, maps.evo, building'.total, ?_⟩
    have fewer := occupied_lt (n := npdentries) (fun i _ => tables i)
      (covers.kernel (v + j) (by omega) (by omega)).table none
    have total := building'.total
    rw [Machine.total, empty, building'.occupied_view, List.length_nil] at total
    rw [card_kernelTables] at fewer
    omega

theorem covers_of {virt physStart physEnd : Nat} (virtual : virt = v * pgsize)
    (physical : physStart = p * pgsize) (size : (physEnd + 2 ^ 32 - physStart) % 2 ^ 32 = n * pgsize) (pos : 0 < n)
    (bound : p + n ≤ 2 ^ 20) (flags : perm < 4)
    (kernel : 0x80000 ≤ v ∧ v + n ≤ 0x8E000 ∨ 0xFE000 ≤ v ∧ v + n ≤ 2 ^ 20) :
    (⟨virt, physStart, physEnd, perm⟩ : Kmap).Covers v p n where
  virt := virtual
  phys := physical
  size := size
  pos := pos
  kernel u low high := by
    dsimp only [KernelPage, userPages]
    omega
  bound := bound
  flags := Nat.lt_trans flags (by decide)
  hidden := Nat.testBit_lt_two_pow flags

/-- The four entries of `kmap`, where the text ends at page `data`. -/
theorem kmap_covers (k : Symbols) {data : Nat} (aligned : k.data = data * pgsize) :
    0x100 < data ∧ data < 0xE000 ∧ (⟨kernbase, 0, extmem, pteW⟩ : Kmap).Covers 0x80000 0 0x100 ∧
      (⟨kernlink, extmem, k.data, 0⟩ : Kmap).Covers 0x80100 0x100 (data - 0x100) ∧
      (⟨kernbase + k.data, k.data, phystop, pteW⟩ : Kmap).Covers (0x80000 + data) data (0xE000 - data) ∧
      (⟨devspace, devspace, 0, pteW⟩ : Kmap).Covers 0xFE000 0xFE000 0x2000 := by
  have text := k.text
  have below := Nat.le_trans k.data_le k.kend_le
  dsimp only [pgsize, extmem] at aligned text
  refine ⟨by omega, by omega, covers_of rfl rfl rfl (by decide) (by decide) (by decide) (by omega),
    covers_of rfl rfl ?_ (by omega) (by omega) (by decide) (by omega),
    covers_of ?_ aligned ?_ (by omega) (by omega) (by decide) (by omega),
    covers_of rfl rfl rfl (by decide) (by decide) (by decide) (by omega)⟩
  all_goals
    dsimp only [kernbase, extmem, phystop, pgsize]
    omega

theorem Building.kmap (building : Building k S d m₀ count m) (absent : ∀ u, KernelPage u → m.pte d u = 0) :
    (∃ m', Vm.kmapLoop m d (kmap k) = (true, m') ∧ Building k S d m₀ count m' ∧ KernelMapped k m' d) ∨
      ∃ m', Vm.kmapLoop m d (kmap k) = (false, m') ∧ Evolves k S d m₀ m' ∧ m'.total d npdentries = count ∧
        count < 64 := by
  obtain ⟨data, aligned⟩ : ∃ data, k.data = data * pgsize :=
    ⟨k.data / pgsize, (Nat.div_mul_cancel (Nat.dvd_of_mod_eq_zero k.data_aligned)).symm⟩
  obtain ⟨text, below, covers₁, covers₂, covers₃, covers₄⟩ := kmap_covers k aligned
  rcases building.kmapLoop covers₁ _ fun u low high => absent u (covers₁.kernel u low high) with
    ⟨m₁, eq₁, building₁, stored₁, others₁⟩ | failed
  · rcases building₁.kmapLoop covers₂ _ fun u low high => by
        rw [others₁ u (by omega), absent u (covers₂.kernel u low high)] with
      ⟨m₂, eq₂, building₂, stored₂, others₂⟩ | ⟨m', ran, rest⟩
    · rcases building₂.kmapLoop covers₃ _ fun u low high => by
          rw [others₂ u (by omega), others₁ u (by omega), absent u (covers₃.kernel u low high)] with
        ⟨m₃, eq₃, building₃, stored₃, others₃⟩ | ⟨m', ran, rest⟩
      · rcases building₃.kmapLoop covers₄ [] fun u low high => by
            rw [others₃ u (by omega), others₂ u (by omega), others₁ u (by omega),
              absent u (covers₄.kernel u low high)] with
          ⟨m₄, eq₄, building₄, stored₄, others₄⟩ | ⟨m', ran, rest⟩
        · refine .inl ⟨m₄, by rw [Vm.kmap, eq₁, eq₂, eq₃, eq₄]; rfl, building₄, ⟨fun u kernel => ?_⟩⟩
          have dataPages : k.data / pgsize = data := by
            rw [aligned]
            exact Nat.mul_div_cancel data (by decide)
          have extPages : extmem / pgsize = 0x100 := rfl
          have ranges : 0x80000 ≤ u ∧ u < 0x8E000 ∨ 0xFE000 ≤ u ∧ u < 2 ^ 20 := kernel
          obtain ⟨j, rfl⟩ : ∃ j, u = 0x80000 + j := ⟨u - 0x80000, by omega⟩
          have offset : 0x80000 + j - userPages = j := Nat.add_sub_cancel_left ..
          rw [kernelPte, dataPages, extPages, offset]
          rcases Nat.lt_or_ge j 0xE000 with memory | device
          · rw [if_pos (by omega), others₄ _ (by omega)]
            rcases Nat.lt_or_ge j 0x100 with io | text'
            · rw [others₃ _ (by omega), others₂ _ (by omega), stored₁ j io, if_neg (by omega), Nat.zero_add]
            · rcases Nat.lt_or_ge j data with inText | inData
              · obtain ⟨i, rfl⟩ : ∃ i, j = 0x100 + i := ⟨j - 0x100, by omega⟩
                have stored := stored₂ i (by omega)
                rw [others₃ _ (by omega), ← Nat.add_assoc, stored, if_pos (by omega)]
              · obtain ⟨i, rfl⟩ : ∃ i, j = data + i := ⟨j - data, by omega⟩
                have stored := stored₃ i (by omega)
                rw [← Nat.add_assoc, stored, if_neg (by omega)]
          · obtain ⟨i, eq⟩ : ∃ i, 0x80000 + j = 0xFE000 + i := ⟨0x80000 + j - 0xFE000, by omega⟩
            rw [if_neg (by omega), eq, stored₄ i (by omega)]
        · exact .inr ⟨m', by rw [Vm.kmap, eq₁, eq₂, eq₃, ran], rest⟩
      · exact .inr ⟨m', by rw [Vm.kmap, eq₁, eq₂, ran], rest⟩
    · exact .inr ⟨m', by rw [Vm.kmap, eq₁, ran], rest⟩
  · exact .inr failed

/-- What `setupkvm` returns: an address space `d` with nothing but the kernel part, made
from pages of the free list. -/
structure NewSpace (k : Symbols) (S : Nat → Prop) (m m' : Machine) (d : Nat) : Prop where
  space : Space k m' d
  outside : ∀ q, ¬ S q → m'.mem q = m.mem q
  inside : ∀ q, m'.Footprint d q → S q
  kernel : KernelMapped k m' d
  view : ∀ v, m'.view d v = none
  tables : ∀ i, i ∉ kernelTables → m'.table d i = none
  free : m.freelist.length ≤ m'.freelist.length + 65
  total : m'.total d npdentries + 1 = m.freelist.length

theorem NewSpace.evo {m' : Machine} (new : NewSpace k S m m' d) : Evolves k S d m' m' :=
  .refl new.space new.inside

theorem building_empty {rest : List Nat} (pool : Pool k m) (free : m.freelist = d :: rest)
    (inside : ∀ q ∈ m.freelist, S q) :
    Building k S d (({ m with freelist := rest } : Machine).setPage d (Bytes.fill 0)) rest.length
      (({ m with freelist := rest } : Machine).setPage d (Bytes.fill 0)) ∧
      ∀ u, (({ m with freelist := rest } : Machine).setPage d (Bytes.fill 0)).pte d u = 0 := by
  have nodup := List.nodup_cons.mp (free ▸ pool.nodup)
  have first : d ∈ m.freelist := free ▸ List.mem_cons_self
  have later : ∀ x ∈ rest, x ∈ m.freelist := fun x mem => free ▸ List.mem_cons_of_mem d mem
  have tables : ∀ i, (({ m with freelist := rest } : Machine).setPage d (Bytes.fill 0)).table d i = none := by
    intro i
    rw [Machine.table, Machine.mem_setPage_self, Bytes.word_fill_zero, if_neg]
    exact fun both => absurd both.2 (by decide)
  have ptes : ∀ u, (({ m with freelist := rest } : Machine).setPage d (Bytes.fill 0)).pte d u = 0 :=
    fun u => pte_of_none (tables _)
  have view : ∀ v, (({ m with freelist := rest } : Machine).setPage d (Bytes.fill 0)).view d v = none := by
    intro v
    rw [view_eq_none, ptes]
    rfl
  have held : ∀ r q, (({ m with freelist := rest } : Machine).setPage d (Bytes.fill 0)).holder d r = some q →
      r = .dir ∧ q = d := by
    intro r q holds
    cases r with
    | dir => exact ⟨rfl, (Option.some.inj holds).symm⟩
    | table i =>
      rw [Machine.holder, tables] at holds
      cases holds
    | page v =>
      rw [Machine.holder, ptes] at holds
      cases holds
  refine ⟨⟨.refl ⟨⟨nodup.2, fun x mem => pool.allocatable x (later x mem)⟩, ?_, ?_⟩ ?_, view, fun i _ => tables i, ?_⟩,
    ptes⟩
  · intro r r' q holds holds'
    rw [(held r q holds).1, (held r' q holds').1]
  · rintro q ⟨r, holds⟩
    obtain ⟨-, rfl⟩ := held r q holds
    exact ⟨pool.allocatable q first, nodup.1⟩
  · rintro q (⟨r, holds⟩ | mem)
    · obtain ⟨-, rfl⟩ := held r q holds
      exact inside q first
    · exact inside q (later q mem)
  · rw [Machine.total, occupied_eq_zero view, occupied_eq_zero tables]
    rfl

theorem setupkvm_spec (pool : Pool k m) (inside : ∀ q ∈ m.freelist, S q) :
    (∃ d m', setupkvm k m = .ok (some d, m') ∧ NewSpace k S m m' d) ∨
      ∃ m', setupkvm k m = .ok (none, m') ∧ Within k S m m' ∧ m'.freelist.length = m.freelist.length ∧
        m.freelist.length < 65 := by
  unfold setupkvm
  cases free : m.freelist with
  | nil =>
    rw [kalloc_of_nil free]
    exact .inr ⟨m, rfl, ⟨pool, fun _ _ => rfl, inside⟩, by rw [free], by decide⟩
  | cons d rest =>
    rw [kalloc_of_cons free]
    obtain ⟨building, absent⟩ := building_empty pool free inside
    have outside : ∀ q, ¬ S q → (({ m with freelist := rest } : Machine).setPage d (Bytes.fill 0)).mem q = m.mem q :=
      fun q out => Machine.mem_setPage_of_ne _ _ (ne_of_outside out (inside d (free ▸ List.mem_cons_self)))
    dsimp only
    rw [if_neg (by decide)]
    rcases building.kmap fun u _ => absent u with ⟨m', ran, building', kernel⟩ | ⟨m', ran, evo, all, few⟩
    · rw [ran]
      refine .inl ⟨d, m', rfl, building'.evo.space, fun q out => ?_, building'.evo.inside, kernel, building'.view,
        building'.tables, ?_, ?_⟩
      · rw [building'.evo.outside q out, outside q out]
      · have total := building'.total
        have tables := occupied_le (n := npdentries) fun i _ => building'.tables i
        rw [card_kernelTables] at tables
        rw [Machine.total, building'.occupied_view] at total
        rw [free, List.length_cons]
        omega
      · rw [building'.total, free, List.length_cons]
    · rw [ran]
      obtain ⟨m'', freed, within, length⟩ := freevm_within evo
      refine .inr ⟨m'', ?_, ⟨within.pool, fun q out => ?_, within.inside⟩, ?_, ?_⟩
      · simp only [freed, bind, Except.bind]
      · rw [within.outside q out, outside q out]
      · rw [length, all, List.length_cons]
      · rw [List.length_cons]
        omega

end Setup

end Xv6Simplesh.Vm
