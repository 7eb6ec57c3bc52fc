import Xv6Simplesh.Proc.Arguments

/-! # `exec` builds a sound address space

Whatever file it is given, `exec` enters pages from address 0 on and stores only in pages
of the new address space, as long as no argument has 32 MB or more.  Wherever it gives up,
every page that it has taken goes back to the free list.
-/

namespace Xv6Simplesh.Vm

open Library

variable {argv : List (List UInt8)}

section Program

variable {k : Symbols} {S : Nat → Prop} {d : Nat} {m₀ m : Machine}

/-! ## Segments -/

/-- What the loop over the program headers keeps: while it goes on, there are the pages below
the size and no others. -/
def Filling (k : Symbols) (S : Nat → Prop) (d : Nat) (m₀ : Machine) (state : Option Nat × Machine) : Prop :=
  Evolves k S d m₀ state.2 ∧
    ∀ sz, state.1 = some sz → sz < kernbase ∧ Laid k S d m₀ none (pageCount sz) state.2

theorem loadSegment_filling (ip : Reader) {ph : Proghdr} {sz : Nat} (laid : Laid k S d m₀ none (pageCount sz) m)
    (small : sz < kernbase) (memory : ph.memsz < 2 ^ 32) (addr : ph.vaddr < 2 ^ 32) :
    ∃ state, loadSegment k m d ip ph sz = .ok state ∧ Filling k S d m₀ state ∧
      state.2.total d npdentries = m.total d npdentries := by
  unfold loadSegment
  by_cases short : ph.memsz < ph.filesz
  · rw [if_pos short]
    exact ⟨_, rfl, ⟨laid.evo, nofun⟩, rfl⟩
  rw [if_neg short]
  by_cases wraps : (ph.vaddr + ph.memsz) % 2 ^ 32 < ph.vaddr
  · rw [if_pos wraps]
    exact ⟨_, rfl, ⟨laid.evo, nofun⟩, rfl⟩
  rw [if_neg wraps]
  have end' : (ph.vaddr + ph.memsz) % 2 ^ 32 = ph.vaddr + ph.memsz := by omega
  rw [end']
  rcases laid.allocuvm (ph.vaddr + ph.memsz) (Nat.le_of_lt small) with
    ⟨size, m₁, ran, largest, user, laid₁, total₁⟩ | ⟨m₁, ran, evo, total₁, -⟩
  · rw [ran]
    dsimp only
    by_cases zero : size = 0
    · rw [if_pos zero]
      exact ⟨_, rfl, ⟨laid₁.evo, nofun⟩, total₁⟩
    rw [if_neg zero]
    by_cases aligned : ph.vaddr % pgsize = 0
    · rw [if_neg (not_not.mpr aligned), loaduvm, if_neg (not_not.mpr aligned)]
      have inside : ph.vaddr + ph.filesz ≤ pageCount size * pgsize := by
        dsimp only [pageCount, pgsize]
        omega
      obtain ⟨loaded, m₂, copied, laid₂, total₂⟩ := laid₁.loaduvmLoop ip ph.off (i := 0) aligned inside
      rw [copied]
      refine ⟨_, rfl, ⟨laid₂.evo, ?_⟩, total₂.trans total₁⟩
      intro sz' res
      cases loaded with
      | false => cases res
      | true =>
        cases res
        exact ⟨by omega, laid₂⟩
    · rw [if_pos aligned]
      exact ⟨_, rfl, ⟨laid₁.evo, nofun⟩, total₁⟩
  · rw [ran]
    dsimp only
    rw [if_pos rfl]
    exact ⟨_, rfl, ⟨evo, nofun⟩, total₁⟩

theorem loadHeader_filling (ip : Reader) (phoff : Nat) {state : Option Nat × Machine} (i : Nat)
    (filling : Filling k S d m₀ state) :
    ∃ next, loadHeader k d ip phoff state i = .ok next ∧ Filling k S d m₀ next ∧
      next.2.total d npdentries = state.2.total d npdentries := by
  unfold loadHeader
  cases size : state.1 with
  | none => exact ⟨state, rfl, filling, rfl⟩
  | some sz =>
    dsimp only
    by_cases short : (ip.read ((phoff + i * proghdrSize) % 2 ^ 32) proghdrSize).1 ≠ proghdrSize
    · rw [if_pos short]
      exact ⟨_, rfl, ⟨filling.1, nofun⟩, rfl⟩
    rw [if_neg short]
    by_cases other : (Proghdr.ofBytes (ip.read ((phoff + i * proghdrSize) % 2 ^ 32) proghdrSize).2).type ≠ elfProgLoad
    · rw [if_pos other]
      exact ⟨state, rfl, filling, rfl⟩
    · rw [if_neg other]
      obtain ⟨small, laid⟩ := filling.2 sz size
      exact loadSegment_filling ip laid small (Bytes.word_lt ..) (Bytes.word_lt ..)

/-! ## The whole program -/

/-- The pages of a program: the page below the last one is the guard, and the arguments are in
the last one. -/
theorem buildStack_laid (cur : Image) {sz : Nat} (laid : Laid k S d m₀ none (pageCount sz) m) (small : sz < kernbase)
    (short : ∀ arg ∈ argv, arg.length < argLimit) :
    ∃ res m', buildStack k m cur d sz argv = .ok (res, m') ∧ Evolves k S d m₀ m' ∧
      m'.total d npdentries = m.total d npdentries ∧
      ∀ size sp, res = some (size, sp) →
        ∃ n, size = (n + 2) * pgsize ∧ n + 2 < userPages ∧ Laid k S d m₀ (some n) (n + 2) m' ∧ ArgsOn m' d n argv sp := by
  have top : pageCount sz * pgsize ≤ kernbase := by
    dsimp only [pageCount, pgsize, kernbase] at *
    omega
  have rounded : pgroundup sz = pageCount sz * pgsize := pgroundup_eq (Nat.le_of_lt small)
  unfold buildStack
  rw [rounded]
  rw [← pageCount_mul (pageCount sz)] at laid
  rcases laid.allocuvm (pageCount sz * pgsize + 2 * pgsize) top with
    ⟨size, m₁, ran, largest, below, laid₁, total₁⟩ | ⟨m₁, ran, evo, total₁, -⟩
  · have whole : size = (pageCount sz + 2) * pgsize := by
      dsimp only [pgsize] at largest ⊢
      omega
    rw [whole] at ran laid₁
    have bottom : (pageCount sz + 2) * pgsize - 2 * pgsize = pageCount sz * pgsize := by
      dsimp only [pgsize]
      omega
    rw [pageCount_mul] at laid₁
    obtain ⟨m₂, cleared, laid₂, total₂⟩ := laid₁.clearpteu (v := pageCount sz) (by omega)
    obtain ⟨sp, m₃, pushed, laid₃, total₃, arguments⟩ := pushArgs_laid cur laid₂ short
    rw [ran]
    dsimp only
    rw [if_neg (by dsimp only [pgsize]; omega), bottom, cleared]
    dsimp only
    rw [pushed]
    refine ⟨_, m₃, rfl, laid₃.evo, total₃.trans (total₂.trans total₁), ?_⟩
    intro size' sp' res
    obtain ⟨esp, found, both⟩ := Option.map_eq_some_iff.mp res
    cases both
    refine ⟨pageCount sz, rfl, ?_, laid₃, arguments sp' found⟩
    dsimp only [pgsize, kernbase, userPages] at below ⊢
    omega
  · rw [ran]
    dsimp only
    rw [if_pos rfl]
    exact ⟨none, m₁, rfl, evo, total₁, nofun⟩

theorem loadProgram_laid (cur : Image) (ip : Reader) (elf : Bytes)
    (laid : Laid k S d m₀ none 0 m) (short : ∀ arg ∈ argv, arg.length < argLimit) :
    ∃ res m', loadProgram k m cur d ip elf argv = .ok (res, m') ∧ Evolves k S d m₀ m' ∧
      m'.total d npdentries = m.total d npdentries ∧
      ∀ size sp, res = some (size, sp) →
        ∃ n, size = (n + 2) * pgsize ∧ n + 2 < userPages ∧ Laid k S d m₀ (some n) (n + 2) m' ∧ ArgsOn m' d n argv sp := by
  have start : Filling k S d m₀ (some 0, m) := by
    refine ⟨laid.evo, ?_⟩
    intro sz first
    cases first
    exact ⟨by decide, laid⟩
  obtain ⟨⟨sz, m₁⟩, filled, ⟨evo, pages⟩, total₁⟩ : ∃ state,
      (List.range (elf.word 11 % 2 ^ 16)).foldlM (loadHeader k d ip (elf.word 7)) (some 0, m) = .ok state ∧
        Filling k S d m₀ state ∧ state.2.total d npdentries = m.total d npdentries := by
    refine foldlM_invariant (fun state => Filling k S d m₀ state ∧ state.2.total d npdentries = m.total d npdentries)
      ⟨start, rfl⟩ fun state i _ so => ?_
    obtain ⟨next, loaded, filling, total⟩ := loadHeader_filling ip (elf.word 7) i so.1
    exact ⟨next, loaded, filling, total.trans so.2⟩
  simp only [loadProgram, filled, bind, Except.bind]
  cases sz with
  | none => exact ⟨none, m₁, rfl, evo, total₁, fun _ _ same => by cases same⟩
  | some sz =>
    obtain ⟨small, laid₁⟩ := pages sz rfl
    obtain ⟨res, m₂, built, evolves₂, total₂, found⟩ := buildStack_laid cur laid₁ small short
    exact ⟨res, m₂, built, evolves₂, total₂.trans total₁, found⟩

end Program

/-! ## `exec` -/

/-- The state after a successful `exec` by a process with page directory `c`: the old address
space is given back, and the new one consists of pages that were free. -/
structure Executed (k : Symbols) (m : Machine) (c : Nat) (image : Image) (m' : Machine) : Prop where
  outside : ∀ q, ¬ m.Footprint c q → m'.mem q = m.mem q
  inside : ∀ q ∈ m'.freelist, m.Footprint c q
  space : Space k m' image.pgdir
  kernel : KernelMapped k m' image.pgdir
  fresh : ∀ q, Held (m'.holder image.pgdir) q → q ∈ m.freelist
  pages : ∃ n, image.sz = (n + 2) * pgsize ∧ n + 2 < userPages ∧
    (∀ v < n + 2, ∃ bytes, m'.view image.pgdir v = some ⟨pageFlags (some n) v, bytes⟩) ∧
    ∀ v, n + 2 ≤ v → m'.view image.pgdir v = none

section Exec

variable {k : Symbols} {m : Machine} {c : Nat}

theorem exec_spec (sz : Nat) (file : Option Reader) (space : Space k m c)
    (short : ∀ arg ∈ argv, arg.length < argLimit) :
    (∃ m', exec k m ⟨c, sz⟩ file argv = .ok (none, m') ∧ Within k (· ∈ m.freelist) m m' ∧
        m'.freelist.length = m.freelist.length) ∨
      ∃ loaded m', exec k m ⟨c, sz⟩ file argv = .ok (some loaded, m') ∧ Executed k m c loaded.image m' ∧
        ∃ n, loaded.image.sz = (n + 2) * pgsize ∧ ArgsOn m' loaded.image.pgdir n argv loaded.esp := by
  have unchanged : Within k (· ∈ m.freelist) m m := ⟨space.toPool, fun _ _ => rfl, fun _ free => free⟩
  cases file with
  | none => exact .inl ⟨m, rfl, unchanged, rfl⟩
  | some ip =>
    unfold exec
    dsimp only
    by_cases small : (ip.read 0 elfhdrSize).1 ≠ elfhdrSize
    · rw [if_pos small]
      exact .inl ⟨m, rfl, unchanged, rfl⟩
    rw [if_neg small]
    by_cases magic : (ip.read 0 elfhdrSize).2.word 0 ≠ elfMagic
    · rw [if_pos magic]
      exact .inl ⟨m, rfl, unchanged, rfl⟩
    rw [if_neg magic]
    rcases setupkvm_spec (S := (· ∈ m.freelist)) space.toPool (fun _ free => free) with
      ⟨d, m₁, made, new⟩ | ⟨m₁, made, within, same, -⟩
    · have laid : Laid k (· ∈ m.freelist) d m₁ none 0 m₁ :=
        new.laid
      obtain ⟨res, m₂, loaded, evo, total, pages⟩ :=
        loadProgram_laid ⟨c, sz⟩ ip (ip.read 0 elfhdrSize).2 laid short
      have within : Within k (· ∈ m.freelist) m m₂ := evo.within.of_outside new.outside
      simp only [made, loaded, bind, Except.bind]
      cases res with
      | none =>
        obtain ⟨m₃, freed, within₃, length⟩ := freevm_within evo
        simp only [freed]
        refine .inl ⟨m₃, rfl, within₃.of_outside new.outside, ?_⟩
        rw [length, total, new.total]
      | some res =>
        obtain ⟨size, sp⟩ := res
        obtain ⟨n, whole, small, laid₂, bytes, pointers, view, onStack⟩ := pages size sp rfl
        -- the old address space has not been touched
        obtain ⟨kept, old⟩ := within.keep space
        obtain ⟨m₃, freed, within₃, -⟩ := freevm_within (.refl old fun _ used => used)
        have footprint : ∀ q, m₂.Footprint c q → m.Footprint c q := by
          intro q used
          cases used with
          | inl held => exact .inl (kept.holder ▸ held)
          | inr free => exact .inr (within.inside q free)
        -- nor does giving it back touch the new one
        have apart : ∀ q, Held (m₂.holder d) q → ¬ m₂.Footprint c q := by
          intro q held used
          cases used with
          | inl other => exact space.apart (kept.holder ▸ other) (evo.inside q (.inl held))
          | inr free => exact evo.space.apart held free
        have kept₃ : Kept m₂ m₃ d := kept_of_bytes fun q held => within₃.outside q (apart q held)
        simp only [freed]
        refine .inr ⟨_, m₃, rfl, ?_, n, whole, bytes, pointers, by rw [kept₃.view]; exact view, onStack⟩
        exact {
          outside := fun q out => by
            rw [within₃.outside q fun used => out (footprint q used), within.outside q fun free => out (.inr free)]
          inside := fun q free => footprint q (within₃.inside q free)
          space := laid₂.evo.space.keep within₃.pool kept₃ fun q held free => apart q held (within₃.inside q free)
          kernel := ⟨fun u kernel => by rw [kept₃.pte, laid₂.kernel.pte u kernel]⟩
          fresh := fun q held => evo.inside q (.inl (kept₃.holder ▸ held))
          pages := ⟨n, whole, small, fun v below => by rw [kept₃.view]; exact laid₂.there v below,
            fun v beyond => by rw [kept₃.view]; exact laid₂.above v beyond⟩ }
    · simp only [made, bind, Except.bind]
      exact .inl ⟨m₁, rfl, within, same⟩

/-! ## A program without segments -/

/-- A file with an ELF header and no segments. -/
def emptyProgram : Reader where
  read _ n := (n, (Bytes.fill 0).setWord 0 elfMagic)
  count_le _ _ := Int.le_refl _

theorem word_emptyProgram (i : Nat) : (emptyProgram.read 0 elfhdrSize).2.word i = if i = 0 then elfMagic else 0 := by
  by_cases first : i = 0
  · rw [if_pos first, first]
    exact Bytes.word_setWord_of_lt _ _ (by decide)
  · rw [if_neg first]
    exact Bytes.word_setWord_ne _ _ (Ne.symm first)

/-- Only the guard and the stack are made, and what happens to the arguments decides. -/
theorem exec_emptyProgram (cur : Image) (space : Space k m c) (free : 100 ≤ m.freelist.length) :
    ∃ d m₀ m₁, Laid k (· ∈ m.freelist) d m₀ (some 0) 2 m₁ ∧ (∀ x, x ∉ m.freelist → m₁.mem x = m.mem x) ∧
      m₁.total d npdentries + 1 = m.freelist.length ∧ ∀ argv sp m₂ m₃, pushArgs k m₁ cur d 8192 argv = .ok (sp, m₂) →
        freevm k m₂ (some (if sp.isSome then cur.pgdir else d)) = .ok m₃ →
        exec k m cur (some emptyProgram) argv = .ok (sp.map fun sp => ⟨⟨d, 8192⟩, 0, sp⟩, m₃) := by
  rcases setupkvm_spec (S := (· ∈ m.freelist)) space.toPool (fun _ free => free) with
    ⟨d, m₀, made, new⟩ | ⟨m₀, -, -, -, few⟩
  · have left := new.free
    have laid : Laid k (· ∈ m.freelist) d m₀ none (pageCount 0) m₀ := new.laid
    rcases laid.allocuvm 8192 (by decide) with ⟨size, m₁, grown, largest, -, laid₁, total₁⟩ | ⟨m₁, -, -, -, few⟩
    · obtain rfl : size = 8192 := largest
      obtain ⟨m₂, cleared, laid₂, total₂⟩ := laid₁.clearpteu (v := 0) (by decide)
      refine ⟨d, m₀, m₂, laid₂, fun x taken => ?_, by rw [total₂, total₁, new.total], fun argv sp m₃ m₄ pushed freed => ?_⟩
      · rw [laid₂.evo.outside x taken, new.outside x taken]
      · have built : buildStack k m₀ cur d 0 argv = .ok (sp.map fun sp => (8192, sp), m₃) := by
          have zero : pgroundup 0 = 0 := by decide
          have two : 0 + 2 * pgsize = 8192 := by decide
          have bottom : 8192 - 2 * pgsize = 0 * pgsize := by decide
          unfold buildStack
          rw [zero, two, grown]
          dsimp only
          rw [if_neg (by decide), bottom, cleared]
          dsimp only
          rw [pushed]
        have segments : (emptyProgram.read 0 elfhdrSize).2.word 11 % 2 ^ 16 = 0 := by
          rw [word_emptyProgram, if_neg (by decide)]
          rfl
        have loaded : loadProgram k m₀ cur d emptyProgram (emptyProgram.read 0 elfhdrSize).2 argv =
            .ok (sp.map fun sp => (8192, sp), m₃) := by
          rw [loadProgram, segments]
          exact built
        have size : ¬ (emptyProgram.read 0 elfhdrSize).1 ≠ elfhdrSize := fun wrong => wrong rfl
        have magic : ¬ (emptyProgram.read 0 elfhdrSize).2.word 0 ≠ elfMagic := by
          rw [word_emptyProgram, if_pos rfl]
          exact fun wrong => wrong rfl
        have entry : (emptyProgram.read 0 elfhdrSize).2.word 6 = 0 := by rw [word_emptyProgram, if_neg (by decide)]
        unfold exec
        dsimp only
        rw [if_neg size, if_neg magic]
        cases sp with
        | none =>
          have freed : freevm k m₃ (some d) = .ok m₄ := freed
          simp only [made, loaded, Option.map_none, freed, bind, Except.bind]
        | some sp =>
          have freed : freevm k m₃ (some cur.pgdir) = .ok m₄ := freed
          simp only [made, loaded, Option.map_some, freed, entry, bind, Except.bind]
    · have few := few (by decide)
      have pages : pageCount 8192 - pageCount 0 = 2 := by decide
      omega
  · omega

end Exec

end Xv6Simplesh.Vm
