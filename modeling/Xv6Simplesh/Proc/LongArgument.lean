import Xv6Simplesh.Proc.Sound

/-! # A long argument

An argument of more than 32 MB moves the stack pointer of `exec` below the device space, where
the kernel part has no page tables.  `copyout` then takes the word at address 0 of the calling
process for the page table entry.  A process that keeps an entry for one of its own page tables
there gets the argument written into the table, and with it any mapping it likes.

The run below fills the memory of the first process byte by byte.  It is too long to be
replayed, so that it is built by induction over the bytes and the pages.
-/

namespace Xv6Simplesh.Vm

open Library Function

/-! ## Filling the memory of the first process -/

/-- The first process runs with size `sz`; its first page table is `t`.  Its pages below `n` are
present and hold the bytes of `f`, and there are no others. -/
structure Typed (k : Symbols) (w : World) (d s t sz n : Nat) (f : Nat → UInt8) : Prop where
  reach : (processes k).Reachable (fun _ _ => True) w
  init : w.procs 0 = ⟨.running, 1, none, sz, some d, some s, none, false⟩
  space : Space k w.machine d
  kernel : KernelMapped k w.machine d
  table : w.machine.table d 0 = some t
  pages : ∀ v < n, ∃ bytes, w.machine.view d v = some ⟨7, bytes⟩ ∧ ∀ j < pgsize, bytes j = f (v * pgsize + j)
  above : ∀ v, n ≤ v → w.machine.view d v = none
  free : 0xD000 ≤ w.machine.freelist.length + 2 * n

section Typed

variable {k : Symbols} {w : World} {d s t sz n : Nat} {f g : Nat → UInt8}

theorem Typed.image (typed : Typed k w d s t sz n f) : w.image 0 = some ⟨d, sz⟩ := by
  simp [World.image, typed.init]

theorem Typed.call {w' : World} (typed : Typed k w d s t sz n f) (call : Call)
    (ran : perform k w 0 ⟨d, sz⟩ call = .ok w') : (processes k).Reachable (fun _ _ => True) w' := by
  refine .step (.call 0 call) typed.reach trivial ?_
  simp [processes, typed.init, typed.image, ran, nproc, Except.toOption]

section

variable (typed : Typed k w d s t sz n f)

include typed

theorem Typed.evo : Evolves k (w.machine.Footprint d) d w.machine w.machine := .refl typed.space fun _ used => used

theorem Typed.congr (same : ∀ a < n * pgsize, f a = g a) : Typed k w d s t sz n g where
  reach := typed.reach
  init := typed.init
  space := typed.space
  kernel := typed.kernel
  table := typed.table
  pages v below := by
    obtain ⟨bytes, view, contents⟩ := typed.pages v below
    refine ⟨bytes, view, fun j inside => ?_⟩
    rw [contents j inside]
    apply same
    dsimp only [pgsize] at *
    omega
  above := typed.above
  free := typed.free

theorem Typed.store (limit : n ≤ userPages) (va : Nat) (inside : va < n * pgsize)
    (byte : UInt8) : ∃ w', Typed k w' d s t sz n (update f va byte) := by
  have addr : va < 2 ^ 32 := by
    dsimp only [pgsize, userPages] at *
    omega
  have page : va / pgsize < n := by
    dsimp only [pgsize] at *
    omega
  obtain ⟨bytes, view, contents⟩ := typed.pages _ page
  obtain ⟨q, held, flags, memory, allowed⟩ := access_of_view true true addr view
  have number : (UInt32.ofNat va).toNat = va := UInt32.toNat_ofNat_of_lt' addr
  have stored := view_setPage typed.space held (update bytes (va % pgsize) byte)
  have evo := typed.evo.store held (update bytes (va % pgsize) byte)
  refine ⟨{ w with machine := w.machine.setPage q (update bytes (va % pgsize) byte) }, ?_⟩
  exact {
    reach := by
      refine typed.call (.store (UInt32.ofNat va) byte) ?_
      simp only [perform, number, allowed, memory]
    init := typed.init
    space := evo.space
    kernel := evo.kernelMapped typed.kernel
    table := evo.tables 0 t typed.table
    pages := fun v below => by
      by_cases same : v = va / pgsize
      · refine ⟨update bytes (va % pgsize) byte, ?_, fun j low => ?_⟩
        · rw [stored, same, update_self, flags]
        · by_cases here : j = va % pgsize
          · have target : v * pgsize + j = va := by
              dsimp only [pgsize] at *
              omega
            rw [here, update_self, ← here, target, update_self]
          · have other : v * pgsize + j ≠ va := by
              dsimp only [pgsize] at *
              omega
            rw [update_of_ne here, update_of_ne other, contents j low, same]
      · obtain ⟨old, view', contents'⟩ := typed.pages v below
        refine ⟨old, by rw [stored, update_of_ne same, view'], fun j low => ?_⟩
        have other : v * pgsize + j ≠ va := by
          dsimp only [pgsize] at *
          omega
        rw [update_of_ne other, contents' j low]
    above := fun v beyond => by
      rw [stored, update_of_ne (by omega), typed.above v beyond]
    free := typed.free }

theorem Typed.write (limit : n ≤ userPages) (g : Nat → UInt8) (start count : Nat)
    (inside : start + count ≤ n * pgsize) :
    ∃ w', Typed k w' d s t sz n fun a => if start ≤ a ∧ a < start + count then g a else f a := by
  induction count with
  | zero => exact ⟨w, typed.congr fun a _ => (if_neg (by omega)).symm⟩
  | succ count ih =>
    obtain ⟨w₁, typed₁⟩ := ih (by omega)
    obtain ⟨w₂, typed₂⟩ := typed₁.store limit (start + count) (by omega) (g (start + count))
    refine ⟨w₂, typed₂.congr fun a _ => ?_⟩
    by_cases last : a = start + count
    · rw [last, update_self, if_pos (by omega)]
    · have same : start ≤ a ∧ a < start + count ↔ start ≤ a ∧ a < start + (count + 1) := by omega
      rw [update_of_ne last]
      simp only [same]

theorem Typed.fault (limit : n < userPages) (room : 2 * n + 2 ≤ 0xD000) :
    ∃ w', Typed k w' d s t sz (n + 1) fun a => if a < n * pgsize then f a else 0 := by
  have addr : n * pgsize < 2 ^ 32 := by
    dsimp only [pgsize, userPages] at *
    omega
  have number : (UInt32.ofNat (n * pgsize)).toNat = n * pgsize := UInt32.toNat_ofNat_of_lt' addr
  have page : n * pgsize / pgsize = n := Nat.mul_div_cancel n (by decide)
  have absent : ¬ present (w.machine.pte d n) := not_present_of_view limit (typed.above n (Nat.le_refl n))
  obtain ⟨killed, m', ran, faulted⟩ := pageFault_faulted typed.evo addr
    (.inl rfl : true = true ∨ n * pgsize < sz)
  have memory := typed.free
  rw [page] at faulted
  cases faulted with
  | noPage empty =>
    rw [empty, List.length_nil] at memory
    omega
  | noTable last absent =>
    rw [last, List.length_singleton] at memory
    omega
  | lost free there => exact absurd there absent
  | @mapped q rest m' free _ mapped =>
    obtain ⟨-, -, -, -, view, -⟩ := typed.evo.takePage free (Bytes.fill 0)
    have view' : m'.view d = update (w.machine.view d) n (some ⟨7, Bytes.fill 0⟩) := by
      rw [mapped.view, view, Machine.mem_setPage_self]
      rfl
    refine ⟨{ w.setProc 0 (w.procs 0) with machine := m' }, ?_⟩
    exact {
      reach := by
        refine typed.call (.pageFault true (UInt32.ofNat (n * pgsize))) ?_
        simp only [perform, trapPageFault, number, ran, bind, Except.bind]
        simp [typed.init, World.setProc]
      init := by simp [World.setProc, typed.init]
      space := mapped.evo.space
      kernel := mapped.evo.kernelMapped typed.kernel
      table := mapped.evo.tables 0 t typed.table
      pages := fun v below => by
        by_cases same : v = n
        · refine ⟨Bytes.fill 0, by rw [view', same, update_self], fun j _ => ?_⟩
          rw [if_neg (by dsimp only [pgsize]; omega)]
          rfl
        · obtain ⟨bytes, old, contents⟩ := typed.pages v (by omega)
          refine ⟨bytes, by rw [view', update_of_ne same, old], fun j low => ?_⟩
          have earlier : v < n := by omega
          have inside : v * pgsize + j < n * pgsize := calc
            v * pgsize + j < v * pgsize + pgsize := Nat.add_lt_add_left low _
            _ = (v + 1) * pgsize := (Nat.succ_mul v pgsize).symm
            _ ≤ n * pgsize := Nat.mul_le_mul_right pgsize earlier
          rw [if_pos inside, contents j low]
      above := fun v beyond => by
        rw [view', update_of_ne (by omega), typed.above v (by omega)]
      free := by
        obtain ⟨t, -, ⟨-, same⟩ | ⟨-, first⟩⟩ := mapped.table
        · rw [free, List.length_cons] at memory
          have length : m'.freelist.length = rest.length := congrArg List.length same
          dsimp only
          omega
        · rw [free, List.length_cons] at memory
          have length : rest.length = m'.freelist.length + 1 := congrArg List.length first
          dsimp only
          omega }

end

theorem Typed.more (typed : Typed k w d s t sz 1 f) (n : Nat) (limit : n < userPages) (room : 2 * n + 2 ≤ 0xD000)
    (some : 0 < n) : ∃ w', Typed k w' d s t sz n f := by
  induction n with
  | zero => omega
  | succ n ih =>
    by_cases first : n = 0
    · subst first
      exact ⟨w, typed⟩
    · obtain ⟨w₁, typed₁⟩ := ih (by omega) (by omega) (by omega)
      obtain ⟨w₂, typed₂⟩ := typed₁.fault (by omega) (by omega)
      obtain ⟨w₃, typed₃⟩ := typed₂.write (Nat.le_of_lt limit) f (n * pgsize) pgsize (Nat.le_of_eq (Nat.succ_mul n pgsize).symm)
      refine ⟨w₃, typed₃.congr fun a inside => ?_⟩
      by_cases low : a < n * pgsize
      · rw [if_neg (by omega), if_pos low]
      · have next : (n + 1) * pgsize = n * pgsize + pgsize := Nat.succ_mul n pgsize
        rw [if_pos (by omega)]

/-- The first process of size `n` pages, with the bytes of `f`, which may depend on the page
table. -/
theorem typed_reachable (room : k.kend + 65 * pgsize ≤ 4 * 1024 * 1024) (small : n < 0x6000) (some : 0 < n) :
    ∃ d s t, ∀ f, ∃ w, Typed k w d s t (n * pgsize) n f := by
  obtain ⟨w, d, s, reach, first⟩ := firstRuns_reachable k (fun _ _ => True) room fun _ => trivial
  obtain ⟨page, flags, view⟩ := first.view
  obtain ⟨t, table⟩ := table_of_present ((first.present_iff (by decide)).mpr rfl)
  refine ⟨d, s, t, fun f => ?_⟩
  have size : (Int32.ofNat ((n - 1) * pgsize)).toInt = ((n - 1) * pgsize : Nat) := by
    rw [Int32.toInt_ofNat_of_lt]
    dsimp only [pgsize]
    omega
  obtain ⟨amount, grown⟩ : ∃ amount, sysSbrk k w.machine ⟨d, 4096⟩ amount =
      .ok (4096, ⟨d, n * pgsize⟩, w.machine) := by
    refine ⟨Int32.ofNat ((n - 1) * pgsize), ?_⟩
    have pos : ¬ Int32.ofNat ((n - 1) * pgsize) < 0 := by
      rw [Int32.lt_iff_toInt_lt, size]
      exact Int.not_lt.mpr (Int.natCast_nonneg _)
    have sum : 4096 + (n - 1) * pgsize = n * pgsize := by
      dsimp only [pgsize]
      omega
    have low : n * pgsize % 2 ^ 32 < kernbase := by
      dsimp only [pgsize, kernbase]
      omega
    rw [sysSbrk, if_neg pos, size, Int.toNat_natCast]
    dsimp only
    rw [sum, if_neg (Nat.not_le.mpr low)]
    rfl
  have typed : Typed k (w.setProc 0 { w.procs 0 with sz := n * pgsize }) d s t (n * pgsize) 1 page.bytes := {
    reach := by
      refine .step (.call 0 (.sbrk amount)) reach trivial ?_
      simp [processes, first.init, first.image, perform, grown, nproc, bind, Except.bind, Except.toOption, World.setProc]
    init := by simp [World.setProc, first.init]
    space := first.space
    kernel := first.kernel
    table := table
    pages := fun v below => by
      obtain rfl := Nat.lt_one_iff.mp below
      refine ⟨page.bytes, ?_, fun j _ => by rw [Nat.zero_mul, Nat.zero_add]⟩
      rw [World.setProc, view, update_self, ← flags.1]
    above := fun v beyond => by
      rw [World.setProc, view, update_of_ne (by omega)]
    free := Nat.le_trans first.free (Nat.le_add_right _ _) }
  obtain ⟨w₁, typed₁⟩ := typed.write (by decide) f 0 pgsize (by decide)
  have whole := typed₁.congr (g := f) fun a inside => if_pos ⟨Nat.zero_le a, by rwa [Nat.one_mul, ← Nat.zero_add pgsize] at inside⟩
  obtain ⟨w₂, typed₂⟩ := whole.more n (Nat.lt_trans small (by decide)) (by omega) some
  exact ⟨w₂, typed₂⟩

end Typed

/-! ## The argument -/

/-- The words of the memory: an entry at address 0, the argument vector at 4, and from 4096 on
a string that reads as page table entries, up to a final NUL. -/
def attackWords (entry : Nat) (i : Nat) : Nat :=
  if i = 0 then entry
  else if i = 1 then 4096
  else if i < 1024 then 0
  else if i < 0x800FFF then 0x01010107
  else 0x00010107

def attackBytes (entry : Nat) : Nat → UInt8 := Bytes.ofWords (attackWords entry)

/-- The length of the string. -/
abbrev attackLength : Nat := 0x2002FFF

theorem attackBytes_ne_zero (entry : Nat) {j : Nat} (inside : j < attackLength) : attackBytes entry (4096 + j) ≠ 0 := by
  have bytes : ∀ r < 4, UInt8.ofNat (0x01010107 / 256 ^ r) ≠ 0 := by decide
  have last : ∀ r < 3, UInt8.ofNat (0x00010107 / 256 ^ r) ≠ 0 := by decide
  dsimp only [attackLength] at inside
  rw [attackBytes, Bytes.ofWords, attackWords, if_neg (by omega), if_neg (by omega), if_neg (by omega)]
  by_cases early : (4096 + j) / 4 < 0x800FFF
  · rw [if_pos early]
    exact bytes _ (Nat.mod_lt _ (by decide))
  · rw [if_neg early]
    exact last _ (by omega)

theorem attackBytes_nul (entry : Nat) : attackBytes entry (4096 + attackLength) = 0 := by
  have row : (4096 + attackLength) / 4 = 0x800FFF := by decide
  have column : (4096 + attackLength) % 4 = 3 := by decide
  rw [attackBytes, Bytes.ofWords, row, column, attackWords, if_neg (by decide), if_neg (by decide), if_neg (by decide),
    if_neg (by decide)]
  decide

variable {bytes : Nat → UInt8}

theorem findNul_eq {s length rest : Nat} (inside : length < rest)
    (text : ∀ j < length, bytes (s + j) ≠ 0) (nul : bytes (s + length) = 0) :
    findNul bytes s rest = some (s + length) := by
  induction length generalizing s rest with
  | zero =>
    obtain ⟨rest, rfl⟩ := Nat.exists_eq_succ_of_ne_zero (Nat.ne_of_gt inside)
    rw [Nat.add_zero] at nul ⊢
    rw [findNul, if_pos nul]
  | succ length ih =>
    obtain ⟨rest, rfl⟩ := Nat.exists_eq_succ_of_ne_zero (Nat.ne_of_gt (Nat.lt_trans (Nat.succ_pos _) inside))
    have first := text 0 (Nat.succ_pos _)
    rw [Nat.add_zero] at first
    have shift : ∀ j, s + (j + 1) = s + 1 + j := by omega
    have text' : ∀ j < length, bytes (s + 1 + j) ≠ 0 := by
      intro j below
      rw [← shift]
      exact text (j + 1) (Nat.succ_lt_succ below)
    rw [shift] at nul
    rw [findNul, if_neg first, ih (Nat.lt_of_succ_lt_succ inside) text' nul, shift length]

theorem loadInt_eq {data : Bytes} {i : Nat}
    (same : ∀ a, a < 4 * i + 4 → bytes a = data a) : loadInt bytes (4 * i) = UInt32.ofNat (data.word i) := by
  rw [loadInt]
  congr 1
  simp only [Bytes.word]
  rw [same _ (by omega), same _ (by omega), same _ (by omega), same _ (by omega)]
  rfl

theorem fetchArgs_attack {entry : Nat} (same : ∀ a < 0x2004000, bytes a = attackBytes entry a) :
    ∃ arg : List UInt8, fetchArgs bytes 0x2004000 4 0 maxArg = some [arg] ∧ arg.length = attackLength ∧
      ∀ j < attackLength, arg.getD j 0 = attackBytes entry (4096 + j) := by
  have first : loadInt bytes (4 * 1) = 4096 := by
    rw [loadInt_eq fun a low => same a (by omega), attackBytes, Bytes.word_ofWords (show attackWords entry 1 < _ from (by decide : 4096 < 2 ^ 32))]
    rfl
  have snd : loadInt bytes (4 * 2) = 0 := by
    rw [loadInt_eq fun a low => same a (by omega), attackBytes, Bytes.word_ofWords (show attackWords entry 2 < _ from (by decide : 0 < 2 ^ 32))]
    rfl
  have fetched : fetchint bytes 0x2004000 (4 + 4 * UInt32.ofNat 0) = some 4096 := by
    rw [fetchint, if_neg (by decide)]
    exact congrArg some first
  have ended : fetchint bytes 0x2004000 (4 + 4 * UInt32.ofNat 1) = some 0 := by
    rw [fetchint, if_neg (by decide)]
    exact congrArg some snd
  have found : findNul bytes 4096 (0x2004000 - 4096) = some (4096 + attackLength) := by
    refine findNul_eq (by decide) (fun j below => ?_) ?_
    · rw [same _ (by dsimp only [attackLength] at below; omega)]
      exact attackBytes_ne_zero entry below
    · rw [same _ (by decide)]
      exact attackBytes_nul entry
  have string : fetchstr bytes 0x2004000 4096 = some (4096, attackLength) := by
    have number : (4096 : UInt32).toNat = 4096 := by decide
    rw [fetchstr, number, if_neg (by decide), found]
    rfl
  refine ⟨(List.range attackLength).map fun j => bytes (4096 + j), ?_, ?_, ?_⟩
  · rw [show maxArg = 30 + 2 from rfl, fetchArgs, fetched]
    dsimp only
    rw [if_neg (by decide), string]
    dsimp only
    rw [fetchArgs, ended]
    rfl
  · rw [List.length_map, List.length_range]
  · intro j below
    rw [List.getD_eq_getElem?_getD, List.getElem?_map, List.getElem?_range below]
    exact same _ (by dsimp only [attackLength] at below; omega)

/-! ## `exec` -/

section Exec

variable {k : Symbols} {m : Machine} {c d t : Nat}

/-- `copyout` to page `v`, without a page table and below a page of the kernel: the word at
address 0 is taken for the entry, and one page is written. -/
theorem copyout_hole {cur : Image} {p : Nat → UInt8} {len v : Nat} (bound : v + 1 < 2 ^ 20)
    (nothing : m.table d (v / nptentries) = none) (above : KernelPage (v + 1))
    (word : nullWord k m cur = .ok (mkPte (t * pgsize) (pteW ||| pteU), m)) (room : t * pgsize < phystop)
    (long : pgsize < len) (kernel : KernelMapped k (m.setPage t ((m.mem t).copy 0 p pgsize)) d) :
    copyout k m cur d (v * pgsize) p len = .ok (false, m.setPage t ((m.mem t).copy 0 p pgsize)) := by
  have page : v * pgsize / pgsize = v := Nat.mul_div_cancel v (by decide)
  have page' : (v + 1) * pgsize / pgsize = v + 1 := Nat.mul_div_cancel (v + 1) (by decide)
  have addr : v * pgsize < 2 ^ 32 :=
    Nat.lt_of_lt_of_eq (Nat.mul_lt_mul_of_pos_right (Nat.lt_of_succ_lt bound) (by decide)) (by decide : 2 ^ 20 * pgsize = _)
  have first : min pgsize len = pgsize := Nat.min_eq_left (Nat.le_of_lt long)
  have deref : derefPte k m cur d (v * pgsize) = .ok (mkPte (t * pgsize) (pteW ||| pteU), m) := by
    rw [derefPte, walkpgdir_false addr, page, nothing]
    exact word
  have found : uva2ka k m cur d (v * pgsize) = .ok (some t, m) := by
    have visible : user (mkPte (t * pgsize) (pteW ||| pteU)) = true := by
      rw [user_mkPte (by decide)]
      decide
    have there : present (mkPte (t * pgsize) (pteW ||| pteU)) = true := present_mkPte (by decide)
    have target : ptePage (mkPte (t * pgsize) (pteW ||| pteU)) = t := ptePage_mkPte (by decide)
    simp [uva2ka, deref, bind, Except.bind, there, visible, target]
  rw [copyout, if_pos (Nat.lt_trans (by decide) long)]
  dsimp only
  rw [pgrounddown_eq, page, found]
  dsimp only
  rw [if_neg (Nat.not_le.mpr room), Nat.sub_self, Nat.sub_zero, first, next_address bound, copyout,
    if_pos (Nat.sub_pos_of_lt long)]
  dsimp only
  rw [pgrounddown_eq, page', kernel.uva2ka cur above]

/-- The string is pushed to the page below the device space. -/
theorem pushString_attack : pushString 8192 attackLength = 0xFDFFF * pgsize := by decide

theorem pushArgs_attack {cur : Image} {arg : List UInt8} (length : arg.length = attackLength)
    (nothing : m.table d 1015 = none) (word : nullWord k m cur = .ok (mkPte (t * pgsize) (pteW ||| pteU), m))
    (room : t * pgsize < phystop) (kernel : KernelMapped k (m.setPage t ((m.mem t).copy 0 (stringBytes arg) pgsize)) d) :
    pushArgs k m cur d 8192 [arg] = .ok (none, m.setPage t ((m.mem t).copy 0 (stringBytes arg) pgsize)) := by
  have row : 0xFDFFF / nptentries = 1015 := by decide
  have copied := copyout_hole (v := 0xFDFFF) (by decide) (row ▸ nothing) (.inr ⟨by decide, by decide⟩) word room
    (by decide : pgsize < attackLength + 1) kernel
  have pushed : pushArg k cur d (some ⟨8192, []⟩, m) arg =
      .ok (none, m.setPage t ((m.mem t).copy 0 (stringBytes arg) pgsize)) := by
    simp only [pushArg, List.length_nil, length, pushString_attack, copied]
    rfl
  simp only [pushArgs, List.foldlM_cons, List.foldlM_nil, pushed, bind, Except.bind, pure, Except.pure]

/-- `exec` of a process that keeps the entry of one of its own pages `t` at address 0. -/
theorem exec_attack {q : Nat} {arg : List UInt8} (sz : Nat) (space : Space k m c) (length : arg.length = attackLength)
    (free : 100 ≤ m.freelist.length) (page : frame 0 (m.pte c 0) = some q)
    (entry : (m.mem q).word 0 = mkPte (t * pgsize) (pteW ||| pteU)) (own : Held (m.holder c) t) :
    ∃ m', exec k m ⟨c, sz⟩ (some emptyProgram) [arg] = .ok (none, m') ∧
      m'.mem t = (m.mem t).copy 0 (stringBytes arg) pgsize ∧ ∀ x, x ∉ m.freelist → x ≠ t → m'.mem x = m.mem x := by
  obtain ⟨d, m₀, m₁, laid, outside, -, finish⟩ := exec_emptyProgram ⟨c, sz⟩ space free
  have kept : Kept m m₁ c := kept_of_bytes fun x held => outside x (space.apart held)
  have word : nullWord k m₁ ⟨c, sz⟩ = .ok (mkPte (t * pgsize) (pteW ||| pteU), m₁) := by
    have found : access m₁ c false false 0 = some q := by
      rw [access_kernel m₁ c (by decide), kept.pte]
      exact page
    rw [nullWord, found]
    dsimp only
    rw [outside q (space.apart ⟨.page 0, page⟩), entry]
  have nothing : m₁.table d 1015 = none := by
    by_contra there
    rcases laid.tables 1015 there with kernel | low
    · rw [mem_kernelTables] at kernel
      omega
    · exact absurd low (by decide)
  -- the page that is overwritten is none of the new address space
  have apart : ∀ x, Held (m₁.holder d) x → x ≠ t := by
    rintro x held rfl
    exact space.apart own (laid.evo.inside x (.inl held))
  obtain ⟨m₂, written⟩ : ∃ m₂, m₂ = m₁.setPage t ((m₁.mem t).copy 0 (stringBytes arg) pgsize) := ⟨_, rfl⟩
  have kept₂ : Kept m₁ m₂ d := by
    rw [written]
    exact kept_of_bytes fun x held => m₁.mem_setPage_of_ne _ (apart x held)
  have pool₂ : Pool k m₂ := by
    rw [written]
    exact ⟨laid.evo.space.nodup, laid.evo.space.allocatable⟩
  have kernel₂ : KernelMapped k m₂ d := ⟨fun u kernel => by rw [kept₂.pte, laid.kernel.pte u kernel]⟩
  have taken₂ : ∀ x, Held (m₁.holder d) x → x ∉ m₂.freelist := by
    intro x held
    rw [written]
    exact laid.evo.space.apart held
  have pushed : pushArgs k m₁ ⟨c, sz⟩ d 8192 [arg] = .ok (none, m₂) := by
    rw [written] at kernel₂ ⊢
    exact pushArgs_attack length nothing word (space.owned t own).1.2 kernel₂
  obtain ⟨m₃, freed, within, -⟩ := freevm_within
    (Evolves.refl (laid.evo.space.keep pool₂ kept₂ taken₂) fun _ used => used)
  have footprint : ∀ x, m₂.Footprint d x → x ∈ m.freelist := by
    intro x used
    cases used with
    | inl held => exact laid.evo.inside x (.inl (kept₂.holder ▸ held))
    | inr list =>
      rw [written] at list
      exact laid.evo.inside x (.inr list)
  refine ⟨m₃, finish [arg] none m₂ m₃ pushed freed, ?_, ?_⟩
  · have taken : t ∉ m.freelist := space.apart own
    rw [within.outside t fun used => taken (footprint t used), written, Machine.mem_setPage_self, outside t taken]
  · intro x taken other
    rw [within.outside x fun used => taken (footprint x used), written, m₁.mem_setPage_of_ne _ other, outside x taken]

end Exec

/-! ## Two owners -/

theorem Typed.userByte {k : Symbols} {w : World} {d s t sz n : Nat} {f : Nat → UInt8} (typed : Typed k w d s t sz n f)
    (limit : n ≤ userPages) {va : Nat} (inside : va < n * pgsize) : userByte w.machine ⟨d, sz⟩ va = f va := by
  have low : va < kernbase := Nat.lt_of_lt_of_le inside (Nat.mul_le_mul_right pgsize limit)
  obtain ⟨bytes, view, contents⟩ := typed.pages (va / pgsize) (by dsimp only [pgsize] at *; omega)
  rw [userByte_eq w.machine ⟨d, sz⟩ low]
  simp only [view, Option.map_some, Option.getD_some]
  rw [contents _ (Nat.mod_lt _ (by decide)), Nat.div_add_mod']

/-- A word that lies `start` words further in other data. -/
theorem word_shift {data src : Bytes} {i : Nat} (start : Nat)
    (same : ∀ j, j / 4 = i → data j = src (4 * start + j)) : data.word i = src.word (start + i) := by
  simp only [Bytes.word]
  rw [same _ (by omega), same _ (by omega), same _ (by omega), same _ (by omega), Nat.mul_add]
  rfl

/-- The first process runs `exec` with an argument of 33566719 bytes.  Afterwards its pages 0
and 1 are the same page of memory. -/
theorem two_owners : ∃ w d q, (processes smallKernel).Reachable (fun _ _ => True) w ∧
    (w.procs 0).state = .running ∧ (w.procs 0).pgdir = some d ∧ w.machine.holder d (.page 0) = some q ∧
    w.machine.holder d (.page 1) = some q ∧ ¬ OneOwner w := by
  obtain ⟨d, s, t, reach⟩ := typed_reachable (k := smallKernel) (n := 0x2004) (by decide) (by decide) (by decide)
  obtain ⟨w, typed⟩ := reach (attackBytes (mkPte (t * pgsize) (pteW ||| pteU)))
  have own : w.machine.holder d (.table 0) = some t := typed.table
  have same : ∀ a < 0x2004000, userByte w.machine ⟨d, 0x2004 * pgsize⟩ a =
      attackBytes (mkPte (t * pgsize) (pteW ||| pteU)) a := fun a inside => typed.userByte (by decide) inside
  obtain ⟨arg, fetched, length, text⟩ := fetchArgs_attack same
  -- the word at address 0 is the entry of the process's first page table
  obtain ⟨bytes, view, contents⟩ := typed.pages 0 (by decide)
  obtain ⟨q, page, zero⟩ := Option.map_eq_some_iff.mp view
  have entry : (w.machine.mem q).word 0 = mkPte (t * pgsize) (pteW ||| pteU) := by
    have memory : w.machine.mem q = bytes := congrArg Page.bytes zero
    have small : attackWords (mkPte (t * pgsize) (pteW ||| pteU)) 0 < 2 ^ 32 :=
      mkPte_lt (by decide) (typed.space.owned t ⟨_, own⟩).1.lt
    rw [memory, word_shift 0 fun j first => contents j (by dsimp only [pgsize]; omega), attackBytes,
      Bytes.word_ofWords small]
    rfl
  obtain ⟨m', ran, written, kept⟩ := exec_attack (0x2004 * pgsize) typed.space length
    (by have := typed.free; omega) page entry ⟨_, own⟩
  have dir : m'.mem d = w.machine.mem d := by
    apply kept d (typed.space.apart ⟨.dir, rfl⟩)
    rintro rfl
    cases typed.space.exclusive own (rfl : w.machine.holder d .dir = some d)
  have table : m'.table d 0 = some t := by rw [table_congr dir, typed.table]
  have holds : ∀ v < nptentries, m'.holder d (.page v) = some 0x1010 := by
    intro v low
    have first : v / nptentries = 0 := Nat.div_eq_of_lt low
    have column : v % nptentries = v := Nat.mod_eq_of_lt low
    have word : attackWords (mkPte (t * pgsize) (pteW ||| pteU)) (1024 + v) = 0x01010107 := by
      dsimp only [nptentries] at low
      rw [attackWords, if_neg (by omega), if_neg (by omega), if_neg (by omega), if_pos (by omega)]
    have small : attackWords (mkPte (t * pgsize) (pteW ||| pteU)) (1024 + v) < 2 ^ 32 := by rw [word]; decide
    have pte : m'.pte d v = 0x01010107 := by
      rw [pte_of_table (first ▸ table), column, written, word_shift 1024, ← word, ← Bytes.word_ofWords small, ← attackBytes]
      intro j inside
      dsimp only [nptentries] at low
      rw [Bytes.copy, if_pos ⟨Nat.zero_le j, by dsimp only [pgsize]; omega⟩, Nat.sub_zero, stringBytes,
        text j (by dsimp only [attackLength]; omega)]
    have made : 0x01010107 = mkPte (0x1010 * pgsize) 0x106 := by decide
    rw [Machine.holder, pte, made]
    exact frame_mkPte (by decide) (.inl (Nat.lt_trans low (by decide)))
  have zeroth := holds 0 (by decide)
  have next := holds 1 (by decide)
  have running : (w.procs 0).state = .running := by rw [typed.init]
  have pgdir : (w.procs 0).pgdir = some d := by rw [typed.init]
  refine ⟨{ w with machine := m' }, d, 0x1010, typed.call (.exec (some emptyProgram) 4) ?_, running, pgdir, zeroth, next,
    fun owner => ?_⟩
  · have size : 0x2004 * pgsize = 0x2004000 := by decide
    rw [size] at fetched ran ⊢
    simp only [perform, fetched, ran, bind, Except.bind]
  · have live : (w.procs 0).state.live := by
      rw [running]
      rfl
    have both := owner.one 0 0 (by decide) (by decide) live live (some (.page 0)) (some (.page 1)) 0x1010
      ⟨d, pgdir, zeroth⟩ ⟨d, pgdir, next⟩
    exact absurd both.2 (by decide)

end Xv6Simplesh.Vm
