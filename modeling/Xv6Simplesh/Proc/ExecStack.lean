import Xv6Simplesh.Proc.Sound

/-! # What a program finds on its stack

A program starts with the stack pointer at a word for the return address, `argc` and `argv`,
followed by the array that `argv` points to; the strings are above.  `exec` builds all of this
in the one page above the guard page or returns -1, and then the process and the free pages are
those from before the call.
-/

namespace Xv6Simplesh.Vm

open Library

/-! ## The call -/

/-- What `exec` reads and writes of the calling process, with the registers of its trap frame. -/
structure Caller where
  pgdir : Nat
  sz : Nat
  eip : Nat
  esp : Nat
  name : List UInt8

/-- `last` after the loop over the path. -/
def lastElement (last : List UInt8) : List UInt8 → List UInt8
  | [] => last
  | c :: s => lastElement (if c = 47 then s else last) s

/-- `safestrcpy(s, t, n)`: at most `n - 1` bytes of the string with its NUL, and one more NUL. -/
def safestrcpy (s t : List UInt8) (n : Nat) : List UInt8 :=
  let copied := (t ++ [0]).take (n - 1)
  copied ++ [0] ++ s.drop (copied.length + 1)

/-- `exec` of the file that `namei` found at `path`, with what it stores in the process. -/
def execCall (k : Symbols) (m : Machine) (p : Caller) (path : List UInt8) (file : Option Reader)
    (argv : List (List UInt8)) : Except Panic (Int × Caller × Machine) :=
  match exec k m ⟨p.pgdir, p.sz⟩ file argv with
  | .error panic => .error panic
  | .ok (none, m) => .ok (-1, p, m)
  | .ok (some loaded, m) =>
    .ok (0, ⟨loaded.image.pgdir, loaded.image.sz, loaded.eip, loaded.esp,
      safestrcpy p.name (lastElement path path) 16⟩, m)

/-! ## The stack -/

/-- `ustack` and the strings: where each of them begins, and its size. -/
def regions (esp : Nat) (argv : List (List UInt8)) (pointers : List Nat) : List (Nat × Nat) :=
  (esp, (argv.length + 4) * 4) :: (pointers.zip argv).map fun r => (r.1, r.2.length + 1)

/-- What the program with the image `p` and the stack pointer `esp` finds. -/
structure ArgumentStack (m : Machine) (p : Image) (esp : Nat) (argv : List (List UInt8)) (pointers : List Nat) :
    Prop where
  length : pointers.length = argv.length
  returnAddress : loadInt (userByte m p) esp = 0xffffffff
  argc : loadInt (userByte m p) (esp + 4) = UInt32.ofNat argv.length
  argvPointer : loadInt (userByte m p) (esp + 8) = UInt32.ofNat (esp + 12)
  pointer : ∀ i < argv.length, loadInt (userByte m p) (esp + 12 + 4 * i) = UInt32.ofNat (pointers.getD i 0)
  zero : loadInt (userByte m p) (esp + 12 + 4 * argv.length) = 0
  aligned : ∀ a ∈ pointers, a % 4 = 0
  strings : ∀ r ∈ pointers.zip argv,
    (∀ j < r.2.length, userByte m p (r.1 + j) = r.2.getD j 0) ∧ userByte m p (r.1 + r.2.length) = 0
  disjoint : (regions esp argv pointers).Pairwise fun r s => r.1 + r.2 ≤ s.1 ∨ s.1 + s.2 ≤ r.1
  inside : ∀ r ∈ regions esp argv pointers, p.sz - pgsize ≤ r.1 ∧ r.1 + r.2 ≤ p.sz
  /-- The page of stack is open to the user. -/
  stackPage : ∀ va, p.sz - pgsize ≤ va → va < p.sz → access m p.pgdir true true va ≠ none
  /-- The page below it is not. -/
  guardPage : ∀ va, p.sz - 2 * pgsize ≤ va → va < p.sz - pgsize → access m p.pgdir true false va = none

section Stack

variable {k : Symbols} {m : Machine} {p : Image} {g esp : Nat} {bytes : Bytes} {argv : List (List UInt8)}
  {pointers : List Nat}

theorem pageFlags_stack (g : Nat) : pageFlags (some g) (g + 1) = 7 := by
  rw [pageFlags, if_neg fun same => absurd (Option.some.inj same) (by omega)]
  rfl

theorem userByte_stack (limit : g + 2 ≤ userPages)
    (view : m.view p.pgdir (g + 1) = some ⟨pageFlags (some g) (g + 1), bytes⟩) {va : Nat}
    (low : (g + 1) * pgsize ≤ va) (high : va < (g + 2) * pgsize) :
    access m p.pgdir true true va ≠ none ∧ userByte m p va = bytes (va - (g + 1) * pgsize) := by
  have page : va / pgsize = g + 1 := by
    dsimp only [pgsize] at *
    omega
  have offset : va % pgsize = va - (g + 1) * pgsize := by
    dsimp only [pgsize] at *
    omega
  have addr : va < 2 ^ 32 := by
    dsimp only [pgsize, userPages] at *
    omega
  rw [pageFlags_stack, ← page] at view
  obtain ⟨q, -, -, -, written⟩ := access_of_view true true addr view
  obtain ⟨q', -, -, memory, found⟩ := access_of_view false false addr view
  constructor
  · rw [written]
    nofun
  · rw [userByte, found, ← offset, ← memory]

theorem access_guard (limit : g + 2 ≤ userPages)
    (view : m.view p.pgdir g = some ⟨pageFlags (some g) g, bytes⟩) {va : Nat} (page : va / pgsize = g) :
    access m p.pgdir true false va = none := by
  have addr : va < 2 ^ 32 := by
    dsimp only [pgsize, userPages] at *
    omega
  obtain ⟨q, held, same⟩ := Option.map_eq_some_iff.mp view
  obtain ⟨there, -, -⟩ := frame_eq_some.mp held
  obtain ⟨t, found⟩ := table_of_present there
  have flags : pteFlags (m.pte p.pgdir g) = pteW ||| pteP := by
    have all := congrArg Page.flags same
    rwa [pageFlags, if_pos rfl] at all
  have hidden : user (m.pte p.pgdir g) = false := by
    rw [user, ← testBit_pteFlags _ (by decide), flags]
    decide
  rw [access, walkpgdir_false addr, page, found]
  simp only [Option.map_some, ← pte_of_table found, hidden]
  rw [if_neg]
  simp

theorem loadInt_onStack (limit : g + 2 ≤ userPages)
    (view : m.view p.pgdir (g + 1) = some ⟨pageFlags (some g) (g + 1), bytes⟩)
    (onStack : OnStack bytes ((g + 1) * pgsize) ((g + 2) * pgsize) argv pointers esp) {j val : Nat}
    (word : ([0xffffffff, argv.length, esp + 12] ++ pointers ++ [0])[j]? = some val) (bound : val < 2 ^ 32) :
    loadInt (userByte m p) (esp + 4 * j) = UInt32.ofNat val := by
  have inside : j < argv.length + 4 := by
    have below := List.getElem?_eq_some_iff.mp word
    obtain ⟨below, -⟩ := below
    simp only [List.length_append, List.length_cons, List.length_nil, onStack.length] at below
    omega
  have low := onStack.low
  have high := onStack.high
  have byte : ∀ i < 4, userByte m p (esp + 4 * j + i) =
      Bytes.ofWords (fun i => ([0xffffffff, argv.length, esp + 12] ++ pointers ++ [0]).getD i 0) (4 * j + i) := by
    intro i small
    have shift : esp + 4 * j + i - (g + 1) * pgsize = esp - (g + 1) * pgsize + (4 * j + i) := by omega
    rw [(userByte_stack limit view (by omega) (by omega)).2, shift, onStack.words _ (by omega)]
  have same : Bytes.word (fun i => userByte m p (esp + 4 * j + i)) 0 =
      (Bytes.ofWords (fun i => ([0xffffffff, argv.length, esp + 12] ++ pointers ++ [0]).getD i 0)).word j := by
    have first := byte 0 (by decide)
    rw [Nat.add_zero, Nat.add_zero] at first
    simp only [Bytes.word, first, byte 1 (by decide), byte 2 (by decide), byte 3 (by decide), Nat.mul_zero,
      Nat.zero_add, Nat.add_zero]
  have stored : ([0xffffffff, argv.length, esp + 12] ++ pointers ++ [0]).getD j 0 = val := by
    rw [List.getD_eq_getElem?_getD, word]
    rfl
  rw [loadInt, same, Bytes.word_ofWords (by rw [stored]; exact bound), stored]

theorem exists_string (length : pointers.length = argv.length) {a : Nat} (mem : a ∈ pointers) :
    ∃ arg, (a, arg) ∈ pointers.zip argv := by
  obtain ⟨i, inside, rfl⟩ := List.getElem_of_mem mem
  have both : i < (pointers.zip argv).length := by
    rw [List.length_zip]
    omega
  refine ⟨argv[i], ?_⟩
  have found := List.getElem_mem both
  rwa [List.getElem_zip] at found

theorem argumentStack_of_onStack (limit : g + 2 ≤ userPages) (size : p.sz = (g + 2) * pgsize) {bytes' : Bytes}
    (guard : m.view p.pgdir g = some ⟨pageFlags (some g) g, bytes'⟩)
    (view : m.view p.pgdir (g + 1) = some ⟨pageFlags (some g) (g + 1), bytes⟩)
    (onStack : OnStack bytes ((g + 1) * pgsize) ((g + 2) * pgsize) argv pointers esp) :
    ArgumentStack m p esp argv pointers := by
  have low := onStack.low
  have high := onStack.high
  have length := onStack.length
  have top : (g + 2) * pgsize < 2 ^ 32 := by
    dsimp only [pgsize, userPages] at limit ⊢
    omega
  have bottom : p.sz - pgsize = (g + 1) * pgsize := by
    rw [size]
    dsimp only [pgsize]
    omega
  have word : ∀ j val, ([0xffffffff, argv.length, esp + 12] ++ pointers ++ [0])[j]? = some val → val < 2 ^ 32 →
      loadInt (userByte m p) (esp + 4 * j) = UInt32.ofNat val :=
    fun j val => loadInt_onStack limit view onStack
  exact {
    length := length
    returnAddress := word 0 _ rfl (by decide)
    argc := word 1 _ rfl (by omega)
    argvPointer := word 2 _ rfl (by omega)
    pointer := fun i below => by
      have inside : i < pointers.length := by omega
      have found : ([0xffffffff, argv.length, esp + 12] ++ pointers ++ [0])[i + 3]? = some (pointers.getD i 0) := by
        simp only [List.cons_append, List.nil_append, List.getElem?_cons_succ]
        rw [List.getElem?_append_left inside, List.getD_eq_getElem?_getD, List.getElem?_eq_getElem inside]
        rfl
      have bound : pointers.getD i 0 < 2 ^ 32 := by
        rw [List.getD_eq_getElem?_getD, List.getElem?_eq_getElem inside]
        obtain ⟨arg, mem⟩ := exists_string length (List.getElem_mem inside)
        have below := (onStack.inside _ mem).2.1
        exact Nat.lt_of_le_of_lt (Nat.le_trans (Nat.le_add_right _ _) below) top
      rw [show esp + 12 + 4 * i = esp + 4 * (i + 3) by omega]
      exact word _ _ found bound
    zero := by
      have found : ([0xffffffff, argv.length, esp + 12] ++ pointers ++ [0])[argv.length + 3]? = some 0 := by
        simp only [List.cons_append, List.nil_append, List.getElem?_cons_succ]
        rw [List.getElem?_append_right (by omega), length, Nat.sub_self]
        rfl
      rw [show esp + 12 + 4 * argv.length = esp + 4 * (argv.length + 3) by omega]
      exact word _ _ found (by decide)
    aligned := fun a mem => by
      obtain ⟨arg, found⟩ := exists_string length mem
      exact (onStack.inside _ found).2.2
    strings := fun r mem => by
      obtain ⟨above, below, -⟩ := onStack.inside r mem
      have byte : ∀ j ≤ r.2.length, userByte m p (r.1 + j) = r.2.getD j 0 := by
        intro j within
        have shift : r.1 + j - (g + 1) * pgsize = r.1 - (g + 1) * pgsize + j := by omega
        rw [(userByte_stack limit view (by omega) (by omega)).2, shift, onStack.strings r mem j within]
      refine ⟨fun j within => byte j (Nat.le_of_lt within), ?_⟩
      rw [byte _ (Nat.le_refl _), List.getD_eq_default _ _ (Nat.le_refl _)]
    disjoint := by
      refine List.pairwise_cons.mpr ⟨fun r mem => ?_, List.pairwise_map.mpr (onStack.apart.imp .inr)⟩
      obtain ⟨s, found, rfl⟩ := List.mem_map.mp mem
      exact .inl (onStack.inside s found).1
    inside := fun r mem => by
      rw [bottom, size]
      cases List.mem_cons.mp mem with
      | inl first =>
        rw [first]
        exact ⟨low, high⟩
      | inr string =>
        obtain ⟨s, found, rfl⟩ := List.mem_map.mp string
        obtain ⟨above, below, -⟩ := onStack.inside s found
        exact ⟨by dsimp only; omega, below⟩
    stackPage := fun va from' to' => by
      rw [bottom] at from'
      rw [size] at to'
      exact (userByte_stack limit view from' to').1
    guardPage := fun va from' to' => by
      refine access_guard limit guard ?_
      dsimp only [pgsize] at size from' to' ⊢
      omega }

end Stack

/-- Every `exec` returns.  If it returns 0, the program finds its arguments on the stack; if it
returns -1, the process is as it was and the free pages are the same. -/
theorem exec_arguments (k : Symbols) {m : Machine} (p : Caller) (path : List UInt8) (file : Option Reader)
    {argv : List (List UInt8)} (space : Space k m p.pgdir) (short : (argv.map List.length).sum < argLimit) :
    ∃ val p' m', execCall k m p path file argv = .ok (val, p', m') ∧
      (val = 0 ∧ (∃ pointers, ArgumentStack m' ⟨p'.pgdir, p'.sz⟩ p'.esp argv pointers) ∨
        val = -1 ∧ p' = p ∧ m'.freelist.Perm m.freelist) := by
  have each : ∀ arg ∈ argv, arg.length < argLimit := fun arg mem =>
    Nat.lt_of_le_of_lt (List.single_le_sum (fun _ _ => Nat.zero_le _) _ (List.mem_map_of_mem mem)) short
  rcases exec_spec p.sz file space each with ⟨m', failed, within, same⟩ | ⟨loaded, m', made, executed, n, size, arguments⟩
  · refine ⟨-1, p, m', by rw [execCall, failed], .inr ⟨rfl, rfl, ?_⟩⟩
    have sub : m'.freelist.Subperm m.freelist := List.subperm_of_subset within.pool.nodup within.inside
    exact sub.perm_of_length_le (Nat.le_of_eq same.symm)
  · refine ⟨0, _, m', by rw [execCall, made], .inl ⟨rfl, ?_⟩⟩
    obtain ⟨n', size', small, there, -⟩ := executed.pages
    obtain rfl : n' = n := by
      rw [size] at size'
      dsimp only [pgsize] at size'
      omega
    obtain ⟨bytes', guard⟩ := there n' (by omega)
    obtain ⟨bytes, pointers, view, onStack⟩ := arguments
    exact ⟨pointers, argumentStack_of_onStack (Nat.le_of_lt small) size guard view onStack⟩

/-- The first process runs a program without segments, with the argument `ab`. -/
theorem exec_arguments_first : ∃ m p p' m' pointers, Space smallKernel m p.pgdir ∧
    execCall smallKernel m p [47, 105] (some emptyProgram) [[97, 98]] = .ok (0, p', m') ∧
    ArgumentStack m' ⟨p'.pgdir, p'.sz⟩ p'.esp [[97, 98]] pointers := by
  obtain ⟨w, c, s, -, first⟩ := firstRuns_reachable smallKernel (fun _ _ => True) (by decide) fun _ => trivial
  have free : 100 ≤ w.machine.freelist.length := Nat.le_trans (by decide) first.free
  obtain ⟨d, m₀, m₁, laid, outside, -, finish⟩ := exec_emptyProgram ⟨c, 4096⟩ first.space free
  -- the page of stack has room for the string and for `ustack`
  obtain ⟨bytes, view⟩ := laid.there 1 (by decide)
  obtain ⟨m₂, string, laid₂, -, view₂⟩ := laid.copyout_page ⟨c, 4096⟩ 1 4092 3 (stringBytes [97, 98]) (by decide)
    (by decide) (by decide) (by decide) view
  obtain ⟨m₃, words, laid₃, -, -⟩ := laid₂.copyout_page ⟨c, 4096⟩ 1 4072 20
    (Bytes.ofWords fun i => (ustackWords ⟨8188, [8188]⟩).getD i 0) (by decide) (by decide) (by decide) (by decide) view₂
  have pushed : pushArgs smallKernel m₁ ⟨c, 4096⟩ d 8192 [[97, 98]] = .ok (some 8168, m₃) := by
    have push : pushArg smallKernel ⟨c, 4096⟩ d (some ⟨8192, []⟩, m₁) [97, 98] = .ok (some ⟨8188, [8188]⟩, m₂) := by
      have sp : pushString 8192 [(97 : UInt8), 98].length = 1 * pgsize + 4092 := by decide
      have count : ¬ ([] : List Nat).length ≥ maxArg := by decide
      simp only [pushArg, if_neg count, sp]
      rw [show [(97 : UInt8), 98].length + 1 = 3 from rfl, string]
      rfl
    have length : (ustackWords ⟨8188, [8188]⟩).length * 4 = 20 := by decide
    have sp : (8188 + 2 ^ 32 - 20) % 2 ^ 32 = 1 * pgsize + 4072 := by decide
    simp only [pushArgs, List.foldlM_cons, List.foldlM_nil, push, pure, Except.pure, bind, Except.bind, length, sp, words,
      if_true]
    rfl
  have start : ∀ x, x ∉ w.machine.freelist → m₀.mem x = w.machine.mem x := fun x taken =>
    (laid.evo.outside x taken).symm.trans (outside x taken)
  obtain ⟨-, old⟩ := (laid₃.evo.within.of_outside start).keep first.space
  obtain ⟨m₄, freed, -, -⟩ := freevm_within (.refl old fun _ used => used)
  have ran := finish [[97, 98]] (some 8168) m₃ m₄ pushed freed
  obtain ⟨val, p', m', called, outcome⟩ := exec_arguments smallKernel (m := w.machine) ⟨c, 4096, 0, 0, []⟩ [47, 105]
    (some emptyProgram) first.space (by decide : (([[97, 98]] : List (List UInt8)).map List.length).sum < argLimit)
  rw [execCall, ran] at called
  cases called
  cases outcome with
  | inl found =>
    obtain ⟨-, pointers, stack⟩ := found
    exact ⟨w.machine, ⟨c, 4096, 0, 0, []⟩, _, _, pointers, first.space, by rw [execCall, ran]; rfl, stack⟩
  | inr failed => cases failed.1

end Xv6Simplesh.Vm
