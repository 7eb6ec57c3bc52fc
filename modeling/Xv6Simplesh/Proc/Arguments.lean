import Xv6Simplesh.Proc.Exec
import Xv6Simplesh.Vm.Loading

/-! # The arguments on the new stack

`exec` copies the arguments to the page of stack one below the other, and under them `ustack`,
with the pointers to them.  The one thing it does not check is the length of an argument: the
stack pointer is moved down by it before `copyout` looks at the address.  An argument below
32 MB moves it into the new pages or up into the device space of the kernel part.

Nothing but the guard page stops the stack pointer, and that is enough: what begins below the
page of stack has a byte in the guard page, and `copyout` fails there.  So all that a successful
`exec` has copied is in the page of stack.
-/

namespace Xv6Simplesh.Vm

open Library

/-- The lengths for which moving the stack pointer down does not miss the device space. -/
abbrev argLimit : Nat := 2 ^ 32 - devspace

variable {sp : Nat} {bytes : Bytes} {args : List (List UInt8)} {stack : ArgStack}

/-- `copyout` finds its entries after the stack pointer has moved down. -/
theorem copyable_down {n len sp' : Nat} (top : sp ≤ n * pgsize) (short : len ≤ argLimit)
    (moved : sp' = (sp + 2 ^ 32 - len) % 2 ^ 32 ∨ sp' = (sp + 2 ^ 32 - len) % 2 ^ 32 / 4 * 4) :
    Copyable n sp' len := by
  dsimp only [Copyable, KernelPage, argLimit, devspace, pgsize] at *
  omega

/-! ## Strings -/

/-- The strings of `args` in the page of stack from `base` to `top`, each below the one before
it, at the addresses in `ustack`. -/
structure Stacked (bytes : Bytes) (base top : Nat) (args : List (List UInt8)) (stack : ArgStack) : Prop where
  length : stack.ustack.length = args.length
  count : args.length ≤ maxArg
  low : base ≤ stack.sp
  high : stack.sp ≤ top
  aligned : stack.sp % 4 = 0
  inside : ∀ r ∈ stack.ustack.zip args, stack.sp ≤ r.1 ∧ r.1 + (r.2.length + 1) ≤ top ∧ r.1 % 4 = 0
  apart : (stack.ustack.zip args).Pairwise fun r s => s.1 + (s.2.length + 1) ≤ r.1
  strings : ∀ r ∈ stack.ustack.zip args, ∀ j ≤ r.2.length, bytes (r.1 - base + j) = r.2.getD j 0

theorem Stacked.empty (bytes : Bytes) {base top : Nat} (order : base ≤ top) (aligned : top % 4 = 0) :
    Stacked bytes base top [] ⟨top, []⟩ :=
  ⟨rfl, Nat.zero_le _, order, Nat.le_refl top, aligned, nofun, .nil, nofun⟩

theorem Stacked.push {base top : Nat}
    (stacked : Stacked bytes base top args stack) (arg : List UInt8) (room : args.length < maxArg) (low : base ≤ sp)
    (below : sp + (arg.length + 1) ≤ stack.sp) (aligned : sp % 4 = 0) :
    Stacked (bytes.copy (sp - base) (stringBytes arg) (arg.length + 1)) base top (args ++ [arg])
      ⟨sp, stack.ustack ++ [sp]⟩ := by
  have both : (stack.ustack ++ [sp]).zip (args ++ [arg]) = stack.ustack.zip args ++ [(sp, arg)] :=
    List.zip_append stacked.length
  have high := stacked.high
  exact {
    length := by rw [List.length_append, List.length_append, stacked.length]; rfl
    count := by rw [List.length_append]; exact room
    low := low
    high := by dsimp only; omega
    aligned := aligned
    inside := fun r mem => by
      rw [both, List.mem_append, List.mem_singleton] at mem
      cases mem with
      | inl old =>
        obtain ⟨above, end', whole⟩ := stacked.inside r old
        exact ⟨by dsimp only; omega, end', whole⟩
      | inr new =>
        subst new
        exact ⟨Nat.le_refl sp, by dsimp only; omega, aligned⟩
    apart := by
      rw [both, List.pairwise_append]
      refine ⟨stacked.apart, List.pairwise_singleton .., fun r old s new => ?_⟩
      rw [List.mem_singleton.mp new]
      exact Nat.le_trans below (stacked.inside r old).1
    strings := fun r mem j within => by
      rw [both, List.mem_append, List.mem_singleton] at mem
      cases mem with
      | inl old =>
        -- the strings before it are above
        have above := (stacked.inside r old).1
        rw [Bytes.copy_outside _ _ (.inr (by omega)), stacked.strings r old j within]
      | inr new =>
        subst new
        exact Bytes.copy_inside _ _ _ (Nat.lt_succ_of_le within) }

section Arguments

variable {k : Symbols} {S : Nat → Prop} {d g : Nat} {m₀ m : Machine}

/-- Where the stack pointer is if `copyout` met neither the guard page nor the end. -/
theorem pushString_inside {len : Nat} (limit : g + 2 ≤ userPages) (low : (g + 1) * pgsize ≤ sp)
    (high : sp ≤ (g + 2) * pgsize) (aligned : sp % 4 = 0) (short : len < argLimit)
    (pages : ∀ v, pushString sp len / pgsize ≤ v → v * pgsize < pushString sp len + (len + 1) →
      v < g + 2 ∧ some g ≠ some v) :
    (g + 1) * pgsize ≤ pushString sp len ∧ pushString sp len + (len + 1) ≤ sp ∧ pushString sp len % 4 = 0 := by
  have length : (len + 1) % 2 ^ 32 = len + 1 := by
    dsimp only [argLimit, devspace] at short
    omega
  have first := pages (pushString sp len / pgsize) (Nat.le_refl _)
  have guard := pages g
  rw [pushString, length] at first guard ⊢
  dsimp only [pgsize, userPages, argLimit, devspace] at limit low high short first guard ⊢
  by_cases wraps : sp < len + 1
  · have beyond := (first (by omega)).1
    omega
  · by_cases under : (sp + 2 ^ 32 - (len + 1)) % 2 ^ 32 / 4 * 4 < (g + 1) * 4096
    · exact absurd rfl (guard (by omega) (by omega)).2
    · omega

/-- `copyout` of a string: it fails, or the string is in the page of stack. -/
theorem pushArg_stacked (cur : Image) {arg : List UInt8} (laid : Laid k S d m₀ (some g) (g + 2) m)
    (view : m.view d (g + 1) = some ⟨pageFlags (some g) (g + 1), bytes⟩)
    (stacked : Stacked bytes ((g + 1) * pgsize) ((g + 2) * pgsize) args stack) (short : arg.length < argLimit) :
    ∃ next m', pushArg k cur d (some stack, m) arg = .ok (next, m') ∧ Laid k S d m₀ (some g) (g + 2) m' ∧
      m'.total d npdentries = m.total d npdentries ∧
      ∀ stack', next = some stack' → ∃ bytes', m'.view d (g + 1) = some ⟨pageFlags (some g) (g + 1), bytes'⟩ ∧
        Stacked bytes' ((g + 1) * pgsize) ((g + 2) * pgsize) (args ++ [arg]) stack' := by
  unfold pushArg
  dsimp only
  by_cases full : stack.ustack.length ≥ maxArg
  · rw [if_pos full]
    exact ⟨_, _, rfl, laid, rfl, nofun⟩
  rw [if_neg full]
  have length : (arg.length + 1) % 2 ^ 32 = arg.length + 1 := by
    dsimp only [argLimit, devspace] at short
    omega
  have copyable : Copyable (g + 2) (pushString stack.sp arg.length) (arg.length + 1) :=
    copyable_down stacked.high short (.inr (by rw [pushString, length]))
  obtain ⟨copied, m', ran, laid', total, pages⟩ := laid.copyout cur (p := stringBytes arg) copyable
  cases copied with
  | false =>
    rw [ran]
    exact ⟨_, _, rfl, laid', total, nofun⟩
  | true =>
    obtain ⟨low, below, aligned⟩ := pushString_inside laid.limit stacked.low stacked.high stacked.aligned short
      (pages rfl (Nat.succ_pos _))
    -- the copy is one within the page of stack
    have high := stacked.high
    have offset : (g + 1) * pgsize + (pushString stack.sp arg.length - (g + 1) * pgsize) =
        pushString stack.sp arg.length := Nat.add_sub_cancel' low
    have fits : pushString stack.sp arg.length - (g + 1) * pgsize + (arg.length + 1) ≤ pgsize := by
      dsimp only [pgsize] at *
      omega
    obtain ⟨m'', ran', -, -, view'⟩ := laid.copyout_page cur (g + 1)
      (pushString stack.sp arg.length - (g + 1) * pgsize) (arg.length + 1) (stringBytes arg) (by omega)
      (fun same => by cases same) (Nat.succ_pos _) fits view
    rw [offset, ran] at ran'
    cases ran'
    rw [ran]
    refine ⟨_, _, rfl, laid', total, fun stack' res => ?_⟩
    cases res
    exact ⟨_, view', stacked.push arg (stacked.length ▸ Nat.lt_of_not_le full) low below aligned⟩

theorem foldlM_pushArg_none (k : Symbols) (cur : Image) (d : Nat) (m : Machine) (argv : List (List UInt8)) :
    argv.foldlM (pushArg k cur d) (none, m) = .ok (none, m) := by
  induction argv with
  | nil => rfl
  | cons arg argv ih => exact ih

theorem foldlM_pushArg (cur : Image) {argv : List (List UInt8)} (short : ∀ arg ∈ argv, arg.length < argLimit) (laid : Laid k S d m₀ (some g) (g + 2) m)
    (view : m.view d (g + 1) = some ⟨pageFlags (some g) (g + 1), bytes⟩)
    (stacked : Stacked bytes ((g + 1) * pgsize) ((g + 2) * pgsize) args stack) :
    ∃ next m', argv.foldlM (pushArg k cur d) (some stack, m) = .ok (next, m') ∧
      Laid k S d m₀ (some g) (g + 2) m' ∧ m'.total d npdentries = m.total d npdentries ∧
      ∀ stack', next = some stack' → ∃ bytes', m'.view d (g + 1) = some ⟨pageFlags (some g) (g + 1), bytes'⟩ ∧
        Stacked bytes' ((g + 1) * pgsize) ((g + 2) * pgsize) (args ++ argv) stack' := by
  induction argv generalizing stack args bytes m with
  | nil =>
    refine ⟨_, _, rfl, laid, rfl, fun stack' same => ?_⟩
    cases same
    rw [List.append_nil]
    exact ⟨bytes, view, stacked⟩
  | cons arg argv ih =>
    obtain ⟨next, m₁, pushed, laid₁, total₁, found⟩ :=
      pushArg_stacked cur laid view stacked (short arg (.head _))
    rw [List.foldlM_cons, pushed, ok_bind]
    cases next with
    | none =>
      rw [foldlM_pushArg_none]
      exact ⟨_, _, rfl, laid₁, total₁, nofun⟩
    | some stack₁ =>
      obtain ⟨bytes₁, view₁, stacked₁⟩ := found stack₁ rfl
      obtain ⟨next, m₂, ran, laid₂, total₂, found₂⟩ := ih
        (fun other mem => short other (List.mem_cons_of_mem arg mem)) laid₁ view₁ stacked₁
      refine ⟨next, m₂, ran, laid₂, total₂.trans total₁, fun stack' same => ?_⟩
      rw [List.append_cons args arg argv]
      exact found₂ stack' same

/-! ## `ustack` -/

/-- The words of `ustack` at `esp`, under the strings that its pointers lead to. -/
structure OnStack (bytes : Bytes) (base top : Nat) (argv : List (List UInt8)) (pointers : List Nat) (esp : Nat) :
    Prop where
  length : pointers.length = argv.length
  low : base ≤ esp
  aligned : esp % 4 = 0
  high : esp + (argv.length + 4) * 4 ≤ top
  words : ∀ j < (argv.length + 4) * 4, bytes (esp - base + j) =
    Bytes.ofWords (fun i => ([0xffffffff, argv.length, esp + 12] ++ pointers ++ [0]).getD i 0) j
  inside : ∀ r ∈ pointers.zip argv, esp + (argv.length + 4) * 4 ≤ r.1 ∧ r.1 + (r.2.length + 1) ≤ top ∧ r.1 % 4 = 0
  apart : (pointers.zip argv).Pairwise fun r s => s.1 + (s.2.length + 1) ≤ r.1
  strings : ∀ r ∈ pointers.zip argv, ∀ j ≤ r.2.length, bytes (r.1 - base + j) = r.2.getD j 0

/-- The arguments in the page of stack of address space `d`, above the guard page `g`. -/
def ArgsOn (m : Machine) (d g : Nat) (argv : List (List UInt8)) (esp : Nat) : Prop :=
  ∃ bytes pointers, m.view d (g + 1) = some ⟨pageFlags (some g) (g + 1), bytes⟩ ∧
    OnStack bytes ((g + 1) * pgsize) ((g + 2) * pgsize) argv pointers esp

theorem length_ustackWords (stack : ArgStack) : (ustackWords stack).length = stack.ustack.length + 4 := by
  simp only [ustackWords, List.length_append, List.length_cons, List.length_nil]
  omega

/-- The arguments and `ustack`: `exec` gives up, or they are in the page of stack. -/
theorem pushArgs_laid (cur : Image) {argv : List (List UInt8)} (laid : Laid k S d m₀ (some g) (g + 2) m)
    (short : ∀ arg ∈ argv, arg.length < argLimit) :
    ∃ sp m', pushArgs k m cur d ((g + 2) * pgsize) argv = .ok (sp, m') ∧ Laid k S d m₀ (some g) (g + 2) m' ∧
      m'.total d npdentries = m.total d npdentries ∧
      ∀ esp, sp = some esp → ArgsOn m' d g argv esp := by
  obtain ⟨bytes, view⟩ := laid.there (g + 1) (by omega)
  have order : (g + 1) * pgsize ≤ (g + 2) * pgsize := Nat.mul_le_mul_right _ (by omega)
  have multiple : (g + 2) * pgsize % 4 = 0 := by
    dsimp only [pgsize]
    omega
  obtain ⟨next, m₁, pushed, laid₁, total₁, found⟩ :=
    foldlM_pushArg cur short laid view (Stacked.empty bytes order multiple)
  simp only [pushArgs, pushed, bind, Except.bind]
  cases next with
  | none => exact ⟨none, m₁, rfl, laid₁, total₁, nofun⟩
  | some stack =>
    obtain ⟨bytes₁, view₁, stacked⟩ := found stack rfl
    rw [List.nil_append] at stacked
    have low := stacked.low
    have high := stacked.high
    have aligned := stacked.aligned
    have length := stacked.length
    have count := stacked.count
    have size : (ustackWords stack).length * 4 = (argv.length + 4) * 4 := by rw [length_ustackWords, length]
    have top := laid₁.limit
    dsimp only
    generalize moved : (stack.sp + 2 ^ 32 - (ustackWords stack).length * 4) % 2 ^ 32 = esp
    rw [size] at moved
    have down : esp + (argv.length + 4) * 4 = stack.sp := by
      dsimp only [maxArg, pgsize, userPages] at count low high top
      omega
    have copyable : Copyable (g + 2) esp ((argv.length + 4) * 4) :=
      copyable_down high (by dsimp only [maxArg, argLimit, devspace] at count ⊢; omega) (.inl moved.symm)
    have words : ustackWords stack = [0xffffffff, argv.length, esp + 12] ++ stack.ustack ++ [0] := by
      have argvPointer : (stack.sp + 2 ^ 32 - (argv.length + 1) * 4) % 2 ^ 32 = esp + 12 := by
        dsimp only [pgsize, userPages] at top high
        omega
      simp only [ustackWords, length, argvPointer]
    rw [size, words]
    obtain ⟨copied, m₂, ran, laid₂, total₂, pages⟩ := laid₁.copyout cur
      (p := Bytes.ofWords fun i => ([0xffffffff, argv.length, esp + 12] ++ stack.ustack ++ [0]).getD i 0) copyable
    cases copied with
    | false =>
      rw [ran]
      exact ⟨_, _, rfl, laid₂, total₂.trans total₁, nofun⟩
    | true =>
      have above : (g + 1) * pgsize ≤ esp := by
        by_contra under
        have guard := pages rfl (by omega) g
        dsimp only [pgsize] at low under guard
        exact absurd rfl (guard (by omega) (by omega)).2
      have offset : (g + 1) * pgsize + (esp - (g + 1) * pgsize) = esp := Nat.add_sub_cancel' above
      have fits : esp - (g + 1) * pgsize + (argv.length + 4) * 4 ≤ pgsize := by
        dsimp only [pgsize] at *
        omega
      obtain ⟨m₃, ran', -, -, view₂⟩ := laid₁.copyout_page cur (g + 1) (esp - (g + 1) * pgsize) ((argv.length + 4) * 4)
        (Bytes.ofWords fun i => ([0xffffffff, argv.length, esp + 12] ++ stack.ustack ++ [0]).getD i 0) (by omega)
        (fun same => by cases same) (by omega) fits view₁
      rw [offset, ran] at ran'
      cases ran'
      rw [ran]
      refine ⟨_, _, rfl, laid₂, total₂.trans total₁, fun esp' same => ?_⟩
      cases same
      refine ⟨_, stack.ustack, view₂, ?_⟩
      exact {
        length := length
        low := above
        aligned := by omega
        high := by omega
        words := fun j inside => Bytes.copy_inside _ _ _ inside
        inside := fun r mem => by
          obtain ⟨up, rest⟩ := stacked.inside r mem
          exact ⟨by omega, rest⟩
        apart := stacked.apart
        strings := fun r mem j within => by
          have up := (stacked.inside r mem).1
          rw [Bytes.copy_outside _ _ (.inr (by omega)), stacked.strings r mem j within] }

end Arguments

end Xv6Simplesh.Vm
