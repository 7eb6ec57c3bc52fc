import Xv6Simplesh.Proc.FirstProgram

/-! # Process sizes and argument checks

The size of a process stays below `KERNBASE`, whatever the memory holds: every path that
sets it has compared it.  So the sums in the checks of `syscall.c` do not wrap around, and
what passes them lies inside the process.
-/

namespace Xv6Simplesh.Vm

open Library

/-! ## Results of the memory calls -/

variable {cur : Image} {size : Nat}

section Results

variable {k : Symbols} {d oldsz newsz sz : Nat}

theorem deallocuvm_size {m m' : Machine} (ran : deallocuvm k m d oldsz newsz = .ok (sz, m')) : sz ≤ oldsz := by
  unfold deallocuvm at ran
  split at ran
  · cases ran
    exact Nat.le_refl oldsz
  · obtain ⟨m'', -, ran⟩ := ok_of_bind ran
    cases ran
    omega

theorem allocuvmLoop_size (a : Nat) {m m' : Machine} (ran : allocuvmLoop k m d oldsz newsz a = .ok (sz, m')) :
    sz = 0 ∨ sz = newsz := by
  induction left : newsz - a using Nat.strong_induction_on generalizing a m with
  | _ left ih =>
  subst left
  rw [allocuvmLoop] at ran
  split at ran
  next more =>
    split at ran
    · obtain ⟨res, -, ran⟩ := ok_of_bind ran
      cases ran
      exact .inl rfl
    · dsimp only at ran
      split at ran
      · obtain ⟨res, -, ran⟩ := ok_of_bind ran
        obtain ⟨m₃, -, ran⟩ := ok_of_bind ran
        cases ran
        exact .inl rfl
      · exact ih _ (by dsimp only [pgsize]; omega) _ ran rfl
  next =>
    cases ran
    exact .inr rfl

section

variable {m m' : Machine}

theorem allocuvm_size (ran : allocuvm k m d oldsz newsz = .ok (sz, m')) (old : oldsz < kernbase) : sz < kernbase := by
  unfold allocuvm at ran
  split at ran
  · cases ran
    decide
  next small =>
    split at ran
    · cases ran
      exact old
    · rcases allocuvmLoop_size _ ran with rfl | rfl
      · decide
      · exact Nat.lt_of_not_ge small

variable {argv : List (List UInt8)}

theorem buildStack_size {sp : Nat}
    (ran : buildStack k m cur d sz argv = .ok (some (size, sp), m')) : size < kernbase := by
  unfold buildStack at ran
  split at ran
  · cases ran
  next alloc =>
  split at ran
  · cases ran
  split at ran
  · cases ran
  split at ran
  · cases ran
  next sp' _ _ =>
  cases sp' with
  | none => cases ran
  | some sp' =>
    cases ran
    unfold allocuvm at alloc
    split at alloc
    · cases alloc
      decide
    next small =>
      rw [if_neg (by omega)] at alloc
      rcases allocuvmLoop_size _ alloc with rfl | rfl
      · decide
      · exact Nat.lt_of_not_ge small

theorem loadProgram_size {ip : Reader} {elf : Bytes}
    {sp : Nat} (ran : loadProgram k m cur d ip elf argv = .ok (some (size, sp), m')) : size < kernbase := by
  obtain ⟨⟨sz, m₁⟩, -, ran⟩ := ok_of_bind ran
  dsimp only at ran
  split at ran
  · cases ran
  · exact buildStack_size ran

theorem exec_size {file : Option Reader} {loaded : Loaded}
    (ran : exec k m cur file argv = .ok (some loaded, m')) : loaded.image.sz < kernbase := by
  unfold exec at ran
  split at ran
  · cases ran
  dsimp only at ran
  split at ran
  · cases ran
  split at ran
  · cases ran
  obtain ⟨⟨pgdir, m₁⟩, -, ran⟩ := ok_of_bind ran
  split at ran
  · cases ran
  obtain ⟨⟨res, m₂⟩, filled, ran⟩ := ok_of_bind ran
  split at ran
  next res =>
    obtain ⟨m₃, -, ran⟩ := ok_of_bind ran
    cases ran
    rw [res] at filled
    exact loadProgram_size filled
  · obtain ⟨m₃, -, ran⟩ := ok_of_bind ran
    cases ran

theorem growproc_size {p p' : Image} {n : Int} {grown : Bool}
    (ran : growproc k m p n = .ok (grown, p', m')) (bound : p.sz < kernbase) : p'.sz < kernbase := by
  unfold growproc at ran
  split at ran
  · obtain ⟨⟨sz, m₁⟩, alloc, ran⟩ := ok_of_bind ran
    dsimp only at ran
    split at ran
    · cases ran
      exact bound
    · cases ran
      exact allocuvm_size alloc bound
  split at ran
  · obtain ⟨⟨sz, m₁⟩, freed, ran⟩ := ok_of_bind ran
    dsimp only at ran
    split at ran
    · cases ran
      exact bound
    · cases ran
      exact Nat.lt_of_le_of_lt (deallocuvm_size freed) bound
  · cases ran
    exact bound

theorem sysSbrk_size {p p' : Image} {n : Int32} {val : Int}
    (ran : sysSbrk k m p n = .ok (val, p', m')) (bound : p.sz < kernbase) : p'.sz < kernbase := by
  unfold sysSbrk at ran
  split at ran
  · obtain ⟨⟨grown, p₁, m₁⟩, grew, ran⟩ := ok_of_bind ran
    cases ran
    exact growproc_size grew bound
  split at ran
  · cases ran
    exact bound
  next small =>
    cases ran
    have step := n.toInt_lt
    dsimp only [kernbase] at *
    omega

end

end Results

/-! ## Sizes along runs -/

/-- All processes, and the slots of past ones, end below `KERNBASE`. -/
def Bounded (w : World) : Prop := ∀ i, (w.procs i).sz < kernbase

section Bounded

variable {k : Symbols} {w w' : World} {i : Nat}

theorem Bounded.setProc {p : Proc} (bounded : Bounded w) (size : p.sz < kernbase) : Bounded (w.setProc i p) := by
  intro j
  by_cases same : j = i
  · rw [same]
    dsimp only [World.setProc]
    rwa [Function.update_self]
  · dsimp only [World.setProc]
    rw [Function.update_of_ne same]
    exact bounded j

theorem Bounded.congr (bounded : Bounded w) (sizes : ∀ j, (w'.procs j).sz = (w.procs j).sz) : Bounded w' := by
  intro j
  rw [sizes]
  exact bounded j

theorem Bounded.allocproc {np : Option Nat} (bounded : Bounded w) (ran : allocproc w = (np, w')) : Bounded w' := by
  unfold Vm.allocproc at ran
  split at ran
  · cases ran
    exact bounded
  next j _ =>
    have embryo : Bounded (w.setProc j { w.procs j with state := .embryo, pid := w.nextpid }) :=
      bounded.setProc (bounded j)
    dsimp only at ran
    split at ran
    · cases ran
      exact Bounded.setProc (i := j) (Bounded.congr embryo fun _ => rfl) (embryo j)
    · cases ran
      exact Bounded.setProc (i := j) (Bounded.congr embryo fun _ => rfl) (embryo j)

theorem Bounded.fork {val : Int} (bounded : Bounded w) (size : cur.sz < kernbase)
    (ran : fork k w i cur = .ok (val, w')) : Bounded w' := by
  unfold Vm.fork at ran
  split at ran
  next alloc =>
    cases ran
    exact bounded.allocproc alloc
  next np w₁ alloc =>
    have bounded₁ := bounded.allocproc alloc
    obtain ⟨⟨d, m⟩, -, ran⟩ := ok_of_bind ran
    dsimp only at ran
    split at ran
    · split at ran
      · cases ran
      · obtain ⟨m', -, ran⟩ := ok_of_bind ran
        cases ran
        exact bounded₁.setProc (bounded₁ np)
    · cases ran
      exact bounded₁.setProc size

theorem Bounded.wakeup1 (bounded : Bounded w) : Bounded (wakeup1 w i) := by
  refine bounded.congr fun j => ?_
  dsimp only [Vm.wakeup1]
  split <;> rfl

theorem Bounded.abandonChildren (bounded : Bounded w) : Bounded (abandonChildren w i) := by
  refine bounded.congr fun j => ?_
  dsimp only [Vm.abandonChildren]
  split <;> rfl

theorem Bounded.zombie (bounded : Bounded w) : Bounded (w.setProc i { w.procs i with state := .zombie }) :=
  bounded.setProc (bounded i)

theorem Bounded.exit (bounded : Bounded w) (ran : exit w i = .ok w') : Bounded w' := by
  unfold Vm.exit at ran
  split at ran
  · cases ran
  cases ran
  apply Bounded.zombie
  have passed : ∀ w₁, Bounded w₁ → ∀ orphans : Bool, Bounded
      (if orphans then Vm.wakeup1 (Vm.abandonChildren w₁ i) (Vm.abandonChildren w₁ i).initproc
        else Vm.abandonChildren w₁ i) := by
    intro w₁ bounded orphans
    cases orphans with
    | false => exact bounded.abandonChildren
    | true => exact bounded.abandonChildren.wakeup1
  split
  · exact passed _ bounded _
  · exact passed _ bounded.wakeup1 _

theorem Bounded.wait {val : Option Int} (bounded : Bounded w) (ran : wait k w i = .ok (val, w')) : Bounded w' := by
  unfold Vm.wait at ran
  split at ran
  next j _ =>
    dsimp only at ran
    split at ran
    · cases ran
    · obtain ⟨m, -, ran⟩ := ok_of_bind ran
      obtain ⟨m', -, ran⟩ := ok_of_bind ran
      cases ran
      exact bounded.setProc (bounded j)
  · dsimp only at ran
    split at ran
    · cases ran
      exact bounded
    · cases ran
      exact bounded.setProc (bounded i)

theorem Bounded.perform {call : Call} (bounded : Bounded w) (size : cur.sz < kernbase)
    (ran : perform k w i cur call = .ok w') : Bounded w' := by
  cases call with
  | fork =>
    obtain ⟨⟨val, w₁⟩, forked, ran⟩ := ok_of_bind ran
    cases ran
    exact bounded.fork size forked
  | exec file uargv =>
    simp only [Vm.perform] at ran
    split at ran
    · cases ran
      exact bounded
    obtain ⟨⟨loaded, m⟩, ran', ran⟩ := ok_of_bind ran
    dsimp only at ran
    split at ran
    · cases ran
      exact bounded
    · cases ran
      exact bounded.setProc (exec_size ran')
  | sbrk n =>
    obtain ⟨⟨val, p, m⟩, grew, ran⟩ := ok_of_bind ran
    cases ran
    exact bounded.setProc (sysSbrk_size grew size)
  | pageFault userMode cr2 =>
    obtain ⟨⟨killed, m⟩, -, ran⟩ := ok_of_bind ran
    dsimp only at ran
    have marked : Bounded { w.setProc i { w.procs i with killed := (w.procs i).killed || killed } with machine := m } :=
      bounded.setProc (bounded i)
    split at ran
    · exact marked.exit ran
    · cases ran
      exact marked
  | exit => exact bounded.exit ran
  | wait =>
    obtain ⟨⟨val, w₁⟩, waited, ran⟩ := ok_of_bind ran
    cases ran
    exact bounded.wait waited
  | store va byte =>
    simp only [Vm.perform] at ran
    split at ran <;> cases ran <;> exact bounded

theorem bounded_boot {init : Bytes} (ran : boot k init size = .ok w) : Bounded w := by
  obtain ⟨m, -, ran⟩ := ok_of_bind ran
  obtain ⟨⟨kpgdir, m₁⟩, -, ran⟩ := ok_of_bind ran
  split at ran
  · cases ran
  obtain ⟨m₂, -, ran⟩ := ok_of_bind ran
  unfold userinit at ran
  split at ran
  · cases ran
  next p w₁ alloc =>
  have empty : Bounded ⟨m₂, fun _ => .empty, 1, 0⟩ := fun j => (by decide : 0 < kernbase)
  have bounded := empty.allocproc alloc
  obtain ⟨⟨pgdir, m₃⟩, -, ran⟩ := ok_of_bind ran
  dsimp only at ran
  split at ran
  · cases ran
  obtain ⟨m₄, -, ran⟩ := ok_of_bind ran
  cases ran
  exact Bounded.congr (bounded.setProc (by decide : pgsize < kernbase)) fun _ => rfl

theorem bounded_of_reachable {allowed : World → Event → Prop} (reach : (processes k).Reachable allowed w) :
    Bounded w := by
  refine reach.invariant Bounded ?_ ?_
  · rintro w ⟨init, size, ran⟩
    exact bounded_boot ran
  · intro w event w' _ bounded _ taken
    cases event with
    | call i call =>
      simp only [processes] at taken
      split at taken
      · split at taken
        · cases taken
        next cur image =>
          cases ran : Vm.perform k w i cur call with
          | error panic =>
            rw [ran] at taken
            cases taken
          | ok w₁ =>
            rw [ran] at taken
            cases taken
            obtain ⟨pgdir, -, rfl⟩ := Option.map_eq_some_iff.mp image
            exact bounded.perform (bounded i) ran
      · cases taken
    | switch i state =>
      simp only [processes] at taken
      split at taken
      · cases taken
        exact bounded.setProc (bounded i)
      · cases taken

end Bounded

/-! ## Argument checks -/

section Arguments

variable {bytes : Nat → UInt8} {sz : Nat}

theorem fetchint_inside {addr val : UInt32} (small : sz < kernbase) (found : fetchint bytes sz addr = some val) :
    addr.toNat + 4 ≤ sz := by
  unfold fetchint at found
  split at found
  · cases found
  · dsimp only [kernbase] at small
    omega

theorem findNul_inside {s rest stop : Nat} (found : findNul bytes s rest = some stop) :
    s ≤ stop ∧ stop < s + rest ∧ bytes stop = 0 ∧ ∀ a, s ≤ a → a < stop → bytes a ≠ 0 := by
  induction rest generalizing s with
  | zero => cases found
  | succ rest ih =>
    rw [findNul] at found
    split at found
    next nul =>
      cases found
      exact ⟨Nat.le_refl _, by omega, nul, fun a low high => absurd low (by omega)⟩
    next other =>
      obtain ⟨low, high, nul, before⟩ := ih found
      refine ⟨by omega, by omega, nul, fun a from' to' => ?_⟩
      rcases Nat.eq_or_lt_of_le from' with rfl | later
      · exact other
      · exact before a later to'

/-- A string of `length` bytes and its NUL at `start`, all below `sz`. -/
structure StringAt (bytes : Nat → UInt8) (sz start length : Nat) : Prop where
  inside : start + length + 1 ≤ sz
  nul : bytes (start + length) = 0
  text : ∀ i, i < length → bytes (start + i) ≠ 0

variable {start : Nat}

theorem fetchstr_inside {addr : UInt32} {length : Nat} (found : fetchstr bytes sz addr = some (start, length)) :
    start = addr.toNat ∧ StringAt bytes sz start length := by
  unfold fetchstr at found
  split at found
  · cases found
  · obtain ⟨stop, searched, same⟩ := Option.map_eq_some_iff.mp found
    cases same
    obtain ⟨low, high, nul, before⟩ := findNul_inside searched
    have last : addr.toNat + (stop - addr.toNat) = stop := by omega
    exact ⟨rfl, by omega, by rwa [last], fun i less => before _ (by omega) (by omega)⟩

theorem argptr_inside {esp n : UInt32} {size : Int32} (small : sz < kernbase)
    (found : argptr bytes sz esp n size = some start) :
    argint bytes sz esp n = some (UInt32.ofNat start) ∧ 0 ≤ size.toInt ∧ start + size.toInt ≤ sz := by
  unfold argptr at found
  split at found
  · cases found
  next i read =>
  split at found
  · cases found
  next checks =>
    cases found
    have range := size.toInt_lt
    have nonneg : 0 ≤ size.toInt := by
      have notNeg : ¬ size < 0 := fun negative => checks (.inl negative)
      rw [Int32.lt_iff_toInt_lt] at notNeg
      exact Int.not_lt.mp notNeg
    have bounds : i.toNat < sz ∧ (i.toNat + size.toInt.toNat) % 2 ^ 32 ≤ sz := by
      constructor
      · exact Nat.lt_of_not_ge fun beyond => checks (.inr (.inl beyond))
      · exact Nat.le_of_not_lt fun beyond => checks (.inr (.inr beyond))
    refine ⟨by rw [read, UInt32.ofNat_toNat], nonneg, ?_⟩
    dsimp only [kernbase] at small
    omega

theorem argstr_inside {esp n : UInt32} {length : Nat} (found : argstr bytes sz esp n = some (start, length)) :
    argint bytes sz esp n = some (UInt32.ofNat start) ∧ StringAt bytes sz start length := by
  obtain ⟨addr, read, fetched⟩ := Option.bind_eq_some_iff.mp found
  obtain ⟨rfl, string⟩ := fetchstr_inside fetched
  exact ⟨by rw [read, UInt32.ofNat_toNat], string⟩

end Arguments

/-- No process ends beyond `KERNBASE`, and what the argument checks accept lies within the
process, in exact integers. -/
theorem arguments_inside {k : Symbols} {w : World} (reach : (processes k).Reachable (fun _ _ => True) w) (i : Nat)
    (bytes : Nat → UInt8) :
    (w.procs i).sz < kernbase ∧
      (∀ addr val, fetchint bytes (w.procs i).sz addr = some val → addr.toNat + 4 ≤ (w.procs i).sz) ∧
      (∀ esp n size start, argptr bytes (w.procs i).sz esp n size = some start →
        argint bytes (w.procs i).sz esp n = some (UInt32.ofNat start) ∧ 0 ≤ size.toInt ∧
          start + size.toInt ≤ (w.procs i).sz) ∧
      (∀ addr start length, fetchstr bytes (w.procs i).sz addr = some (start, length) →
        start = addr.toNat ∧ StringAt bytes (w.procs i).sz start length) ∧
      ∀ esp n start length, argstr bytes (w.procs i).sz esp n = some (start, length) →
        argint bytes (w.procs i).sz esp n = some (UInt32.ofNat start) ∧
          StringAt bytes (w.procs i).sz start length := by
  have small := bounded_of_reachable reach i
  exact ⟨small, fun _ _ => fetchint_inside small, fun _ _ _ _ => argptr_inside small, fun _ _ _ => fetchstr_inside,
    fun _ _ _ _ => argstr_inside⟩

theorem arguments_inside_program : ∃ w d s, (processes smallKernel).Reachable (fun _ _ => True) w ∧
    ProgramRuns smallKernel w d s ∧
    argptr (fun a => if a % 4 = 1 then 16 else 0) (w.procs 0).sz 8184 0 4096 = some 4096 ∧
    4096 + (4096 : Int32).toInt ≤ (w.procs 0).sz ∧
    argstr (fun a => if a % 4 = 1 then 16 else 0) (w.procs 0).sz 8184 0 = some (4096, 0) ∧
    StringAt (fun a => if a % 4 = 1 then 16 else 0) (w.procs 0).sz 4096 0 := by
  obtain ⟨w, d, s, reach, runs⟩ := programRuns_reachable smallKernel (by decide)
  have every : (processes smallKernel).Reachable (fun _ _ => True) w := reach.mono fun _ _ _ => trivial
  obtain ⟨-, -, pointers, -, strings⟩ := arguments_inside every 0 fun a => if a % 4 = 1 then 16 else 0
  have size : (w.procs 0).sz = 8192 := by rw [runs.init]
  have pointer : argptr (fun a => if a % 4 = 1 then 16 else 0) (w.procs 0).sz 8184 0 4096 = some 4096 := by
    rw [size]
    decide
  have string : argstr (fun a => if a % 4 = 1 then 16 else 0) (w.procs 0).sz 8184 0 = some (4096, 0) := by
    rw [size]
    decide
  exact ⟨w, d, s, every, runs, pointer, (pointers _ _ _ _ pointer).2.2, string, (strings _ _ _ _ string).2⟩

end Xv6Simplesh.Vm
