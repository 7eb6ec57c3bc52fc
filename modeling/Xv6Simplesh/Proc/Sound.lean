import Xv6Simplesh.Proc.Fork
import Xv6Simplesh.Proc.Sizes

/-! # Every page has one owner

A process in use owns the pages of its address space and its kernel stack.  No page has two
owners and none is on the free list, along every run in which the arguments of `exec` are
below 32 MB.  Each call changes one slot: it works on the pages that are free and those of
the slot, and leaves the pages of the other processes alone.

The handler of page faults does not compare an address with the size of the process.  In
runs whose faults are below the sizes, called `confined` here, the pages are so too.
-/

namespace Xv6Simplesh.Vm

open Library Function

/-! ## Owners -/

/-- The states of a slot in use. -/
def ProcState.live : ProcState → Bool
  | .sleeping | .runnable | .running | .zombie => true
  | .unused | .embryo => false

/-- The pages of a process. -/
def Owns (m : Machine) (p : Proc) (q : Nat) : Prop :=
  (∃ d, p.pgdir = some d ∧ Held (m.holder d) q) ∨ p.kstack = some q

/-- A process with page directory `d` and kernel stack `s`. -/
structure Seated (k : Symbols) (confined : Prop) (m : Machine) (p : Proc) (d s : Nat) : Prop where
  pgdir : p.pgdir = some d
  kstack : p.kstack = some s
  space : Space k m d
  kernel : KernelMapped k m d
  stack : k.Allocatable s
  taken : s ∉ m.freelist
  unheld : ¬ Held (m.holder d) s
  below : confined → ∀ v, m.view d v ≠ none → v < pageCount p.sz

structure Sound (k : Symbols) (confined : Prop) (w : World) : Prop where
  pool : Pool k w.machine
  seated : ∀ i < nproc, (w.procs i).state.live → ∃ d s, Seated k confined w.machine (w.procs i) d s
  apart : ∀ i j, i < nproc → j < nproc → (w.procs i).state.live → (w.procs j).state.live →
    ∀ q, Owns w.machine (w.procs i) q → Owns w.machine (w.procs j) q → i = j

/-- A slot whose pages stay the same. -/
structure SameSeat (p p' : Proc) : Prop where
  live : p'.state.live = p.state.live
  same : p.state.live → p'.pgdir = p.pgdir ∧ p'.kstack = p.kstack ∧ p'.sz = p.sz

/-- The pages that a call which changes slot `i` can use. -/
def World.Reach (w : World) (i q : Nat) : Prop :=
  q ∈ w.machine.freelist ∨ (w.procs i).state.live ∧ Owns w.machine (w.procs i) q

variable {q : Nat}

section Sound

variable {k : Symbols} {confined : Prop} {m m' : Machine} {p p' : Proc} {w w' : World} {d s i : Nat}

theorem Seated.owns_iff (seated : Seated k confined m p d s) : Owns m p q ↔ Held (m.holder d) q ∨ q = s := by
  simp [Owns, seated.pgdir, seated.kstack, eq_comm]

theorem Seated.not_free (seated : Seated k confined m p d s) (owns : Owns m p q) : q ∉ m.freelist := by
  cases seated.owns_iff.mp owns with
  | inl held => exact seated.space.apart held
  | inr stack => exact stack ▸ seated.taken

theorem SameSeat.refl (p : Proc) : SameSeat p p := ⟨rfl, fun _ => ⟨rfl, rfl, rfl⟩⟩

theorem Seated.keep (seated : Seated k confined m p d s) (seat : SameSeat p p') (live : p.state.live) (pool : Pool k m')
    (bytes : ∀ q, Owns m p q → m'.mem q = m.mem q) (taken : ∀ q, Owns m p q → q ∉ m'.freelist) :
    Seated k confined m' p' d s ∧ ∀ q, Owns m' p' q ↔ Owns m p q := by
  have own : ∀ q, Held (m.holder d) q → Owns m p q := fun q held => seated.owns_iff.mpr (.inl held)
  have kept : Kept m m' d := kept_of_bytes fun q held => bytes q (own q held)
  obtain ⟨pgdir, kstack, size⟩ := seat.same live
  have seated' : Seated k confined m' p' d s := {
    pgdir := pgdir.trans seated.pgdir
    kstack := kstack.trans seated.kstack
    space := seated.space.keep pool kept fun q held => taken q (own q held)
    kernel := ⟨fun u kernel => by rw [kept.pte, seated.kernel.pte u kernel]⟩
    stack := seated.stack
    taken := taken s (seated.owns_iff.mpr (.inr rfl))
    unheld := kept.holder ▸ seated.unheld
    below := fun tame v there => by
      rw [kept.view] at there
      rw [size]
      exact seated.below tame v there }
  refine ⟨seated', fun q => ?_⟩
  rw [seated'.owns_iff, seated.owns_iff, kept.holder]

section

variable (sound : Sound k confined w)

include sound

theorem Sound.out_of_reach {j : Nat} (inside : i < nproc) (inside' : j < nproc) (other : j ≠ i)
    (live : (w.procs j).state.live) (owns : Owns w.machine (w.procs j) q) : ¬ w.Reach i q := by
  intro reach
  cases reach with
  | inl free =>
    obtain ⟨d, s, seated⟩ := sound.seated j inside' live
    exact seated.not_free owns free
  | inr own => exact other (sound.apart j i inside' inside live own.1 q owns own.2)

/-- A call that changes slot `i` and stays within its reach keeps the owners apart. -/
theorem Sound.change (inside : i < nproc) (within : Within k (w.Reach i) w.machine w'.machine)
    (others : ∀ j, j ≠ i → SameSeat (w.procs j) (w'.procs j))
    (slot : (w'.procs i).state.live → (∃ d s, Seated k confined w'.machine (w'.procs i) d s) ∧
      ∀ q, Owns w'.machine (w'.procs i) q → w.Reach i q) : Sound k confined w' := by
  -- the other processes are as before
  have kept : ∀ j, j < nproc → j ≠ i → (w'.procs j).state.live →
      (w.procs j).state.live ∧ ∃ d s, Seated k confined w'.machine (w'.procs j) d s ∧
        ∀ q, Owns w'.machine (w'.procs j) q ↔ Owns w.machine (w.procs j) q := by
    intro j bound other live
    have live' : (w.procs j).state.live := (others j other).live ▸ live
    obtain ⟨d, s, seated⟩ := sound.seated j bound live'
    exact ⟨live', d, s, seated.keep (others j other) live' within.pool
      (fun q owns => within.outside q (sound.out_of_reach inside bound other live' owns))
      fun q owns free => sound.out_of_reach inside bound other live' owns (within.inside q free)⟩
  -- and none of them owns a page that slot `i` has now
  have new : ∀ j, j < nproc → j ≠ i → (w'.procs j).state.live → (w'.procs i).state.live → ∀ q,
      Owns w'.machine (w'.procs j) q → ¬ Owns w'.machine (w'.procs i) q := by
    intro j bound other live live' q owns owns'
    obtain ⟨before, d, s, -, same⟩ := kept j bound other live
    exact sound.out_of_reach inside bound other before ((same q).mp owns) ((slot live').2 q owns')
  refine ⟨within.pool, ?_, ?_⟩
  · intro j bound live
    by_cases same : j = i
    · subst same
      exact (slot live).1
    · obtain ⟨-, d, s, seated, -⟩ := kept j bound same live
      exact ⟨d, s, seated⟩
  · intro j j' bound bound' live live' q owns owns'
    by_cases same : j = i
    · by_cases same' : j' = i
      · rw [same, same']
      · subst same
        exact absurd owns (new j' bound' same' live' live q owns')
    · by_cases same' : j' = i
      · subst same'
        exact absurd owns' (new j bound same live live' q owns)
      · obtain ⟨before, -, -, -, iff⟩ := kept j bound same live
        obtain ⟨before', -, -, -, iff'⟩ := kept j' bound' same' live'
        exact sound.apart j j' bound bound' before before' q ((iff q).mp owns) ((iff' q).mp owns')

theorem Sound.scratch (within : Within k (· ∈ w.machine.freelist) w.machine w'.machine)
    (seats : ∀ j, SameSeat (w.procs j) (w'.procs j)) : Sound k confined w' := by
  have kept : ∀ j, j < nproc → (w'.procs j).state.live → (w.procs j).state.live ∧
      ∃ d s, Seated k confined w'.machine (w'.procs j) d s ∧
        ∀ q, Owns w'.machine (w'.procs j) q ↔ Owns w.machine (w.procs j) q := by
    intro j bound live
    have live' : (w.procs j).state.live := (seats j).live ▸ live
    obtain ⟨d, s, seated⟩ := sound.seated j bound live'
    exact ⟨live', d, s, seated.keep (seats j) live' within.pool
      (fun q owns => within.outside q (seated.not_free owns))
      fun q owns free => seated.not_free owns (within.inside q free)⟩
  refine ⟨within.pool, ?_, ?_⟩
  · intro j bound live
    obtain ⟨-, d, s, seated, -⟩ := kept j bound live
    exact ⟨d, s, seated⟩
  · intro j j' bound bound' live live' q owns owns'
    obtain ⟨before, -, -, -, iff⟩ := kept j bound live
    obtain ⟨before', -, -, -, iff'⟩ := kept j' bound' live'
    exact sound.apart j j' bound bound' before before' q ((iff q).mp owns) ((iff' q).mp owns')

theorem Sound.still (machine : w'.machine = w.machine)
    (seats : ∀ j, SameSeat (w.procs j) (w'.procs j)) : Sound k confined w' := by
  refine sound.scratch ?_ seats
  rw [machine]
  exact ⟨sound.pool, fun _ _ => rfl, fun _ free => free⟩

theorem Sound.evolve (inside : i < nproc) (live : (w.procs i).state.live)
    (pgdir : (w.procs i).pgdir = some d) (evo : Evolves k (w.machine.Footprint d) d w.machine m')
    (pgdir' : p.pgdir = (w.procs i).pgdir) (kstack' : p.kstack = (w.procs i).kstack)
    (below : confined → (∀ v, w.machine.view d v ≠ none → v < pageCount (w.procs i).sz) →
      ∀ v, m'.view d v ≠ none → v < pageCount p.sz) : Sound k confined { w.setProc i p with machine := m' } := by
  obtain ⟨d', s, seated⟩ := sound.seated i inside live
  obtain rfl : d' = d := Option.some.inj (seated.pgdir.symm.trans pgdir)
  have footprint : ∀ q, w.machine.Footprint d' q → w.Reach i q := by
    intro q used
    cases used with
    | inl held => exact .inr ⟨live, seated.owns_iff.mpr (.inl held)⟩
    | inr free => exact .inl free
  have stack : ¬ w.machine.Footprint d' s := by
    intro used
    cases used with
    | inl held => exact seated.unheld held
    | inr free => exact seated.taken free
  have within : Within k (w.Reach i) w.machine m' :=
    ⟨evo.space.toPool, fun q out => evo.outside q fun used => out (footprint q used),
      fun q free => footprint q (evo.inside q (.inr free))⟩
  have seated' : Seated k confined m' p d' s := {
    pgdir := pgdir'.trans seated.pgdir
    kstack := kstack'.trans seated.kstack
    space := evo.space
    kernel := evo.kernelMapped seated.kernel
    stack := seated.stack
    taken := fun free => stack (evo.inside s (.inr free))
    unheld := fun held => stack (evo.inside s (.inl held))
    below := fun tame => below tame (seated.below tame) }
  refine sound.change inside within (fun j other => ?_) fun _ => ?_
  · dsimp only [World.setProc]
    rw [update_of_ne other]
    exact .refl _
  · dsimp only [World.setProc]
    rw [update_self]
    refine ⟨⟨d', s, seated'⟩, ?_⟩
    intro q owns
    cases seated'.owns_iff.mp owns with
    | inl held => exact footprint q (evo.inside q (.inl held))
    | inr stack => exact .inr ⟨live, seated.owns_iff.mpr (.inr stack)⟩

end

/-! ## `fork`, `exit` and `wait` -/

theorem sameSeat_setProc (seat : SameSeat (w.procs i) p) (j : Nat) : SameSeat (w.procs j) ((w.setProc i p).procs j) := by
  dsimp only [World.setProc]
  by_cases same : j = i
  · subst same
    rw [update_self]
    exact seat
  · rw [update_of_ne same]
    exact .refl _

theorem not_live_of_unused (unused : p.state = .unused) : ¬ p.state.live := by
  rw [unused]
  exact nofun

theorem sameSeat_of_unused (unused : p.state = .unused) (unused' : p'.state = .unused) : SameSeat p p' :=
  ⟨by rw [unused, unused'], fun live => absurd live (not_live_of_unused unused)⟩

variable {sz : Nat} {S : Nat → Prop} {m₀ : Machine}

theorem Sound.fork {c : Nat} {val : Int} (sound : Sound k confined w) (space : Space k w.machine c) (user : sz ≤ kernbase)
    (ran : Vm.fork k w i ⟨c, sz⟩ = .ok (val, w')) : Sound k confined w' := by
  have forked := fork_forked (i := i) space user
  rw [ran] at forked
  have first : ∀ {s : Nat} {rest : List Nat}, w.machine.freelist = s :: rest → s ∈ w.machine.freelist :=
    fun free => free ▸ List.mem_cons_self
  have later : ∀ {s : Nat} {rest : List Nat}, w.machine.freelist = s :: rest → ∀ q ∈ rest, q ∈ w.machine.freelist :=
    fun free q mem => free ▸ List.mem_cons_of_mem _ mem
  cases forked with
  | full none => exact sound
  | @noStack np w' slot unused empty machine others after =>
    refine sound.still machine fun j => ?_
    by_cases same : j = np
    · subst same
      exact sameSeat_of_unused unused after
    · rw [others j same]
      exact .refl _
  | @failed np s rest m' w' slot unused free copied machine others after =>
    have nodup := List.nodup_cons.mp (free ▸ sound.pool.nodup)
    have within : Within k (w.Reach np) w.machine m' :=
      ⟨copied.within.pool, fun q out => copied.within.outside q fun mem => out (.inl (later free q mem)),
        fun q mem => .inl (later free q (copied.within.inside q mem))⟩
    refine sound.change slot ?_ (fun j other => by rw [others j other]; exact .refl _)
      fun live => absurd live (not_live_of_unused after)
    rw [machine]
    exact within.push (sound.pool.allocatable s (first free)) (.inl (first free))
      fun mem => nodup.1 (copied.within.inside s mem)
  | @child np s d rest m' w' slot unused free copied machine others state pgdir kstack size =>
    have nodup := List.nodup_cons.mp (free ▸ sound.pool.nodup)
    cases copied with
    | @done _ m₁ _ copying =>
      have outside := copying.outside
      have seated : Seated k confined w'.machine (w'.procs np) d s := by
        rw [machine]
        exact {
          pgdir := pgdir
          kstack := kstack
          space := copying.evo.space
          kernel := copying.kernel
          stack := sound.pool.allocatable s (first free)
          taken := fun mem => nodup.1 (copying.evo.inside s (.inr mem))
          unheld := fun held => nodup.1 (copying.evo.inside s (.inl held))
          below := fun _ v there => by
            rw [size]
            by_contra beyond
            exact there (by rw [copying.view, if_neg beyond]) }
      refine sound.change slot ?_ (fun j other => by rw [others j other]; exact .refl _) fun _ => ⟨⟨d, s, seated⟩, ?_⟩
      · rw [machine]
        exact ⟨copying.evo.space.toPool, fun q out => copying.outside q fun mem => out (.inl (later free q mem)),
          fun q mem => .inl (later free q (copying.evo.inside q (.inr mem)))⟩
      · intro q owns
        cases seated.owns_iff.mp owns with
        | inl held =>
          rw [machine] at held
          exact .inl (later free q (copying.evo.inside q (.inl held)))
        | inr stack => exact .inl (stack ▸ first free)

theorem sameSeat_state {state : ProcState} (live : p.state.live) (live' : state.live) :
    SameSeat p { p with state := state } :=
  ⟨live'.trans live.symm, fun _ => ⟨rfl, rfl, rfl⟩⟩

theorem sameSeat_wakeup1 (w : World) (i j : Nat) : SameSeat (w.procs j) ((wakeup1 w i).procs j) := by
  dsimp only [wakeup1]
  split
  next sleeper => exact sameSeat_state (by rw [sleeper.2.1]; rfl) rfl
  next => exact .refl _

theorem sameSeat_abandonChildren (w : World) (i j : Nat) : SameSeat (w.procs j) ((abandonChildren w i).procs j) := by
  dsimp only [abandonChildren]
  split
  · exact ⟨rfl, fun _ => ⟨rfl, rfl, rfl⟩⟩
  · exact .refl _

section

variable (sound : Sound k confined w)

include sound

theorem Sound.wakeup1 (i : Nat) : Sound k confined (Vm.wakeup1 w i) :=
  sound.still rfl (sameSeat_wakeup1 w i)

theorem Sound.abandonChildren (i : Nat) : Sound k confined (Vm.abandonChildren w i) :=
  sound.still rfl (sameSeat_abandonChildren w i)

theorem Sound.zombie (live : (w.procs i).state.live) :
    Sound k confined (w.setProc i { w.procs i with state := .zombie }) :=
  sound.still rfl (sameSeat_setProc (sameSeat_state live rfl))

theorem Sound.exit (live : (w.procs i).state.live) (ran : Vm.exit w i = .ok w') : Sound k confined w' := by
  have passed : ∀ w₁, Sound k confined w₁ → (w₁.procs i).state.live → ∀ orphans : Bool,
      let w₂ := if orphans then Vm.wakeup1 (Vm.abandonChildren w₁ i) (Vm.abandonChildren w₁ i).initproc
        else Vm.abandonChildren w₁ i
      Sound k confined (w₂.setProc i { w₂.procs i with state := .zombie }) := by
    intro w₁ sound live orphans
    have live₁ : ((Vm.abandonChildren w₁ i).procs i).state.live := (sameSeat_abandonChildren w₁ i i).live.trans live
    cases orphans with
    | false => exact (sound.abandonChildren i).zombie live₁
    | true => exact ((sound.abandonChildren i).wakeup1 _).zombie ((sameSeat_wakeup1 _ _ i).live.trans live₁)
  unfold Vm.exit at ran
  split at ran
  · cases ran
  cases ran
  split
  · exact passed _ sound live _
  · exact passed _ (sound.wakeup1 _) ((sameSeat_wakeup1 w _ i).live.trans live) _

end

theorem Sound.wait {val : Option Int} (sound : Sound k confined w) (live : (w.procs i).state.live)
    (ran : Vm.wait k w i = .ok (val, w')) : Sound k confined w' := by
  unfold Vm.wait at ran
  split at ran
  next j found =>
    have slot : j < nproc := List.mem_range.mp (List.mem_of_find?_eq_some found)
    have zombie : (w.procs j).state = .zombie := by
      have both := List.find?_some found
      simp only [Bool.decide_and, Bool.and_eq_true, decide_eq_true_eq] at both
      exact both.2
    have live' : (w.procs j).state.live := by
      rw [zombie]
      rfl
    obtain ⟨d, s, seated⟩ := sound.seated j slot live'
    have own : ∀ q, w.machine.Footprint d q ∨ q = s → w.Reach j q := by
      rintro q ((held | free) | stack)
      · exact .inr ⟨live', seated.owns_iff.mpr (.inl held)⟩
      · exact .inl free
      · exact .inr ⟨live', seated.owns_iff.mpr (.inr stack)⟩
    have evo : Evolves k (w.Reach j) d w.machine w.machine := .refl seated.space fun q used => own q (.inl used)
    have fresh : Fresh k (w.Reach j) d w.machine s := ⟨seated.stack, own s (.inr rfl), seated.unheld, seated.taken⟩
    obtain ⟨m', freed, within, -⟩ := freevm_within (evo.push fresh).1
    simp only [seated.kstack, seated.pgdir, Evolves.kfree fresh, freed, bind, Except.bind] at ran
    cases ran
    refine sound.change slot within (fun other ne => ?_) fun live => ?_
    · dsimp only [World.setProc]
      rw [update_of_ne ne]
      exact .refl _
    · simp only [World.setProc, update_self] at live
      cases live
  next =>
    dsimp only at ran
    split at ran
    · cases ran
      exact sound
    · cases ran
      exact sound.still rfl (sameSeat_setProc ⟨live.symm, fun _ => ⟨rfl, rfl, rfl⟩⟩)

/-! ## Calls on the process's own memory -/

theorem Sound.exec {c : Nat} {file : Option Reader} {argv : List (List UInt8)} {loaded : Option Loaded}
    (sound : Sound k confined w) (inside : i < nproc) (live : (w.procs i).state.live) (pgdir : (w.procs i).pgdir = some c)
    (short : ∀ arg ∈ argv, arg.length < argLimit) (ran : Vm.exec k w.machine ⟨c, sz⟩ file argv = .ok (loaded, m')) :
    Sound k confined (match loaded with
      | none => { w with machine := m' }
      | some loaded =>
        { w.setProc i { w.procs i with pgdir := some loaded.image.pgdir, sz := loaded.image.sz } with machine := m' }) := by
  obtain ⟨c', s, seated⟩ := sound.seated i inside live
  obtain rfl : c' = c := Option.some.inj (seated.pgdir.symm.trans pgdir)
  have own : ∀ q, w.machine.Footprint c' q ∨ q = s → w.Reach i q := by
    rintro q ((held | free) | stack)
    · exact .inr ⟨live, seated.owns_iff.mpr (.inl held)⟩
    · exact .inl free
    · exact .inr ⟨live, seated.owns_iff.mpr (.inr stack)⟩
  rcases exec_spec sz file seated.space short with
    ⟨m₁, res, within, -⟩ | ⟨image, m₁, res, executed, -⟩
  · rw [res] at ran
    cases ran
    exact sound.scratch within fun j => .refl _
  · rw [res] at ran
    cases ran
    have stack : ¬ w.machine.Footprint c' s := by
      intro used
      cases used with
      | inl held => exact seated.unheld held
      | inr free => exact seated.taken free
    refine sound.change inside ⟨executed.space.toPool, fun q out => executed.outside q fun used => out (own q (.inl used)),
      fun q free => own q (.inl (executed.inside q free))⟩ (fun j other => ?_) fun _ => ?_
    · dsimp only [World.setProc]
      rw [update_of_ne other]
      exact .refl _
    · have seated' : Seated k confined m' { w.procs i with pgdir := some image.image.pgdir, sz := image.image.sz }
          image.image.pgdir s := {
        pgdir := rfl
        kstack := seated.kstack
        space := executed.space
        kernel := executed.kernel
        stack := seated.stack
        taken := fun free => stack (executed.inside s free)
        unheld := fun held => seated.taken (executed.fresh s held)
        below := fun _ v there => by
          obtain ⟨n, size, -, -, above⟩ := executed.pages
          dsimp only
          rw [size, pageCount_mul]
          by_contra beyond
          exact there (above v (Nat.le_of_not_lt beyond)) }
      dsimp only [World.setProc]
      rw [update_self]
      refine ⟨⟨_, s, seated'⟩, ?_⟩
      intro q owns
      cases seated'.owns_iff.mp owns with
      | inl held => exact .inl (executed.fresh q held)
      | inr stack => exact own q (.inr stack)

/-- `sbrk` moves the end of the process, and clears the entries beyond it. -/
theorem sysSbrk_cleared (n : Int32) (evo : Evolves k S d m₀ m) (small : sz < kernbase) :
    ∃ val sz' m' v, sysSbrk k m ⟨d, sz⟩ n = .ok (val, ⟨d, sz'⟩, m') ∧
      Cleared k S d m₀ m m' v (pageCount sz) ∧ v ≤ pageCount sz' := by
  have unchanged : Cleared k S d m₀ m m (pageCount sz) (pageCount sz) := .refl evo (Nat.le_refl _)
  unfold sysSbrk
  by_cases shrinks : n < 0
  · have negative : n.toInt < 0 := by rwa [Int32.lt_iff_toInt_lt] at shrinks
    obtain ⟨newsz, new⟩ : ∃ newsz, newsz = ((sz + n.toInt) % 2 ^ 32).toNat := ⟨_, rfl⟩
    simp only [if_pos shrinks, growproc, if_neg (show ¬ n.toInt > 0 by omega), if_pos negative, ← new]
    by_cases larger : newsz ≥ sz
    · have same : deallocuvm k m d sz newsz = .ok (sz, m) := if_pos larger
      simp only [same, bind, Except.bind]
      by_cases zero : sz = 0
      · simp only [zero, if_true]
        exact ⟨_, _, m, _, rfl, zero ▸ unchanged, Nat.le_refl _⟩
      · simp only [zero, if_false]
        exact ⟨_, _, m, _, rfl, unchanged, Nat.le_refl _⟩
    · obtain ⟨m', freed, cleared⟩ := deallocuvm_cleared newsz evo (Nat.le_of_lt small)
      rw [if_neg larger] at freed
      simp only [freed, bind, Except.bind]
      by_cases zero : newsz = 0
      · subst zero
        simp only [if_true]
        exact ⟨_, _, m', _, rfl, cleared, Nat.zero_le _⟩
      · simp only [zero, if_false]
        exact ⟨_, _, m', _, rfl, cleared, Nat.le_refl _⟩
  · rw [if_neg shrinks]
    by_cases large : (sz + n.toInt.toNat) % 2 ^ 32 ≥ kernbase
    · rw [if_pos large]
      exact ⟨_, _, m, _, rfl, unchanged, Nat.le_refl _⟩
    · rw [if_neg large]
      refine ⟨_, _, m, _, rfl, unchanged, ?_⟩
      dsimp only [pageCount, pgsize]
      omega

theorem Faulted.below {v n : Nat} {killed : Bool} (evo : Evolves k S d m₀ m)
    (faulted : Faulted k S d m₀ m v killed m') (low : v < n) (before : ∀ u, m.view d u ≠ none → u < n) :
    ∀ u, m'.view d u ≠ none → u < n := by
  intro u there
  cases faulted with
  | noPage empty => exact before u there
  | noTable last absent =>
    obtain ⟨-, fresh, -, -, view, -⟩ := evo.takePage last (Bytes.fill 0)
    rw [fresh.view_push, view] at there
    exact before u there
  | lost free entry =>
    obtain ⟨-, -, -, -, view, -⟩ := evo.takePage free (Bytes.fill 0)
    rw [view] at there
    exact before u there
  | mapped free absent mapped =>
    obtain ⟨-, -, -, -, view, -⟩ := evo.takePage free (Bytes.fill 0)
    by_cases same : u = v
    · exact same ▸ low
    · rw [mapped.view, view, update_of_ne same] at there
      exact before u there

theorem Sound.trapPageFault {cr2 : Nat} {userMode : Bool} (sound : Sound k confined w) (inside : i < nproc)
    (live : (w.procs i).state.live) (pgdir : (w.procs i).pgdir = some d) (addr : cr2 < 2 ^ 32)
    (low : confined → userMode = true → cr2 / pgsize < pageCount (w.procs i).sz)
    (ran : Vm.trapPageFault k w i ⟨d, (w.procs i).sz⟩ userMode cr2 = .ok w') : Sound k confined w' := by
  obtain ⟨d', s, seated⟩ := sound.seated i inside live
  obtain rfl : d' = d := Option.some.inj (seated.pgdir.symm.trans pgdir)
  have evo : Evolves k (w.machine.Footprint d') d' w.machine w.machine := .refl seated.space fun _ used => used
  obtain ⟨⟨killed, m'⟩, faulted, ran⟩ := ok_of_bind ran
  have handled : userMode = true ∨ cr2 < (w.procs i).sz := by
    by_contra neither
    rw [pageFault, if_pos (by simpa using neither)] at faulted
    cases faulted
  obtain ⟨killed', m'', res, cases⟩ := pageFault_faulted evo addr handled
  rw [res] at faulted
  cases faulted
  have sound' : Sound k confined
      { w.setProc i { w.procs i with killed := (w.procs i).killed || killed } with machine := m' } := by
    refine sound.evolve inside live pgdir (cases.evo evo) rfl rfl fun tame before => ?_
    refine cases.below evo ?_ before
    cases handled with
    | inl user => exact low tame user
    | inr below =>
      dsimp only [pageCount, pgsize]
      omega
  dsimp only at ran
  split at ran
  · refine sound'.exit ?_ ran
    simpa [World.setProc] using live
  · cases ran
    exact sound'

theorem frame_of_access {va : Nat} {store : Bool} (addr : va < 2 ^ 32)
    (found : access m d true store va = some q) : frame (va / pgsize) (m.pte d (va / pgsize)) = some q := by
  rw [access, walkpgdir_false addr] at found
  cases table : m.table d (va / pgsize / nptentries) with
  | none =>
    rw [table] at found
    cases found
  | some t =>
    simp only [table, Option.map_some, ← pte_of_table table] at found
    split at found
    next allowed =>
      exact frame_eq_some.mpr ⟨allowed.1, .inr (allowed.2.1 trivial), Option.some.inj found⟩
    next => cases found

theorem Evolves.store {v : Nat} (evo : Evolves k S d m₀ m)
    (held : frame v (m.pte d v) = some q) (bytes : Bytes) : Evolves k S d m₀ (m.setPage q bytes) :=
  (evo.setPage (evo.inside q (.inl ⟨.page v, held⟩)) (fun _ holds => ⟨v, evo.space.exclusive holds held⟩)
    bytes).1

end Sound

/-! ## Runs -/

section Runs

variable {k : Symbols} {confined : Prop} {w w' : World} {i : Nat}

/-- The address space that a running process has. -/
theorem Sound.running {cur : Image} (sound : Sound k confined w) (inside : i < nproc)
    (running : (w.procs i).state = .running) (image : w.image i = some cur) :
    ∃ d s, Seated k confined w.machine (w.procs i) d s ∧ cur = ⟨d, (w.procs i).sz⟩ := by
  obtain ⟨d, s, seated⟩ := sound.seated i inside (by rw [running]; rfl)
  rw [World.image, seated.pgdir] at image
  exact ⟨d, s, seated, (Option.some.inj image).symm⟩

theorem Sound.perform {cur : Image} {call : Call} (sound : Sound k confined w) (inside : i < nproc)
    (running : (w.procs i).state = .running) (image : w.image i = some cur) (small : cur.sz < kernbase)
    (short : ShortArgs w (.call i call))
    (low : confined → ∀ cr2, call = .pageFault true cr2 → cr2.toNat / pgsize < pageCount (w.procs i).sz)
    (ran : perform k w i cur call = .ok w') : Sound k confined w' := by
  have live : (w.procs i).state.live := by
    rw [running]
    rfl
  obtain ⟨d, s, seated, rfl⟩ := sound.running inside running image
  have evo : Evolves k (w.machine.Footprint d) d w.machine w.machine := .refl seated.space fun _ used => used
  have pgdir := seated.pgdir
  cases call with
  | fork =>
    obtain ⟨⟨val, w''⟩, forked, same⟩ := ok_of_bind ran
    cases same
    exact sound.fork seated.space (Nat.le_of_lt small) forked
  | exec file uargv =>
    dsimp only [Vm.perform] at ran
    split at ran
    · cases ran
      exact sound
    next argv fetched =>
      obtain ⟨⟨loaded, m'⟩, executed, ran⟩ := ok_of_bind ran
      have res := sound.exec inside live pgdir (short _ argv image fetched) executed
      dsimp only at ran
      cases loaded with
      | none =>
        cases ran
        exact res
      | some loaded =>
        cases ran
        exact res
  | sbrk n =>
    obtain ⟨val, sz', m', v, moved, cleared, covered⟩ := sysSbrk_cleared n evo small
    simp only [Vm.perform, moved, bind, Except.bind] at ran
    cases ran
    refine sound.evolve inside live pgdir cleared.evo rfl rfl fun _ before u there => ?_
    rw [cleared.view] at there
    by_cases kept : u < v
    · exact Nat.lt_of_lt_of_le kept covered
    · split at there
      next => exact absurd rfl there
      next beyond => exact absurd ⟨Nat.le_of_not_lt kept, before u there⟩ beyond
  | pageFault userMode cr2 =>
    refine sound.trapPageFault inside live pgdir cr2.toNat_lt (fun tame user => ?_) ran
    subst user
    exact low tame cr2 rfl
  | exit => exact sound.exit live ran
  | wait =>
    obtain ⟨⟨val, w''⟩, waited, same⟩ := ok_of_bind ran
    cases same
    exact sound.wait live waited
  | store va byte =>
    dsimp only [Vm.perform] at ran
    split at ran
    · cases ran
      exact sound
    next q found =>
      cases ran
      have held := frame_of_access va.toNat_lt found
      have stored := sound.evolve (p := w.procs i) inside live pgdir
        (evo.store held (update (w.machine.mem q) (va.toNat % pgsize) byte)) rfl rfl
        fun _ before u there => before u fun none => there ?_
      · rwa [World.setProc, update_eq_self] at stored
      · rw [view_setPage evo.space held, update_of_ne, none]
        rintro rfl
        exact absurd none (by rw [view_of_frame held]; exact Option.some_ne_none _)

theorem Booted.sound {init : Bytes} {size d s : Nat} (booted : Booted k init size w d s) : Sound k confined w := by
  have only : ∀ i, (w.procs i).state.live → i = 0 := by
    intro i live
    by_contra other
    rw [booted.others i other] at live
    cases live
  refine ⟨booted.space.toPool, ?_, ?_⟩
  · intro i _ live
    obtain rfl := only i live
    rw [booted.init]
    refine ⟨d, s, rfl, rfl, booted.space, booted.kernel, booted.stack, booted.taken, booted.unheld, ?_⟩
    intro _ v there
    obtain ⟨page, -, view⟩ := booted.view
    rw [view] at there
    by_contra beyond
    have other : v ≠ 0 := by
      rintro rfl
      exact beyond (by decide : 0 < pageCount pgsize)
    exact there (update_of_ne other ..)
  · intro i j _ _ live live' q _ _
    rw [only i live, only j live']

theorem sound_of_allowed {allowed : World → Event → Prop} (short : ∀ w event, allowed w event → ShortArgs w event)
    (low : confined → ∀ w i cr2, allowed w (.call i (.pageFault true cr2)) →
      cr2.toNat / pgsize < pageCount (w.procs i).sz)
    (reachable : (processes k).Reachable allowed w) : Sound k confined w := by
  refine reachable.invariant (Sound k confined) ?_ ?_
  · rintro w ⟨init, size, ran⟩
    rcases boot_spec k init size with ⟨w', d, s, ran', booted⟩ | ⟨panic, failed, -⟩
    · obtain rfl : w' = w := Except.ok.inj (ran'.symm.trans ran)
      exact booted.sound
    · rw [failed] at ran
      cases ran
  · intro w event w' before sound may taken
    cases event with
    | call i call =>
      dsimp only [processes] at taken
      split at taken
      next slot =>
        split at taken
        · cases taken
        next cur image =>
          cases ran : Vm.perform k w i cur call with
          | error panic =>
            rw [ran] at taken
            cases taken
          | ok w'' =>
            rw [ran] at taken
            cases taken
            have small : cur.sz < kernbase := by
              obtain ⟨d, -, rfl⟩ := Option.map_eq_some_iff.mp image
              exact bounded_of_reachable before i
            refine sound.perform slot.1 slot.2 image small (short w _ may) (fun tame cr2 same => ?_) ran
            subst same
            exact low tame w i cr2 may
      next => cases taken
    | switch i state =>
      dsimp only [processes] at taken
      split at taken
      next slot =>
        cases taken
        have live : (w.procs i).state.live ∧ state.live := by
          have switches := slot.2
          revert switches
          cases (w.procs i).state <;> cases state <;> decide
        exact sound.still rfl (sameSeat_setProc ⟨live.2.trans live.1.symm, fun _ => ⟨rfl, rfl, rfl⟩⟩)
      next => cases taken

/-- Owners are apart in every run with arguments below 32 MB. -/
theorem sound_of_reachable (reachable : (processes k).Reachable ShortArgs w) : Sound k False w :=
  sound_of_allowed (fun _ _ short => short) False.elim reachable

/-! ## Owners -/

/-- What slot `i` uses page `q` for: a role in its address space, or the kernel stack. -/
def Uses (w : World) (i q : Nat) : Option Role → Prop
  | some r => ∃ d, (w.procs i).pgdir = some d ∧ w.machine.holder d r = some q
  | none => (w.procs i).kstack = some q

/-- No page is on the free list twice, on the free list and in use, or in use twice. -/
structure OneOwner (w : World) : Prop where
  nodup : w.machine.freelist.Nodup
  free : ∀ i < nproc, (w.procs i).state.live → ∀ use q, Uses w i q use → q ∉ w.machine.freelist
  one : ∀ i j, i < nproc → j < nproc → (w.procs i).state.live → (w.procs j).state.live →
    ∀ use use' q, Uses w i q use → Uses w j q use' → i = j ∧ use = use'

theorem Uses.owns {use : Option Role} (uses : Uses w i q use) : Owns w.machine (w.procs i) q := by
  cases use with
  | none => exact .inr uses
  | some r =>
    obtain ⟨d, pgdir, holds⟩ := uses
    exact .inl ⟨d, pgdir, r, holds⟩

theorem Seated.use_eq {d s : Nat} {use use' : Option Role} (seated : Seated k confined w.machine (w.procs i) d s)
    (uses : Uses w i q use) (uses' : Uses w i q use') : use = use' := by
  have stack : ∀ r, Uses w i q none → ¬ Uses w i q (some r) := by
    rintro r kstack ⟨d', pgdir, holds⟩
    obtain rfl : d' = d := Option.some.inj (pgdir.symm.trans seated.pgdir)
    obtain rfl : q = s := Option.some.inj (kstack.symm.trans seated.kstack)
    exact seated.unheld ⟨r, holds⟩
  cases use with
  | none =>
    cases use' with
    | none => rfl
    | some r => exact absurd uses' (stack r uses)
  | some r =>
    cases use' with
    | none => exact absurd uses (stack r uses')
    | some r' =>
      obtain ⟨d', pgdir, holds⟩ := uses
      obtain ⟨d'', pgdir', holds'⟩ := uses'
      obtain rfl : d' = d := Option.some.inj (pgdir.symm.trans seated.pgdir)
      obtain rfl : d'' = d' := Option.some.inj (pgdir'.symm.trans seated.pgdir)
      rw [seated.space.exclusive holds holds']

theorem Sound.oneOwner (sound : Sound k confined w) : OneOwner w where
  nodup := sound.pool.nodup
  free i inside live use q uses := by
    obtain ⟨d, s, seated⟩ := sound.seated i inside live
    exact seated.not_free uses.owns
  one i j inside inside' live live' use use' q uses uses' := by
    obtain rfl := sound.apart i j inside inside' live live' q uses.owns uses'.owns
    obtain ⟨d, s, seated⟩ := sound.seated i inside live
    exact ⟨rfl, seated.use_eq uses uses'⟩

end Runs

/-- In every state of a run of any processes in which the arguments of `exec` are below 32 MB,
no page has two owners. -/
theorem one_owner {k : Symbols} {w : World} (reachable : (processes k).Reachable ShortArgs w) : OneOwner w :=
  (sound_of_reachable reachable).oneOwner

/-- The first process has called `exec`, which has freed the pages it had before. -/
theorem one_owner_program : ∃ w d s, (processes smallKernel).Reachable ShortArgs w ∧ ProgramRuns smallKernel w d s ∧
    OneOwner w := by
  obtain ⟨w, d, s, reach, runs⟩ := programRuns_reachable smallKernel (by decide)
  exact ⟨w, d, s, shortArgs_of_confined reach, runs, one_owner (shortArgs_of_confined reach)⟩

end Xv6Simplesh.Vm
