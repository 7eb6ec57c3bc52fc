import Xv6Simplesh.Shell.Foreground

/-! # What a command leaves behind

With all system calls succeeding, `run_cmd` gives back the descriptors that it opens and
unblocks `SIGCHLD` again, except where the shell itself runs a builtin with a redirection:
there it opens the file for good, after closing the standard descriptor for `hd` and `src`,
and leaves `SIGCHLD` blocked.
-/

namespace Xv6Simplesh.Shell

open Library Function

/-! ## Redirected builtins -/

mutual

/-- The shell itself runs no builtin with a redirection. -/
def Task.plain : Task → Bool
  | .exec cmd => cmd.plain
  | .redr (.exec cmd) _ => !cmd.isInterno
  | .list left right => left.plain && right.plain
  | _ => true

def Command.plain : Command → Bool
  | .src _ rounds => rounds.plain
  | _ => true

def Rounds.plain : Rounds → Bool
  | .nil => true
  | .cons script rest => script.plain && rest.plain

end

/-! ## The invariant of a run -/

/-- While a command runs: `leaks` says whether a redirected builtin has run.  If not, the
table is `table`, and `SIGCHLD` is unblocked unless it `mayBlock`.  If so, and the standard
descriptors were open before (`std`), there is a descriptor of a file opened since then
that no loop of `run_src` is going to close; `busy` are the descriptors of those. -/
structure Framed (std : Prop) (first : Nat) (mask : Signal → Bool) (table : Nat → Option Nat) (busy : List Nat)
    (mayBlock leaks : Bool) (s : ShellState) : Prop where
  next : first ≤ s.files.next
  others : ∀ signal, signal ≠ .sigchld → s.mask signal = mask signal
  unblocked : leaks = false → mayBlock = false → s.mask .sigchld = false
  same : leaks = false → s.files.table = table
  streams : std → ∀ stream : Stream, s.files.table stream.fd ≠ none
  held : std → ∀ fd ∈ busy, s.files.table fd ≠ none
  free : std → ∀ stream : Stream, stream.fd ∉ busy
  leaked : std → leaks = true → ∃ fd file, fd ∉ busy ∧ first ≤ file ∧ s.files.table fd = some file

section Framed

variable {std : Prop} {first : Nat} {mask : Signal → Bool} {table : Nat → Option Nat} {busy : List Nat}
  {mayBlock leaks : Bool} {s : ShellState}

theorem Framed.congr {s' : ShellState} (framed : Framed std first mask table busy mayBlock leaks s)
    (sameTable : s'.files.table = s.files.table) (later : s.files.next ≤ s'.files.next) (sameMask : s'.mask = s.mask) :
    Framed std first mask table busy mayBlock leaks s' where
  next := Nat.le_trans framed.next later
  others := sameMask ▸ framed.others
  unblocked := sameMask ▸ framed.unblocked
  same := sameTable ▸ framed.same
  streams := sameTable ▸ framed.streams
  held := sameTable ▸ framed.held
  free := framed.free
  leaked := sameTable ▸ framed.leaked

theorem framed_stable (std : Prop) (first : Nat) (mask : Signal → Bool) (table : Nat → Option Nat) (busy : List Nat)
    (mayBlock leaks : Bool) (pending : Option Call) :
    (kernel false).Stable pending (Framed std first mask table busy mayBlock leaks) := by
  intro s s' framed moved
  cases moved with
  | _ => exact framed.congr rfl (Nat.le_refl _) rfl

/-- After blocking, or after unblocking, or where it does not matter any more. -/
theorem Framed.setMask {how : How} {mayBlock' : Bool} (framed : Framed std first mask table busy mayBlock leaks s)
    (allowed : leaks = false → mayBlock' = false → how = .unblock) :
    Framed std first mask table busy mayBlock' leaks (s.setMask how) where
  next := framed.next
  others signal other := (update_of_ne other ..).trans (framed.others signal other)
  unblocked clean free := by
    rw [s.setMask_sigchld, allowed clean free]
    rfl
  same := framed.same
  streams := framed.streams
  held := framed.held
  free := framed.free
  leaked := framed.leaked

/-! ### Calls -/

/-- The assertions of this section, for runs in which no call fails. -/
abbrev Leaves (p : ShellProg) (Q : ShellState → Prop) (s : ShellState) : Prop :=
  p.wp (kernel false) (fun _ _ => True) Q s

variable {Q : ShellState → Prop}

theorem leaves_exit : Leaves exit Q s :=
  wp_call (P := fun _ => True) (fun _ _ _ _ => trivial) trivial (fun _ _ => trivial) fun _ => nofun

theorem leaves_done (framed : Framed std first mask table busy mayBlock leaks s) :
    Leaves .done (Framed std first mask table busy mayBlock leaks) s :=
  wp_done (framed_stable std first mask table busy mayBlock leaks none) framed

theorem leaves_call {c : Call} {next : c.Answer → ShellProg}
    (framed : Framed std first mask table busy mayBlock leaks s)
    (rest : ∀ s a s', Framed std first mask table busy mayBlock leaks s → effect false s c a s' →
      Leaves (next a) Q s') : Leaves (.call c next) Q s :=
  wp_call (framed_stable std first mask table busy mayBlock leaks _) framed (fun _ _ => trivial)
    fun s a s' framed answered => rest s a s' framed answered.2

variable {next : ShellProg} {fd other : Nat} {f : Files}

theorem leaves_setMask {how : How} (mayBlock' : Bool) (framed : Framed std first mask table busy mayBlock leaks s)
    (allowed : leaks = false → mayBlock' = false → how = .unblock)
    (rest : ∀ s, Framed std first mask table busy mayBlock' leaks s → Leaves next Q s) :
    Leaves (setMask how next) Q s := by
  refine leaves_call framed ?_
  rintro s (_ | _) s' framed answered
  · exact leaves_exit
  · obtain rfl : s' = s.setMask how := answered
    exact rest _ (framed.setMask allowed)

theorem leaves_fork {site : ForkSite} {next : Nat → ShellProg}
    (framed : Framed std first mask table busy mayBlock leaks s)
    (rest : ∀ pid s, Framed std first mask table busy mayBlock leaks s → Leaves (next pid) Q s) :
    Leaves (forkOrPanic site next) Q s := by
  refine leaves_call framed ?_
  rintro s (_ | pid) s' framed answered
  · exact leaves_exit
  · obtain ⟨-, -, rfl⟩ := answered
    exact rest pid _ (framed.congr rfl (Nat.le_refl _) rfl)

theorem leaves_waitpid {pid : Nat} (framed : Framed std first mask table busy mayBlock leaks s)
    (rest : ∀ s, Framed std first mask table busy mayBlock leaks s → Leaves next Q s) :
    Leaves (tryWaitpid pid next) Q s := by
  refine leaves_call framed ?_
  rintro s (_ | _) s' framed answered
  · exact leaves_exit
  · obtain ⟨child, -, -, rfl⟩ := answered
    exact rest _ (framed.congr rfl (Nat.le_refl _) rfl)

theorem leaves_forkWait {site : ForkSite} (framed : Framed std first mask table busy mayBlock leaks s)
    (rest : ∀ s, Framed std first mask table busy mayBlock leaks s → Leaves next Q s) :
    Leaves (forkOrPanic site fun pid => tryWaitpid pid next) Q s :=
  leaves_fork framed fun _ _ framed => leaves_waitpid framed rest

/-! ### Descriptors -/

theorem Files.install_self (f : Files) (fd : Nat) : (f.install fd).table fd = some f.next := update_self ..

theorem Files.install_of_ne (f : Files) (ne : other ≠ fd) :
    (f.install fd).table other = f.table other := update_of_ne ne ..

theorem Files.close_of_ne (f : Files) (ne : other ≠ fd) :
    (f.close fd).table other = f.table other := update_of_ne ne ..

theorem Files.install_open (f : Files) (before : f.table other ≠ none) : (f.install fd).table other ≠ none := by
  by_cases same : other = fd
  · rw [same, f.install_self]
    nofun
  · rwa [f.install_of_ne same]

theorem Framed.install (framed : Framed std first mask table busy mayBlock leaks s) (lowest : s.files.Lowest fd) :
    Framed std first mask (s.files.install fd).table (fd :: busy) mayBlock leaks
      { s with files := s.files.install fd } where
  next := Nat.le_succ_of_le framed.next
  others := framed.others
  unblocked := framed.unblocked
  same _ := rfl
  streams opened stream := s.files.install_open (framed.streams opened stream)
  held opened other mem := by
    cases List.mem_cons.mp mem with
    | inl same =>
      rw [same, s.files.install_self]
      nofun
    | inr mem => exact s.files.install_open (framed.held opened other mem)
  free opened stream mem := by
    cases List.mem_cons.mp mem with
    | inl same => exact framed.streams opened stream (same ▸ lowest.1)
    | inr mem => exact framed.free opened stream mem
  leaked opened leaky := by
    obtain ⟨other, file, outside, new, found⟩ := framed.leaked opened leaky
    have ne : other ≠ fd := by
      rintro rfl
      rw [lowest.1] at found
      cases found
    exact ⟨other, file, fun mem => (List.mem_cons.mp mem).elim ne outside, new,
      (s.files.install_of_ne ne).trans found⟩

theorem Framed.close {inner : Nat → Option Nat} (framed : Framed std first mask inner (fd :: busy) mayBlock leaks s)
    (clean : leaks = false → update inner fd none = table)
    (apart : std → (∀ stream : Stream, stream.fd ≠ fd) ∧ ∀ other ∈ busy, other ≠ fd) :
    Framed std first mask table busy mayBlock leaks { s with files := s.files.close fd } where
  next := framed.next
  others := framed.others
  unblocked := framed.unblocked
  same unleaked := by
    have closed : (s.files.close fd).table = update s.files.table fd none := rfl
    rw [closed, framed.same unleaked, clean unleaked]
  streams opened stream := by
    rw [s.files.close_of_ne ((apart opened).1 stream)]
    exact framed.streams opened stream
  held opened other mem := by
    rw [s.files.close_of_ne ((apart opened).2 other mem)]
    exact framed.held opened other (.tail _ mem)
  free opened stream mem := framed.free opened stream (.tail _ mem)
  leaked opened leaky := by
    obtain ⟨other, file, outside, new, found⟩ := framed.leaked opened leaky
    have ne : other ≠ fd := fun same => outside (same ▸ List.mem_cons_self)
    exact ⟨other, file, fun mem => outside (.tail _ mem), new,
      (s.files.close_of_ne ne).trans found⟩

theorem Framed.apart (framed : Framed std first mask table busy mayBlock leaks s)
    (free : s.files.table fd = none) (opened : std) :
    (∀ stream : Stream, stream.fd ≠ fd) ∧ ∀ other ∈ busy, other ≠ fd :=
  ⟨fun stream same => framed.streams opened stream (same ▸ free),
    fun other mem same => framed.held opened other mem (same ▸ free)⟩

theorem Framed.swap (framed : Framed std first mask table (fd :: other :: busy) mayBlock leaks s) :
    Framed std first mask table (other :: fd :: busy) mayBlock leaks s :=
  have swapped (descriptor : Nat) : descriptor ∈ other :: fd :: busy ↔ descriptor ∈ fd :: other :: busy :=
    (List.Perm.swap fd other busy).mem_iff
  { framed with
    held := fun opened fd mem => framed.held opened fd ((swapped fd).mp mem)
    free := fun opened stream mem => framed.free opened stream ((swapped stream.fd).mp mem)
    leaked := fun opened leaky =>
      have ⟨fd, file, outside, found⟩ := framed.leaked opened leaky
      ⟨fd, file, fun mem => outside ((swapped fd).mp mem), found⟩ }

theorem leaves_read {next : Bool → ShellProg} (framed : Framed std first mask table busy mayBlock leaks s)
    (rest : ∀ s, Framed std first mask table busy mayBlock leaks s → Leaves (next true) Q s) :
    Leaves (.call (.read fd) next) Q s := by
  refine leaves_call framed ?_
  rintro s (_ | _) s' framed answered
  · exact nomatch answered.1
  · obtain rfl : s' = s := answered
    exact rest s' framed

theorem leaves_open {next : Option Nat → ShellProg} (framed : Framed std first mask table busy mayBlock leaks s)
    (rest : ∀ fd before s, Framed std first mask table busy mayBlock leaks before → before.files.Lowest fd →
      Framed std first mask (before.files.install fd).table (fd :: busy) mayBlock leaks s →
      Leaves (next (some fd)) Q s) : Leaves (.call .open next) Q s := by
  refine leaves_call framed ?_
  rintro s (_ | fd) s' framed answered
  · exact nomatch answered.1
  · obtain ⟨lowest, rfl⟩ := answered
    exact rest fd s _ framed lowest (framed.install lowest)

theorem leaves_close {inner : Nat → Option Nat} {next : Bool → ShellProg}
    (framed : Framed std first mask inner (fd :: busy) mayBlock leaks s)
    (clean : leaks = false → update inner fd none = table)
    (apart : std → (∀ stream : Stream, stream.fd ≠ fd) ∧ ∀ other ∈ busy, other ≠ fd)
    (rest : ∀ s, Framed std first mask table busy mayBlock leaks s → Leaves (next true) Q s) :
    Leaves (.call (.close fd) next) Q s := by
  refine leaves_call framed ?_
  rintro s (_ | _) s' framed answered
  · exact nomatch answered.1
  · obtain ⟨-, rfl⟩ := answered
    exact rest _ (framed.close clean apart)

/-- Opening and closing a descriptor gives the old table back. -/
theorem Files.close_install (free : f.table fd = none) : update (f.install fd).table fd none = f.table := by
  have installed : (f.install fd).table = update f.table fd (some f.next) := rfl
  rw [installed, update_idem, ← free, update_eq_self]

/-- The two ends of a pipe are closed in the order in which they were opened. -/
theorem Files.close_pipe {p0 p1 : Nat} (free0 : f.table p0 = none) (free1 : (f.install p0).table p1 = none) :
    update (update ((f.install p0).install p1).table p0 none) p1 none = f.table := by
  have ne : p1 ≠ p0 := by
    rintro rfl
    rw [f.install_self] at free1
    cases free1
  rw [update_comm ne.symm, close_install free1, close_install free0]

theorem leaves_other {c : Call} {a : c.Answer → ShellProg}
    (framed : Framed std first mask table busy mayBlock leaks s)
    (unchanged : ∀ s a s', effect false s c a s' → s'.files = s.files ∧ s'.mask = s.mask)
    (rest : ∀ b s, Framed std first mask table busy mayBlock leaks s → Leaves (a b) Q s) :
    Leaves (.call c a) Q s := by
  refine leaves_call framed fun s b s' framed answered => ?_
  obtain ⟨sameFiles, sameMask⟩ := unchanged s b s' answered
  exact rest b s' (framed.congr (sameFiles ▸ rfl) (sameFiles ▸ Nat.le_refl _) sameMask)

theorem leaves_pipe (framed : Framed std first mask table busy mayBlock leaks s)
    (rest : ∀ s, Framed std first mask table busy true leaks s → Leaves next Q s) :
    Leaves (.call .pipe fun
      | none => exit
      | some (p0, p1) =>
        setMask .block <| forkOrPanic .pipeLeft fun left => forkOrPanic .pipeRight fun right =>
          tryClose p0 <| tryClose p1 <| tryWaitpid left <| tryWaitpid right next) Q s := by
  refine leaves_call framed ?_
  rintro before (_ | ⟨p0, p1⟩) s' framed answered
  · exact leaves_exit
  obtain ⟨lowest0, lowest1, rfl⟩ := answered
  have opened := (framed.install lowest0).install lowest1
  refine leaves_setMask true opened.swap (fun _ => nofun) fun s piped => ?_
  refine leaves_fork piped fun left s piped => leaves_fork piped fun right s piped => ?_
  have apart0 (std) := framed.apart lowest0.1 std
  have apart1 (std) := (framed.install lowest0).apart lowest1.1 std
  refine leaves_close piped (fun _ => rfl) (fun std => ⟨(apart0 std).1, fun other mem => ?_⟩) fun s piped => ?_
  · cases List.mem_cons.mp mem with
    | inl same => exact same ▸ ((apart1 std).2 p0 (.head _)).symm
    | inr mem => exact (apart0 std).2 other mem
  refine leaves_close piped (fun clean => (Files.close_pipe lowest0.1 lowest1.1).trans (framed.same clean))
    (fun std => ⟨(apart1 std).1, fun other mem => (apart1 std).2 other (.tail _ mem)⟩)
    fun s piped => ?_
  exact leaves_waitpid piped fun s piped => leaves_waitpid piped rest

theorem leaves_runHd (files : Nat) (framed : Framed std first mask table busy mayBlock leaks s) :
    Leaves (runHd files) (Framed std first mask table busy mayBlock leaks) s := by
  induction files generalizing s with
  | zero => exact leaves_done framed
  | succ files ih =>
    refine leaves_open framed fun fd before s start lowest inside => leaves_read inside fun s inside => ?_
    exact leaves_close inside (fun clean => (Files.close_install lowest.1).trans (start.same clean))
      (start.apart lowest.1) fun s framed => ih framed

theorem leaves_runBjobs (action : JobAction) (framed : Framed std first mask table busy mayBlock leaks s) :
    Leaves (runBjobs action) (Framed std first mask table busy mayBlock leaks) s := by
  unfold runBjobs
  generalize List.finRange maxProcBack = indices
  induction indices generalizing s with
  | nil => exact leaves_done framed
  | cons i indices ih =>
    refine leaves_other framed (fun s pid s' answered => answered.2 ▸ ⟨rfl, rfl⟩) fun pid s framed => ?_
    split
    · exact leaves_other framed (fun s _ s' answered => answered ▸ ⟨rfl, rfl⟩) fun _ s => ih
    · exact ih framed

theorem leaves_unblock (framed : Framed std first mask table busy true leaks s) :
    Leaves (setMask .unblock .done) (Framed std first mask table busy mayBlock leaks) s :=
  leaves_setMask mayBlock framed (fun _ _ => rfl) fun _ framed => leaves_done framed

theorem leaves_redr (framed : Framed std first mask table busy mayBlock leaks s) :
    Leaves (setMask .block <| forkOrPanic .redr fun pid => tryWaitpid pid <| setMask .unblock .done)
      (Framed std first mask table busy mayBlock leaks) s :=
  leaves_setMask true framed (fun _ => nofun) fun _ framed =>
    leaves_forkWait framed fun _ framed => leaves_unblock framed

theorem leaves_back (framed : Framed std first mask table busy mayBlock leaks s) :
    Leaves (forkOrPanic .back addProcesoBackground) (Framed std first mask table busy mayBlock leaks) s := by
  refine leaves_fork framed fun pid s framed => ?_
  refine leaves_other framed (fun s _ s' answered => answered.2 ▸ ⟨rfl, rfl⟩) fun _ s framed => ?_
  refine leaves_other framed ?_ fun _ s framed => leaves_done framed
  intro s _ s' answered
  obtain rfl : s' = _ := answered
  exact ⟨rfl, rfl⟩

/-! ### Redirected builtins -/

theorem Framed.leak {s' : ShellState} (mayBlock' : Bool) (framed : Framed std first mask table busy mayBlock leaks s)
    (installed : std → ∃ fd ∉ busy, s'.files.table = update s.files.table fd (some s.files.next))
    (later : s.files.next ≤ s'.files.next) (sameMask : s'.mask = s.mask) :
    Framed std first mask table busy mayBlock' true s' where
  next := Nat.le_trans framed.next later
  others := sameMask ▸ framed.others
  unblocked := nofun
  same := nofun
  streams opened stream := by
    obtain ⟨fd, -, same⟩ := installed opened
    rw [same]
    exact s.files.install_open (framed.streams opened stream)
  held opened other mem := by
    obtain ⟨fd, -, same⟩ := installed opened
    rw [same]
    exact s.files.install_open (framed.held opened other mem)
  free := framed.free
  leaked opened _ := by
    obtain ⟨fd, outside, same⟩ := installed opened
    exact ⟨fd, s.files.next, outside, framed.next, same ▸ update_self ..⟩

theorem leaves_leaky {p : ShellProg} (mayBlock' : Bool)
    (leaves : Leaves p (Framed std first mask table busy mayBlock true) s) :
    Leaves p (Framed std first mask table busy mayBlock' true) s :=
  wp_mono (fun _ framed => { framed with unblocked := nofun }) leaves

/-- With the standard descriptors open, the one that is closed is the lowest free one. -/
theorem lowest_close {stream : Stream} (streams : ∀ stream : Stream, f.table stream.fd ≠ none)
    (lowest : (f.close stream.fd).Lowest fd) : fd = stream.fd := by
  by_contra ne
  -- A lower descriptor is another standard one, and that is open.
  have lower : fd < stream.fd := by
    refine Nat.lt_of_le_of_ne (Nat.le_of_not_lt fun higher => ?_) ne
    exact lowest.2 stream.fd higher (update_self ..)
  have input : fd = Stream.input.fd := by
    cases stream with
    | input => cases lower
    | output => exact Nat.lt_one_iff.mp lower
  exact streams .input (input ▸ (f.close_of_ne ne).symm.trans lowest.1)

theorem leaves_redirected {cmd : Command} (framed : Framed std first mask table busy mayBlock leaks s)
    (rest : ∀ s, Framed std first mask table busy true true s → Leaves (runInterno cmd) Q s) :
    Leaves (.call .open fun
      | none => exit
      | some _ => runInterno cmd) Q s := by
  refine leaves_call framed ?_
  rintro s (_ | fd) s' framed answered
  · exact leaves_exit
  · obtain ⟨lowest, rfl⟩ := answered
    refine rest _ (framed.leak true (fun opened => ⟨fd, fun mem => ?_, rfl⟩) (Nat.le_succ _) rfl)
    exact (framed.apart lowest.1 opened).2 fd mem rfl

/-- For `hd` and `src` the file takes the place of the standard descriptor. -/
theorem leaves_replaced {cmd : Command} {stream : Stream} (framed : Framed std first mask table busy mayBlock leaks s)
    (rest : ∀ s, Framed std first mask table busy true true s → Leaves (runInterno cmd) Q s) :
    Leaves (tryClose stream.fd <| .call .open fun
      | none => exit
      | some _ => runInterno cmd) Q s := by
  refine leaves_call framed ?_
  rintro s (_ | _) s' framed answered
  · exact leaves_exit
  obtain ⟨-, rfl⟩ := answered
  -- Until `open` returns, the files are those of `s` without the standard descriptor.
  refine wp_call (P := fun between => between.files = s.files.close stream.fd ∧ between.mask = s.mask) ?_
    ⟨rfl, rfl⟩ (fun _ _ => trivial) ?_
  · intro before after same moved
    cases moved with
    | _ => exact same
  rintro between (_ | fd) after ⟨sameFiles, sameMask⟩ ⟨-, answered⟩
  · exact leaves_exit
  obtain ⟨lowest, rfl⟩ := answered
  rw [sameFiles] at lowest
  refine rest _ (framed.leak true (fun opened => ⟨stream.fd, framed.free opened stream, ?_⟩) ?_ sameMask)
  · obtain rfl := lowest_close (framed.streams opened) lowest
    simp only [sameFiles, Files.install, Files.close, update_idem]
  · rw [sameFiles]
    exact Nat.le_succ _

end Framed

mutual

variable {std : Prop} {first : Nat} {mask : Signal → Bool}

theorem leaves_runCmd : ∀ (task : Task) {table : Nat → Option Nat}
    {busy : List Nat} {mayBlock leaks : Bool} {s : ShellState}, Framed std first mask table busy mayBlock leaks s →
      Leaves (runCmd task) (Framed std first mask table busy mayBlock (leaks || !task.plain)) s
  | .null, _, _, _, _, _, framed => by
    simp only [runCmd, Task.plain, Bool.not_true, Bool.or_false]
    exact leaves_done framed
  | .exec cmd, _, _, mayBlock, _, _, framed => by
    rw [runCmd, Task.plain]
    refine leaves_setMask true framed (fun _ => nofun) fun s framed => ?_
    refine wp_seq ?_ fun s framed => leaves_unblock framed
    cases interno : cmd.isInterno with
    | true => exact leaves_runInterno cmd framed
    | false =>
      have plain : cmd.plain = true := by
        cases cmd with
        | external => rfl
        | _ => cases interno
      rw [plain, Bool.not_true, Bool.or_false]
      exact leaves_forkWait framed fun s framed => leaves_done framed
  | .redr (.exec cmd) stream, table, busy, mayBlock, leaks, _, framed => by
    rw [runCmd, Task.plain, Bool.not_not]
    cases interno : cmd.isInterno with
    | false =>
      rw [Bool.or_false]
      exact leaves_redr framed
    | true =>
      rw [Bool.or_true]
      refine leaves_setMask true framed (fun _ => nofun) fun s framed => ?_
      have rest (s : ShellState) (framed : Framed std first mask table busy true true s) :=
        leaves_leaky mayBlock (leaves_runInterno cmd framed)
      cases cmd.closes with
      | true => exact leaves_replaced framed rest
      | false => exact leaves_redirected framed rest
  | .redr .null _, _, _, _, _, _, framed | .redr (.redr _ _) _, _, _, _, _, _, framed
  | .redr (.pipe _ _) _, _, _, _, _, _, framed | .redr (.list _ _) _, _, _, _, _, _, framed
  | .redr (.back _) _, _, _, _, _, _, framed | .redr (.subs _) _, _, _, _, _, _, framed => by
    simp only [runCmd, Task.plain, Bool.not_true, Bool.or_false]
    exact leaves_redr framed
  | .list left right, _, _, _, _, _, framed => by
    rw [runCmd, Task.plain, Bool.not_and, ← Bool.or_assoc]
    exact wp_seq (leaves_runCmd left framed) fun s framed => leaves_runCmd right framed
  | .pipe left right, _, _, mayBlock, _, _, framed => by
    simp only [runCmd, Task.plain, Bool.not_true, Bool.or_false]
    exact leaves_pipe framed fun s framed => leaves_unblock framed
  | .back cmd, _, _, _, _, _, framed => by
    simp only [runCmd, Task.plain, Bool.not_true, Bool.or_false]
    exact leaves_back framed
  | .subs cmd, _, _, _, _, _, framed => by
    simp only [runCmd, Task.plain, Bool.not_true, Bool.or_false]
    exact leaves_forkWait framed fun s framed => leaves_done framed

theorem leaves_runInterno : ∀ (cmd : Command)
    {table : Nat → Option Nat} {busy : List Nat} {leaks : Bool} {s : ShellState},
    Framed std first mask table busy true leaks s →
      Leaves (runInterno cmd) (Framed std first mask table busy true (leaks || !cmd.plain)) s
  | .external, _, _, _, _, framed | .cwd, _, _, _, _, framed | .cd, _, _, _, _, framed => by
    simp only [runInterno, Command.plain, Bool.not_true, Bool.or_false]
    exact leaves_done framed
  | .exit, _, _, _, _, _ => by
    rw [runInterno]
    exact leaves_exit
  | .hd files, _, _, _, _, framed => by
    simp only [runInterno, Command.plain, Bool.not_true, Bool.or_false]
    exact leaves_runHd files framed
  | .src files rounds, _, _, _, _, framed => by
    rw [runInterno, Command.plain]
    exact leaves_runSrc files rounds framed
  | .bjobs action, _, _, _, _, framed => by
    simp only [runInterno, Command.plain, Bool.not_true, Bool.or_false]
    exact leaves_runBjobs action framed

theorem leaves_runSrc (files : Bool) : ∀ (rounds : Rounds)
    {table : Nat → Option Nat} {busy : List Nat} {leaks : Bool} {s : ShellState},
    Framed std first mask table busy true leaks s →
      Leaves (runSrc files rounds) (Framed std first mask table busy true (leaks || !rounds.plain)) s
  | .nil, _, _, _, _, framed => by
    simp only [runSrc, Rounds.plain, Bool.not_true, Bool.or_false]
    exact leaves_done framed
  | .cons script rest, table, busy, leaks, _, framed => by
    rw [runSrc, Rounds.plain, Bool.not_and, ← Bool.or_assoc]
    cases files with
    | true =>
      refine leaves_open framed fun fd before s start lowest inside => ?_
      refine wp_seq (leaves_runCmd script inside) fun s inside => leaves_read inside fun s inside => ?_
      have clean : (leaks || !script.plain) = false → update (before.files.install fd).table fd none = table :=
        fun unleaked => (Files.close_install lowest.1).trans (start.same (Bool.or_eq_false_iff.mp unleaked).1)
      exact leaves_close inside clean (start.apart lowest.1) fun s framed => leaves_runSrc true rest framed
    | false =>
      refine wp_seq (leaves_runCmd script framed) fun s framed => leaves_read framed fun s framed => ?_
      exact leaves_runSrc false rest framed

end

/-! ## What the shell is left with -/

/-- Nothing of the table and of the mask changes if no builtin is redirected; and with the
standard descriptors open, if a builtin is redirected then the table does change. -/
theorem runCmd_frame (task : Task) {s s' : ShellState} (unblocked : s.mask .sigchld = false)
    (ran : (kernel false).Reaches (runCmd task, s) (.done, s')) :
    (task.plain = true → s'.files.table = s.files.table ∧ s'.mask = s.mask) ∧
      ((∀ stream : Stream, s.files.table stream.fd ≠ none) →
        (s'.files.table = s.files.table ∧ s'.mask = s.mask ↔ task.plain = true)) := by
  have start : Framed (∀ stream : Stream, s.files.table stream.fd ≠ none) s.files.next s.mask s.files.table [] false
      false s :=
    ⟨Nat.le_refl _, fun _ _ => rfl, fun _ _ => unblocked, fun _ => rfl, id, nofun, nofun, nofun⟩
  have framed := post_of_reaches (leaves_runCmd task start) ran
  have kept (plain : task.plain = true) : s'.files.table = s.files.table ∧ s'.mask = s.mask := by
    rw [plain] at framed
    refine ⟨framed.same rfl, funext fun signal => ?_⟩
    by_cases sigchld : signal = .sigchld
    · rw [sigchld, unblocked]
      exact framed.unblocked rfl rfl
    · exact framed.others signal sigchld
  refine ⟨kept, fun opened => ⟨fun same => ?_, kept⟩⟩
  by_contra redirected
  rw [Bool.eq_false_iff.mpr redirected] at framed
  obtain ⟨fd, file, -, new, found⟩ := framed.leaked opened rfl
  exact absurd (s.files.old fd file (same.1 ▸ found)) (Nat.not_lt.mpr new)

/-- The shell after `hd > file` from its start. -/
def afterHd : ShellState :=
  { startShell.setMask .block with files := (startShell.files.close 1).install 1 }

theorem lowest_one : (startShell.files.close 1).Lowest 1 := by
  refine ⟨rfl, fun lower below => ?_⟩
  obtain rfl := Nat.lt_one_iff.mp below
  nofun

/-- `hd > file`: the shell goes on with the file as its standard output and with `SIGCHLD`
blocked. -/
theorem redirected_builtin_leaks :
    (kernel false).Reaches (runCmd (.redr (.exec (.hd 0)) .output), startShell) (.done, afterHd) ∧
      startShell.files.table 1 = some 1 ∧ afterHd.files.table 1 = some 3 ∧
      startShell.mask .sigchld = false ∧ afterHd.mask .sigchld = true := by
  have blocked : (kernel false).answers startShell (.sigprocmask .block) true (startShell.setMask .block) := ⟨rfl, rfl⟩
  have closed : (kernel false).answers (startShell.setMask .block) (.close 1) true
      { startShell.setMask .block with files := startShell.files.close 1 } := ⟨rfl, nofun, rfl⟩
  have opened : (kernel false).answers { startShell.setMask .block with files := startShell.files.close 1 } .open
      (some 1) afterHd := ⟨rfl, lowest_one, rfl⟩
  refine ⟨?_, rfl, rfl, rfl, rfl⟩
  exact .head (.answer blocked) (.head (.answer closed) (.single (.answer opened)))

/-- The shell in `hd file`, which has descriptor 3 open. -/
def inHd : ShellState := { startShell.setMask .block with files := startShell.files.install 3 }

theorem runCmd_frame_hd : ∃ s', (kernel false).Reaches (runCmd (.exec (.hd 1)), startShell) (.done, s') ∧
    s'.files.table = startShell.files.table ∧ s'.mask = startShell.mask := by
  have blocked : (kernel false).answers startShell (.sigprocmask .block) true (startShell.setMask .block) := ⟨rfl, rfl⟩
  have opened : (kernel false).answers (startShell.setMask .block) .open (some 3) inHd := ⟨rfl, ⟨rfl, by decide⟩, rfl⟩
  have read : (kernel false).answers inHd (.read 3) true inHd := ⟨rfl, rfl⟩
  have closed : (kernel false).answers inHd (.close 3) true { inHd with files := inHd.files.close 3 } :=
    ⟨rfl, Option.some_ne_none _, rfl⟩
  have unblocked : (kernel false).answers { inHd with files := inHd.files.close 3 } (.sigprocmask .unblock) true
      ({ inHd with files := inHd.files.close 3 }.setMask .unblock) := ⟨rfl, rfl⟩
  have ran : (kernel false).Reaches (runCmd (.exec (.hd 1)), startShell) (.done, _) :=
    .head (.answer blocked) (.head (.answer opened) (.head (.answer read) (.head (.answer closed)
      (.single (.answer unblocked)))))
  exact ⟨_, ran, (runCmd_frame (.exec (.hd 1)) rfl ran).1 rfl⟩

end Xv6Simplesh.Shell
