import Xv6Simplesh.Ftable.Descriptors
import Xv6Simplesh.Library.Counting
import Xv6Simplesh.Library.Loops

/-! # References to open files

The count of every `struct file` is the number of references that processes have to it,
in their descriptors or in a call in progress; and the inode or the end of the pipe
behind a file is in use as long as there is such a reference.
-/

namespace Xv6Simplesh.Ftable

open Library Function

/-! ## Who refers to what -/

namespace Phase

/-- The references that a call holds outside of the descriptors. -/
def held : Phase → Fin nfile → Nat
  | .openFile _ f, g => if f = g then 1 else 0
  | .pipeOne f, g => if f = g then 1 else 0
  | .pipeTwo f0 f1, g => (if f0 = g then 1 else 0) + if f1 = g then 1 else 0
  | .pipeMade f0 f1, g => (if f0 = g then 1 else 0) + if f1 = g then 1 else 0
  | .pipeSlot _ _ f1, g => if f1 = g then 1 else 0
  | .pipeFailed f0 f1, g => (if f0 = g then 1 else 0) + if f1 = g then 1 else 0
  | .pipeDrop f, g => if f = g then 1 else 0
  | _, _ => 0

/-- The descriptor whose file `dup2` or `exit` has already passed to `fileclose`. -/
def passed : Phase → Option (Fin nofile)
  | .dup2 _ fd2 _ => some fd2
  | .exitClose fd => some fd
  | _ => none

/-- The inode that `open` has and no file has yet. -/
def inode : Phase → Option Resource
  | .openInode ip => some (.inode ip)
  | .openFile ip _ => some (.inode ip)
  | .openSlot ip _ _ => some (.inode ip)
  | .openFailed ip => some (.inode ip)
  | _ => none

/-- The files that the call has got from `filealloc` and not given a type yet. -/
def fresh : Phase → List (Fin nfile)
  | .openFile _ f => [f]
  | .openSlot _ f _ => [f]
  | .pipeOne f0 => [f0]
  | .pipeTwo f0 f1 => [f0, f1]
  | _ => []

end Phase

variable {proc : Proc} {k' : Kernel}

namespace Proc

/-- The descriptors, without the one that has been passed to `fileclose`. -/
def counted (proc : Proc) (fd : Fin nofile) : Option (Fin nfile) :=
  if proc.phase.passed = some fd then none else proc.ofile fd

def claims (proc : Proc) (f : Fin nfile) : Nat := tally proc.counted f + proc.phase.held f

/-- What the process has to release, or to give to a file. -/
def owes (proc : Proc) (r : Resource) : Nat :=
  (if proc.closing = some r then 1 else 0) + if proc.phase.inode = some r then 1 else 0

theorem owes_congr {proc' : Proc} (closing : proc'.closing = proc.closing)
    (inode : proc'.phase.inode = proc.phase.inode) (r : Resource) : proc'.owes r = proc.owes r := by
  rw [owes, owes, closing, inode]

theorem claims_unpassed (unpassed : proc.phase.passed = none) (f : Fin nfile) :
    proc.claims f = tally proc.ofile f + proc.phase.held f := by
  have same : proc.counted = proc.ofile := funext fun fd => by
    rw [counted, unpassed, if_neg nofun]
  rw [claims, same]

theorem claims_passed {fd : Fin nofile} (passed : proc.phase.passed = some fd) (f : Fin nfile) :
    proc.claims f = tally (update proc.ofile fd none) f + proc.phase.held f := by
  have same : proc.counted = update proc.ofile fd none := funext fun other => by
    rw [counted, passed, update_apply]
    exact if_congr (Option.some_inj.trans eq_comm) rfl rfl
  rw [claims, same]

theorem claims_closing (proc : Proc) (phase : Phase) (closing : Option Resource) (f : Fin nfile) :
    { proc with phase, closing }.claims f = { proc with phase }.claims f := rfl

theorem claims_pos {fd : Fin nofile} {f : Fin nfile} (stored : proc.ofile fd = some f)
    (unpassed : proc.phase.passed ≠ some fd) : 0 < proc.claims f := by
  have counted : proc.counted fd = some f := (if_neg unpassed).trans stored
  have one := weight_le_sum proc.counted (fun entry => if entry = some f then 1 else 0) fd
  rw [counted, if_pos rfl] at one
  exact Nat.lt_of_lt_of_le Nat.zero_lt_one (Nat.le_trans one (Nat.le_add_right _ _))

/-! How claims change with the phase and with one descriptor. -/

section Changes

variable {proc : Proc} {phase : Phase} {fd : Fin nofile} {f : Fin nfile}

theorem claims_congr (proc proc' : Proc) (ofile : proc'.ofile = proc.ofile) (unpassed : proc.phase.passed = none)
    (unpassed' : proc'.phase.passed = none) (g : Fin nfile) :
    proc'.claims g + proc.phase.held g = proc.claims g + proc'.phase.held g := by
  rw [claims_unpassed unpassed, claims_unpassed unpassed', ofile, Nat.add_right_comm]

theorem claims_setPhase (unpassed : proc.phase.passed = none) (unpassed' : phase.passed = none) (g : Fin nfile) :
    { proc with phase }.claims g + proc.phase.held g = proc.claims g + phase.held g :=
  claims_congr proc { proc with phase } rfl unpassed unpassed' g

theorem claims_same {old new : Phase} (here : proc.phase = old) (unpassed : old.passed = none)
    (unpassed' : new.passed = none) (held : new.held = old.held) (g : Fin nfile) :
    { proc with phase := new }.claims g = proc.claims g := by
  subst here
  have claims := claims_setPhase unpassed unpassed' g
  rw [held] at claims
  exact Nat.add_right_cancel claims

theorem claims_store (unpassed : proc.phase.passed = none) (unpassed' : phase.passed = none)
    (free : proc.ofile fd = none) (g : Fin nfile) :
    { proc with phase, ofile := update proc.ofile fd (some f) }.claims g + proc.phase.held g =
      proc.claims g + (if f = g then 1 else 0) + phase.held g := by
  have stored := tally_update proc.ofile fd (some f) g
  rw [free, if_neg nofun] at stored
  simp only [Option.some_inj] at stored
  rw [claims_unpassed unpassed, claims_unpassed unpassed']
  dsimp only
  omega

theorem claims_clear (unpassed : proc.phase.passed = none) (unpassed' : phase.passed = none)
    (stored : proc.ofile fd = some f) (g : Fin nfile) :
    { proc with phase, ofile := update proc.ofile fd none }.claims g + (if f = g then 1 else 0) +
      proc.phase.held g = proc.claims g + phase.held g := by
  have cleared := tally_update proc.ofile fd none g
  rw [stored, if_neg (nofun : ¬ none = some g)] at cleared
  simp only [Option.some_inj] at cleared
  rw [claims_unpassed unpassed, claims_unpassed unpassed']
  dsimp only
  omega

theorem claims_pass (unpassed : proc.phase.passed = none) (passed : phase.passed = some fd)
    (stored : proc.ofile fd = some f) (g : Fin nfile) :
    { proc with phase }.claims g + (if f = g then 1 else 0) + proc.phase.held g = proc.claims g + phase.held g := by
  have cleared := tally_update proc.ofile fd none g
  rw [stored, if_neg (nofun : ¬ none = some g)] at cleared
  simp only [Option.some_inj] at cleared
  rw [claims_unpassed unpassed, claims_passed passed]
  dsimp only
  omega

theorem claims_replace (passed : proc.phase.passed = some fd) (unpassed : phase.passed = none)
    (entry : Option (Fin nfile)) (g : Fin nfile) :
    { proc with phase, ofile := update proc.ofile fd entry }.claims g + proc.phase.held g =
      proc.claims g + (if entry = some g then 1 else 0) + phase.held g := by
  have stored := tally_update (update proc.ofile fd none) fd entry g
  rw [update_self, if_neg (nofun : ¬ none = some g), update_idem] at stored
  rw [claims_passed passed, claims_unpassed unpassed]
  dsimp only
  omega

end Changes

end Proc

namespace Kernel

/-- Whether the resource is in use: the references to an inode, or the flag of a pipe. -/
def opened (k : Kernel) : Resource → Nat
  | .inode ip => k.inodes ip
  | .pipe page writable =>
    match k.pipes page with
    | none => 0
    | some pipe => (if writable then pipe.writeopen else pipe.readopen).toNat

end Kernel

/-! ## The ledger -/

/-- All counts are right. -/
structure Ledger (k : Kernel) : Prop where
  refs : ∀ f, (k.files f).ref = ∑ p, (k.procs p).claims f
  typed : ∀ f, (k.files f).ref = 0 → (k.files f).type = none
  fresh : ∀ p, ∀ f ∈ (k.procs p).phase.fresh,
    (k.files f).ref = 1 ∧ (k.files f).type = none ∧ 0 < (k.procs p).claims f
  resources : ∀ r, k.opened r = tally (fun f => (k.files f).type) r + ∑ p, (k.procs p).owes r

/-- `k'` is `k` except for process `p`. -/
structure Moved (k k' : Kernel) (p : Fin nproc) (proc : Proc) : Prop where
  files : k'.files = k.files
  inodes : k'.inodes = k.inodes
  pipes : k'.pipes = k.pipes
  procs : k'.procs = update k.procs p proc

namespace Moved

variable {k k' : Kernel} {p : Fin nproc} {proc : Proc}

theorem refl (k : Kernel) (p : Fin nproc) : Moved k k p (k.procs p) :=
  ⟨rfl, rfl, rfl, (update_eq_self ..).symm⟩

section

variable (moved : Moved k k' p proc)

include moved

theorem self : k'.procs p = proc := by
  rw [moved.procs, update_self]

theorem setProc (proc' : Proc) : Moved k { k' with procs := update k'.procs p proc' } p proc' :=
  ⟨moved.files, moved.inodes, moved.pipes, by rw [moved.procs, update_idem]⟩

theorem setPhase (phase : Phase) : Moved k (k'.setPhase p phase) p { proc with phase } := by
  obtain rfl := moved.self
  exact moved.setProc _

theorem setSlot (fd : Fin nofile) (f : Option (Fin nfile)) :
    Moved k (k'.setSlot p fd f) p { proc with ofile := update proc.ofile fd f } := by
  obtain rfl := moved.self
  exact moved.setProc _

theorem setClosing (closing : Option Resource) : Moved k (k'.setClosing p closing) p { proc with closing } := by
  obtain rfl := moved.self
  exact moved.setProc _

end

end Moved

section Ledger

variable {k k' : Kernel} {p : Fin nproc} {proc : Proc}

/-- One process changes, and files that no call of another process has just allocated. -/
theorem Ledger.change (ledger : Ledger k) (procs : k'.procs = update k.procs p proc)
    (refs : ∀ f, (k'.files f).ref + (k.procs p).claims f = (k.files f).ref + proc.claims f)
    (typed : ∀ f, (k'.files f).ref = 0 → (k'.files f).type = none)
    (touched : ∀ f, k'.files f ≠ k.files f → (k.files f).ref = 0 ∨
      ∃ q, 0 < (k.procs q).claims f ∧ (q = p ∨ f ∉ (k.procs q).phase.fresh))
    (fresh : ∀ f ∈ proc.phase.fresh, (k'.files f).ref = 1 ∧ (k'.files f).type = none ∧ 0 < proc.claims f)
    (resources : ∀ r, k'.opened r + tally (fun f => (k.files f).type) r + (k.procs p).owes r =
      k.opened r + tally (fun f => (k'.files f).type) r + proc.owes r) : Ledger k' where
  refs f := by
    have before := ledger.refs f
    have changed := sum_update_add k.procs (Proc.claims · f) p proc
    have step := refs f
    rw [procs]
    omega
  typed := typed
  fresh q f mem := by
    rw [procs] at mem ⊢
    by_cases same : q = p
    · rw [same, update_self] at mem ⊢
      exact fresh f mem
    · rw [update_of_ne same] at mem ⊢
      obtain ⟨one, untyped, claimed⟩ := ledger.fresh q f mem
      -- Another claim on the file would make its count at least two.
      have kept : k'.files f = k.files f := by
        by_contra changed
        rcases touched f changed with zero | ⟨r, claims, owner⟩
        · omega
        by_cases other : q = r
        · exact owner.elim (fun own => same (other.trans own)) fun absent => absent (other ▸ mem)
        · have both := weights_le_sum k.procs (Proc.claims · f) other
          have total := ledger.refs f
          omega
      rw [kept]
      exact ⟨one, untyped, claimed⟩
  resources r := by
    have before := ledger.resources r
    have changed := sum_update_add k.procs (Proc.owes · r) p proc
    have step := resources r
    rw [procs]
    omega

theorem Moved.opened (moved : Moved k k' p proc) : k'.opened = k.opened := funext fun r => by
  cases r with
  | inode ip => exact congrFun moved.inodes ip
  | pipe page writable => simp only [Kernel.opened, moved.pipes]

theorem Ledger.keep (ledger : Ledger k) (moved : Moved k k' p proc)
    (claims : ∀ f, proc.claims f = (k.procs p).claims f) (owes : ∀ r, proc.owes r = (k.procs p).owes r)
    (fresh : proc.phase.fresh ⊆ (k.procs p).phase.fresh) : Ledger k' := by
  refine ledger.change moved.procs (fun f => ?_) ?_ (fun f changed => ?_) (fun f mem => ?_) fun r => ?_
  · rw [moved.files, claims f]
  · rw [moved.files]
    exact ledger.typed
  · exact absurd (congrFun moved.files f) changed
  · rw [moved.files, claims f]
    exact ledger.fresh p f (fresh mem)
  · rw [moved.files, moved.opened, owes r]

theorem tally_types (files : Fin nfile → File) (f : Fin nfile) (file : File) (r : Resource) :
    tally (fun g => (update files f file g).type) r + (if (files f).type = some r then 1 else 0) =
      tally (fun g => (files g).type) r + if file.type = some r then 1 else 0 := by
  rw [← tally_update (fun g => (files g).type) f file.type]
  congr 2
  exact comp_update File.type files f file

theorem Ledger.changeFile {f : Fin nfile} {file : File} (ledger : Ledger k)
    (moved : Moved { k with files := update k.files f file } k' p proc)
    (refs : ∀ g, (update k.files f file g).ref + (k.procs p).claims g = (k.files g).ref + proc.claims g)
    (typed : file.ref = 0 → file.type = none)
    (touched : (k.files f).ref = 0 ∨ ∃ q, 0 < (k.procs q).claims f ∧ (q = p ∨ f ∉ (k.procs q).phase.fresh))
    (fresh : ∀ g ∈ proc.phase.fresh, (update k.files f file g).ref = 1 ∧
      (update k.files f file g).type = none ∧ 0 < proc.claims g)
    (resources : ∀ r, (if (k.files f).type = some r then 1 else 0) + (k.procs p).owes r =
      (if file.type = some r then 1 else 0) + proc.owes r) : Ledger k' := by
  have files : k'.files = update k.files f file := moved.files
  refine ledger.change moved.procs ?_ (fun g zero => ?_) (fun g changed => ?_) ?_ fun r => ?_
  · rw [files]
    exact refs
  · rw [files] at zero ⊢
    by_cases same : g = f
    · rw [same, update_self] at zero ⊢
      exact typed zero
    · rw [update_of_ne same] at zero ⊢
      exact ledger.typed g zero
  · rw [files] at changed
    have same : g = f := by
      by_contra ne
      exact changed (update_of_ne ne ..)
    exact same ▸ touched
  · rw [files]
    exact fresh
  · have types := tally_types k.files f file r
    have step := resources r
    have opened : k'.opened r = k.opened r := congrFun moved.opened r
    rw [files, opened]
    omega

theorem update_ref {files : Fin nfile → File} {f : Fin nfile} {file : File} {before after : Fin nfile → Nat}
    (others : ∀ g, g ≠ f → before g = after g) (count : file.ref + before f = (files f).ref + after f) (g : Fin nfile) :
    (update files f file g).ref + before g = (files g).ref + after g := by
  by_cases same : g = f
  · rw [same, update_self, count]
  · rw [update_of_ne same, others g same]

section

variable {f : Fin nfile} {k₁ : Kernel}

theorem filealloc_some (found : k.filealloc = some (f, k₁)) :
    (k.files f).ref = 0 ∧ k₁ = { k with files := update k.files f ⟨1, (k.files f).type⟩ } := by
  obtain ⟨file, scanned, same⟩ := Option.map_eq_some_iff.mp found
  cases same
  have zero := List.find?_some scanned
  exact ⟨of_decide_eq_true zero, rfl⟩

theorem Ledger.alloc (ledger : Ledger k) (found : k.filealloc = some (f, k₁)) (moved : Moved k₁ k' p proc)
    (claims : ∀ g, proc.claims g = (k.procs p).claims g + if f = g then 1 else 0)
    (owes : ∀ r, proc.owes r = (k.procs p).owes r)
    (fresh : ∀ g ∈ proc.phase.fresh, g = f ∨ g ∈ (k.procs p).phase.fresh) : Ledger k' := by
  obtain ⟨zero, rfl⟩ := filealloc_some found
  refine ledger.changeFile moved (fun g => ?_) nofun (.inl zero) (fun g mem => ?_) fun r => by rw [owes r]
  · refine update_ref (fun g ne => ?_) ?_ g
    · rw [claims g, if_neg (Ne.symm ne), Nat.add_zero]
    · rw [claims f, if_pos rfl, zero, Nat.zero_add, Nat.add_comm]
  · by_cases same : g = f
    · rw [same, update_self, claims f, if_pos rfl]
      exact ⟨rfl, ledger.typed f zero, Nat.succ_pos _⟩
    · rw [update_of_ne same, claims g]
      have ⟨one, untyped, claimed⟩ := ledger.fresh p g ((fresh g mem).resolve_left same)
      exact ⟨one, untyped, Nat.add_pos_left claimed _⟩

theorem Ledger.dup (ledger : Ledger k) (moved : Moved k k₁ p proc)
    (claims : ∀ g, proc.claims g = (k.procs p).claims g + if f = g then 1 else 0)
    (owes : ∀ r, proc.owes r = (k.procs p).owes r) (fresh : proc.phase.fresh = [])
    (holder : ∃ q, 0 < (k.procs q).claims f ∧ (q = p ∨ f ∉ (k.procs q).phase.fresh)) :
    ∃ k', k₁.filedup f = .ok k' ∧ Ledger k' ∧ k'.procs = k₁.procs := by
  have pos : 0 < (k.files f).ref := by
    obtain ⟨q, claimed, -⟩ := holder
    rw [ledger.refs f]
    exact Nat.lt_of_lt_of_le claimed (weight_le_sum k.procs (Proc.claims · f) q)
  have enough : ¬ (k₁.files f).ref < 1 := by
    rw [moved.files]
    omega
  refine ⟨_, if_neg enough, ?_, rfl⟩
  rw [moved.files]
  refine ledger.changeFile (f := f) ⟨rfl, moved.inodes, moved.pipes, moved.procs⟩ (fun g => ?_) (fun zero => ?_)
    (.inr holder) (fun g mem => ?_) fun r => by rw [owes r]
  · refine update_ref (fun g ne => ?_) ?_ g
    · rw [claims g, if_neg (Ne.symm ne), Nat.add_zero]
    · rw [claims f, if_pos rfl]
      exact (Nat.add_assoc ..).trans (congrArg _ (Nat.add_comm ..))
  · exact absurd zero (Nat.succ_ne_zero _)
  · rw [fresh] at mem
    cases mem

theorem Ledger.close {phase : Phase} (ledger : Ledger k) (moved : Moved k k₁ p proc)
    (claims : ∀ g, (k.procs p).claims g = { proc with phase }.claims g + if f = g then 1 else 0)
    (unclosed : (k.procs p).closing = none) (inode : phase.inode = (k.procs p).phase.inode) (fresh : phase.fresh = []) :
    ∃ k' r, k₁.close p f phase = .ok k' ∧ Ledger k' ∧
      k'.procs = update k.procs p { proc with phase, closing := r } := by
  have claimed : 0 < (k.procs p).claims f := by
    rw [claims f, if_pos rfl]
    exact Nat.succ_pos _
  have pos : 0 < (k.files f).ref := by
    rw [ledger.refs f]
    exact Nat.lt_of_lt_of_le claimed (weight_le_sum k.procs (Proc.claims · f) p)
  -- Both outcomes take one from the count; the last one also hands the resource over.
  have outcome : ∃ r file, k₁.fileclose f = .ok (r, { k₁ with files := update k.files f file }) ∧
      file.ref + 1 = (k.files f).ref ∧ (file.ref = 0 → file.type = none) ∧
      ∀ resource, (if (k.files f).type = some resource then 1 else 0) =
        (if file.type = some resource then 1 else 0) + if r = some resource then 1 else 0 := by
    rw [Kernel.fileclose, moved.files, if_neg (by omega)]
    split
    · next more => exact ⟨none, _, rfl, by dsimp only; omega, fun zero => by dsimp only at zero; omega, fun _ => rfl⟩
    · next last => exact ⟨_, _, rfl, by dsimp only; omega, fun _ => rfl, fun _ => (Nat.zero_add _).symm⟩
  obtain ⟨r, file, ran, count, typed, types⟩ := outcome
  have moved : Moved { k with files := update k.files f file }
      { k₁ with files := update k.files f file } p proc := ⟨rfl, moved.inodes, moved.pipes, moved.procs⟩
  have closed : Moved _ _ p { proc with phase, closing := r } := (moved.setPhase phase).setClosing r
  refine ⟨_, r, by rw [Kernel.close, ran]; rfl, ?_, closed.procs⟩
  refine ledger.changeFile closed (update_ref (fun g ne => ?_) ?_) typed (.inr ⟨p, claimed, .inl rfl⟩)
    (fun g mem => ?_) fun resource => ?_
  · rw [claims g, if_neg (Ne.symm ne), Nat.add_zero, Proc.claims_closing proc phase r]
  · rw [claims f, if_pos rfl, ← count, Proc.claims_closing proc phase r]
    omega
  · rw [show (Proc.mk proc.pid phase proc.ofile r).phase.fresh = [] from fresh] at mem
    cases mem
  · simp only [Proc.owes, unclosed, inode, types resource, reduceCtorEq, if_false]
    omega

end

end Ledger

/-! ## Phases and descriptors -/

/-- What the phase says about the descriptors. -/
def Proc.Fits (proc : Proc) : Prop :=
  match proc.phase with
  | .unused => ∀ fd, proc.ofile fd = none
  | .zombie => ∀ fd, proc.ofile fd = none
  | .openSlot _ f fd => proc.ofile fd = some f
  | .pipeSlot fd0 f0 _ => proc.ofile fd0 = some f0
  | .dup2 fd fd2 f1 => fd ≠ fd2 ∧ proc.ofile fd = some f1
  | .exiting i => ∀ fd : Fin nofile, fd < i → proc.ofile fd = none
  | .exitClose i => ∀ fd : Fin nofile, fd < i → proc.ofile fd = none
  | _ => True

structure Shape (k : Kernel) : Prop where
  fits : ∀ p, (k.procs p).Fits
  /-- The child that `fork` is filling belongs to this call alone. -/
  child : ∀ p child i, (k.procs p).phase = .forking child i →
    (k.procs child).phase = .embryo p ∧ ∀ fd : Fin nofile, i ≤ fd → (k.procs child).ofile fd = none

section Shape

variable {k k' : Kernel} {p : Fin nproc} {proc : Proc}

/-- One process changes; if a call of `fork` is filling it, it goes on to fit this call, and
if it is in `fork` itself, its child does. -/
theorem Shape.set (shape : Shape k) (procs : k'.procs = update k.procs p proc) (fits : proc.Fits)
    (parents : ∀ q i, (k.procs q).phase = .forking p i →
      proc.phase = .embryo q ∧ ∀ fd : Fin nofile, i ≤ fd → proc.ofile fd = none)
    (children : ∀ child i, proc.phase = .forking child i → child ≠ p ∧ (k.procs child).phase = .embryo p ∧
      ∀ fd : Fin nofile, i ≤ fd → (k.procs child).ofile fd = none) : Shape k' where
  fits q := by
    rw [procs, update_apply]
    split
    · exact fits
    · exact shape.fits q
  child q child i forking := by
    rw [procs, update_apply] at forking
    split at forking
    · next own =>
      obtain ⟨other, linked⟩ := children child i forking
      rw [procs, update_of_ne other, own]
      exact linked
    · rw [procs, update_apply]
      split
      · next same => exact parents q i (same ▸ forking)
      · exact shape.child q child i forking

theorem Shape.change (shape : Shape k) (procs : k'.procs = update k.procs p proc) (fits : proc.Fits)
    (grown : ∀ parent, (k.procs p).phase ≠ .embryo parent) (single : ∀ child i, proc.phase ≠ .forking child i) :
    Shape k' :=
  shape.set procs fits (fun q i forking => absurd (shape.child q p i forking).1 (grown q))
    fun child i forking => absurd forking (single child i)

end Shape

/-! ## Steps -/

structure Inv (k : Kernel) : Prop where
  ledger : Ledger k
  shape : Shape k

/-- The outcome of a step is a state in which all is right again. -/
def Kept (res : Except Panic Kernel) : Prop := ∃ k, res = .ok k ∧ Inv k

/-- A step of a call inside or at the ends of it, neither in `fork` nor with a descriptor
that has been passed on. -/
structure Phase.Joins (old new : Phase) : Prop where
  unpassed : old.passed = none
  unpassed' : new.passed = none
  inode : new.inode = old.inode
  grown : ∀ parent, old ≠ .embryo parent
  single : ∀ child i, new ≠ .forking child i

section Steps

variable {k k₁ : Kernel} {p : Fin nproc} {old new : Phase} {fd : Fin nofile} {f : Fin nfile}

/-! ### Steps that keep the files -/

theorem kept_setPhase (inv : Inv k) (here : (k.procs p).phase = old) (joins : old.Joins new)
    (held : new.held = old.held) (fresh : new.fresh ⊆ old.fresh) (fits : { k.procs p with phase := new }.Fits) :
    Kept (.ok (k.setPhase p new)) := by
  have claims := Proc.claims_same here joins.unpassed joins.unpassed' held
  subst here
  have moved := (Moved.refl k p).setPhase new
  exact ⟨_, rfl, inv.ledger.keep moved claims (Proc.owes_congr rfl joins.inode) fresh,
    inv.shape.change moved.procs fits joins.grown joins.single⟩

variable {eax val : Int} {r : Resource}

/-- A call that fails at its start, or that has nothing to do. -/
theorem kept_ret (inv : Inv k) (user : (k.procs p).phase = .user eax) (val : Int) : Kept (.ok (k.ret p val)) :=
  kept_setPhase inv user ⟨rfl, rfl, rfl, nofun, nofun⟩ rfl (List.nil_subset _) trivial

theorem kept_store (inv : Inv k) (here : (k.procs p).phase = old) (joins : old.Joins new)
    (free : (k.procs p).ofile fd = none) (held : ∀ g, old.held g = new.held g + if f = g then 1 else 0)
    (fresh : new.fresh ⊆ old.fresh)
    (fits : { k.procs p with phase := new, ofile := update (k.procs p).ofile fd (some f) }.Fits) :
    Kept (.ok ((k.setSlot p fd (some f)).setPhase p new)) := by
  subst here
  have moved := ((Moved.refl k p).setSlot fd (some f)).setPhase new
  refine ⟨_, rfl, inv.ledger.keep moved (fun g => ?_) (Proc.owes_congr rfl joins.inode) fresh,
    inv.shape.change moved.procs fits joins.grown joins.single⟩
  have claims := Proc.claims_store (f := f) joins.unpassed joins.unpassed' free g
  have moves := held g
  dsimp only at claims ⊢
  omega

theorem kept_clear (inv : Inv k) (here : (k.procs p).phase = old) (joins : old.Joins new)
    (stored : (k.procs p).ofile fd = some f) (held : ∀ g, new.held g = old.held g + if f = g then 1 else 0)
    (fresh : new.fresh ⊆ old.fresh)
    (fits : { k.procs p with phase := new, ofile := update (k.procs p).ofile fd none }.Fits) :
    Kept (.ok ((k.setSlot p fd none).setPhase p new)) := by
  subst here
  have moved := ((Moved.refl k p).setSlot fd none).setPhase new
  refine ⟨_, rfl, inv.ledger.keep moved (fun g => ?_) (Proc.owes_congr rfl joins.inode) fresh,
    inv.shape.change moved.procs fits joins.grown joins.single⟩
  have claims := Proc.claims_clear joins.unpassed joins.unpassed' stored g
  have moves := held g
  dsimp only at claims ⊢
  omega

/-! ### Steps with a section under the lock -/

theorem kept_alloc (inv : Inv k) (here : (k.procs p).phase = old) (joins : old.Joins new)
    (found : k.filealloc = some (f, k₁)) (held : ∀ g, new.held g = old.held g + if f = g then 1 else 0)
    (fresh : ∀ g ∈ new.fresh, g = f ∨ g ∈ old.fresh) (fits : { k.procs p with phase := new }.Fits) :
    Kept (.ok (k₁.setPhase p new)) := by
  subst here
  have same : k₁.procs = k.procs := by
    obtain ⟨-, rfl⟩ := filealloc_some found
    rfl
  have moved : Moved k₁ _ p { k.procs p with phase := new } := same ▸ (Moved.refl k₁ p).setPhase new
  refine ⟨_, rfl, inv.ledger.alloc found moved (fun g => ?_) (Proc.owes_congr rfl joins.inode) fresh, ?_⟩
  · have claims := Proc.claims_setPhase joins.unpassed joins.unpassed' g
    have moves := held g
    dsimp only at claims ⊢
    omega
  · exact inv.shape.change (same ▸ moved.procs) fits joins.grown joins.single

theorem kept_dup (inv : Inv k)
    (claims : ∀ g, { k.procs p with phase := .user val, ofile := update (k.procs p).ofile fd (some f) }.claims g =
      (k.procs p).claims g + if f = g then 1 else 0)
    (inode : (k.procs p).phase.inode = none) (grown : ∀ parent, (k.procs p).phase ≠ .embryo parent)
    (claimed : 0 < (k.procs p).claims f) : Kept (((k.setSlot p fd (some f)).ret p val).filedup f) := by
  have moved := ((Moved.refl k p).setSlot fd (some f)).setPhase (.user val)
  obtain ⟨k', ran, ledger, procs⟩ :=
    inv.ledger.dup moved claims (Proc.owes_congr rfl inode.symm) rfl ⟨p, claimed, .inl rfl⟩
  exact ⟨k', ran, ledger, inv.shape.change (procs.trans moved.procs) trivial grown nofun⟩

/-- `fileclose(f)`, where the process loses one reference to `f`. -/
theorem kept_close (inv : Inv k) (here : (k.procs p).phase = old)
    (unclosed : (k.procs p).closing = none) (moved : Moved k k₁ p proc)
    (claims : ∀ g, { proc with phase := new }.claims g + (if f = g then 1 else 0) = (k.procs p).claims g)
    (inode : new.inode = old.inode) (grown : ∀ parent, old ≠ .embryo parent)
    (single : ∀ child i, new ≠ .forking child i) (fresh : new.fresh = []) (fits : { proc with phase := new }.Fits) :
    Kept (k₁.close p f new) := by
  subst here
  obtain ⟨k', r, ran, ledger, procs⟩ := inv.ledger.close moved (fun g => (claims g).symm) unclosed inode fresh
  exact ⟨k', ran, ledger, inv.shape.change procs fits grown single⟩

theorem kept_close_held (inv : Inv k) (here : (k.procs p).phase = old) (unclosed : (k.procs p).closing = none)
    (joins : old.Joins new) (held : ∀ g, old.held g = new.held g + if f = g then 1 else 0) (fresh : new.fresh = [])
    (fits : { k.procs p with phase := new }.Fits) : Kept (k.close p f new) := by
  refine kept_close inv here unclosed (Moved.refl k p) (fun g => ?_) joins.inode joins.grown joins.single fresh fits
  subst here
  have claims := Proc.claims_setPhase joins.unpassed joins.unpassed' g
  have moves := held g
  omega

/-- The reference that is closed is the one of a descriptor that is overwritten later. -/
theorem kept_close_passed (inv : Inv k) (here : (k.procs p).phase = old) (unclosed : (k.procs p).closing = none)
    (unpassed : old.passed = none) (passed : new.passed = some fd) (stored : (k.procs p).ofile fd = some f)
    (held : new.held = old.held) (inode : new.inode = old.inode) (grown : ∀ parent, old ≠ .embryo parent)
    (single : ∀ child i, new ≠ .forking child i) (fresh : new.fresh = []) (fits : { k.procs p with phase := new }.Fits) :
    Kept (k.close p f new) := by
  refine kept_close inv here unclosed (Moved.refl k p) (fun g => ?_) inode grown single fresh fits
  subst here
  have claims := Proc.claims_pass unpassed passed stored g
  rw [held] at claims
  exact Nat.add_right_cancel claims

/-! ### `dup`, `close` and `dup2` -/

theorem fdalloc_some {ofile : Fin nofile → Option (Fin nfile)} (found : Kernel.fdalloc ofile = some fd) :
    ofile fd = none := of_decide_eq_true (List.find?_some found :)

theorem argfd_some {ofile : Fin nofile → Option (Fin nfile)} {n : Option Int}
    (found : Kernel.argfd ofile n = some (fd, f)) : ofile fd = some f := by
  obtain ⟨val, -, found⟩ := Option.bind_eq_some_iff.mp found
  split at found
  · cases found
  · obtain ⟨file, stored, same⟩ := Option.map_eq_some_iff.mp found
    cases same
    exact stored

section User

variable {eax : Int}

theorem claims_dup (user : proc.phase = .user eax) (free : proc.ofile fd = none) (g : Fin nfile) :
    { proc with phase := .user val, ofile := update proc.ofile fd (some f) }.claims g =
      proc.claims g + if f = g then 1 else 0 := by
  have claims := Proc.claims_store (f := f) (by rw [user]; rfl) (rfl : (Phase.user val).passed = none) free g
  simp only [user, Phase.held, Nat.add_zero] at claims
  exact claims

section

variable (inv : Inv k) (user : (k.procs p).phase = .user eax)

include inv user

theorem kept_sysDup (n : Option Int) : Kept (k.sysDup p n) := by
  rw [Kernel.sysDup]
  split
  · exact kept_ret inv user (-1)
  · next fd f found =>
    split
    · exact kept_ret inv user (-1)
    · next fd' free =>
      exact kept_dup inv (claims_dup user (fdalloc_some free)) (by rw [user]; rfl) (by rw [user]; nofun)
        (Proc.claims_pos (argfd_some found) (by rw [user]; nofun))

theorem kept_sysClose (unclosed : (k.procs p).closing = none) (n : Option Int) : Kept (k.sysClose p n) := by
  rw [Kernel.sysClose]
  split
  · exact kept_ret inv user (-1)
  · next fd f found =>
    refine kept_close inv user unclosed ((Moved.refl k p).setSlot fd none) (fun g => ?_) rfl nofun nofun rfl trivial
    have claims := Proc.claims_clear (by rw [user]; rfl) (rfl : (Phase.user 0).passed = none) (argfd_some found) g
    simp only [user, Phase.held, Nat.add_zero] at claims
    exact claims

theorem kept_sysDup2 (unclosed : (k.procs p).closing = none) (n n2 : Option Int) : Kept (k.sysDup2 p n n2) := by
  rw [Kernel.sysDup2]
  split
  · exact kept_ret inv user (-1)
  next fd f1 found =>
  split
  · exact kept_ret inv user (-1)
  next fd2 =>
  split
  · exact kept_ret inv user (-1)
  dsimp only
  split
  · exact kept_ret inv user _
  next ne =>
  split
  · next f2 stored =>
    exact kept_close_passed inv user unclosed rfl rfl stored rfl rfl nofun nofun rfl ⟨ne, argfd_some found⟩
  · next free =>
    exact kept_dup inv (claims_dup user free) (by rw [user]; rfl) (by rw [user]; nofun)
      (Proc.claims_pos (argfd_some found) (by rw [user]; nofun))

end

end User

/-! ### Resources -/

/-- The process changes with the resources; the files stay. -/
theorem Ledger.exchange (ledger : Ledger k) (files : k'.files = k.files)
    (procs : k'.procs = update k.procs p proc) (claims : ∀ g, proc.claims g = (k.procs p).claims g)
    (fresh : proc.phase.fresh ⊆ (k.procs p).phase.fresh)
    (resources : ∀ r, k'.opened r + (k.procs p).owes r = k.opened r + proc.owes r) : Ledger k' := by
  refine ledger.change procs (fun g => ?_) ?_ (fun g changed => ?_) (fun g mem => ?_) fun r => ?_
  · rw [files, claims g]
  · rw [files]
    exact ledger.typed
  · exact absurd (congrFun files g) changed
  · rw [files, claims g]
    exact ledger.fresh p g (fresh mem)
  · have step := resources r
    rw [files]
    omega

theorem Shape.congr (shape : Shape k) (phase : ∀ q, (k'.procs q).phase = (k.procs q).phase)
    (ofile : ∀ q, (k'.procs q).ofile = (k.procs q).ofile) : Shape k' where
  fits q := by
    have fits := shape.fits q
    rwa [Proc.Fits, ← phase q, ← ofile q] at fits
  child q child i forking := by
    rw [phase, ofile]
    exact shape.child q child i ((phase q).symm.trans forking)

theorem opened_pos (inv : Inv k) (owes : 0 < (k.procs p).owes r) : 0 < k.opened r := by
  rw [inv.ledger.resources r]
  exact Nat.add_pos_right _ (Nat.lt_of_lt_of_le owes (weight_le_sum k.procs (Proc.owes · r) p))

theorem opened_pipeclose {page : Nat} {writable : Bool} (used : 0 < k.opened (.pipe page writable))
    (writable' : Bool) : (k.release (.pipe page writable)).opened (.pipe page writable') +
      (if Resource.pipe page writable = .pipe page writable' then 1 else 0) = k.opened (.pipe page writable') := by
  cases flags : k.pipes page with
  | none =>
    rw [Kernel.opened, flags] at used
    cases used
  | some pipe =>
    obtain ⟨readopen, writeopen⟩ := pipe
    simp only [Kernel.opened, flags] at used
    simp only [Kernel.release, Kernel.opened, flags, update_self, Option.bind_some, Resource.pipe.injEq,
      true_and]
    revert used
    cases writable <;> cases writable' <;> cases readopen <;> cases writeopen <;> decide

theorem opened_release (used : 0 < k.opened r) (r' : Resource) :
    (k.release r).opened r' + (if r = r' then 1 else 0) = k.opened r' := by
  cases r with
  | inode ip =>
    cases r' with
    | inode other =>
      by_cases same : ip = other
      · subst same
        rw [if_pos rfl]
        exact (congrArg (· + 1) (update_self ..)).trans (Nat.sub_add_cancel used)
      · rw [if_neg fun equal => same (Resource.inode.inj equal)]
        exact update_of_ne (Ne.symm same) ..
    | pipe page writable => rw [if_neg nofun]; rfl
  | pipe page writable =>
    cases r' with
    | inode ip => rw [if_neg nofun]; rfl
    | pipe other writable' =>
      by_cases same : page = other
      · subst same
        exact opened_pipeclose used writable'
      · rw [if_neg fun equal => same (Resource.pipe.inj equal).1]
        simp only [Kernel.release, Kernel.opened, update_of_ne (Ne.symm same), Nat.add_zero]

theorem release_procs (r : Resource) : (k.release r).procs = k.procs := by
  cases r with
  | _ => rfl

theorem kept_release (inv : Inv k) (closing : (k.procs p).closing = some r) :
    Kept (.ok ((k.release r).setClosing p none)) := by
  have used : 0 < k.opened r := opened_pos (p := p) inv (by rw [Proc.owes, closing, if_pos rfl]; omega)
  have files : (k.release r).files = k.files := by
    cases r with
    | _ => rfl
  have changed : ((k.release r).setClosing p none).procs = update k.procs p { k.procs p with closing := none } := by
    rw [Kernel.setClosing, release_procs]
  refine ⟨_, rfl, inv.ledger.exchange files changed (fun g => rfl) (List.Subset.refl _) fun r' => ?_,
    inv.shape.congr (fun q => ?_) fun q => ?_⟩
  · have released : (k.release r).opened r' + (if r = r' then 1 else 0) = k.opened r' := opened_release used r'
    have same : ((k.release r).setClosing p none).opened r' = (k.release r).opened r' := rfl
    simp only [Proc.owes, closing, Option.some_inj, same, reduceCtorEq, if_false]
    omega
  · rw [changed, update_apply]
    split
    · next same => rw [same]
    · rfl
  · rw [changed, update_apply]
    split
    · next same => rw [same]
    · rfl

theorem kept_openFailed {ip : Nat} (inv : Inv k) (here : (k.procs p).phase = .openFailed ip) :
    Kept (.ok ((k.release (.inode ip)).ret p (-1))) := by
  have used : 0 < k.opened (.inode ip) :=
    opened_pos (p := p) inv (by rw [Proc.owes, here, Phase.inode, if_pos (rfl : some _ = _)]; omega)
  have procs : ((k.release (.inode ip)).ret p (-1)).procs =
      update k.procs p { k.procs p with phase := .user (-1) } := rfl
  refine ⟨_, rfl, inv.ledger.exchange rfl procs (Proc.claims_same here rfl rfl rfl) (List.nil_subset _) fun r => ?_,
    inv.shape.change procs trivial (by rw [here]; nofun) nofun⟩
  have released := opened_release used r
  have same : ((k.release (.inode ip)).ret p (-1)).opened r = (k.release (.inode ip)).opened r := rfl
  simp only [Proc.owes, here, Phase.inode, Option.some_inj, same, reduceCtorEq, if_false]
  omega

theorem kept_openInode (inv : Inv k) (here : (k.procs p).phase = .user eax) (ip : Nat) :
    Kept (.ok ({ k with inodes := update k.inodes ip (k.inodes ip + 1) }.setPhase p (.openInode ip))) := by
  have procs : ({ k with inodes := update k.inodes ip (k.inodes ip + 1) }.setPhase p (.openInode ip)).procs =
      update k.procs p { k.procs p with phase := .openInode ip } := rfl
  refine ⟨_, rfl, inv.ledger.exchange rfl procs (Proc.claims_same here rfl rfl rfl) (List.nil_subset _) fun r => ?_,
    inv.shape.change procs trivial (by rw [here]; nofun) nofun⟩
  have opened : ({ k with inodes := update k.inodes ip (k.inodes ip + 1) }.setPhase p (.openInode ip)).opened r =
      k.opened r + if Resource.inode ip = r then 1 else 0 := by
    cases r with
    | inode other =>
      by_cases same : ip = other
      · rw [same, if_pos rfl]
        exact update_self ..
      · rw [if_neg fun equal => same (Resource.inode.inj equal)]
        exact update_of_ne (Ne.symm same) ..
    | pipe page writable => rw [if_neg nofun, Nat.add_zero]; rfl
  simp only [Proc.owes, here, Phase.inode, Option.some_inj, opened, reduceCtorEq, if_false]
  omega

theorem kept_openSlot {ip : Nat} (inv : Inv k) (here : (k.procs p).phase = .openSlot ip f fd) :
    Kept (.ok ((k.setType f (.inode ip)).ret p fd)) := by
  obtain ⟨one, untyped, claimed⟩ := inv.ledger.fresh p f (by rw [here]; exact List.mem_singleton_self f)
  have moved : Moved { k with files := update k.files f { k.files f with type := some (.inode ip) } }
      ((k.setType f (.inode ip)).ret p fd) p { k.procs p with phase := .user fd } :=
    (Moved.refl (k.setType f (.inode ip)) p).setPhase (.user fd)
  have claims : ∀ g, { k.procs p with phase := .user fd }.claims g = (k.procs p).claims g :=
    Proc.claims_same here rfl rfl rfl
  refine ⟨_, rfl, inv.ledger.changeFile moved (update_ref (fun g _ => (claims g).symm) ?_) (fun zero => ?_)
    (.inr ⟨p, claimed, .inl rfl⟩) nofun fun r => ?_, inv.shape.change moved.procs trivial (by rw [here]; nofun) nofun⟩
  · rw [claims f]
  · exact absurd (one.symm.trans zero) Nat.one_ne_zero
  · simp only [Proc.owes, here, untyped, Phase.inode, reduceCtorEq, if_false]
    omega

/-- `pipealloc` gives its files the ends of the new pipe. -/
theorem kept_pipeTwo {f0 f1 : Fin nfile} {page : Nat} (inv : Inv k) (here : (k.procs p).phase = .pipeTwo f0 f1)
    (unused : k.pipes page = none) :
    Kept (.ok ((({ k with pipes := update k.pipes page (some ⟨true, true⟩) }.setType f0
      (.pipe page false)).setType f1 (.pipe page true)).setPhase p (.pipeMade f0 f1))) := by
  obtain ⟨one0, untyped0, claimed0⟩ := inv.ledger.fresh p f0 (by rw [here]; exact .head _)
  obtain ⟨one1, untyped1, claimed1⟩ := inv.ledger.fresh p f1 (by rw [here]; exact .tail _ (.head _))
  -- A file that is both would be claimed twice.
  have ne : f1 ≠ f0 := by
    rintro rfl
    have twice : (k.procs p).phase.held f1 = 2 := by simp [here, Phase.held]
    have all := inv.ledger.refs f1
    have part := weight_le_sum k.procs (Proc.claims · f1) p
    have claims : (k.procs p).phase.held f1 ≤ (k.procs p).claims f1 := Nat.le_add_left _ _
    omega
  generalize after : ((({ k with pipes := update k.pipes page (some ⟨true, true⟩) }.setType f0
    (.pipe page false)).setType f1 (.pipe page true)).setPhase p (.pipeMade f0 f1)) = k'
  have procs : k'.procs = update k.procs p { k.procs p with phase := .pipeMade f0 f1 } := after ▸ rfl
  have files : k'.files = update (update k.files f0 ⟨1, some (.pipe page false)⟩) f1
      ⟨1, some (.pipe page true)⟩ := by
    subst after
    simp only [Kernel.setPhase, Kernel.setType, update_of_ne ne, one0, one1]
  have others (g : Fin nfile) (not0 : g ≠ f0) (not1 : g ≠ f1) : k'.files g = k.files g := by
    rw [files, update_of_ne not1, update_of_ne not0]
  have file0 : k'.files f0 = ⟨1, some (.pipe page false)⟩ := by
    rw [files, update_of_ne ne.symm, update_self]
  have file1 : k'.files f1 = ⟨1, some (.pipe page true)⟩ := by
    rw [files, update_self]
  have sameRef (g : Fin nfile) : (k'.files g).ref = (k.files g).ref := by
    by_cases is1 : g = f1
    · rw [is1, file1, one1]
    by_cases is0 : g = f0
    · rw [is0, file0, one0]
    rw [others g is0 is1]
  have opened (r : Resource) : k'.opened r =
      k.opened r + (if Resource.pipe page false = r then 1 else 0) + if Resource.pipe page true = r then 1 else 0 := by
    have pipes : k'.pipes = update k.pipes page (some ⟨true, true⟩) := after ▸ rfl
    have inodes : k'.inodes = k.inodes := after ▸ rfl
    cases r with
    | inode ip => simp only [Kernel.opened, inodes, reduceCtorEq, if_false, Nat.add_zero]
    | pipe other writable =>
      by_cases same : page = other
      · subst same
        cases writable <;> simp [Kernel.opened, pipes, unused]
      · simp [Kernel.opened, pipes, same, update_of_ne (Ne.symm same)]
  have claims : ∀ g, { k.procs p with phase := .pipeMade f0 f1 }.claims g = (k.procs p).claims g :=
    Proc.claims_same here rfl rfl rfl
  refine ⟨k', rfl, inv.ledger.change procs (fun g => ?_) (fun g zero => ?_) (fun g changed => ?_) nofun fun r => ?_,
    inv.shape.change procs trivial (by rw [here]; nofun) nofun⟩
  · rw [sameRef g, claims g]
  · rw [sameRef g] at zero
    rw [others g (fun is0 => ?_) fun is1 => ?_]
    · exact inv.ledger.typed g zero
    · exact absurd (one0.symm.trans (is0 ▸ zero)) Nat.one_ne_zero
    · exact absurd (one1.symm.trans (is1 ▸ zero)) Nat.one_ne_zero
  · by_cases is1 : g = f1
    · exact .inr ⟨p, is1 ▸ claimed1, .inl rfl⟩
    by_cases is0 : g = f0
    · exact .inr ⟨p, is0 ▸ claimed0, .inl rfl⟩
    exact absurd (others g is0 is1) changed
  · have first := tally_types k.files f0 ⟨1, some (.pipe page false)⟩ r
    have snd := tally_types (update k.files f0 ⟨1, some (.pipe page false)⟩) f1
      ⟨1, some (.pipe page true)⟩ r
    simp only [update_of_ne ne, untyped0, untyped1, Option.some_inj, reduceCtorEq, if_false] at first snd
    have now := opened r
    rw [files]
    simp only [Proc.owes, here, Phase.inode, reduceCtorEq, if_false]
    omega

/-! ### `fork` and `wait` -/

/-- The slot of a process that is not in use goes to `fork`. -/
theorem kept_fork {child : Fin nproc} (inv : Inv k) (here : (k.procs p).phase = .user eax)
    (unused : (k.procs child).phase = .unused) : Kept (.ok ((k.spawn p child).setPhase p (.forking child 0))) := by
  have ne : child ≠ p := by
    rintro rfl
    rw [unused] at here
    cases here
  have spawned : Moved k (k.spawn p child) child { k.procs child with pid := k.nextpid, phase := .embryo p } :=
    ⟨rfl, rfl, rfl, rfl⟩
  have ledger : Ledger (k.spawn p child) := by
    refine inv.ledger.keep spawned (fun g => ?_) (Proc.owes_congr rfl (by rw [unused]; rfl)) (List.nil_subset _)
    have claims := Proc.claims_congr (k.procs child) { k.procs child with pid := k.nextpid, phase := .embryo p } rfl
      (by rw [unused]; rfl) rfl g
    simp only [unused, Phase.held, Nat.add_zero] at claims
    exact claims
  have shape : Shape (k.spawn p child) := inv.shape.change spawned.procs trivial (by rw [unused]; nofun) nofun
  have same : ((k.spawn p child).procs p).phase = .user eax := by
    rw [spawned.procs, update_of_ne ne.symm, here]
  have moved := (Moved.refl (k.spawn p child) p).setPhase (.forking child 0)
  refine ⟨_, rfl, ledger.keep moved (Proc.claims_same same rfl rfl rfl) (Proc.owes_congr rfl (by rw [same]; rfl))
    (List.nil_subset _), shape.set moved.procs trivial (fun q i forking => ?_) fun other i forking => ?_⟩
  · have linked := (shape.child q p i forking).1
    rw [same] at linked
    cases linked
  · cases forking
    have fits := inv.shape.fits child
    rw [Proc.Fits, unused] at fits
    rw [spawned.self]
    exact ⟨ne, rfl, fun fd _ => fits fd⟩

section Forking

variable {child : Fin nproc} {i : Nat}

theorem child_ne_parent (inv : Inv k) (here : (k.procs p).phase = .forking child i) : child ≠ p := by
  rintro rfl
  have linked := (inv.shape.child child child i here).1
  rw [here] at linked
  cases linked

theorem not_embryo (here : (k.procs p).phase = .forking child i) (parent : Fin nproc) :
    (k.procs p).phase ≠ .embryo parent := by
  rw [here]
  nofun

theorem inv_forking (inv : Inv k) (here : (k.procs p).phase = .forking child i) :
    Inv (k.setPhase p (.forking child (i + 1))) := by
  have moved := (Moved.refl k p).setPhase (.forking child (i + 1))
  refine ⟨inv.ledger.keep moved (Proc.claims_same here rfl rfl rfl) (Proc.owes_congr rfl (by rw [here]; rfl))
    (List.nil_subset _), inv.shape.set moved.procs trivial (fun q j forking => ?_) fun other j forking => ?_⟩
  · exact absurd (inv.shape.child q p j forking).1 (not_embryo here q)
  · cases forking
    obtain ⟨embryo, empty⟩ := inv.shape.child p child i here
    exact ⟨child_ne_parent inv here, embryo, fun fd above => empty fd (Nat.le_of_succ_le above)⟩

theorem kept_forking_some (inv : Inv k) (here : (k.procs p).phase = .forking child fd)
    (stored : (k.procs p).ofile fd = some f) :
    Kept (((k.setPhase p (.forking child (fd + 1))).setSlot child fd (some f)).filedup f) := by
  have inv₁ := inv_forking inv here
  have ne := child_ne_parent inv here
  obtain ⟨embryo, empty⟩ := inv.shape.child p child fd here
  generalize after : k.setPhase p (.forking child (fd + 1)) = k₁ at inv₁
  have parent : k₁.procs p = { k.procs p with phase := .forking child (fd + 1) } := after ▸ update_self ..
  have same : k₁.procs child = k.procs child := after ▸ update_of_ne ne ..
  have embryo₁ : (k₁.procs child).phase = .embryo p := by rw [same, embryo]
  have moved := (Moved.refl k₁ child).setSlot fd (some f)
  have claimed : 0 < (k₁.procs p).claims f := by
    rw [parent]
    exact Proc.claims_pos stored nofun
  have claims (g : Fin nfile) : { k₁.procs child with ofile := update (k₁.procs child).ofile fd (some f) }.claims g =
      (k₁.procs child).claims g + if f = g then 1 else 0 := by
    have unpassed : (k₁.procs child).phase.passed = none := by
      rw [embryo₁]
      rfl
    have free : (k₁.procs child).ofile fd = none := by
      rw [same]
      exact empty fd (Nat.le_refl _)
    exact Nat.add_right_cancel (Proc.claims_store unpassed unpassed free g)
  obtain ⟨k', ran, ledger, procs⟩ := inv₁.ledger.dup moved claims (Proc.owes_congr rfl rfl) (by rw [embryo₁]; rfl)
    ⟨p, claimed, .inr (by rw [parent]; exact List.not_mem_nil)⟩
  refine ⟨k', ran, ledger, inv₁.shape.set (procs.trans moved.procs) ?_ (fun q j forking => ?_) fun other j forking => ?_⟩
  · rw [Proc.Fits, embryo₁]
    trivial
  · obtain ⟨linked, rest⟩ := inv₁.shape.child q child j forking
    refine ⟨linked, fun other above => ?_⟩
    -- Only this call of `fork` fills the child, and it is past the descriptor.
    rw [embryo₁] at linked
    cases linked
    rw [parent] at forking
    cases forking
    have higher : other ≠ fd := fun same => absurd above (same ▸ Nat.not_succ_le_self _)
    rw [← rest other above]
    exact update_of_ne higher ..
  · rw [embryo₁] at forking
    cases forking

theorem kept_forked (inv : Inv k) (here : (k.procs p).phase = .forking child i) :
    Kept (.ok ((k.ret child 0).ret p val)) := by
  have ne := child_ne_parent inv here
  obtain ⟨embryo, -⟩ := inv.shape.child p child i here
  have swapped : (k.ret child 0).ret p val = (k.ret p val).ret child 0 := by
    simp only [Kernel.ret, Kernel.setPhase, update_of_ne ne, update_of_ne ne.symm,
      update_comm ne]
  rw [swapped]
  have first : Moved k (k.ret p val) p { k.procs p with phase := .user val } :=
    (Moved.refl k p).setPhase (.user val)
  have shape : Shape (k.ret p val) := inv.shape.change first.procs trivial (not_embryo here) nofun
  have ledger : Ledger (k.ret p val) :=
    inv.ledger.keep first (Proc.claims_same here rfl rfl rfl) (Proc.owes_congr rfl (by rw [here]; rfl))
      (List.nil_subset _)
  have embryo₁ : ((k.ret p val).procs child).phase = .embryo p := by
    rw [first.procs, update_of_ne ne, embryo]
  have snd := (Moved.refl (k.ret p val) child).setPhase (.user 0)
  refine ⟨_, rfl, ledger.keep snd (Proc.claims_same embryo₁ rfl rfl rfl)
    (Proc.owes_congr rfl (by rw [embryo₁]; rfl)) (List.nil_subset _),
    shape.set snd.procs trivial (fun q j forking => ?_) nofun⟩
  -- The only call that filled the child has returned.
  have linked := (shape.child q child j forking).1
  rw [embryo₁] at linked
  cases linked
  rw [first.self] at forking
  cases forking

end Forking

theorem kept_wait {child : Fin nproc} (inv : Inv k) (here : (k.procs p).phase = .user eax)
    (zombie : (k.procs child).phase = .zombie) : Kept (.ok ((k.reap child).ret p val)) := by
  have reaped : Moved k (k.reap child) child { k.procs child with pid := 0, phase := .unused } := ⟨rfl, rfl, rfl, rfl⟩
  have fits := inv.shape.fits child
  rw [Proc.Fits, zombie] at fits
  have inv₁ : Inv (k.reap child) := by
    refine ⟨inv.ledger.keep reaped (fun g => ?_) (Proc.owes_congr rfl (by rw [zombie]; rfl)) (List.nil_subset _),
      inv.shape.change reaped.procs fits (by rw [zombie]; nofun) nofun⟩
    have claims := Proc.claims_congr (k.procs child) { k.procs child with pid := 0, phase := .unused } rfl
      (by rw [zombie]; rfl) rfl g
    simp only [zombie, Phase.held, Nat.add_zero] at claims
    exact claims
  have ne : p ≠ child := by
    rintro rfl
    rw [here] at zombie
    cases zombie
  have user : ((k.reap child).procs p).phase = .user eax := by
    rw [reaped.procs, update_of_ne ne, here]
  exact kept_ret inv₁ user val

/-! ### All steps -/

theorem kept_call (inv : Inv k) (user : (k.procs p).phase = .user eax)
    (unclosed : (k.procs p).closing = none) (c : Kernel.Call) :
    k.call p c = .error .initExiting ∨ Kept (k.call p c) := by
  cases c with
  | «open» ip =>
    cases ip with
    | none => exact .inr (kept_ret inv user (-1))
    | some ip => exact .inr (kept_openInode inv user ip)
  | pipe valid =>
    cases valid with
    | false => exact .inr (kept_ret inv user (-1))
    | true =>
      rw [Kernel.call]
      split
      · exact .inr (kept_ret inv user (-1))
      · next f0 k₁ found =>
        exact .inr (kept_alloc inv user ⟨rfl, rfl, rfl, nofun, nofun⟩ found (fun g => (Nat.zero_add _).symm)
          (fun g mem => .inl (List.mem_singleton.mp mem)) trivial)
  | dup fd => exact .inr (kept_sysDup inv user fd)
  | dup2 fd fd2 => exact .inr (kept_sysDup2 inv user unclosed fd fd2)
  | close fd => exact .inr (kept_sysClose inv user unclosed fd)
  | fork memory =>
    rw [Kernel.call]
    split
    · exact .inr (kept_ret inv user (-1))
    · next child found =>
      have unused : (k.procs child).phase = .unused := of_decide_eq_true (List.find?_some found :)
      cases memory with
      | true => exact .inr (kept_fork inv user unused)
      | false =>
        have inv₁ : Inv { k with nextpid := int (k.nextpid + 1) } :=
          ⟨⟨inv.ledger.refs, inv.ledger.typed, inv.ledger.fresh, inv.ledger.resources⟩,
            ⟨inv.shape.fits, inv.shape.child⟩⟩
        exact .inr (kept_ret inv₁ user (-1))
  | exit =>
    rw [Kernel.call]
    split
    · exact .inl rfl
    · exact .inr (kept_setPhase inv user ⟨rfl, rfl, rfl, nofun, nofun⟩ rfl (List.nil_subset _) nofun)
  | wait child =>
    rw [Kernel.call]
    split
    · next zombie => exact .inr (kept_wait inv user zombie)
    · exact .inr ⟨k, rfl, inv⟩

theorem kept_resume (inv : Inv k) (unclosed : (k.procs p).closing = none) (page : Option Nat) :
    Kept (k.resume p page) := by
  rw [Kernel.resume]
  split
  · exact ⟨k, rfl, inv⟩
  · exact ⟨k, rfl, inv⟩
  · exact ⟨k, rfl, inv⟩
  · exact ⟨k, rfl, inv⟩
  · next ip here =>
    split
    · exact kept_setPhase inv here ⟨rfl, rfl, rfl, nofun, nofun⟩ rfl (List.nil_subset _) trivial
    · next f k₁ found =>
      exact kept_alloc inv here ⟨rfl, rfl, rfl, nofun, nofun⟩ found (fun g => (Nat.zero_add _).symm)
        (fun g mem => .inl (List.mem_singleton.mp mem)) trivial
  · next ip f here =>
    split
    · exact kept_close_held inv here unclosed ⟨rfl, rfl, rfl, nofun, nofun⟩ (fun g => (Nat.zero_add _).symm) rfl trivial
    · next fd free =>
      exact kept_store inv here ⟨rfl, rfl, rfl, nofun, nofun⟩ (fdalloc_some free) (fun g => (Nat.zero_add _).symm)
        (List.Subset.refl _) (update_self ..)
  · next ip f fd here => exact kept_openSlot inv here
  · next ip here => exact kept_openFailed inv here
  · next f0 here =>
    split
    · exact kept_setPhase inv here ⟨rfl, rfl, rfl, nofun, nofun⟩ rfl (List.nil_subset _) trivial
    · next f1 k₁ found =>
      exact kept_alloc inv here ⟨rfl, rfl, rfl, nofun, nofun⟩ found (fun g => rfl) (fun g mem => by
        rcases List.mem_cons.mp mem with first | snd
        · exact .inr (List.mem_singleton.mpr first)
        · exact .inl (List.mem_singleton.mp snd)) trivial
  · next f0 f1 here =>
    split
    · exact kept_setPhase inv here ⟨rfl, rfl, rfl, nofun, nofun⟩ rfl (List.nil_subset _) trivial
    · next page =>
      split
      · exact ⟨k, rfl, inv⟩
      · next unused => exact kept_pipeTwo inv here (Option.not_isSome_iff_eq_none.mp unused)
  · next f0 f1 here =>
    split
    · exact kept_setPhase inv here ⟨rfl, rfl, rfl, nofun, nofun⟩ rfl (List.nil_subset _) trivial
    · next fd0 free =>
      exact kept_store inv here ⟨rfl, rfl, rfl, nofun, nofun⟩ (fdalloc_some free) (fun g => Nat.add_comm ..)
        (List.nil_subset _) (update_self ..)
  · next fd0 f0 f1 here =>
    have stored : (k.procs p).ofile fd0 = some f0 := by
      have fits := inv.shape.fits p
      rwa [Proc.Fits, here] at fits
    split
    · exact kept_clear inv here ⟨rfl, rfl, rfl, nofun, nofun⟩ stored (fun g => Nat.add_comm ..) (List.nil_subset _)
        trivial
    · next fd1 free =>
      exact kept_store inv here ⟨rfl, rfl, rfl, nofun, nofun⟩ (fdalloc_some free) (fun g => (Nat.zero_add _).symm)
        (List.nil_subset _) trivial
  · next f0 f1 here =>
    exact kept_close_held inv here unclosed ⟨rfl, rfl, rfl, nofun, nofun⟩ (fun g => Nat.add_comm ..) rfl trivial
  · next f here =>
    exact kept_close_held inv here unclosed ⟨rfl, rfl, rfl, nofun, nofun⟩ (fun g => (Nat.zero_add _).symm) rfl trivial
  · next fd fd2 f1 here =>
    have fits := inv.shape.fits p
    rw [Proc.Fits, here] at fits
    obtain ⟨ne, stored⟩ := fits
    refine kept_dup inv (fun g => ?_) (by rw [here]; rfl) (by rw [here]; nofun) ?_
    · have passed : (k.procs p).phase.passed = some fd2 := by
        rw [here]
        rfl
      have claims := Proc.claims_replace passed (rfl : (Phase.user fd2).passed = none) (some f1) g
      simp only [here, Phase.held, Nat.add_zero, Option.some_inj] at claims
      exact claims
    · refine Proc.claims_pos stored ?_
      rw [here]
      exact fun same => ne (Option.some_inj.mp same).symm
  · next child i here =>
    split
    · next inside =>
      split
      · exact ⟨_, rfl, inv_forking inv here⟩
      · next f stored =>
        obtain ⟨fd, rfl⟩ : ∃ fd : Fin nofile, i = fd := ⟨⟨i, inside⟩, rfl⟩
        exact kept_forking_some inv here stored
    · exact kept_forked inv here
  · next i here =>
    have fits := inv.shape.fits p
    rw [Proc.Fits, here] at fits
    split
    · next inside =>
      split
      · next free =>
        refine kept_setPhase inv here ⟨rfl, rfl, rfl, nofun, nofun⟩ rfl (List.nil_subset _) fun fd below => ?_
        rcases Nat.lt_succ_iff_lt_or_eq.mp below with lower | same
        · exact fits fd lower
        · exact (congrArg _ (Fin.ext same)).trans free
      · next f stored =>
        exact kept_close_passed inv here unclosed rfl rfl stored rfl rfl nofun nofun rfl fun fd below => fits fd below
    · next outside =>
      exact kept_setPhase inv here ⟨rfl, rfl, rfl, nofun, nofun⟩ rfl (List.nil_subset _)
        fun fd => fits fd (Nat.lt_of_lt_of_le fd.isLt (Nat.le_of_not_lt outside))
  · next fd here =>
    have fits := inv.shape.fits p
    rw [Proc.Fits, here] at fits
    have moved := ((Moved.refl k p).setSlot fd none).setPhase (.exiting (fd + 1))
    refine ⟨_, rfl, inv.ledger.keep moved (fun g => ?_) (Proc.owes_congr rfl (by rw [here]; rfl)) (List.nil_subset _),
      inv.shape.change moved.procs (fun other below => ?_) (by rw [here]; nofun) nofun⟩
    · have claims := Proc.claims_replace (by rw [here]; rfl) (rfl : (Phase.exiting (fd + 1)).passed = none) none g
      simp only [here, Phase.held, Nat.add_zero, reduceCtorEq, if_false] at claims
      exact claims
    · by_cases same : other = fd
      · rw [same]
        exact update_self ..
      · have lower : other < fd := Nat.lt_of_le_of_ne (Nat.le_of_lt_succ below) fun equal => same (Fin.ext equal)
        exact (update_of_ne same ..).trans (fits other lower)

/-- Every step but the exit of `init` ends in a state in which all is right. -/
theorem kept_step (inv : Inv k) (p : Fin nproc) (event : Kernel.Event) :
    k.step p event = .error .initExiting ∨ Kept (k.step p event) := by
  unfold Kernel.step
  split
  · next r page closing => exact .inr (kept_release inv closing)
  · next page unclosed => exact .inr (kept_resume inv unclosed page)
  · next c eax unclosed user => exact kept_call inv user unclosed c
  · exact .inr ⟨k, rfl, inv⟩

end Steps

theorem inv_boot : Inv Kernel.boot := by
  have phase (p : Fin nproc) : (Kernel.boot.procs p).phase = .unused ∨ (Kernel.boot.procs p).phase = .user 0 := by
    by_cases first : p = 0
    · exact .inr (if_pos first)
    · exact .inl (if_neg first)
  have claims (p : Fin nproc) (f : Fin nfile) : (Kernel.boot.procs p).claims f = 0 := by
    have empty : tally (Kernel.boot.procs p).ofile f = 0 := Finset.sum_eq_zero fun _ _ => rfl
    rcases phase p with unused | user
    · rw [Proc.claims_unpassed (by rw [unused]; rfl), empty, unused, Phase.held]
      all_goals nofun
    · rw [Proc.claims_unpassed (by rw [user]; rfl), empty, user, Phase.held]
      all_goals nofun
  have owes (p : Fin nproc) (r : Resource) : (Kernel.boot.procs p).owes r = 0 := by
    rcases phase p with unused | user
    · rw [Proc.owes, unused]
      rfl
    · rw [Proc.owes, user]
      rfl
  refine ⟨⟨fun f => ?_, fun _ _ => rfl, fun p f mem => ?_, fun r => ?_⟩, fun p => ?_, fun p child i forking => ?_⟩
  · exact (Finset.sum_eq_zero fun p _ => claims p f).symm
  · rcases phase p with here | here
    all_goals
      rw [here] at mem
      cases mem
  · have untyped : tally (fun f => (Kernel.boot.files f).type) r = 0 := Finset.sum_eq_zero fun _ _ => rfl
    rw [untyped, Finset.sum_eq_zero fun p _ => owes p r]
    cases r with
    | _ => rfl
  · rcases phase p with here | here
    all_goals
      rw [Proc.Fits, here]
    · exact fun _ => rfl
    · trivial
  · rcases phase p with here | here
    all_goals
      rw [here] at forking
      cases forking

theorem inv_run (schedule : List (Fin nproc × Kernel.Event)) {k : Kernel} (inv : Inv k) :
    k.run schedule = .error .initExiting ∨ Kept (k.run schedule) := by
  induction schedule generalizing k with
  | nil => exact .inr ⟨k, rfl, inv⟩
  | cons event schedule ih =>
    have unfolded : k.run (event :: schedule) = k.step event.1 event.2 >>= fun k => k.run schedule :=
      List.foldlM_cons ..
    rw [unfolded]
    rcases kept_step inv event.1 event.2 with failed | ⟨k', stepped, inv'⟩
    · rw [failed]
      exact .inl rfl
    · rw [stepped]
      exact ih inv'

/-! ## References and resources -/

namespace Kernel

/-- The descriptors that hold `f`, without one that `dup2` or `exit` has passed to `fileclose`. -/
def slots (k : Kernel) (f : Fin nfile) : Finset (Fin nproc × Fin nofile) :=
  Finset.univ.filter fun slot =>
    (k.procs slot.1).ofile slot.2 = some f ∧ (k.procs slot.1).phase.passed ≠ some slot.2

/-- The references of calls of `open` and `pipe` in progress. -/
def inProgress (k : Kernel) (f : Fin nfile) : Nat := ∑ p, (k.procs p).phase.held f

/-- The files with the resource to which there is a reference. -/
def users (k : Kernel) (r : Resource) : Finset (Fin nfile) :=
  Finset.univ.filter fun f => (k.files f).type = some r ∧ 0 < (k.slots f).card + k.inProgress f

/-- The processes that are about to release the resource in `fileclose`. -/
def releasing (k : Kernel) (r : Resource) : Finset (Fin nproc) :=
  Finset.univ.filter fun p => (k.procs p).closing = some r

/-- The processes in `open` that have the resource and have not given it to a file. -/
def opening (k : Kernel) (r : Resource) : Finset (Fin nproc) :=
  Finset.univ.filter fun p => (k.procs p).phase.inode = some r

end Kernel

section References

variable {k : Kernel}

theorem Proc.counted_iff {fd : Fin nofile} {f : Fin nfile} :
    proc.counted fd = some f ↔ proc.ofile fd = some f ∧ proc.phase.passed ≠ some fd := by
  rw [Proc.counted]
  split
  · next passed => exact ⟨nofun, fun both => absurd passed both.2⟩
  · next unpassed => exact ⟨fun stored => ⟨stored, unpassed⟩, And.left⟩

theorem ref_eq (ledger : Ledger k) (f : Fin nfile) : (k.files f).ref = (k.slots f).card + k.inProgress f := by
  have counted : (k.slots f).card = ∑ p, tally (k.procs p).counted f := by
    rw [Kernel.slots, Finset.card_filter, Fintype.sum_prod_type]
    exact Finset.sum_congr rfl fun p _ => Finset.sum_congr rfl fun fd _ => if_congr Proc.counted_iff.symm rfl rfl
  rw [ledger.refs f, counted, Kernel.inProgress, ← Finset.sum_add_distrib]
  rfl

theorem opened_eq (ledger : Ledger k) (r : Resource) :
    k.opened r = (k.users r).card + (k.releasing r).card + (k.opening r).card := by
  have used : (k.users r).card = tally (fun f => (k.files f).type) r := by
    rw [Kernel.users, Finset.card_filter]
    refine Finset.sum_congr rfl fun f _ => if_congr ⟨And.left, fun typed => ⟨typed, ?_⟩⟩ rfl rfl
    rw [← ref_eq ledger f]
    refine Nat.pos_of_ne_zero fun zero => ?_
    cases (ledger.typed f zero).symm.trans typed
  rw [ledger.resources r, used, Kernel.releasing, Kernel.opening, Finset.card_filter, Finset.card_filter,
    Nat.add_assoc, ← Finset.sum_add_distrib]
  rfl

/-! ## `dup2` -/

theorem phase_close {p : Fin nproc} {f : Fin nfile} {phase : Phase}
    (ran : k.close p f phase = .ok k') : (k'.procs p).phase = phase := by
  obtain ⟨⟨r, k₁⟩, -, ran⟩ := ok_of_bind ran
  cases ran
  simp only [Kernel.setClosing, Kernel.setPhase, update_self]

theorem phase_dup2Slot {p : Fin nproc} {fd2 : Fin nofile} {f1 : Fin nfile}
    (ran : k.dup2Slot p fd2 f1 = .ok k') : (k'.procs p).phase = .user fd2 := by
  rw [Kernel.dup2Slot, Kernel.filedup] at ran
  split at ran
  · cases ran
  · cases ran
    simp only [Kernel.ret, Kernel.setPhase, update_self]

theorem user_ne_neg (n : Nat) : Phase.user n ≠ .user (-1) := by
  intro same
  have negative : (n : Int) = -1 := Phase.user.inj same
  omega

theorem dup2_returns {p : Fin nproc} {fd fd2 : Option Int}
    (ran : k.step p (.call (.dup2 fd fd2)) = .ok k') (failed : (k'.procs p).phase = .user (-1)) :
    k' = k ∨ k' = k.ret p (-1) := by
  unfold Kernel.step at ran
  split at ran
  · next event => cases event
  · next event => cases event
  · next event _ =>
    cases event
    simp only [Kernel.call, Kernel.sysDup2] at ran
    split at ran
    · exact .inr (Except.ok.inj ran).symm
    split at ran
    · exact .inr (Except.ok.inj ran).symm
    split at ran
    · exact .inr (Except.ok.inj ran).symm
    split at ran
    · cases ran
      simp only [Kernel.ret, Kernel.setPhase, update_self] at failed
      exact absurd failed (user_ne_neg _)
    split at ran
    · cases (phase_close ran).symm.trans failed
    · exact absurd ((phase_dup2Slot ran).symm.trans failed) (user_ne_neg _)
  · exact .inl (Except.ok.inj ran).symm

/-- A call of `dup2` in progress goes on to return its second argument. -/
theorem dup2_resumes {p : Fin nproc} {page : Option Nat} {fd fd2 : Fin nofile} {f1 : Fin nfile}
    (here : (k.procs p).phase = .dup2 fd fd2 f1) (ran : k.step p (.go page) = .ok k') :
    (k'.procs p).phase = .dup2 fd fd2 f1 ∨ (k'.procs p).phase = .user fd2 := by
  unfold Kernel.step at ran
  split at ran
  · cases ran
    refine .inl ?_
    simp only [Kernel.setClosing, update_self, release_procs, here]
  · rw [Kernel.resume, here] at ran
    exact .inr (phase_dup2Slot ran)
  · next event _ => cases event
  · exact .inl (Except.ok.inj ran ▸ here)

end References

/-- Over any schedule, until `init` exits: no call of `filedup` or `fileclose` panics; the
count of each file is the number of its descriptors and of the references of calls in
progress; an inode or an end of a pipe is in use exactly for the files with a reference,
besides the calls that are about to release it or have just opened it; and `dup2` returns
-1 only at its start, with all else as it was. -/
theorem file_references_exact (schedule : List (Fin nproc × Kernel.Event)) :
    Kernel.boot.run schedule = .error .initExiting ∨ ∃ k, Kernel.boot.run schedule = .ok k ∧
      (∀ f, (k.files f).ref = (k.slots f).card + k.inProgress f) ∧
      (∀ r, k.opened r = (k.users r).card + (k.releasing r).card + (k.opening r).card) ∧
      (∀ p fd fd2 k', k.step p (.call (.dup2 fd fd2)) = .ok k' → (k'.procs p).phase = .user (-1) →
        k' = k ∨ k' = k.ret p (-1)) ∧
      ∀ p page fd fd2 f1 k', (k.procs p).phase = .dup2 fd fd2 f1 → k.step p (.go page) = .ok k' →
        (k'.procs p).phase = .dup2 fd fd2 f1 ∨ (k'.procs p).phase = .user fd2 := by
  refine (inv_run schedule inv_boot).imp_right fun ⟨k, ran, inv⟩ => ⟨k, ran, ref_eq inv.ledger, opened_eq inv.ledger, ?_, ?_⟩
  · exact fun p fd fd2 k' => dup2_returns
  · exact fun p page fd fd2 f1 k' => dup2_resumes

end Xv6Simplesh.Ftable
