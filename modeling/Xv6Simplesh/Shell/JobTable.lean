import Mathlib.Data.List.Perm.Basic
import Xv6Simplesh.Shell.Execution

/-! # The table of background jobs

`add_proceso_background` walks round the table from the position of the last job until it
finds an entry that is 0, and `delete_proceso_background` sets the entries of a job to 0.
`proback` takes the table from `malloc` and sets only the position, so what the entries hold
at first is not known.  The entries that are not 0 are, in some order, what is left of those
first ones and the jobs that are alive: that is the invariant from which everything follows.
-/

namespace Xv6Simplesh.Shell

open Function

namespace Jobs

/-- The loop of `add_proceso_background`, for at most `fuel` rounds. -/
def scan : Nat → Jobs → Option Jobs
  | 0, _ => none
  | fuel + 1, jobs =>
    if jobs.procesos jobs.posicion ≠ 0 then scan fuel { jobs with posicion := jobs.posicion + 1 }
    else some jobs

/-- `add_proceso_background`. -/
def add (fuel : Nat) (jobs : Jobs) (pid : Nat) : Option Jobs :=
  (scan fuel jobs).map fun jobs => { jobs with procesos := update jobs.procesos jobs.posicion pid }

/-- `proback`, with what `malloc` has left in the entries. -/
def proback (contents : Fin maxProcBack → Nat) : Jobs := ⟨contents, 0⟩

/-- The entries that are not 0. -/
def entries (procesos : Fin maxProcBack → Nat) : List Nat :=
  ((List.finRange maxProcBack).map procesos).filter (· ≠ 0)

end Jobs

/-! ## Calls -/

inductive TableCall where
  | add (pid : Nat)
  | delete (pid : Nat)
deriving DecidableEq, Repr

/-- The pids that are added are not 0 and not those of live jobs. -/
def Fresh : List Nat → List TableCall → Prop
  | _, [] => True
  | live, .add pid :: calls => pid ≠ 0 ∧ pid ∉ live ∧ Fresh (pid :: live) calls
  | live, .delete pid :: calls => Fresh (live.erase pid) calls

/-- Every call of `add_proceso_background` returns and overwrites no live job, and after every
call each live job is in the table once. -/
def KeepsJobs : Jobs → List Nat → List TableCall → Prop
  | _, _, [] => True
  | jobs, live, .add pid :: calls =>
    ∃ fuel jobs', jobs.add fuel pid = some jobs' ∧
      (∀ i, jobs.procesos i ∈ live → jobs'.procesos i = jobs.procesos i) ∧
      (∀ job ∈ pid :: live, ∃! i, jobs'.procesos i = job) ∧ KeepsJobs jobs' (pid :: live) calls
  | jobs, live, .delete pid :: calls =>
    (∀ job ∈ live.erase pid, ∃! i, (jobs.delete pid).procesos i = job) ∧
      KeepsJobs (jobs.delete pid) (live.erase pid) calls

/-- Whenever a job is added, the first contents that are left and the live jobs do not fill the
table, and its pid is not among those contents. -/
def HasRoom : List Nat → List Nat → List TableCall → Prop
  | _, _, [] => True
  | stale, live, .add pid :: calls =>
    stale.length + live.length < maxProcBack ∧ pid ∉ stale ∧ HasRoom stale (pid :: live) calls
  | stale, live, .delete pid :: calls => HasRoom (stale.filter (· ≠ pid)) (live.erase pid) calls

instance decidableHasRoom : ∀ stale live calls, Decidable (HasRoom stale live calls)
  | _, _, [] => inferInstanceAs (Decidable True)
  | stale, live, .add pid :: calls =>
    have := decidableHasRoom stale (pid :: live) calls
    inferInstanceAs (Decidable (_ ∧ _ ∧ _))
  | stale, live, .delete pid :: calls => decidableHasRoom (stale.filter (· ≠ pid)) (live.erase pid) calls

instance decidableFresh : ∀ live calls, Decidable (Fresh live calls)
  | _, [] => inferInstanceAs (Decidable True)
  | live, .add pid :: calls =>
    have := decidableFresh (pid :: live) calls
    inferInstanceAs (Decidable (_ ∧ _ ∧ _))
  | live, .delete pid :: calls => decidableFresh (live.erase pid) calls

/-! ## The loop -/

namespace Jobs

variable {jobs jobs' : Jobs} {fuel pid : Nat}

/-- The loop changes the position only, and stops at an entry that is 0. -/
theorem scan_some (found : scan fuel jobs = some jobs') :
    jobs'.procesos = jobs.procesos ∧ jobs'.procesos jobs'.posicion = 0 := by
  induction fuel generalizing jobs with
  | zero => cases found
  | succ fuel ih =>
    simp only [scan] at found
    split at found
    next occupied =>
      have kept := ih found
      exact kept
    next free =>
      cases found
      exact ⟨rfl, not_not.mp free⟩

/-- An entry that is 0 is found in as many rounds as it is positions away. -/
theorem scan_of_free (distance : Nat) (free : jobs.procesos (jobs.posicion + Fin.ofNat _ distance) = 0) :
    ∃ jobs', scan (distance + 1) jobs = some jobs' := by
  induction distance generalizing jobs with
  | zero =>
    have here : jobs.procesos jobs.posicion = 0 := by simpa using free
    exact ⟨jobs, by simp [scan, here]⟩
  | succ distance ih =>
    rw [scan]
    split
    · apply ih
      have same : jobs.posicion + 1 + Fin.ofNat maxProcBack distance =
          jobs.posicion + Fin.ofNat maxProcBack (distance + 1) := by
        apply Fin.ext
        simp only [Fin.val_add, Fin.val_ofNat, Fin.val_one, maxProcBack]
        omega
      rw [same]
      exact free
    · exact ⟨jobs, rfl⟩

theorem scan_iff (jobs : Jobs) : (∃ fuel jobs', scan fuel jobs = some jobs') ↔ ∃ i, jobs.procesos i = 0 := by
  constructor
  · rintro ⟨fuel, jobs', found⟩
    obtain ⟨same, free⟩ := scan_some found
    exact ⟨jobs'.posicion, by rw [← same]; exact free⟩
  · rintro ⟨i, free⟩
    have there : jobs.posicion + Fin.ofNat maxProcBack (i - jobs.posicion : Fin maxProcBack).val = i := by
      apply Fin.ext
      simp only [Fin.val_add, Fin.val_ofNat, Fin.val_sub, maxProcBack]
      omega
    exact ⟨_, scan_of_free (i - jobs.posicion : Fin maxProcBack).val (by rw [there]; exact free)⟩

/-- The rounds of the loop are the moves that the shell makes while it looks for an entry. -/
theorem scan_moves {s : ShellState} (idle : s.handling = false) (found : scan fuel s.jobs = some jobs') :
    Relation.ReflTransGen (Moves (some (.scan pid))) s { s with jobs := jobs' } := by
  induction fuel generalizing s with
  | zero => cases found
  | succ fuel ih =>
    simp only [scan] at found
    split at found
    next occupied => exact .head (.probe rfl idle occupied) (ih idle found)
    · cases found
      exact .refl

/-! ## What the entries are -/

/-- A free entry is one that is missing among those that are not 0. -/
theorem exists_free_iff (procesos : Fin maxProcBack → Nat) :
    (∃ i, procesos i = 0) ↔ (entries procesos).length < maxProcBack := by
  have all : ((List.finRange maxProcBack).map procesos).length = maxProcBack := by simp
  have shorter : (entries procesos).length < ((List.finRange maxProcBack).map procesos).length ↔
      ∃ job ∈ (List.finRange maxProcBack).map procesos, ¬ decide (job ≠ 0) = true :=
    List.length_filter_lt_length_iff_exists
  rw [all] at shorter
  rw [shorter]
  simp

/-- A job is in the table once if it is once among the entries. -/
theorem existsUnique_iff_count {procesos : Fin maxProcBack → Nat} {job : Nat} (pos : job ≠ 0) :
    (∃! i, procesos i = job) ↔ (entries procesos).count job = 1 := by
  have count : (entries procesos).count job = ((List.finRange maxProcBack).filter (procesos · = job)).length := by
    rw [entries, List.count_filter (by simpa using pos), List.count, List.countP_map, List.countP_eq_length_filter]
    congr 1
  have distinct := (List.nodup_finRange maxProcBack).filter (procesos · = job)
  rw [count, List.length_eq_one_iff]
  constructor
  · rintro ⟨i, stored, only⟩
    refine ⟨i, List.perm_singleton.mp ((List.perm_ext_iff_of_nodup distinct (List.nodup_singleton i)).mpr ?_)⟩
    intro other
    simp only [List.mem_filter, List.mem_finRange, true_and, decide_eq_true_eq, List.mem_singleton]
    exact ⟨only other, fun same => same ▸ stored⟩
  · rintro ⟨i, single⟩
    have mem : ∀ other, procesos other = job ↔ other = i := by
      intro other
      simpa using congrArg (other ∈ ·) single
    exact ⟨i, (mem i).mpr rfl, fun other stored => (mem other).mp stored⟩

/-- Storing a pid in a free entry adds it to those that are there. -/
theorem entries_update {procesos : Fin maxProcBack → Nat} {i : Fin maxProcBack} (free : procesos i = 0)
    (pos : pid ≠ 0) : (entries (update procesos i pid)).Perm (pid :: entries procesos) := by
  obtain ⟨front, back, all⟩ := List.append_of_mem (List.mem_finRange i)
  have distinct : (front ++ i :: back).Nodup := all ▸ List.nodup_finRange _
  rw [List.nodup_middle, List.nodup_cons, List.mem_append, not_or] at distinct
  have unchanged : ∀ positions : List (Fin maxProcBack), i ∉ positions →
      positions.map (update procesos i pid) = positions.map procesos := by
    intro positions absent
    apply List.map_congr_left
    intro other mem
    rw [update_of_ne]
    rintro rfl
    exact absent mem
  simp only [entries, all, List.map_append, List.map_cons, unchanged front distinct.1.1,
    unchanged back distinct.1.2, update_self, free, List.filter_append]
  simp [pos, List.perm_middle]

theorem entries_delete (jobs : Jobs) (pid : Nat) :
    entries (jobs.delete pid).procesos = (entries jobs.procesos).filter (· ≠ pid) := by
  have list : ∀ values : List Nat, (values.map fun value => if pid = value then 0 else value).filter (· ≠ 0) =
      (values.filter (· ≠ 0)).filter (· ≠ pid) := by
    intro values
    induction values with
    | nil => rfl
    | cons value values ih =>
      by_cases same : pid = value
      · by_cases zero : value = 0 <;> simp_all
      · by_cases zero : value = 0 <;> simp_all [eq_comm]
  rw [entries, entries, ← list, List.map_map]
  rfl

/-- `add_proceso_background` returns if and only if there is a free entry. -/
theorem add_iff (jobs : Jobs) (pid : Nat) :
    (∃ fuel jobs', jobs.add fuel pid = some jobs') ↔ (entries jobs.procesos).length < maxProcBack := by
  rw [← exists_free_iff, ← scan_iff]
  simp [add]

theorem add_some (added : jobs.add fuel pid = some jobs') :
    ∃ i, jobs.procesos i = 0 ∧ jobs'.procesos = update jobs.procesos i pid := by
  obtain ⟨found, scanned, rfl⟩ := Option.map_eq_some_iff.mp added
  obtain ⟨same, free⟩ := scan_some scanned
  exact ⟨found.posicion, same ▸ free, by rw [same]⟩

end Jobs

/-! ## Sequences of calls -/

open Jobs

variable {jobs jobs' : Jobs} {stale live : List Nat} {pid : Nat}

/-- What is in the table: what is left of its first contents, and the live jobs, each of them
once. -/
structure Contains (jobs : Jobs) (stale live : List Nat) : Prop where
  entries : (Jobs.entries jobs.procesos).Perm (stale ++ live)
  distinct : live.Nodup
  apart : ∀ job ∈ live, job ∉ stale
  pos : ∀ job ∈ live, job ≠ 0

namespace Contains

theorem proback (contents : Fin maxProcBack → Nat) : Contains (Jobs.proback contents) (Jobs.entries contents) [] where
  entries := by simp [Jobs.proback]
  distinct := List.nodup_nil
  apart := by simp
  pos := by simp

section

variable (holds : Contains jobs stale live)

include holds

theorem once : ∀ job ∈ live, ∃! i, jobs.procesos i = job := by
  intro job mem
  have absent : stale.count job = 0 := List.count_eq_zero.mpr (holds.apart job mem)
  have single : live.count job = 1 := List.count_eq_one_of_mem holds.distinct mem
  rw [existsUnique_iff_count (holds.pos job mem), holds.entries.count_eq, List.count_append, absent, single]

theorem delete (pid : Nat) : Contains (jobs.delete pid) (stale.filter (· ≠ pid)) (live.erase pid) where
  entries := by
    have erased : live.erase pid = live.filter (· ≠ pid) := by
      rw [holds.distinct.erase_eq_filter]
      exact List.filter_congr fun job _ => by by_cases same : job = pid <;> simp [same]
    rw [entries_delete, erased, ← List.filter_append]
    exact holds.entries.filter _
  distinct := holds.distinct.erase pid
  apart job mem stays := holds.apart job (List.mem_of_mem_erase mem) (List.mem_of_mem_filter stays)
  pos job mem := holds.pos job (List.mem_of_mem_erase mem)

variable {fuel : Nat}

/-- A job that is added is among the entries, beside those that were there. -/
theorem entries_add (pos : pid ≠ 0)
    (added : jobs.add fuel pid = some jobs') : (Jobs.entries jobs'.procesos).Perm (stale ++ pid :: live) := by
  obtain ⟨i, free, stored⟩ := add_some added
  rw [stored]
  exact ((entries_update free pos).trans (holds.entries.cons pid)).trans List.perm_middle.symm

theorem add (pos : pid ≠ 0) (fresh : pid ∉ live) (absent : pid ∉ stale) (added : jobs.add fuel pid = some jobs') : Contains jobs' stale (pid :: live) where
  entries := holds.entries_add pos added
  distinct := List.nodup_cons.mpr ⟨fresh, holds.distinct⟩
  apart := by
    intro job mem
    rcases List.mem_cons.mp mem with rfl | old
    · exact absent
    · exact holds.apart job old
  pos := by
    intro job mem
    rcases List.mem_cons.mp mem with rfl | old
    · exact pos
    · exact holds.pos job old

/-- `add_proceso_background` writes into an entry that is 0, which is no job's. -/
theorem add_keeps (added : jobs.add fuel pid = some jobs') :
    ∀ i, jobs.procesos i ∈ live → jobs'.procesos i = jobs.procesos i := by
  intro i mem
  obtain ⟨idx, free, stored⟩ := add_some added
  rw [stored, update_of_ne]
  rintro rfl
  exact holds.pos _ mem free

/-- The call does what it should if and only if there is room and the pid is not in the first
contents. -/
theorem add_once_iff (pos : pid ≠ 0) (fresh : pid ∉ live)
    (added : jobs.add fuel pid = some jobs') : (∃! i, jobs'.procesos i = pid) ↔ pid ∉ stale := by
  have single : live.count pid = 0 := List.count_eq_zero.mpr fresh
  rw [existsUnique_iff_count pos, (holds.entries_add pos added).count_eq, List.count_append,
    List.count_cons_self, single, ← List.count_eq_zero (l := stale)]
  omega

theorem length : (Jobs.entries jobs.procesos).length = stale.length + live.length := by
  rw [holds.entries.length_eq, List.length_append]

end

end Contains

theorem keepsJobs_iff {calls : List TableCall} (holds : Contains jobs stale live) (fresh : Fresh live calls) :
    KeepsJobs jobs live calls ↔ HasRoom stale live calls := by
  induction calls generalizing jobs stale live with
  | nil => exact Iff.rfl
  | cons call calls ih =>
    cases call with
    | add pid =>
      obtain ⟨pos, absent, rest⟩ := fresh
      simp only [KeepsJobs, HasRoom, ← holds.length, ← add_iff jobs pid]
      constructor
      · rintro ⟨fuel, jobs', added, -, once, kept⟩
        have unused := (holds.add_once_iff pos absent added).mp (once pid (.head _))
        exact ⟨⟨fuel, jobs', added⟩, unused,
          (ih (holds.add pos absent unused added) rest).mp kept⟩
      · rintro ⟨⟨fuel, jobs', added⟩, unused, room⟩
        have after := holds.add pos absent unused added
        exact ⟨fuel, jobs', added, holds.add_keeps added, after.once, (ih after rest).mpr room⟩
    | delete pid =>
      have after := holds.delete pid
      simp only [KeepsJobs, HasRoom, ← ih after fresh]
      exact and_iff_right after.once

/-- From the table that `proback` returns, every call adds its job and loses none if and only if
there is room for each job that is added. -/
theorem background_table_iff (contents : Fin maxProcBack → Nat) (calls : List TableCall) (fresh : Fresh [] calls) :
    KeepsJobs (Jobs.proback contents) [] calls ↔ HasRoom (Jobs.entries contents) [] calls :=
  keepsJobs_iff (Contains.proback contents) fresh

/-- Eight jobs fill a table that was empty, and when one of them ends there is room for another. -/
theorem background_table_eight : ∃ contents calls, contents = (fun _ => 0) ∧
    calls = (List.range 8).map (fun i => TableCall.add (i + 1)) ++ [.delete 3, .add 9] ∧
    KeepsJobs (Jobs.proback contents) [] calls :=
  ⟨fun _ => 0, _, rfl, rfl, (background_table_iff _ _ (by decide)).mpr (by decide)⟩

/-- The shell starts nine jobs that go on.  The loop for the ninth never ends. -/
theorem background_table_ninth : ∃ contents calls, contents = (fun _ => 0) ∧
    calls = (List.range 9).map (fun i => TableCall.add (i + 1)) ∧ Fresh [] calls ∧
    ¬ KeepsJobs (Jobs.proback contents) [] calls ∧
    ∃ jobs : Jobs, (∀ i, jobs.procesos i = i + 1) ∧ ∀ fuel, jobs.add fuel 9 = none := by
  refine ⟨fun _ => 0, _, rfl, rfl, by decide, ?_, ⟨fun i => i + 1, 7⟩, fun _ => rfl, ?_⟩
  · intro kept
    exact absurd ((keepsJobs_iff (Contains.proback _) (by decide)).mp kept) (by decide)
  · intro fuel
    by_contra ret
    obtain ⟨jobs', added⟩ := Option.ne_none_iff_exists'.mp ret
    obtain ⟨i, free, -⟩ := add_some added
    exact Nat.succ_ne_zero _ free

end Xv6Simplesh.Shell
