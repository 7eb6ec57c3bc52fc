import Xv6Simplesh.Library.Loops
import Xv6Simplesh.Proc.Table

/-! # Calls and their sections

Among the processes with their memory a call runs to its end at once.  To the process table it
does what its sections under `ptable.lock` do one after the other.
-/

namespace Xv6Simplesh.Ptable

open Library Function

/-- The slots are the same, but for the memory and the history. -/
def Alike (p : Vm.Proc) (q : Proc) : Prop :=
  p.state = q.state ∧ p.pid = q.pid ∧ p.parent = q.parent.map Fin.val ∧ p.chan = q.chan.map Fin.val ∧
    p.killed = q.killed

/-- Table `t` is that of the processes. -/
def Shows (w : Vm.World) (t : Table) : Prop :=
  w.nextpid = t.nextpid ∧ w.initproc = t.initproc ∧ ∀ q : Fin nproc, Alike (w.procs q) (t.procs q)

variable {k : Vm.Symbols} {w w' : Vm.World} {t : Table} {p : Fin nproc} {proc : Vm.Proc} {slot : Proc}

theorem range_nproc : List.range nproc = (List.finRange nproc).map Fin.val := by decide

theorem find?_range {P : Nat → Bool} {Q : Fin nproc → Bool} (same : ∀ q : Fin nproc, P q = Q q) :
    (List.range nproc).find? P = ((List.finRange nproc).find? Q).map Fin.val := by
  rw [range_nproc, List.find?_map, (funext same : P ∘ Fin.val = Q)]

theorem any_range {P : Nat → Bool} {Q : Fin nproc → Bool} (same : ∀ q : Fin nproc, P q = Q q) :
    (List.range nproc).any P = (List.finRange nproc).any Q := by
  rw [range_nproc, List.any_map, (funext same : P ∘ Fin.val = Q)]

theorem map_val_eq (a : Option (Fin nproc)) : a.map Fin.val = some p.val ↔ a = some p := by
  rw [← Option.map_some, (Option.map_injective Fin.val_injective).eq_iff]

theorem Alike.ite {c d : Prop} [Decidable c] [Decidable d] (same : c ↔ d) {proc' : Vm.Proc} {slot' : Proc}
    (yes : Alike proc slot) (no : Alike proc' slot') :
    Alike (if c then proc else proc') (if d then slot else slot') := by
  by_cases holds : d
  · rwa [if_pos holds, if_pos (same.mpr holds)]
  · rwa [if_neg holds, if_neg (mt same.mp holds)]

namespace Shows

section

variable (shows : Shows w t)

include shows

theorem setProc (p : Fin nproc) (alike : Alike proc slot) : Shows (w.setProc p proc) (t.setProc p slot) := by
  refine ⟨shows.1, shows.2.1, fun q => ?_⟩
  by_cases same : q = p
  · simpa only [Vm.World.setProc, Table.setProc, same, update_self] using alike
  · simpa only [Vm.World.setProc, Table.setProc, update_of_ne same, update_of_ne (Fin.val_ne_of_ne same)]
      using shows.2.2 q

/-- The slot changes in what the table does not have. -/
theorem setWorld (p : Fin nproc) (alike : Alike proc (t.procs p)) : Shows (w.setProc p proc) t := by
  have same := shows.setProc p alike
  rwa [Table.setProc, update_eq_self] at same

theorem setPhase (p : Fin nproc) (phase : Phase) : Shows w (t.setPhase p phase) := by
  have same : Shows (w.setProc p (w.procs p)) (t.setPhase p phase) := shows.setProc p (shows.2.2 p)
  rwa [Vm.World.setProc, update_eq_self] at same

theorem wakeup1 (p : Fin nproc) : Shows (Vm.wakeup1 w p) (t.wakeup1 p) := by
  refine ⟨shows.1, shows.2.1, fun q => ?_⟩
  obtain ⟨state, pid, parent, chan, killed⟩ := shows.2.2 q
  refine .ite ?_ ⟨rfl, pid, parent, chan, killed⟩ (shows.2.2 q)
  rw [state, chan, map_val_eq, and_iff_right q.isLt]

theorem abandonChildren (p : Fin nproc) : Shows (Vm.abandonChildren w p) (t.abandonChildren p) := by
  refine ⟨shows.1, shows.2.1, fun q => ?_⟩
  obtain ⟨state, pid, parent, chan, killed⟩ := shows.2.2 q
  refine .ite ?_ ⟨state, pid, congrArg some shows.2.1, chan, killed⟩ (shows.2.2 q)
  rw [parent, map_val_eq, and_iff_right q.isLt]

theorem dead (p q : Fin nproc) : decide ((w.procs q).parent = some p.val ∧ (w.procs q).state = .zombie) =
    decide ((t.procs q).parent = some p ∧ (t.procs q).state = .zombie) := by
  simp only [(shows.2.2 q).2.2.1, map_val_eq, (shows.2.2 q).1]

theorem reparent (p : Fin nproc) : Shows
    (if (List.range nproc).any fun j => (w.procs j).parent = some p.val ∧ (w.procs j).state = .zombie then
      Vm.wakeup1 (Vm.abandonChildren w p) w.initproc else Vm.abandonChildren w p) (t.reparent p) := by
  rw [any_range (shows.dead p), shows.2.1, Table.reparent]
  split
  · exact (shows.abandonChildren p).wakeup1 t.initproc
  · exact shows.abandonChildren p

theorem exit (exited : Vm.exit w p = .ok w') : p ≠ t.initproc ∧ Shows w' (t.exit p) := by
  unfold Vm.exit at exited
  split at exited
  · cases exited
  next notInit =>
  refine ⟨fun same => notInit (by rw [same, shows.2.1]), ?_⟩
  rw [(shows.2.2 p).2.2.1] at exited
  unfold Table.exit Table.wakeupParent
  generalize (t.procs p).parent = parent at exited ⊢
  cases parent with
  | none =>
    have left := shows.reparent p
    cases exited
    refine left.setProc p ?_
    exact ⟨rfl, (left.2.2 p).2⟩
  | some parent =>
    have left := (shows.wakeup1 parent).reparent p
    cases exited
    refine left.setProc p ?_
    exact ⟨rfl, (left.2.2 p).2⟩

/-- A pass of the loop of `wait` returns the same, too. -/
theorem wait {r : Option Int} (waited : Vm.wait k w p = .ok (r, w')) : r = (t.wait p).1 ∧ Shows w' (t.wait p).2 := by
  unfold Vm.wait at waited
  rw [find?_range (shows.dead p)] at waited
  rw [Table.wait]
  cases dead : t.deadChild p with
  | some q =>
    rw [Table.deadChild] at dead
    simp only [dead, Option.map_some] at waited
    obtain ⟨-, pid, -, chan, -⟩ := shows.2.2 q
    split at waited
    · cases waited
    obtain ⟨m, -, waited⟩ := ok_of_bind waited
    obtain ⟨m', -, waited⟩ := ok_of_bind waited
    cases waited
    refine ⟨congrArg some pid, (shows.setProc q ?_).setPhase p .user⟩
    exact ⟨rfl, rfl, rfl, chan, rfl⟩
  | none =>
    obtain ⟨-, pid, parent, -, killed⟩ := shows.2.2 p
    have kids : ((List.range nproc).any fun j => (w.procs j).parent = some p.val) = t.havekids p :=
      any_range fun q => by simp only [(shows.2.2 q).2.2.1, map_val_eq]
    rw [Table.deadChild] at dead
    simp only [dead, Option.map_none, kids, killed, Bool.not_eq_true'] at waited
    dsimp only
    split at waited
    next returns =>
      cases waited
      rw [if_pos returns]
      exact ⟨rfl, shows.setPhase p .user⟩
    next sleeps =>
      cases waited
      rw [if_neg sleeps]
      exact ⟨rfl, shows.setProc p ⟨rfl, pid, parent, rfl, rfl⟩⟩

/-- The slot that `allocproc` finds, with a kernel stack or given back. -/
theorem allocproc {res : Option Nat} (p : Fin nproc) (alloc : Vm.allocproc w = (res, w')) : res = none ∧ w' = w ∨
    ∃ np t', t.allocproc p = some (np, t') ∧
      (res = none ∧ Shows w' (t'.forkFail p np) ∨ res = some np.val ∧ Shows w' t') := by
  unfold Vm.allocproc at alloc
  rw [find?_range fun q => (by rw [(shows.2.2 q).1] : _ = decide ((t.procs q).state = .unused))] at alloc
  cases free : (List.finRange nproc).find? fun q => decide ((t.procs q).state = .unused) with
  | none =>
    rw [free] at alloc
    cases alloc
    exact .inl ⟨rfl, rfl⟩
  | some np =>
    refine .inr ⟨np, t.found p np, by rw [Table.allocproc, free]; rfl, ?_⟩
    have begun : Shows { w.setProc np { w.procs np with state := .embryo, pid := w.nextpid } with
        nextpid := int (w.nextpid + 1) } (t.found p np) := by
      refine ⟨congrArg (int <| · + 1) shows.1, (shows.setProc np ?_).2⟩
      exact ⟨rfl, shows.1, (shows.2.2 np).2.2⟩
    simp only [free, Option.map_some] at alloc
    split at alloc <;> cases alloc
    · refine .inl ⟨rfl, (begun.setProc np ?_).setPhase p .user⟩
      exact ⟨rfl, (begun.2.2 np).2⟩
    · refine .inr ⟨rfl, begun.setWorld np ?_⟩
      exact begun.2.2 np

theorem fork {cur : Vm.Image} {r : Int} (p : Fin nproc) (forked : Vm.fork k w p cur = .ok (r, w')) : w' = w ∨
    ∃ np t', t.allocproc p = some (np, t') ∧
      (Shows w' (t'.forkFail p np) ∨ Shows w' ((t'.adopt p np).publish p np)) := by
  unfold Vm.fork at forked
  cases alloc : Vm.allocproc w with
  | mk res w₁ =>
  rw [alloc] at forked
  rcases shows.allocproc p alloc with ⟨rfl, rfl⟩ | ⟨np, t', free, ⟨rfl, failed⟩ | ⟨rfl, begun⟩⟩
  · cases forked
    exact .inl rfl
  · cases forked
    exact .inr ⟨np, t', free, .inl failed⟩
  refine .inr ⟨np, t', free, ?_⟩
  obtain ⟨state, pid, -, chan, killed⟩ := begun.2.2 np
  obtain ⟨⟨pgdir, m⟩, -, rest⟩ := ok_of_bind forked
  cases pgdir with
  | none =>
    dsimp only at rest
    split at rest
    · cases rest
    obtain ⟨m, -, rest⟩ := ok_of_bind rest
    cases rest
    refine .inl ((begun.setProc np ?_).setPhase p .user)
    exact ⟨rfl, (begun.2.2 np).2⟩
  | some d =>
    cases rest
    have adopted := (setProc begun np (⟨state, pid, rfl, chan, killed⟩ : Alike
      { w₁.procs np with parent := some p.val } { t'.procs np with parent := some p })).setPhase p (.forkPublish np)
    generalize same : w₁.setProc np _ = w₂ at adopted
    have published : Shows (w₂.setProc np { w₂.procs np with pgdir := some d, sz := cur.sz, state := .runnable })
        ((t'.adopt p np).publish p np) := by
      refine (adopted.setProc np ?_).setPhase p .user
      exact ⟨rfl, (adopted.2.2 np).2⟩
    simp only [← same, Vm.World.setProc, update_idem, update_self] at published
    exact .inr published

end

end Shows

end Xv6Simplesh.Ptable
