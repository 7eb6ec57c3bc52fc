import Xv6Simplesh.Names.Cache

/-! # The walk along a path

`namex` goes from directory to directory with one reference at a time, and one more while it looks
up a name.  `find` says where it gets to, from the inodes alone.  A walk stops for want of a type
only at an inode that it has to search, and frees nothing but inodes that have neither links nor
references before it.  Between two calls there are none of those, so a walk leaves the inodes as
they are.
-/

namespace Xv6Simplesh.Names

open Library Library.Command

variable {Pid : Type} {inodes : Inodes} {procs : Pid → Proc} {users : Nat → Nat} {extra held : List Nat}
  {s : State Pid} {i j : Nat} {lost : Prop} {fail : Stop → Prop}

/-! ## Where a path leads -/

/-- The inode, or the directory and the last name, that a path leads to from `ip`. -/
def find (inodes : Inodes) (nameiparent : Bool) : List Name → Nat → Option (Nat × Name)
  | [], ip => if nameiparent then none else some (ip, [])
  | name :: path, ip =>
    if (inodes ip).type ≠ .dir then none
    else if nameiparent ∧ path = [] then some (ip, name)
    else
      match scan name (inodes ip).slots 0 with
      | none => none
      | some (_, next) => find inodes nameiparent path next

/-- A path from `i` can lead to `j`. -/
inductive Leads (inodes : Inodes) (i : Nat) : Nat → Prop where
  | here : Leads inodes i i
  | entry {d : Nat} {de : Dirent} (before : Leads inodes i d) (isDir : (inodes d).type = .dir)
      (mem : de ∈ (inodes d).slots) (used : de.inum ≠ 0) : Leads inodes i de.inum

theorem Leads.trans {k : Nat} (first : Leads inodes i j) (second : Leads inodes j k) : Leads inodes i k := by
  induction second with
  | here => exact first
  | entry _ isDir mem used ih => exact .entry ih isDir mem used

variable {name : Name} {path : List Name} {cwd : Nat}

theorem Leads.scan {off : Nat} (isDir : (inodes i).type = .dir)
    (found : scan name (inodes i).slots 0 = some (off, j)) : Leads inodes i j := by
  obtain ⟨before, after, split, -, used⟩ := scan_some found
  have mem : (⟨j, name⟩ : Dirent) ∈ (inodes i).slots := by simp [split]
  exact .entry .here isDir mem used

theorem Leads.find {nameiparent : Bool}
    (found : find inodes nameiparent path i = some (j, name)) : Leads inodes i j := by
  induction path generalizing i with
  | nil =>
    unfold Names.find at found
    split at found
    · cases found
    · cases found
      exact .here
  | cons first path ih =>
    unfold Names.find at found
    split at found
    · cases found
    next isDir =>
      have isDir := not_not.mp isDir
      split at found
      · cases found
        exact .here
      · split at found
        · cases found
        next entry => exact (Leads.scan isDir entry).trans (ih found)

section

variable {inodes' : Inodes} (type : ∀ i, (inodes' i).type = (inodes i).type)
  (slots : ∀ i, (inodes' i).slots = (inodes i).slots)

include type slots

theorem Leads.congr (leads : Leads inodes' i j) : Leads inodes i j := by
  induction leads with
  | here => exact .here
  | entry _ isDir mem used ih =>
    exact .entry ih (type _ ▸ isDir) (slots _ ▸ mem) used

theorem find_congr (nameiparent : Bool) (path : List Name) (ip : Nat) :
    find inodes' nameiparent path ip = find inodes nameiparent path ip := by
  induction path generalizing ip with
  | nil => rfl
  | cons name path ih => simp only [find, type, slots, ih]

end

/-- Where the walk stops one level early, it stops in a directory. -/
theorem find_parent_dir (found : find inodes true path i = some (j, name)) : (inodes j).type = .dir := by
  induction path generalizing i with
  | nil => cases found
  | cons first path ih =>
    unfold find at found
    split at found
    · cases found
    next isDir =>
      split at found
      · cases found
        exact not_not.mp isDir
      · split at found
        · cases found
        · exact ih found

/-- The references of the call after a walk: one more where the walk gets to. -/
def arrived (res : Option (Nat × Name)) (extra : List Nat) : List Nat :=
  match res with
  | none => extra
  | some (ip, _) => ip :: extra

/-- What a search for the name in `ip` gives; only a directory can be searched. -/
def lookup (inodes : Inodes) (ip : Nat) (name : Name) : Option Nat :=
  if (inodes ip).type = .dir then (scan name (inodes ip).slots 0).map Prod.snd else none

/-- The inodes that the walk comes to and has to search. -/
def searched (inodes : Inodes) : List Name → Nat → List Nat
  | [], _ => []
  | name :: path, ip =>
    match lookup inodes ip name with
    | none => [ip]
    | some next => ip :: searched inodes path next

theorem lookup_eq_some :
    lookup inodes i name = some j ↔ (inodes i).type = .dir ∧ ∃ off, scan name (inodes i).slots 0 = some (off, j) := by
  unfold lookup
  split
  next isDir => simp [isDir, Option.map_eq_some_iff]
  next notDir => simp [notDir]

theorem mem_searched_self (name : Name) (path : List Name) (ip : Nat) : ip ∈ searched inodes (name :: path) ip := by
  unfold searched
  split
  · exact List.mem_singleton_self ip
  · exact .head _

theorem mem_searched_cons (found : lookup inodes i name = some j) {k : Nat}
    (mem : k ∈ searched inodes path j) : k ∈ searched inodes (name :: path) i := by
  unfold searched
  rw [found]
  exact List.mem_cons_of_mem i mem

theorem Leads.searched (mem : j ∈ searched inodes path i) : Leads inodes i j := by
  induction path generalizing i with
  | nil => cases mem
  | cons name path ih =>
    unfold Names.searched at mem
    split at mem
    · rw [List.mem_singleton.mp mem]
      exact .here
    next next found =>
      obtain ⟨isDir, off, entry⟩ := lookup_eq_some.mp found
      cases List.mem_cons.mp mem with
      | inl here =>
        rw [here]
        exact .here
      | inr later => exact (Leads.scan isDir entry).trans (ih later)

/-- A path that a process in `cwd` gives can lead to `j`. -/
def Visits (inodes : Inodes) (cwd j : Nat) : Prop := Leads inodes rootIno j ∨ Leads inodes cwd j

theorem Visits.trans (visits : Visits inodes cwd i) (leads : Leads inodes i j) : Visits inodes cwd j :=
  visits.imp (·.trans leads) (·.trans leads)

theorem Visits.of_origin {path : Path} (leads : Leads inodes (origin cwd path) j) : Visits inodes cwd j := by
  unfold origin at leads
  split at leads
  · exact .inl leads
  · exact .inr leads

theorem Visits.find {path : Path} {nameiparent : Bool}
    (found : find inodes nameiparent (elements path) (origin cwd path) = some (j, name)) : Visits inodes cwd j :=
  .of_origin (Leads.find found)

theorem Visits.searched {path : Path}
    (mem : j ∈ searched inodes (elements path) (origin cwd path)) : Visits inodes cwd j :=
  .of_origin (Leads.searched mem)

/-! ## What a walk frees -/

/-- Some inodes that have neither links nor references have been freed. -/
def Pruned (inodes : Inodes) (users : Nat → Nat) (inodes' : Inodes) : Prop :=
  ∀ i, inodes' i = inodes i ∨ (inodes i).Lapsed (users i) ∧ inodes' i = (inodes i).freed

namespace Pruned

variable {inodes' : Inodes}

theorem refl (inodes : Inodes) (users : Nat → Nat) : Pruned inodes users inodes := fun _ => .inl rfl

theorem same (pruned : Pruned inodes users inodes') (alloc : (inodes' i).type ≠ .free) : inodes' i = inodes i := by
  cases pruned i with
  | inl same => exact same
  | inr freed =>
    rw [freed.2] at alloc
    exact absurd rfl alloc

theorem free (pruned : Pruned inodes users inodes') (free : (inodes' i).type = .free) :
    (inodes i).type = .free ∨ (inodes i).Lapsed (users i) := by
  cases pruned i with
  | inl same => exact .inl (same ▸ free)
  | inr freed => exact .inr freed.1

/-- `iput` frees an inode that has no further references. -/
theorem collect (pruned : Pruned inodes users inodes') {n : Nat} (fewer : users i ≤ n) :
    Pruned inodes users (collect inodes' n i) := by
  unfold Names.collect
  split
  next lapsed =>
    intro j
    by_cases here : j = i
    · subst here
      have same := pruned.same lapsed.1
      rw [Function.update_self, same]
      rw [same] at lapsed
      exact .inr ⟨⟨lapsed.1, lapsed.2.1, Nat.le_zero.mp (lapsed.2.2 ▸ fewer)⟩, rfl⟩
    · rw [Function.update_of_ne here]
      exact pruned j
  · exact pruned

theorem eq_of_kept (pruned : Pruned inodes (fun j => users j + extra.count j) inodes') (kept : Kept inodes users extra) :
    inodes' = inodes :=
  funext fun i => (pruned i).resolve_right fun freed => kept i freed.1

end Pruned

/-- How many inodes are in the cache by the references of others. -/
def inCache (users : Nat → Nat) : Nat := ((List.range ninodes).filter fun i => 0 < users i).length

theorem Busy.cached_le (busy : Busy inodes procs users extra held s) : s.cached ≤ inCache users + extra.length := by
  have covered : ((List.range ninodes).filter fun i => 0 < s.ref i) ⊆
      ((List.range ninodes).filter fun i => 0 < users i) ++ extra := by
    intro i mem
    obtain ⟨inside, used⟩ := List.mem_filter.mp mem
    have pos := of_decide_eq_true used
    rw [busy.ref] at pos
    rw [List.mem_append, List.mem_filter, decide_eq_true_eq]
    by_cases others : 0 < users i
    · exact .inl ⟨inside, others⟩
    · exact .inr (List.count_pos_iff.mp (by omega))
  have once : ((List.range ninodes).filter fun i => 0 < s.ref i).Nodup := List.nodup_range.filter _
  have fewer := (List.subperm_of_subset once covered).length_le
  rwa [List.length_append] at fewer

/-! ## The rules -/

section Rules

variable {inodes' : Inodes}

theorem wp_iput_pruned (busy : Busy inodes' procs users (i :: extra) held s)
    (pruned : Pruned inodes (fun j => users j + extra.count j) inodes') (asleep : i ∈ held → fail .asleep) :
    wp (iput i)
      (fun _ s' => ∃ inodes', Pruned inodes (fun j => users j + extra.count j) inodes' ∧
        Busy inodes' procs users extra held s') fail s := by
  refine wp_mono (wp_iput_any busy asleep) ?_
  intro _ _ put
  refine ⟨_, ?_, put⟩
  split
  · exact pruned.collect (Nat.le_refl _)
  · exact pruned

/-- The walk stops only if the cache is full, if it meets an inode that the call has locked, or at
an inode without a type. -/
theorem wp_walk {nameiparent : Bool} (busy : Busy inodes' procs users (i :: extra) held s)
    (pruned : Pruned inodes (fun j => users j + extra.count j) inodes')
    (full : ninode ≤ inCache users + extra.length + 1 → fail .igetNoInodes) (asleep : held ≠ [] → fail .asleep)
    (missing : ∀ j ∈ searched inodes path i,
      (inodes j).type = .free ∨ (inodes j).Lapsed (users j + extra.count j) → fail .ilockNoType) :
    wp (walk nameiparent path i)
      (fun res s' => res = find inodes nameiparent path i ∧
        ∃ inodes', Pruned inodes (fun j => users j + extra.count j) inodes' ∧
          Busy inodes' procs users (arrived res extra) held s') fail s := by
  have sleeps : i ∈ held → fail .asleep := fun mem => asleep (List.ne_nil_of_mem mem)
  induction path generalizing i s inodes' with
  | nil =>
    unfold walk find
    split
    · refine wp_bind (wp_iput_pruned busy pruned sleeps) ?_
      intro _ _ put
      exact ⟨rfl, put⟩
    · exact ⟨rfl, inodes', pruned, busy⟩
  | cons name path ih =>
    unfold walk find
    have first := missing i (mem_searched_self name path i)
    refine wp_bind (wp_ilock_or busy (.head _) (fun free => first (pruned.free free)) sleeps) ?_
    rintro _ _ ⟨rfl, alloc, locked⟩
    -- the inode is not one that the walk has freed
    have same := pruned.same alloc
    have release : ∀ (more : List Nat) {t : State Pid},
        Busy inodes' procs users (i :: (more ++ extra)) (i :: held) t →
        wp (iunlockput i) (fun _ s' => ∃ inodes', Pruned inodes (fun j => users j + extra.count j) inodes' ∧
          Busy inodes' procs users (more ++ extra) held s') fail t := by
      intro more t busy
      refine wp_mono (wp_iunlockput busy) ?_
      intro _ _ put
      refine ⟨_, pruned.collect ?_, put⟩
      rw [List.count_append]
      omega
    rw [same]
    split
    · refine wp_bind (release [] locked) ?_
      intro _ _ put
      exact ⟨rfl, put⟩
    next isDir =>
      have isDir := not_not.mp isDir
      split
      · refine wp_bind (wp_iunlock locked) ?_
        intro _ _ unlocked
        exact ⟨rfl, inodes', pruned, unlocked.1⟩
      · refine wp_bind (wp_dirlookup_or locked name (fun other => absurd (same ▸ isDir) other) fun many => full ?_) ?_
        · have most := locked.cached_le
          rw [List.length_cons] at most
          omega
        rintro res _ ⟨found, -, looked⟩
        rw [same] at found
        rw [← found]
        cases res with
        | none =>
          refine wp_bind (release [] looked) ?_
          intro _ _ put
          exact ⟨rfl, put⟩
        | some entry =>
          obtain ⟨off, next⟩ := entry
          refine wp_bind (release [next] looked.swap) ?_
          rintro _ _ ⟨inodes'', pruned', put⟩
          have step : lookup inodes i name = some next := lookup_eq_some.mpr ⟨isDir, off, found.symm⟩
          refine ih put pruned' (fun j mem => missing j (mem_searched_cons step mem)) ?_
          exact fun mem => asleep (List.ne_nil_of_mem mem)

section

variable {cwd : Nat} {path : Path} {nameiparent : Bool} (busy : Busy inodes procs users extra held s)

include busy

theorem wp_namex_or (present : 0 < users cwd) (full : ninode ≤ inCache users + extra.length + 1 → fail .igetNoInodes)
    (asleep : held ≠ [] → fail .asleep)
    (missing : ∀ j ∈ searched inodes (elements path) (origin cwd path),
      (inodes j).type = .free ∨ (inodes j).Lapsed (users j + extra.count j) → fail .ilockNoType) :
    wp (namex cwd path nameiparent)
      (fun res s' => res = find inodes nameiparent (elements path) (origin cwd path) ∧
        ∃ inodes', Pruned inodes (fun j => users j + extra.count j) inodes' ∧
          Busy inodes' procs users (arrived res extra) held s') fail s := by
  unfold namex start
  unfold origin at missing ⊢
  split at missing
  next absolute =>
    rw [if_pos absolute, if_pos absolute]
    refine wp_bind (wp_iget busy fun many => full (by have most := busy.cached_le; omega)) ?_
    intro _ _ started
    exact wp_walk started (.refl inodes _) full asleep missing
  next relative =>
    rw [if_neg relative, if_neg relative]
    refine wp_bind (wp_idup busy present) ?_
    intro _ _ started
    exact wp_walk started (.refl inodes _) full asleep missing

theorem wp_namex (kept : Kept inodes users extra) (present : 0 < users cwd)
    (missing : ∀ j, Visits inodes cwd j → (inodes j).type = .free → lost) :
    wp (namex cwd path nameiparent)
      (fun res s' => res = find inodes nameiparent (elements path) (origin cwd path) ∧
        Busy inodes procs users (arrived res extra) held s') (Unless lost) s := by
  refine wp_mono (wp_namex_or busy present (fun _ => unless_of_ne (by decide)) (fun _ => unless_of_ne (by decide)) ?_) ?_
  · rintro j mem (free | lapsed) -
    · exact missing j (Visits.searched mem) free
    · exact absurd lapsed (kept j)
  · rintro res s' ⟨found, inodes', pruned, walked⟩
    rw [pruned.eq_of_kept kept] at walked
    exact ⟨found, walked⟩

end

end Rules

end Xv6Simplesh.Names
