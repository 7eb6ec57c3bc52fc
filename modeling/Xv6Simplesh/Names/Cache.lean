import Xv6Simplesh.Names.Tree

/-! # References to inodes

Between two calls the references to an inode are those of the processes: current directories and
open files.  A call that runs has some references more, and locks.  `Busy` says which, and what the
rest of the cache is like; the rules after it say what the functions on inodes do to it.  An inode
is freed by `iput` when its last reference goes and it has no links.  Between two calls an inode
without links is there only while some process refers to it.
-/

namespace Xv6Simplesh.Names

open Library Library.Command Function

/-- The inode as `iput` leaves it when it frees it. -/
def Inode.freed (node : Inode) : Inode := { node with type := .free, slots := [] }

/-- Inode `i` is in use and has no links, and there are `users` references to it. -/
def Inode.Lapsed (node : Inode) (users : Nat) : Prop := node.type ≠ .free ∧ node.nlink = 0 ∧ users = 0

instance (node : Inode) (users : Nat) : Decidable (node.Lapsed users) := by
  unfold Inode.Lapsed
  infer_instance

/-- What `iput` does to the inodes when it leaves `users` references to `i`. -/
def collect (inodes : Inodes) (users i : Nat) : Inodes :=
  if (inodes i).Lapsed users then update inodes i (inodes i).freed else inodes

variable {Pid : Type}

/-- A state inside of a call.  `users` counts the references to inodes that are not the call's, and
`extra` are those that are; `held` are the inodes that it has locked. -/
structure Busy (inodes : Inodes) (procs : Pid → Proc) (users : Nat → Nat) (extra held : List Nat)
    (s : State Pid) : Prop where
  disk : s.inodes = inodes
  procs : s.procs = procs
  ref : ∀ i, s.ref i = users i + extra.count i
  locked : ∀ i, s.locked i = decide (i ∈ held)
  once : held.Nodup
  covered : ∀ i ∈ held, i ∈ extra
  /-- Who keeps a reference to an inode has locked it once. -/
  valid : ∀ i, 0 < users i → s.valid i = true ∨ i = rootIno
  loaded : ∀ i ∈ held, s.valid i = true
  typed : ∀ i, 0 < s.ref i → s.valid i = true → (inodes i).type ≠ .free

/-- The inodes without links are those that somebody refers to. -/
def Kept (inodes : Inodes) (users : Nat → Nat) (extra : List Nat) : Prop :=
  ∀ i, ¬ (inodes i).Lapsed (users i + extra.count i)

/-- A call may stop in any way, but for want of a type only if `lost`. -/
def Unless (lost : Prop) (stop : Stop) : Prop := stop = .ilockNoType → lost

/-! ## The functions on inodes -/

section Rules

variable {inodes : Inodes} {procs : Pid → Proc} {users : Nat → Nat} {extra held : List Nat} {s : State Pid}
  {i j : Nat} {lost : Prop} {fail : Stop → Prop}

theorem unless_of_ne {stop : Stop} (other : stop ≠ .ilockNoType) : Unless lost stop := fun same => absurd same other

theorem collect_of_kept {n : Nat} (kept : ¬ (inodes i).Lapsed n) : collect inodes n i = inodes := if_neg kept

theorem Kept.cons (kept : Kept inodes users extra) (j : Nat) : Kept inodes users (j :: extra) := by
  rintro i ⟨alloc, linkless, unused⟩
  rw [List.count_cons] at unused
  exact kept i ⟨alloc, linkless, by omega⟩

variable {users' : Nat → Nat}

theorem Kept.mono (kept : Kept inodes users extra) (more : ∀ j, users j ≤ users' j) : Kept inodes users' extra := by
  rintro i ⟨alloc, linkless, unused⟩
  have fewer := more i
  exact kept i ⟨alloc, linkless, by omega⟩

namespace Busy

section

variable (busy : Busy inodes procs users extra held s)

include busy

theorem referred (mem : i ∈ extra) : 0 < s.ref i := by
  have pos := List.count_pos_iff.mpr mem
  rw [busy.ref]
  omega

theorem typed_of_held (mem : i ∈ held) : (inodes i).type ≠ .free :=
  busy.typed i (busy.referred (busy.covered i mem)) (busy.loaded i mem)

theorem perm {extra' held' : List Nat} (more : extra.Perm extra')
    (locks : held.Perm held') : Busy inodes procs users extra' held' s :=
  { busy with
    ref := fun i => by rw [busy.ref, more.count_eq]
    locked := fun i => by rw [busy.locked, decide_eq_decide, locks.mem_iff]
    once := locks.nodup_iff.mp busy.once
    covered := fun i mem => more.mem_iff.mp (busy.covered i (locks.mem_iff.mpr mem))
    loaded := fun i mem => busy.loaded i (locks.mem_iff.mpr mem) }

end

/-- The two inodes that a call works on, in the other order. -/
theorem swap {rest : List Nat} (busy : Busy inodes procs users (i :: j :: rest) held s) :
    Busy inodes procs users (j :: i :: rest) held s :=
  busy.perm (.swap j i rest) (.refl held)

theorem swap_held {rest : List Nat} (busy : Busy inodes procs users extra (i :: j :: rest) s) :
    Busy inodes procs users extra (j :: i :: rest) s :=
  busy.perm (.refl extra) (.swap j i rest)

section

variable (busy : Busy inodes procs users extra held s)

include busy

theorem reference (used : 0 < s.ref i) :
    Busy inodes procs users (i :: extra) held { s with ref := update s.ref i (s.ref i + 1) } where
  disk := busy.disk
  procs := busy.procs
  ref j := by
    simp only [update_apply, List.count_cons, beq_iff_eq, eq_comm (a := i)]
    split
    next same =>
      rw [same, busy.ref]
      omega
    · exact busy.ref j
  locked := busy.locked
  once := busy.once
  covered j mem := List.mem_cons_of_mem i (busy.covered j mem)
  valid := busy.valid
  loaded := busy.loaded
  typed j pos valid := by
    refine busy.typed j ?_ valid
    simp only [update_apply] at pos
    split at pos
    next same => rwa [same]
    · exact pos

/-- The first reference to an inode, which is not loaded yet. -/
theorem enter (unused : s.ref i = 0) :
    Busy inodes procs users (i :: extra) held
      { s with ref := update s.ref i 1, valid := update s.valid i false } where
  disk := busy.disk
  procs := busy.procs
  ref j := by
    simp only [update_apply, List.count_cons, beq_iff_eq, eq_comm (a := i)]
    split
    next same =>
      rw [same, ← Nat.add_assoc, ← busy.ref, unused]
    · exact busy.ref j
  locked := busy.locked
  once := busy.once
  covered j mem := List.mem_cons_of_mem i (busy.covered j mem)
  valid j pos := by
    have other : j ≠ i := by
      rintro rfl
      have := busy.ref j
      omega
    simpa only [update_of_ne other] using busy.valid j pos
  loaded j mem := by
    have other : j ≠ i := by
      rintro rfl
      have := busy.referred (busy.covered j mem)
      omega
    simpa only [update_of_ne other] using busy.loaded j mem
  typed j pos valid := by
    by_cases same : j = i
    · subst same
      simp only [update_self, Bool.false_eq_true] at valid
    · simp only [update_of_ne same] at pos valid
      exact busy.typed j pos valid

theorem takeOver
    (given : ∀ j, users j = users' j + if j = i then 1 else 0) : Busy inodes procs users' (i :: extra) held s :=
  { busy with
    ref := fun j => by
      simp only [busy.ref, given j, List.count_cons, beq_iff_eq, eq_comm (a := i)]
      omega
    covered := fun j mem => List.mem_cons_of_mem i (busy.covered j mem)
    valid := fun j pos => busy.valid j (by rw [given]; omega) }

end

theorem handOver (busy : Busy inodes procs users (i :: extra) held s) (loaded : s.valid i = true) (unlocked : i ∉ held) (given : ∀ j, users' j = users j + if j = i then 1 else 0) :
    Busy inodes procs users' extra held s :=
  { busy with
    ref := fun j => by
      simp only [busy.ref, given j, List.count_cons, beq_iff_eq, eq_comm (a := i)]
      omega
    covered := fun j mem => (List.mem_cons.mp (busy.covered j mem)).resolve_left fun same =>
      unlocked (same ▸ mem)
    valid := fun j pos => by
      by_cases same : j = i
      · exact .inl (same ▸ loaded)
      · rw [given, if_neg same] at pos
        exact busy.valid j pos }

end Busy

section

variable (busy : Busy inodes procs users extra held s)

include busy

theorem wp_iget (full : ninode ≤ s.cached → fail .igetNoInodes) :
    wp (iget i) (fun _ s' => Busy inodes procs users (i :: extra) held s') fail s := by
  apply wp_get
  split
  next used => exact busy.reference used
  next unused =>
    split
    next many => exact full many
    · exact busy.enter (by omega)

theorem wp_idup (used : 0 < users i) :
    wp (idup i) (fun _ s' => Busy inodes procs users (i :: extra) held s') fail s :=
  busy.reference (by rw [busy.ref]; omega)

theorem wp_acquiresleep (asleep : i ∈ held → fail .asleep) :
    wp (acquiresleep i)
      (fun _ s' => s.locked i = false ∧ s' = { s with locked := update s.locked i true }) fail s := by
  apply wp_get
  split
  next locked => exact asleep (by simpa only [busy.locked, decide_eq_true_eq] using locked)
  next unlocked => exact ⟨Bool.eq_false_iff.mpr unlocked, rfl⟩

theorem wp_ilock_or (mem : i ∈ extra)
    (missing : (inodes i).type = .free → fail .ilockNoType) (asleep : i ∈ held → fail .asleep) :
    wp (ilock i) (fun node s' => node = inodes i ∧ (inodes i).type ≠ .free ∧ Busy inodes procs users extra (i :: held) s')
      fail s := by
  have referred := busy.referred mem
  obtain rfl := busy.disk
  apply wp_get
  rw [if_neg (by omega)]
  refine wp_bind (wp_acquiresleep busy asleep) ?_
  rintro - _ ⟨unlocked, rfl⟩
  have absent : i ∉ held := by simpa only [busy.locked, decide_eq_false_iff_not] using unlocked
  have locked : ∀ j, update s.locked i true j = decide (j ∈ i :: held) := by
    intro j
    by_cases same : j = i
    · simp [same]
    · simp [same, busy.locked]
  have covered : ∀ j ∈ i :: held, j ∈ extra := by
    simpa only [List.forall_mem_cons] using ⟨mem, busy.covered⟩
  have once : (i :: held).Nodup := List.nodup_cons.mpr ⟨absent, busy.once⟩
  apply wp_get
  split
  next valid =>
    refine ⟨rfl, busy.typed i referred valid, rfl, busy.procs, busy.ref, locked, once, covered, busy.valid, ?_,
      busy.typed⟩
    simpa only [List.forall_mem_cons] using ⟨valid, busy.loaded⟩
  · split
    next free => exact missing free
    next alloc =>
      have valid : ∀ j, s.valid j = true → update s.valid i true j = true := by
        intro j valid
        rw [update_apply, valid, ite_self]
      apply wp_set
      refine ⟨rfl, alloc, rfl, busy.procs, busy.ref, locked, once, covered, fun j pos => ?_, ?_,
        fun j pos loaded => ?_⟩
      · exact (busy.valid j pos).imp (valid j) id
      · simp only [List.forall_mem_cons, update_self, true_and]
        exact fun j held => valid j (busy.loaded j held)
      · by_cases same : j = i
        · rwa [same]
        · exact busy.typed j pos (by simpa only [update_of_ne same] using loaded)

theorem wp_ilock (mem : i ∈ extra) (missing : (inodes i).type = .free → lost) :
    wp (ilock i) (fun node s' => node = inodes i ∧ (inodes i).type ≠ .free ∧ Busy inodes procs users extra (i :: held) s')
      (Unless lost) s :=
  wp_ilock_or busy mem (fun free _ => missing free) fun _ => unless_of_ne (by decide)

end

theorem wp_iunlock (busy : Busy inodes procs users extra (i :: held) s) :
    wp (iunlock i) (fun _ s' => Busy inodes procs users extra held s' ∧ s'.valid i = true) fail s := by
  apply wp_get
  have referred := busy.referred (busy.covered i (.head _))
  split
  next wrong =>
    rcases wrong with unlocked | unused
    · simp [busy.locked] at unlocked
    · omega
  · obtain ⟨absent, once⟩ := List.nodup_cons.mp busy.once
    refine ⟨⟨busy.disk, busy.procs, busy.ref, fun j => ?_, once, ?_, busy.valid, ?_, busy.typed⟩, ?_⟩
    · by_cases same : j = i
      · simp [same, absent]
      · simp [same, busy.locked]
    · exact fun j mem => busy.covered j (List.mem_cons_of_mem i mem)
    · exact fun j mem => busy.loaded j (List.mem_cons_of_mem i mem)
    · exact busy.loaded i (.head _)

section

variable (busy : Busy inodes procs users (i :: extra) held s)

include busy

theorem Busy.drop (unlocked : i ∉ held) :
    Busy inodes procs users extra held { s with ref := update s.ref i (s.ref i - 1) } where
  disk := busy.disk
  procs := busy.procs
  ref j := by
    have count := busy.ref j
    simp only [List.count_cons, beq_iff_eq, eq_comm (a := i)] at count
    simp only [update_apply]
    split
    next same =>
      subst same
      simp only [if_true] at count
      omega
    next other =>
      simp only [other, if_false] at count
      exact count
  locked := busy.locked
  once := busy.once
  covered j mem := by
    cases busy.covered j mem with
    | head => exact absurd mem unlocked
    | tail _ mem => exact mem
  valid := busy.valid
  loaded := busy.loaded
  typed j pos valid := by
    refine busy.typed j ?_ valid
    simp only [update_apply] at pos
    split at pos
    next same =>
      subst same
      omega
    · exact pos

/-- `reclaim` where `i` has its last reference and no links. -/
theorem Busy.reclaim (unlocked : i ∉ held) (unused : users i + extra.count i = 0) :
    Busy (update inodes i (inodes i).freed) procs users (i :: extra) held
      { s.setInode i (s.inodes i).freed with valid := update s.valid i false } where
  disk := by rw [State.setInode, busy.disk]
  procs := busy.procs
  ref := busy.ref
  locked := busy.locked
  once := busy.once
  covered := busy.covered
  valid j pos := by
    have other : j ≠ i := by
      rintro rfl
      omega
    simpa only [update_of_ne other] using busy.valid j pos
  loaded j mem := by
    have other : j ≠ i := fun same => unlocked (same ▸ mem)
    simpa only [update_of_ne other] using busy.loaded j mem
  typed j pos valid := by
    by_cases same : j = i
    · subst same
      simp only [update_self, Bool.false_eq_true] at valid
    · simp only [update_of_ne same] at valid ⊢
      exact busy.typed j pos valid

theorem wp_iput_any (asleep : i ∈ held → fail .asleep) :
    wp (iput i)
      (fun _ s' => Busy (if s.valid i then collect inodes (users i + extra.count i) i else inodes) procs users extra
        held s') fail s := by
  refine wp_bind (wp_acquiresleep busy asleep) ?_
  rintro - _ ⟨unlocked, rfl⟩
  have absent : i ∉ held := by simpa only [busy.locked, decide_eq_false_iff_not] using unlocked
  have again : update (update s.locked i true) i false = s.locked := by
    rw [update_idem, ← unlocked, update_eq_self]
  have last : s.ref i = 1 ↔ users i + extra.count i = 0 := by
    rw [busy.ref, List.count_cons_self]
    omega
  apply wp_modify
  apply wp_modify
  change Busy _ _ _ _ _ _
  unfold State.reclaim collect
  by_cases freed : s.valid i = true ∧ (s.inodes i).nlink = 0 ∧ s.ref i = 1
  · obtain ⟨valid, linkless, one⟩ := freed
    have lapsed : (inodes i).Lapsed (users i + extra.count i) :=
      ⟨busy.typed i (by omega) valid, busy.disk ▸ linkless, last.mp one⟩
    rw [if_pos valid, if_pos lapsed, if_pos ⟨valid, linkless, one⟩]
    have dropped := (busy.reclaim absent lapsed.2.2).drop absent
    simpa only [State.setInode, again, Inode.freed] using dropped
  · have stays : ¬ (s.valid i = true ∧ (inodes i).Lapsed (users i + extra.count i)) := by
      rintro ⟨valid, -, linkless, unused⟩
      exact freed ⟨valid, busy.disk ▸ linkless, last.mpr unused⟩
    rw [← ite_and, if_neg stays, if_neg freed]
    simpa only [again] using busy.drop absent

/-- `known`: either the inode is loaded, or there is nothing to free. -/
theorem wp_iput_or
    (known : s.valid i = true ∨ ¬ (inodes i).Lapsed (users i + extra.count i)) (asleep : i ∈ held → fail .asleep) :
    wp (iput i) (fun _ s' => Busy (collect inodes (users i + extra.count i) i) procs users extra held s') fail s := by
  refine wp_mono (wp_iput_any busy asleep) ?_
  intro _ _ put
  rcases known with valid | stays
  · rwa [if_pos valid] at put
  · rwa [collect_of_kept stays, ite_self, ← collect_of_kept stays] at put

theorem wp_iput (known : s.valid i = true ∨ ¬ (inodes i).Lapsed (users i + extra.count i)) :
    wp (iput i) (fun _ s' => Busy (collect inodes (users i + extra.count i) i) procs users extra held s')
      (Unless lost) s :=
  wp_iput_or busy known fun _ => unless_of_ne (by decide)

theorem wp_iput_kept (kept : Kept inodes users extra) :
    wp (iput i) (fun _ s' => Busy inodes procs users extra held s') (Unless lost) s := by
  refine wp_mono (wp_iput busy (.inr (kept i))) ?_
  intro _ _ put
  rwa [collect_of_kept (kept i)] at put

end

theorem wp_iunlockput (busy : Busy inodes procs users (i :: extra) (i :: held) s) :
    wp (iunlockput i) (fun _ s' => Busy (collect inodes (users i + extra.count i) i) procs users extra held s') fail s :=
  wp_bind (wp_iunlock busy) fun _ _ unlocked => wp_iput_or unlocked.1 (.inl unlocked.2) fun again =>
    absurd again (List.nodup_cons.mp busy.once).1

theorem wp_iunlockput_kept (busy : Busy inodes procs users (i :: extra) (i :: held) s)
    (kept : Kept inodes users extra) :
    wp (iunlockput i) (fun _ s' => Busy inodes procs users extra held s') fail s := by
  refine wp_mono (wp_iunlockput busy) ?_
  intro _ _ put
  rwa [collect_of_kept (kept i)] at put

theorem wp_updateInode (busy : Busy inodes procs users extra held s) {change : Inode → Inode}
    (typed : (change (inodes i)).type = (inodes i).type) :
    wp (updateInode i change)
      (fun _ s' => Busy (update inodes i (change (inodes i))) procs users extra held s') (Unless lost) s := by
  obtain rfl := busy.disk
  refine ⟨rfl, busy.procs, busy.ref, busy.locked, busy.once, busy.covered, busy.valid, busy.loaded,
    fun j pos valid => ?_⟩
  have alloc := busy.typed j pos valid
  by_cases same : j = i
  · subst same
    rwa [update_self, typed]
  · rwa [update_of_ne same]

/-- The inode that `ialloc` takes. -/
def freeInode (inodes : Inodes) : Option Nat :=
  (List.range' 1 (ninodes - 1)).find? fun inum => (inodes inum).type = .free

theorem freeInode_some (found : freeInode inodes = some i) : (inodes i).type = .free ∧ 0 < i ∧ i < ninodes := by
  have free := List.find?_some found
  have range := List.mem_range'_1.mp (List.mem_of_find?_eq_some found)
  refine ⟨of_decide_eq_true free, by omega, ?_⟩
  have total : ninodes = 200 := rfl
  omega

theorem wp_ialloc (busy : Busy inodes procs users extra held s) {type : Kind} (proper : type ≠ .free) :
    wp (ialloc type)
      (fun i s' => freeInode inodes = some i ∧
        Busy (update inodes i { Inode.blank with type }) procs users (i :: extra) held s') (Unless lost) s := by
  apply wp_get
  have same : ((List.range' 1 (ninodes - 1)).find? fun inum => (s.inodes inum).type = .free) = freeInode inodes := by
    rw [freeInode, busy.disk]
  rw [same]
  split
  · exact unless_of_ne (by decide)
  next i found =>
    have written : Busy (update inodes i { Inode.blank with type }) procs users extra held
        (s.setInode i { Inode.blank with type }) := by
      refine ⟨?_, busy.procs, busy.ref, busy.locked, busy.once, busy.covered, busy.valid, busy.loaded,
        fun j pos valid => ?_⟩
      · rw [State.setInode, busy.disk]
      · by_cases this : j = i
        · rwa [this, update_self]
        · rw [update_of_ne this]
          exact busy.typed j pos valid
    apply wp_set
    refine wp_bind (wp_iget written fun _ => unless_of_ne (by decide)) ?_
    intro _ _ entered
    exact ⟨found, entered⟩

/-! ## Directories -/

theorem wp_dirlookup_or (busy : Busy inodes procs users extra held s) (name : Name)
    (notDir : (inodes i).type ≠ .dir → fail .dirlookupNotDir) (full : ninode ≤ s.cached → fail .igetNoInodes) :
    wp (dirlookup i name)
      (fun res s' => res = scan name (inodes i).slots 0 ∧ (inodes i).type = .dir ∧
        Busy inodes procs users (match res with | some (_, ip) => ip :: extra | none => extra) held s') fail s := by
  apply wp_get
  rw [busy.disk]
  split
  next other => exact notDir other
  next isDir =>
    have isDir := not_not.mp isDir
    split
    next absent => exact ⟨absent.symm, isDir, busy⟩
    next off ip found =>
      refine wp_bind (wp_iget busy full) ?_
      intro _ _ entered
      exact ⟨found.symm, isDir, entered⟩

theorem wp_dirlookup (busy : Busy inodes procs users extra held s) (name : Name) :
    wp (dirlookup i name)
      (fun res s' => res = scan name (inodes i).slots 0 ∧ (inodes i).type = .dir ∧
        Busy inodes procs users (match res with | some (_, ip) => ip :: extra | none => extra) held s')
      (Unless lost) s :=
  wp_dirlookup_or busy name (fun _ => unless_of_ne (by decide)) fun _ => unless_of_ne (by decide)

/-- The inodes after `dirlink` has written an entry. -/
def addEntry (inodes : Inodes) (dp : Nat) (name : Name) (inum : Nat) : Inodes :=
  update inodes dp
    { inodes dp with
      slots := writeSlot (inodes dp).slots ((inodes dp).slots.findIdx fun de => de.inum = 0) ⟨inum % 65536, name⟩ }

theorem wp_dirlink_old (busy : Busy inodes procs users extra held s) (kept : Kept inodes users extra) {name : Name}
    (present : scan name (inodes i).slots 0 ≠ none) (inum : Nat) :
    wp (dirlink i name inum) (fun res s' => res = -1 ∧ Busy inodes procs users extra held s') (Unless lost) s := by
  refine wp_bind (wp_dirlookup busy name) ?_
  rintro res s' ⟨found, -, looked⟩
  cases res with
  | none => exact absurd found.symm present
  | some entry =>
    refine wp_bind (wp_iput_kept looked kept) ?_
    intro _ _ put
    exact ⟨rfl, put⟩

theorem wp_dirlink_new (busy : Busy inodes procs users extra held s) {name : Name}
    (absent : scan name (inodes i).slots 0 = none) (inum : Nat) :
    wp (dirlink i name inum) (fun res s' => res = 0 ∧ Busy (addEntry inodes i name inum) procs users extra held s')
      (Unless lost) s := by
  refine wp_bind (wp_dirlookup busy name) ?_
  rintro res s' ⟨found, -, looked⟩
  rw [absent] at found
  subst found
  apply wp_get
  dsimp only
  split
  · exact unless_of_ne nofun
  · rw [looked.disk]
    exact wp_bind (wp_updateInode looked rfl) fun _ _ written => ⟨rfl, written⟩

end Rules

end Xv6Simplesh.Names
