import Xv6Simplesh.Names.Walk

/-! # What a call does to the inodes

A call that returns has changed some inodes, and every inode that has neither links nor references
then is free.  The plans say the first, as functions of the inodes before the call, and `sweep` does
the second; the rules after them say that the calls do just this.
-/

namespace Xv6Simplesh.Names

open Library Library.Command Function

/-! ## Inodes that lapse -/

/-- Every inode that has neither links nor references is freed. -/
def sweep (inodes : Inodes) (users : Nat → Nat) : Inodes := fun i =>
  if (inodes i).Lapsed (users i) then (inodes i).freed else inodes i

section Sweep

variable {inodes : Inodes} {users users' : Nat → Nat} {i j : Nat}

theorem sweep_of_kept (kept : Kept inodes users []) : sweep inodes users = inodes :=
  funext fun i => if_neg (kept i)

theorem sweep_kept (inodes : Inodes) (users : Nat → Nat) : Kept (sweep inodes users) users [] := by
  intro i lapsed
  have swept : ¬ (inodes i).Lapsed (users i) := by
    intro before
    have type := lapsed.1
    rw [sweep, if_pos before] at type
    exact type rfl
  rw [sweep, if_neg swept] at lapsed
  exact swept lapsed

theorem not_lapsed_of_sweep (alloc : (sweep inodes users i).type ≠ .free) : ¬ (inodes i).Lapsed (users i) := by
  intro lapsed
  rw [sweep, if_pos lapsed] at alloc
  exact alloc rfl

theorem sweep_congr (same : ∀ i, (inodes i).Lapsed (users i) ↔ (inodes i).Lapsed (users' i)) :
    sweep inodes users = sweep inodes users' := by
  funext i
  simp only [sweep, same]

theorem collect_apply (inodes : Inodes) (n i j : Nat) :
    collect inodes n i j = if j = i ∧ (inodes i).Lapsed n then (inodes j).freed else inodes j := by
  unfold collect
  by_cases same : j = i
  · subst same
    split <;> simp [*]
  · split <;> simp [same]

theorem collect_eq_sweep (others : ∀ j, j ≠ i → ¬ (inodes j).Lapsed (users j)) :
    collect inodes (users i) i = sweep inodes users := by
  funext j
  rw [collect_apply, sweep]
  by_cases same : j = i
  · subst same
    simp only [true_and]
  · simp only [same, false_and, if_false, others j same]

theorem collect_sweep (given : ∀ j, users j = users' j + if j = i then 1 else 0) :
    collect (sweep inodes users) (users' i) i = sweep inodes users' := by
  funext j
  have count := given j
  rw [collect_apply]
  by_cases same : j = i
  · subst same
    have before : ¬ (inodes j).Lapsed (users j) := fun lapsed => by
      have unused := lapsed.2.2
      rw [if_pos rfl] at count
      omega
    simp only [sweep, before, if_false, true_and]
  · rw [if_neg same] at count
    simp only [same, false_and, if_false, sweep, count, Nat.add_zero]

end Sweep

/-! ## Plans -/

/-- The entries `.` and `..` of a new directory. -/
def dotted (inodes : Inodes) (type : Kind) (dp ip : Nat) : Inodes :=
  if type = .dir then addEntry (addEntry (update inodes dp (inodes dp).addLink) ip dot ip) ip dotdot dp
  else inodes

/-- `create` makes `ip` and the name for it in `dp`. -/
def made (inodes : Inodes) (type : Kind) (major minor : Int) (dp : Nat) (name : Name) (ip : Nat) : Inodes :=
  addEntry (dotted (update inodes ip ⟨type, major, minor, 1, []⟩) type dp ip) dp name ip

def created (inodes : Inodes) (cwd : Nat) (path : Path) (type : Kind) (major minor : Int) : Inodes × Option Nat :=
  match find inodes true (elements path) (origin cwd path) with
  | none => (inodes, none)
  | some (dp, name) =>
    match scan name (inodes dp).slots 0 with
    | some (_, ip) => (inodes, if type = .file ∧ (inodes ip).type = .file then some ip else none)
    | none =>
      match freeInode inodes with
      | none => (inodes, none)
      | some ip => (made inodes type major minor dp name ip, some ip)

def opened (inodes : Inodes) (cwd : Nat) (path : Path) (omode : UInt32) : Inodes × Option Nat :=
  if omode &&& oCreate ≠ 0 then created inodes cwd path .file 0 0
  else
    match find inodes false (elements path) (origin cwd path) with
    | none => (inodes, none)
    | some (ip, _) => (inodes, if (inodes ip).type = .dir ∧ omode ≠ oRdonly then none else some ip)

/-- The link that `sys_link` counts first. -/
def counted (inodes : Inodes) (ip : Nat) : Inodes := update inodes ip (inodes ip).addLink

def linked (inodes : Inodes) (cwd : Nat) (old new : Path) : Inodes :=
  match find inodes false (elements old) (origin cwd old) with
  | none => inodes
  | some (ip, _) =>
    if (inodes ip).type = .dir ∨ (inodes ip).type = .free then inodes
    else
      match find inodes true (elements new) (origin cwd new) with
      | none => inodes
      | some (dp, name) =>
        if scan name (inodes dp).slots 0 = none then
          addEntry (counted inodes ip) dp name ip
        else inodes

/-- `sys_unlink` clears the slot of `dp` that names `ip`. -/
def removed (inodes : Inodes) (dp off ip : Nat) : Inodes :=
  let node := { inodes dp with slots := writeSlot (inodes dp).slots off ⟨0, []⟩ }
  let node := if (inodes ip).type = .dir then node.dropLink else node
  update (update inodes dp node) ip (inodes ip).dropLink

def unlinked (inodes : Inodes) (cwd : Nat) (path : Path) : Inodes :=
  match find inodes true (elements path) (origin cwd path) with
  | none => inodes
  | some (dp, name) =>
    if name = dot ∨ name = dotdot then inodes
    else
      match scan name (inodes dp).slots 0 with
      | none => inodes
      | some (off, ip) =>
        if (inodes ip).type = .dir ∧ isdirempty (inodes ip) = false then inodes else removed inodes dp off ip

/-! ## Making names -/

section Calls

variable {Pid : Type} {inodes : Inodes} {procs : Pid → Proc} {users : Nat → Nat} {extra held : List Nat} {s : State Pid}
  {cwd dp ip j : Nat} {name : Name} {path : Path} {lost : Prop}

theorem addEntry_of_ne (other : j ≠ dp) (name : Name) (inum : Nat) : addEntry inodes dp name inum j = inodes j :=
  update_of_ne other _ _

theorem addEntry_type (inodes : Inodes) (dp : Nat) (name : Name) (inum j : Nat) :
    (addEntry inodes dp name inum j).type = (inodes j).type := by
  by_cases same : j = dp
  · rw [same, addEntry, update_self]
  · rw [addEntry_of_ne same]

theorem addEntry_nlink (inodes : Inodes) (dp : Nat) (name : Name) (inum j : Nat) :
    (addEntry inodes dp name inum j).nlink = (inodes j).nlink := by
  by_cases same : j = dp
  · rw [same, addEntry, update_self]
  · rw [addEntry_of_ne same]

theorem wp_createDots (busy : Busy inodes procs users extra held s) (ne : ip ≠ dp) (empty : (inodes ip).slots = [])
    (type : Kind) :
    wp (createDots type dp ip) (fun _ s' => Busy (dotted inodes type dp ip) procs users extra held s') (Unless lost) s := by
  unfold createDots dotted
  split
  next isDir =>
    have bare : (update inodes dp (inodes dp).addLink ip).slots = [] := by
      rw [update_of_ne ne, empty]
    refine wp_bind (wp_updateInode busy rfl) ?_
    intro _ _ counted
    refine wp_bind (wp_dirlink_new counted (by rw [bare]; rfl) ip) ?_
    rintro _ _ ⟨rfl, first⟩
    refine wp_bind (wp_dirlink_new first ?_ dp) ?_
    · rw [addEntry, update_self, bare]
      simp [scan, writeSlot, dot, dotdot]
    rintro _ _ ⟨rfl, snd⟩
    exact snd
  · exact busy

variable {type : Kind} {users' : Nat → Nat}

theorem dotted_of_ne (other : j ≠ ip) (other' : j ≠ dp) : dotted inodes type dp ip j = inodes j := by
  unfold dotted
  split
  · rw [addEntry_of_ne other, addEntry_of_ne other, update_of_ne other']
  · rfl

theorem made_of_ne {major minor : Int} (other : j ≠ ip) (other' : j ≠ dp) :
    made inodes type major minor dp name ip j = inodes j := by
  rw [made, addEntry_of_ne other', dotted_of_ne other other', update_of_ne other]

theorem dotted_type (inodes : Inodes) (type : Kind) (dp ip j : Nat) :
    (dotted inodes type dp ip j).type = (inodes j).type := by
  unfold dotted
  split
  · rw [addEntry_type, addEntry_type, update_apply]
    split
    next same =>
      rw [same]
      rfl
    · rfl
  · rfl

theorem made_type (inodes : Inodes) (type : Kind) (major minor : Int) (dp : Nat) (name : Name) (ip j : Nat) :
    (made inodes type major minor dp name ip j).type = if j = ip then type else (inodes j).type := by
  rw [made, addEntry_type, dotted_type, update_apply]
  split <;> rfl

theorem dotted_nlink (inodes : Inodes) (type : Kind) (dp ip j : Nat) :
    (dotted inodes type dp ip j).nlink =
      if j = dp ∧ type = .dir then short ((inodes j).nlink + 1) else (inodes j).nlink := by
  unfold dotted
  by_cases isDir : type = .dir
  · rw [if_pos isDir, addEntry_nlink, addEntry_nlink, update_apply]
    by_cases same : j = dp
    · rw [if_pos same, if_pos ⟨same, isDir⟩, same]
      rfl
    · rw [if_neg same, if_neg fun both => same both.1]
  · rw [if_neg isDir, if_neg fun both => isDir both.2]

theorem dotted_slots (ne : ip ≠ dp) : (dotted inodes type dp ip dp).slots = (inodes dp).slots := by
  unfold dotted
  split
  · rw [addEntry_of_ne ne.symm, addEntry_of_ne ne.symm, update_self]
    rfl
  · rfl

theorem made_nlink {major minor : Int} (ne : ip ≠ dp) (j : Nat) : (made inodes type major minor dp name ip j).nlink =
      if j = ip then 1 else if j = dp ∧ type = .dir then short ((inodes j).nlink + 1) else (inodes j).nlink := by
  rw [made, addEntry_nlink, dotted_nlink, update_apply]
  by_cases new : j = ip
  · rw [if_pos new, if_pos new, if_neg fun both => ne (new.symm.trans both.1)]
  · rw [if_neg new, if_neg new]

/-- A call at its start.  Its walks meet a free inode only if `lost`. -/
structure Ready (inodes : Inodes) (procs : Pid → Proc) (users : Nat → Nat) (cwd : Nat) (lost : Prop) (s : State Pid) :
    Prop where
  busy : Busy inodes procs users [] [] s
  kept : Kept inodes users []
  root : (inodes rootIno).type = .dir ∧ (inodes rootIno).nlink ≠ 0
  present : 0 < users cwd
  missing : ∀ j, Visits inodes cwd j → (inodes j).type = .free → lost

/-- The end of `create`, where there is no such name yet. -/
theorem wp_make (busy : Busy inodes procs users [dp] [dp] s) (kept : Kept inodes users [])
    (absent : scan name (inodes dp).slots 0 = none) (proper : type ≠ .free) (major minor : Int) :
    wp (do
        let ip ← ialloc type
        let _ ← ilock ip
        updateInode ip fun node => { node with major, minor, nlink := 1 }
        createDots type dp ip
        let linked ← dirlink dp name ip
        if linked < 0 then throw .createDirlink
        else do
          iunlockput dp
          pure (some ip))
      (fun res s' => ∃ ip, res = some ip ∧ freeInode inodes = some ip ∧
        Busy (sweep (made inodes type major minor dp name ip) users) procs users [ip] [ip] s')
      (Unless lost) s := by
  refine wp_bind (wp_ialloc busy proper) ?_
  rintro ip _ ⟨free, alloc⟩
  have ne : ip ≠ dp := by
    rintro rfl
    exact busy.typed_of_held (.head _) (freeInode_some free).1
  refine wp_bind (wp_ilock alloc (.head _) ?_) ?_
  · rw [update_self]
    exact fun none => absurd none proper
  rintro _ _ ⟨-, -, locked⟩
  refine wp_bind (wp_updateInode locked rfl) ?_
  intro _ _ written
  rw [update_self, update_idem] at written
  refine wp_bind (wp_createDots written ne (by rw [update_self]; rfl) type) ?_
  intro _ _ started
  refine wp_bind (wp_dirlink_new started ?_ ip) ?_
  · rw [dotted_slots ne, update_of_ne ne.symm, absent]
  rintro _ _ ⟨rfl, named⟩
  refine wp_bind (wp_iunlockput (named.swap_held.swap)) ?_
  intro _ _ put
  refine ⟨ip, rfl, free, ?_⟩
  rw [List.count_eq_zero.mpr (by simpa using ne.symm), Nat.add_zero] at put
  rwa [← collect_eq_sweep (i := dp)]
  intro other elsewhere lapsed
  by_cases new : other = ip
  · subst new
    have linkless := lapsed.2.1
    rw [made_nlink ne, if_pos rfl] at linkless
    cases linkless
  · rw [made_of_ne new elsewhere] at lapsed
    exact kept other lapsed

section

variable (ready : Ready inodes procs users cwd lost s)

include ready

theorem wp_create (proper : type ≠ .free) (major minor : Int) : wp (create cwd path type major minor)
      (fun res s' => res = (created inodes cwd path type major minor).2 ∧
        Busy (sweep (created inodes cwd path type major minor).1 users) procs users res.toList res.toList s')
      (Unless lost) s := by
  have unchanged := sweep_of_kept ready.kept
  refine wp_bind (wp_namex ready.busy ready.kept ready.present ready.missing) ?_
  rintro res _ ⟨found, walked⟩
  unfold created
  rw [← found]
  cases res with
  | none =>
    dsimp only
    rw [unchanged]
    exact ⟨rfl, walked⟩
  | some target =>
    obtain ⟨dp, name⟩ := target
    have visits := Visits.find found.symm
    refine wp_bind (wp_ilock walked (.head _) (ready.missing dp visits)) ?_
    rintro _ _ ⟨-, -, locked⟩
    refine wp_bind (wp_dirlookup locked name) ?_
    rintro res _ ⟨entry, isDir, looked⟩
    dsimp only
    rw [← entry]
    cases res with
    | some entry' =>
      obtain ⟨off, ip⟩ := entry'
      refine wp_bind (wp_iunlockput_kept looked.swap (ready.kept.cons ip)) ?_
      intro _ _ put
      refine wp_bind (wp_ilock put (.head _) (ready.missing ip ?_)) ?_
      · exact visits.trans (Leads.scan isDir entry.symm)
      rintro _ _ ⟨rfl, -, again⟩
      dsimp only
      rw [unchanged]
      split
      · exact ⟨rfl, again⟩
      · refine wp_bind (wp_iunlockput_kept again ready.kept) ?_
        intro _ _ put
        exact ⟨rfl, put⟩
    | none =>
      refine wp_mono (wp_make looked ready.kept entry.symm proper major minor) ?_
      rintro _ _ ⟨ip, rfl, free, made⟩
      rw [free]
      exact ⟨rfl, made⟩

theorem wp_createNode (proper : type ≠ .free) (major minor : Int) : wp (createNode cwd path type major minor)
      (fun _ s' => Busy (sweep (created inodes cwd path type major minor).1 users) procs users [] [] s')
      (Unless lost) s := by
  refine wp_bind (wp_create ready proper major minor) ?_
  rintro res _ ⟨-, busy⟩
  cases res with
  | none => exact busy
  | some ip => exact wp_bind (wp_iunlockput_kept busy (sweep_kept _ _)) fun _ _ put => put

theorem wp_openInode (omode : UInt32) :
    wp (openInode cwd path omode)
      (fun res s' => res = (opened inodes cwd path omode).2 ∧
        Busy (sweep (opened inodes cwd path omode).1 users) procs users res.toList res.toList s')
      (Unless lost) s := by
  unfold openInode opened
  split
  · exact wp_create ready (by decide) 0 0
  · refine wp_bind (wp_namex ready.busy ready.kept ready.present ready.missing) ?_
    rintro res _ ⟨found, walked⟩
    rw [← found]
    cases res with
    | none =>
      dsimp only
      rw [sweep_of_kept ready.kept]
      exact ⟨rfl, walked⟩
    | some target =>
      obtain ⟨ip, name⟩ := target
      refine wp_bind (wp_ilock walked (.head _) ?_) ?_
      · exact ready.missing ip (Visits.find found.symm)
      rintro _ _ ⟨rfl, -, locked⟩
      dsimp only
      rw [sweep_of_kept ready.kept]
      split
      · exact wp_bind (wp_iunlockput_kept locked ready.kept) fun _ _ put => ⟨rfl, put⟩
      · exact ⟨rfl, locked⟩

end

/-! ## Links -/

theorem short_of_undone {n : Int} (exact : short n = n) : short (short (n + 1) - 1) = n := by
  unfold short at *
  rw [Int.bmod_sub_bmod, Int.add_sub_cancel, exact]

theorem Inode.dropLink_addLink {node : Inode} (exact : short node.nlink = node.nlink) : node.addLink.dropLink = node := by
  unfold addLink dropLink
  rw [short_of_undone exact]

theorem counted_type (inodes : Inodes) (ip j : Nat) : (counted inodes ip j).type = (inodes j).type := by
  by_cases same : j = ip
  · rw [same, counted, update_self]
    rfl
  · rw [counted, update_of_ne same]

theorem counted_slots (inodes : Inodes) (ip j : Nat) : (counted inodes ip j).slots = (inodes j).slots := by
  by_cases same : j = ip
  · rw [same, counted, update_self]
    rfl
  · rw [counted, update_of_ne same]

/-- The rest of `sys_link` is like a call of its own, with somebody who refers to `ip`. -/
theorem Ready.counted (ready : Ready inodes procs users cwd lost s) {s' : State Pid}
    (notDir : (inodes ip).type ≠ .dir) (given : ∀ j, users' j = users j + if j = ip then 1 else 0)
    (busy : Busy (counted inodes ip) procs users' [] [] s') : Ready (counted inodes ip) procs users' cwd lost s' where
  busy := busy
  kept j lapsed := by
    by_cases same : j = ip
    · have unused : users' j = 0 := lapsed.2.2
      rw [given, if_pos same] at unused
      omega
    · rw [Names.counted, update_of_ne same, given, if_neg same] at lapsed
      exact ready.kept j lapsed
  root := by
    have other : rootIno ≠ ip := fun same => notDir (same ▸ ready.root.1)
    rw [Names.counted, update_of_ne other]
    exact ready.root
  present := by
    rw [given]
    exact Nat.lt_of_lt_of_le ready.present (Nat.le_add_right _ _)
  missing j visits free := by
    have same {i : Nat} : Leads (Names.counted inodes ip) i j → Leads inodes i j :=
      Leads.congr (counted_type inodes ip) (counted_slots inodes ip)
    exact ready.missing j (visits.imp same same) (counted_type inodes ip j ▸ free)

theorem wp_linkBad (kept : Kept inodes users []) (alloc : (inodes ip).type ≠ .free)
    (exact : short (inodes ip).nlink = (inodes ip).nlink)
    (given : ∀ j, users' j = users j + if j = ip then 1 else 0) (busy : Busy (counted inodes ip) procs users' [] [] s) :
    wp (linkBad ip) (fun _ s' => Busy inodes procs users [] [] s') (Unless lost) s := by
  refine wp_bind (wp_ilock (busy.takeOver given) (.head _) ?_) ?_
  · rw [counted_type]
    exact fun free => absurd free alloc
  rintro _ _ ⟨-, -, locked⟩
  refine wp_bind (wp_updateInode locked rfl) ?_
  intro _ _ undone
  have back : update (counted inodes ip) ip (counted inodes ip ip).dropLink = inodes := by
    rw [counted, update_self, update_idem, Inode.dropLink_addLink exact, update_eq_self]
  rw [back] at undone
  exact wp_bind (wp_iunlockput_kept undone kept) fun _ _ put => put

theorem Kept.addEntry (kept : Kept inodes users extra) (dp : Nat) (name : Name) (inum : Nat) :
    Kept (addEntry inodes dp name inum) users extra := by
  intro j lapsed
  unfold Inode.Lapsed at lapsed
  rw [addEntry_type, addEntry_nlink] at lapsed
  exact kept j lapsed

theorem wp_linkNew (kept : Kept inodes users []) (alloc : (inodes ip).type ≠ .free)
    (exact : short (inodes ip).nlink = (inodes ip).nlink) {new : Path}
    (given : ∀ j, users' j = users j + if j = ip then 1 else 0) (notDir : (inodes ip).type ≠ .dir)
    (ready : Ready (counted inodes ip) procs users' cwd lost s) :
    wp (do
        match ← nameiparent cwd new with
        | none => linkBad ip
        | some (dp, name) => do
          let _ ← ilock dp
          let linked ← dirlink dp name ip
          if linked < 0 then do
            iunlockput dp
            linkBad ip
          else do
            iunlockput dp
            iput ip
            pure 0)
      (fun _ s' => Busy (sweep
        (match find inodes true (elements new) (origin cwd new) with
        | none => inodes
        | some (dp, name) =>
          if scan name (inodes dp).slots 0 = none then addEntry (counted inodes ip) dp name ip else inodes) users)
        procs users [] [] s')
      (Unless lost) s := by
  have unchanged := sweep_of_kept kept
  refine wp_bind (wp_namex ready.busy ready.kept ready.present ready.missing) ?_
  rintro res _ ⟨found, walked⟩
  rw [← find_congr (counted_type inodes ip) (counted_slots inodes ip), ← found]
  cases res with
  | none =>
    dsimp only
    rw [unchanged]
    exact wp_linkBad kept alloc exact given walked
  | some target =>
    obtain ⟨dp, name⟩ := target
    dsimp only
    refine wp_bind (wp_ilock walked (.head _) ?_) ?_
    · exact ready.missing dp (Visits.find found.symm)
    rintro _ _ ⟨-, -, locked⟩
    rw [← counted_slots inodes ip dp]
    by_cases absent : scan name (counted inodes ip dp).slots 0 = none
    · rw [if_pos absent]
      refine wp_bind (wp_dirlink_new locked absent ip) ?_
      rintro _ _ ⟨rfl, named⟩
      refine wp_bind (wp_iunlockput_kept named (ready.kept.addEntry dp name ip)) ?_
      intro _ _ put
      have used : 0 < users' ip := by
        rw [given, if_pos rfl]
        omega
      have other : ip ≠ rootIno := by
        intro same
        rw [← counted_type inodes ip] at notDir
        exact notDir (same ▸ ready.root.1)
      refine wp_bind (wp_iput (put.takeOver given) (.inl ((put.valid ip used).resolve_right other))) ?_
      intro _ _ done
      rwa [← collect_eq_sweep (i := ip)]
      intro j elsewhere lapsed
      unfold Inode.Lapsed at lapsed
      rw [addEntry_type, addEntry_nlink, counted, update_of_ne elsewhere] at lapsed
      exact kept j lapsed
    · rw [if_neg absent, unchanged]
      refine wp_bind (wp_dirlink_old locked (ready.kept.cons dp) absent ip) ?_
      rintro _ _ ⟨rfl, refused⟩
      refine wp_bind (wp_iunlockput_kept refused ready.kept) ?_
      intro _ _ put
      exact wp_linkBad kept alloc exact given put

theorem wp_sysLink (ready : Ready inodes procs users cwd lost s)
    (exact : ∀ i, (inodes i).type ≠ .free → short (inodes i).nlink = (inodes i).nlink) {old new : Path} :
    wp (sysLink cwd (some old) (some new))
      (fun _ s' => Busy (sweep (linked inodes cwd old new) users) procs users [] [] s') (Unless lost) s := by
  have unchanged := sweep_of_kept ready.kept
  refine wp_bind (wp_namex ready.busy ready.kept ready.present ready.missing) ?_
  rintro res _ ⟨found, walked⟩
  unfold linked
  rw [← found]
  cases res with
  | none =>
    dsimp only
    rw [unchanged]
    exact walked
  | some target =>
    obtain ⟨ip, name⟩ := target
    dsimp only
    refine wp_bind (wp_ilock walked (.head _) ?_) ?_
    · exact ready.missing ip (Visits.find found.symm)
    rintro _ _ ⟨rfl, alloc, locked⟩
    simp only [alloc, or_false]
    split
    · rw [unchanged]
      exact wp_bind (wp_iunlockput_kept locked ready.kept) fun _ _ put => put
    next notDir =>
      refine wp_bind (wp_updateInode locked rfl) ?_
      intro _ _ written
      refine wp_bind (wp_iunlock written) ?_
      rintro _ _ ⟨unlocked, loaded⟩
      have given : ∀ j, (fun j => users j + if j = ip then 1 else 0) j = users j + if j = ip then 1 else 0 := fun _ => rfl
      have shared := ready.counted notDir given (unlocked.handOver loaded List.not_mem_nil given)
      exact wp_linkNew ready.kept alloc (exact ip alloc) given notDir shared

/-! ## Removing names -/

theorem removed_type (inodes : Inodes) (dp off ip j : Nat) : (removed inodes dp off ip j).type = (inodes j).type := by
  unfold removed
  simp only [update_apply]
  split_ifs <;> simp [*, Inode.dropLink]

theorem removed_nlink (inodes : Inodes) (dp off ip j : Nat) :
    (removed inodes dp off ip j).nlink =
      if j = ip ∨ (j = dp ∧ (inodes ip).type = .dir) then short ((inodes j).nlink - 1) else (inodes j).nlink := by
  unfold removed
  simp only [update_apply]
  split_ifs <;> simp_all [Inode.dropLink]

/-- The two inodes of `sys_unlink` are put one after the other. -/
theorem collect_collect {node : Inode} (others : ∀ j, j ≠ dp → ¬ (inodes j).Lapsed (users j)) :
    collect (update (collect inodes (users dp) dp) ip node) (users ip) ip =
      sweep (update inodes ip node) users := by
  rw [collect_eq_sweep others, collect_eq_sweep]
  · funext j
    by_cases same : j = ip
    · simp only [sweep, same, update_self]
    · have again := congrFun (sweep_of_kept (sweep_kept inodes users)) j
      simp only [sweep, update_of_ne same] at again ⊢
      exact again
  · intro j elsewhere
    rw [update_of_ne elsewhere]
    exact sweep_kept inodes users j

theorem wp_removeEntry (busy : Busy inodes procs users [ip, dp] [ip, dp] s) (kept : Kept inodes users []) (off : Nat) :
    wp (removeEntry dp off ip (inodes ip).type)
      (fun _ s' => Busy (sweep (removed inodes dp off ip) users) procs users [] [] s') (Unless lost) s := by
  have ne : ip ≠ dp := by
    have once := busy.once
    simpa using once
  refine wp_bind (wp_updateInode busy rfl) ?_
  intro _ _ cleared
  refine wp_bind (wp_updateInode cleared (by split <;> rfl)) ?_
  intro _ _ dropped
  rw [update_self, update_idem] at dropped
  refine wp_bind (wp_iunlockput dropped.swap.swap_held) ?_
  intro _ _ put
  rw [List.count_eq_zero.mpr (by simpa using ne.symm), Nat.add_zero] at put
  refine wp_bind (wp_updateInode put rfl) ?_
  intro _ _ counted
  refine wp_bind (wp_iunlockput counted) ?_
  intro _ _ done
  change Busy _ _ _ _ _ _
  have node : collect (update inodes dp
      (if (inodes ip).type = .dir then
        Inode.dropLink { inodes dp with slots := writeSlot (inodes dp).slots off ⟨0, []⟩ }
      else { inodes dp with slots := writeSlot (inodes dp).slots off ⟨0, []⟩ })) (users dp) dp ip = inodes ip := by
    rw [collect_apply, if_neg (fun both => ne both.1), update_of_ne ne]
  rw [removed, ← collect_collect]
  · rwa [List.count_nil, Nat.add_zero, node] at done
  · intro j elsewhere
    rw [update_of_ne elsewhere]
    exact kept j

theorem wp_sysUnlink (ready : Ready inodes procs users cwd lost s) :
    wp (sysUnlink cwd (some path))
      (fun _ s' => Busy (sweep (unlinked inodes cwd path) users) procs users [] [] s') (Unless lost) s := by
  have unchanged := sweep_of_kept ready.kept
  refine wp_bind (wp_namex ready.busy ready.kept ready.present ready.missing) ?_
  rintro res _ ⟨found, walked⟩
  unfold unlinked
  rw [← found]
  cases res with
  | none =>
    dsimp only
    rw [unchanged]
    exact walked
  | some target =>
    obtain ⟨dp, name⟩ := target
    dsimp only
    have visits := Visits.find found.symm
    refine wp_bind (wp_ilock walked (.head _) (ready.missing dp visits)) ?_
    rintro _ _ ⟨-, -, locked⟩
    split
    · rw [unchanged]
      exact wp_bind (wp_iunlockput_kept locked ready.kept) fun _ _ put => put
    · refine wp_bind (wp_dirlookup locked name) ?_
      rintro res _ ⟨entry, isDir, looked⟩
      rw [← entry]
      cases res with
      | none =>
        dsimp only
        rw [unchanged]
        exact wp_bind (wp_iunlockput_kept looked ready.kept) fun _ _ put => put
      | some entry' =>
        obtain ⟨off, ip⟩ := entry'
        dsimp only
        refine wp_bind (wp_ilock looked (.head _) (ready.missing ip ?_)) ?_
        · exact visits.trans (Leads.scan isDir entry.symm)
        rintro _ _ ⟨rfl, -, both⟩
        split
        · exact unless_of_ne nofun
        · split
          · rw [unchanged]
            refine wp_bind (wp_iunlockput_kept both (ready.kept.cons dp)) ?_
            intro _ _ first
            exact wp_bind (wp_iunlockput_kept first ready.kept) fun _ _ put => put
          · exact wp_removeEntry both ready.kept off

end Calls

end Xv6Simplesh.Names
