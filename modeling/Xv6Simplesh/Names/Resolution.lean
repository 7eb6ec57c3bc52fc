import Xv6Simplesh.Names.References

/-! # Path names

What a path name means: the runs of bytes between slashes are names, and each of them is looked up
in the directory that those before it lead to, from the root or the current directory on.  `namei`
is the fold of the lookups, and `nameiparent` that of all but the last.  `namex` computes both with
one loop, takes a reference to each inode on the way and gives up all but the last.

The loop takes its names from the path with `skipelem`, one at a time.  That they are the runs is a
fact about lists of bytes; that nothing else is kept is one about the cache of inodes.  The two
results of the loop agree step by step, whatever the state: `nameiparent` only leaves out the last
lookup.
-/

namespace Xv6Simplesh.Names

open Library Library.Command Function

/-! ## The names in a path -/

/-- The maximal runs of bytes other than slashes, up to the NUL, each cut to `DIRSIZ` bytes. -/
def runs (path : Path) : List Name :=
  (((path.takeWhile (· ≠ 0)).splitOnP (· = slash)).filter (· ≠ [])).map (List.take dirsiz)

variable {path : Path} {name : Name} {names : List Name} {ip : Nat}

theorem runs_of_ended (ended : path.headD 0 = 0) : runs path = [] := by
  cases path with
  | nil => rfl
  | cons c path =>
    rw [List.headD_cons] at ended
    subst ended
    rfl

/-- A slash separates what is before it from what is after it. -/
theorem runs_append_slash (inside : ∀ c ∈ name, c ≠ 0) (path : Path) :
    runs (name ++ slash :: path) = runs name ++ runs path := by
  have whole : name.takeWhile (· ≠ 0) = name := List.takeWhile_eq_self_iff.mpr fun c mem =>
    decide_eq_true (inside c mem)
  have before : (name ++ slash :: path).takeWhile (· ≠ 0) = name ++ slash :: path.takeWhile (· ≠ 0) := by
    rw [List.takeWhile_append_of_pos fun c mem => decide_eq_true (inside c mem)]
    rfl
  have separate := List.splitOnP_append_cons (p := fun c => decide (c = slash)) name (path.takeWhile (· ≠ 0))
    (decide_eq_true rfl)
  unfold runs
  rw [before, whole, separate, List.filter_append, List.map_append]

theorem runs_slash (path : Path) : runs (slash :: path) = runs path :=
  runs_append_slash (List.forall_mem_nil _) path

theorem runs_dropWhile (path : Path) : runs (path.dropWhile (· = slash)) = runs path := by
  induction path with
  | nil => rfl
  | cons c path ih =>
    by_cases here : c = slash
    · subst here
      rw [List.dropWhile_cons_of_pos (by simp), ih]
      exact (runs_slash path).symm
    · rw [List.dropWhile_cons_of_neg (by simpa using here)]

/-- A run of bytes that ends at a slash or with the path. -/
theorem runs_append {rest : Path} (inside : ∀ c ∈ name, c ≠ slash ∧ c ≠ 0) (proper : name ≠ [])
    (after : rest.headD 0 = 0 ∨ rest.headD 0 = slash) : runs (name ++ rest) = name.take dirsiz :: runs rest := by
  have nonzero : ∀ c ∈ name, c ≠ 0 := fun c mem => (inside c mem).2
  have single : name.splitOnP (· = slash) = [name] := List.splitOnP_eq_singleton fun c mem =>
    decide_eq_false (inside c mem).1
  have alone : ∀ rest : Path, rest.headD 0 = 0 → runs (name ++ rest) = [name.take dirsiz] := by
    intro rest ended
    have before : (name ++ rest).takeWhile (· ≠ 0) = name := by
      rw [List.takeWhile_append_of_pos fun c mem => decide_eq_true (nonzero c mem)]
      cases rest with
      | nil => rw [List.takeWhile_nil, List.append_nil]
      | cons c rest =>
        rw [List.headD_cons] at ended
        rw [List.takeWhile_cons_of_neg (by simp [ended]), List.append_nil]
    unfold runs
    rw [before, single]
    simp [proper]
  rcases after with ended | separated
  · rw [alone rest ended, runs_of_ended ended]
  · cases rest with
    | nil => exact absurd separated (by decide)
    | cons c rest =>
      rw [List.headD_cons] at separated
      subst separated
      have first := alone [] rfl
      rw [List.append_nil] at first
      rw [runs_append_slash nonzero, first, runs_slash]
      rfl

/-- What `skipelem` takes from the path is its first run. -/
theorem runs_skipelem {rest : Path} (next : skipelem path = some (name, rest)) : runs path = name :: runs rest := by
  unfold skipelem at next
  dsimp only at next
  split at next
  · cases next
  next present =>
    simp only [Option.some.injEq, Prod.mk.injEq] at next
    obtain ⟨rfl, rfl⟩ := next
    rw [runs_dropWhile, ← runs_dropWhile path]
    generalize trimmed : path.dropWhile (· = slash) = tail at present ⊢
    have bare : tail.headD 0 ≠ slash := by
      intro slashed
      have head := List.head?_dropWhile_not (fun c : UInt8 => decide (c = slash)) path
      cases tail with
      | nil => exact absurd slashed (by decide)
      | cons c tail =>
        rw [trimmed] at head
        simp only [List.head?_cons, decide_eq_false_iff_not] at head
        exact head slashed
    generalize split : (fun c : UInt8 => decide (c ≠ slash ∧ c ≠ 0)) = inside
    have within : ∀ c, inside c = true ↔ c ≠ slash ∧ c ≠ 0 := fun c => by rw [← split, decide_eq_true_eq]
    have first : tail.takeWhile inside ≠ [] := by
      cases tail with
      | nil => exact absurd rfl present
      | cons c tail =>
        rw [List.takeWhile_cons_of_pos ((within c).mpr ⟨bare, present⟩)]
        nofun
    have after : (tail.dropWhile inside).headD 0 = 0 ∨ (tail.dropWhile inside).headD 0 = slash := by
      have head := List.head?_dropWhile_not inside tail
      cases rest : tail.dropWhile inside with
      | nil => exact .inl rfl
      | cons c rest =>
        rw [rest] at head
        simp only [List.head?_cons] at head
        by_contra other
        rw [List.headD_cons, not_or] at other
        rw [(within c).mpr ⟨other.2, other.1⟩] at head
        cases head
    have whole := runs_append (fun c mem => (within c).mp (List.mem_takeWhile_imp mem)) first after
    rwa [List.takeWhile_append_dropWhile] at whole

theorem elements_eq_runs (path : Path) : elements path = runs path := by
  induction length : path.length using Nat.strong_induction_on generalizing path with
  | _ n ih =>
    rw [elements_eq]
    cases next : skipelem path with
    | none =>
      unfold skipelem at next
      dsimp only at next
      split at next
      next ended => rw [← runs_dropWhile, runs_of_ended ended]
      · cases next
    | some res =>
      obtain ⟨name, rest⟩ := res
      have shorter := skipelem_shorter next
      dsimp only
      rw [runs_skipelem next, ih rest.length (by omega) rest rfl]

/-! ## The loop -/

section Loop

variable {Pid : Type}

/-- The loop of `namex` over the bytes of the path. -/
def namexLoop (nameiparent : Bool) (path : Path) (ip : Nat) : Kernel Pid (Option (Nat × Name)) :=
  match _next : skipelem path with
  | none =>
    if nameiparent then do
      iput ip
      pure none
    else pure (some (ip, []))
  | some (name, rest) => do
    let node ← ilock ip
    if node.type ≠ .dir then do
      iunlockput ip
      pure none
    else if nameiparent ∧ rest.headD 0 = 0 then do
      -- stop one level early
      iunlock ip
      pure (some (ip, name))
    else
      match ← dirlookup ip name with
      | none => do
        iunlockput ip
        pure none
      | some (_, found) => do
        iunlockput ip
        namexLoop nameiparent rest found
termination_by path.length
decreasing_by exact skipelem_shorter _next

theorem namexLoop_eq_walk (nameiparent : Bool) (path : Path) (ip : Nat) :
    (namexLoop nameiparent path ip : Kernel Pid _) = walk nameiparent (elements path) ip := by
  induction length : path.length using Nat.strong_induction_on generalizing path ip with
  | _ n ih =>
    rw [namexLoop, elements_eq]
    split
    next ended => rw [ended, walk]
    next name rest next =>
      have shorter := skipelem_shorter next
      have later : ∀ found, (namexLoop nameiparent rest found : Kernel Pid _) = walk nameiparent (elements rest) found :=
        fun found => ih rest.length (by omega) rest found rfl
      rw [next]
      simp only [← elements_eq_nil_iff next, later]
      rfl

theorem namex_eq_loop (cwd : Nat) (path : Path) (nameiparent : Bool) :
    (namex cwd path nameiparent : Kernel Pid _) =
      (do start cwd path; namexLoop nameiparent path (origin cwd path)) := by
  rw [namex, namexLoop_eq_walk]

end Loop

/-! ## The lookups -/

section Lookups

variable {inodes : Inodes}

/-- Where the names lead from `ip`. -/
def resolve (inodes : Inodes) (names : List Name) (ip : Nat) : Option Nat := names.foldlM (lookup inodes) ip

/-- The directory that all names but the last lead to, and the last. -/
def resolveParent (inodes : Inodes) (names : List Name) (ip : Nat) : Option (Nat × Name) :=
  match names.getLast?, resolve inodes names.dropLast ip with
  | some name, some dp => if (inodes dp).type = .dir then some (dp, name) else none
  | _, _ => none

/-- One of the inodes that have to be searched is no directory, or does not have the name. -/
def Blocked (inodes : Inodes) (nameiparent : Bool) (names : List Name) (ip : Nat) : Prop :=
  ∃ before name after j, names = before ++ name :: after ∧ resolve inodes before ip = some j ∧
    ((inodes j).type ≠ .dir ∨ ¬ (nameiparent ∧ after = []) ∧ scan name (inodes j).slots 0 = none)

theorem resolve_cons {next : Nat} (found : lookup inodes ip name = some next) :
    resolve inodes (name :: names) ip = resolve inodes names next := by
  rw [resolve, List.foldlM_cons, found]
  rfl

theorem find_eq_resolve (names : List Name) (ip : Nat) :
    find inodes false names ip = (resolve inodes names ip).map (·, []) := by
  induction names generalizing ip with
  | nil => rfl
  | cons name names ih =>
    rw [find, resolve, List.foldlM_cons, lookup]
    by_cases isDir : (inodes ip).type = .dir
    · rw [if_neg (not_not_intro isDir), if_pos isDir, if_neg (by simp)]
      cases scan name (inodes ip).slots 0 with
      | none => rfl
      | some entry => exact ih entry.2
    · rw [if_pos isDir, if_neg isDir]
      rfl

theorem resolveParent_cons {next : Nat} (more : names ≠ []) (found : lookup inodes ip name = some next) :
    resolveParent inodes (name :: names) ip = resolveParent inodes names next := by
  rw [resolveParent, resolveParent, List.getLast?_cons_of_ne_nil more, List.dropLast_cons_of_ne_nil more,
    resolve_cons found]

theorem find_eq_resolveParent (names : List Name) (ip : Nat) :
    find inodes true names ip = resolveParent inodes names ip := by
  induction names generalizing ip with
  | nil => rfl
  | cons name names ih =>
    rw [find]
    by_cases isDir : (inodes ip).type = .dir
    · rw [if_neg (not_not_intro isDir)]
      by_cases last : names = []
      · subst last
        rw [if_pos ⟨rfl, rfl⟩]
        simp [resolveParent, resolve, isDir]
      · rw [if_neg fun stops => last stops.2]
        cases entry : scan name (inodes ip).slots 0 with
        | none =>
          have absent : lookup inodes ip name = none := by rw [lookup, if_pos isDir, entry]; rfl
          rw [resolveParent, List.dropLast_cons_of_ne_nil last, resolve, List.foldlM_cons, absent]
          cases (name :: names).getLast? <;> rfl
        | some entry' =>
          have found : lookup inodes ip name = some entry'.2 := by rw [lookup, if_pos isDir, entry]; rfl
          rw [resolveParent_cons last found]
          exact ih entry'.2
    · rw [if_pos isDir]
      by_cases last : names = []
      · subst last
        simp [resolveParent, resolve, isDir]
      · have absent : lookup inodes ip name = none := if_neg isDir
        rw [resolveParent, List.dropLast_cons_of_ne_nil last, resolve, List.foldlM_cons, absent]
        cases (name :: names).getLast? <;> rfl

theorem resolve_cons_eq_some {j : Nat} : resolve inodes (name :: names) ip = some j ↔
      ∃ next, lookup inodes ip name = some next ∧ resolve inodes names next = some j := by
  rw [resolve, List.foldlM_cons]
  exact Option.bind_eq_some_iff

theorem not_blocked_nil (nameiparent : Bool) (ip : Nat) : ¬ Blocked inodes nameiparent [] ip := by
  rintro ⟨before, name, after, j, split, -⟩
  simp at split

theorem blocked_cons {nameiparent : Bool} : Blocked inodes nameiparent (name :: names) ip ↔
      ((inodes ip).type ≠ .dir ∨ ¬ (nameiparent ∧ names = []) ∧ scan name (inodes ip).slots 0 = none) ∨
        ∃ next, lookup inodes ip name = some next ∧ Blocked inodes nameiparent names next := by
  constructor
  · rintro ⟨before, last, after, j, split, reached, fails⟩
    cases before with
    | nil =>
      cases split
      cases reached
      exact .inl fails
    | cons first before =>
      cases split
      obtain ⟨next, found, reached⟩ := resolve_cons_eq_some.mp reached
      exact .inr ⟨next, found, before, last, after, j, rfl, reached, fails⟩
  · rintro (fails | ⟨next, found, before, last, after, j, rfl, reached, fails⟩)
    · exact ⟨[], name, names, ip, rfl, rfl, fails⟩
    · exact ⟨name :: before, last, after, j, rfl, resolve_cons_eq_some.mpr ⟨next, found, reached⟩, fails⟩

theorem find_eq_none_iff {nameiparent : Bool} : find inodes nameiparent names ip = none ↔
      nameiparent = true ∧ names = [] ∨ Blocked inodes nameiparent names ip := by
  induction names generalizing ip with
  | nil => cases nameiparent <;> simp [find, not_blocked_nil]
  | cons name names ih =>
    rw [find, blocked_cons]
    by_cases isDir : (inodes ip).type = .dir
    · rw [if_neg (not_not_intro isDir)]
      by_cases stops : nameiparent = true ∧ names = []
      · obtain ⟨rfl, rfl⟩ := stops
        simp [isDir, not_blocked_nil]
      · rw [if_neg stops]
        cases entry : scan name (inodes ip).slots 0 with
        | none => simp [stops]
        | some entry' =>
          have found : lookup inodes ip name = some entry'.2 := by rw [lookup, if_pos isDir, entry]; rfl
          dsimp only
          rw [ih]
          simp [stops, isDir, found]
    · simp [isDir]

end Lookups

/-! ## The two results agree -/

section Agreement

variable {Pid : Type} {s s' : State Pid} {i : Nat} {name : Name} {res : Nat × Name}

/-- A step of the walk that gets further has locked a directory. -/
theorem walk_step_eq_some {nameiparent : Bool} : walk nameiparent (name :: names) i s = .ok (some res, s') ↔
      ∃ node s₁, ilock i s = .ok (node, s₁) ∧ node.type = .dir ∧
        (if nameiparent = true ∧ names = [] then do
          iunlock i
          pure (some (i, name))
        else do
          match ← dirlookup i name with
          | none => do
            iunlockput i
            pure none
          | some (_, next) => do
            iunlockput i
            walk nameiparent names next : Kernel Pid _) s₁ = .ok (some res, s') := by
  rw [walk, bind_eq_ok]
  constructor
  · rintro ⟨node, s₁, locked, ran⟩
    by_cases isDir : node.type = .dir
    · rw [if_neg (not_not_intro isDir)] at ran
      exact ⟨node, s₁, locked, isDir, ran⟩
    · rw [if_pos isDir] at ran
      obtain ⟨_, _, -, done⟩ := bind_eq_ok.mp ran
      cases done
  · rintro ⟨node, s₁, locked, isDir, ran⟩
    refine ⟨node, s₁, locked, ?_⟩
    rw [if_neg (not_not_intro isDir)]
    exact ran

/-- A step of the walk that is not the last of `nameiparent`. -/
theorem walk_cons_eq_some {nameiparent : Bool} (more : ¬ (nameiparent = true ∧ names = [])) :
    walk nameiparent (name :: names) i s = .ok (some res, s') ↔
      ∃ node s₁ off next s₂ s₃, ilock i s = .ok (node, s₁) ∧ node.type = .dir ∧
        dirlookup i name s₁ = .ok (some (off, next), s₂) ∧ iunlockput i s₂ = .ok (⟨⟩, s₃) ∧
        walk nameiparent names next s₃ = .ok (some res, s') := by
  rw [walk_step_eq_some, if_neg more]
  constructor
  · rintro ⟨node, s₁, locked, isDir, ran⟩
    obtain ⟨found, s₂, looked, ran⟩ := bind_eq_ok.mp ran
    cases found with
    | none =>
      obtain ⟨_, _, -, done⟩ := bind_eq_ok.mp ran
      cases done
    | some entry =>
      obtain ⟨_, s₃, released, ran⟩ := bind_eq_ok.mp ran
      exact ⟨node, s₁, entry.1, entry.2, s₂, s₃, locked, isDir, looked, released, ran⟩
  · rintro ⟨node, s₁, off, next, s₂, s₃, locked, isDir, looked, released, ran⟩
    exact ⟨node, s₁, locked, isDir, bind_eq_ok.mpr ⟨_, s₂, looked, bind_eq_ok.mpr ⟨_, s₃, released, ran⟩⟩⟩

theorem walk_last_eq_some : walk true [name] i s = .ok (some res, s') ↔
      ∃ node s₁, ilock i s = .ok (node, s₁) ∧ node.type = .dir ∧ iunlock i s₁ = .ok (⟨⟩, s') ∧ res = (i, name) := by
  rw [walk_step_eq_some, if_pos ⟨rfl, rfl⟩]
  constructor
  · rintro ⟨node, s₁, locked, isDir, ran⟩
    obtain ⟨_, s₂, unlocked, done⟩ := bind_eq_ok.mp ran
    cases done
    exact ⟨node, s₁, locked, isDir, unlocked, rfl⟩
  · rintro ⟨node, s₁, locked, isDir, unlocked, rfl⟩
    exact ⟨node, s₁, locked, isDir, bind_eq_ok.mpr ⟨_, s', unlocked, rfl⟩⟩

theorem ilock_locked {node : Inode} (ran : ilock i s = .ok (node, s')) : s'.locked i = true ∧ 0 < s'.ref i := by
  have holds : wp (ilock i) (fun _ s' => s'.locked i = true ∧ 0 < s'.ref i) (fun _ => True) s := by
    apply wp_get
    split
    · trivial
    next used =>
      have acquired : wp (acquiresleep i) (fun _ s' => s'.locked i = true ∧ 0 < s'.ref i) (fun _ => True) s := by
        apply wp_get
        split
        · trivial
        · exact ⟨update_self .., by dsimp only; omega⟩
      refine wp_bind acquired ?_
      rintro - s₁ held
      apply wp_get
      split
      · exact held
      · split
        · trivial
        · exact held
  exact post_of_wp holds ran

theorem iunlock_locked (locked : s.locked i = true) (used : 0 < s.ref i) :
    iunlock i s = .ok (⟨⟩, { s with locked := update s.locked i false }) := by
  have fine : ¬ (s.locked i = false ∨ s.ref i < 1) := by
    rw [locked]
    simp
    omega
  exact congrFun (if_neg fine) s

theorem iunlockput_locked (locked : s.locked i = true) (used : 0 < s.ref i) :
    ∃ s', iunlockput i s = .ok (⟨⟩, s') := by
  have open' : ({ s with locked := update s.locked i false } : State Pid).locked i = false :=
    update_self ..
  have acquired : acquiresleep i { s with locked := update s.locked i false } = .ok (⟨⟩, _) :=
    congrFun (if_neg (by rw [open']; decide)) _
  exact ⟨_, bind_eq_ok.mpr ⟨⟨⟩, _, iunlock_locked locked used, bind_eq_ok.mpr ⟨⟨⟩, _, acquired, rfl⟩⟩⟩

theorem iget_eq (inum : Nat) (s : State Pid) :
    iget inum s =
      if 0 < s.ref inum then .ok (⟨⟩, { s with ref := update s.ref inum (s.ref inum + 1) })
      else if ninode ≤ s.cached then .error .igetNoInodes
      else .ok (⟨⟩, { s with ref := update s.ref inum 1, valid := update s.valid inum false }) := by
  change (if 0 < s.ref inum then _ else if ninode ≤ s.cached then _ else _ : Kernel Pid PUnit) s = _
  split
  · rfl
  · split <;> rfl

theorem iget_relock (inum : Nat) (locks : Nat → Bool) :
    iget inum { s with locked := locks } = (iget inum s).map fun r => (r.1, { r.2 with locked := locks }) := by
  rw [iget_eq, iget_eq]
  change (if 0 < s.ref inum then _ else if ninode ≤ s.cached then _ else _) = _
  split
  · rfl
  · split <;> rfl

theorem dirlookup_relock (locks : Nat → Bool) : dirlookup i name { s with locked := locks } =
      (dirlookup i name s).map fun r => (r.1, { r.2 with locked := locks }) := by
  change (if (s.inodes i).type ≠ .dir then _ else _ : Kernel Pid _) _ =
    Except.map _ ((if _ then _ else _ : Kernel Pid _) s)
  split
  · rfl
  · dsimp only
    cases scan name (s.inodes i).slots 0 with
    | none => rfl
    | some entry =>
      change (iget entry.2 { s with locked := locks } >>= fun _ => _) = Except.map _ (iget entry.2 s >>= fun _ => _)
      rw [iget_relock]
      cases iget entry.2 s <;> rfl

theorem dirlookup_returns_iff (locks : Nat → Bool) {found : Option (Nat × Nat)} :
    (∃ s', dirlookup i name { s with locked := locks } = .ok (found, s')) ↔ ∃ s', dirlookup i name s = .ok (found, s') := by
  rw [dirlookup_relock]
  cases dirlookup i name s with
  | error stop =>
    constructor
    all_goals
      rintro ⟨_, ran⟩
      cases ran
  | ok res =>
    obtain ⟨val, after⟩ := res
    constructor
    · rintro ⟨_, ran⟩
      cases ran
      exact ⟨after, rfl⟩
    · rintro ⟨_, ran⟩
      cases ran
      exact ⟨_, rfl⟩

theorem dirlookup_keeps {found : Option (Nat × Nat)} (ran : dirlookup i name s = .ok (found, s')) :
    s'.locked = s.locked ∧ ∀ j, s.ref j ≤ s'.ref j := by
  have holds : wp (dirlookup i name) (fun _ s' => s'.locked = s.locked ∧ ∀ j, s.ref j ≤ s'.ref j) (fun _ => True) s := by
    apply wp_get
    split
    · trivial
    · split
      · exact ⟨rfl, fun j => Nat.le_refl _⟩
      next off inum _ =>
        have entered : wp (iget inum) (fun _ s' => s'.locked = s.locked ∧ ∀ j, s.ref j ≤ s'.ref j) (fun _ => True) s := by
          rw [wp, iget_eq]
          by_cases used : 0 < s.ref inum
          · rw [if_pos used]
            refine ⟨rfl, fun j => ?_⟩
            simp only [update_apply]
            split <;> simp_all
          · rw [if_neg used]
            split
            next res next ran =>
              split at ran
              · cases ran
              · cases ran
                refine ⟨rfl, fun j => ?_⟩
                simp only [update_apply]
                split <;> simp_all
            · trivial
        exact wp_bind entered fun _ _ kept => kept
  exact post_of_wp holds ran

/-- The last element: `namei` looks it up with the directory locked, and `nameiparent` leaves it. -/
theorem walk_single_iff : (∃ s', walk false [name] i s = .ok (some (ip, []), s')) ↔
      ∃ dp last s' off s'', walk true [name] i s = .ok (some (dp, last), s') ∧
        dirlookup dp last s' = .ok (some (off, ip), s'') := by
  have more : ¬ (false = true ∧ ([] : List Name) = []) := fun stops => by cases stops.1
  constructor
  · rintro ⟨s', ran⟩
    obtain ⟨node, s₁, off, next, s₂, s₃, locked, isDir, looked, -, ran⟩ := (walk_cons_eq_some more).mp ran
    cases ran
    obtain ⟨held, used⟩ := ilock_locked locked
    obtain ⟨s'', found⟩ := (dirlookup_returns_iff (update s₁.locked i false)).mpr ⟨s₂, looked⟩
    refine ⟨i, name, _, off, s'', walk_last_eq_some.mpr ?_, found⟩
    exact ⟨node, s₁, locked, isDir, iunlock_locked held used, rfl⟩
  · rintro ⟨dp, last, s', off, s'', ran, looked⟩
    obtain ⟨node, s₁, locked, isDir, unlocked, same⟩ := walk_last_eq_some.mp ran
    cases same
    obtain ⟨held, used⟩ := ilock_locked locked
    rw [iunlock_locked held used] at unlocked
    cases unlocked
    obtain ⟨s₂, found⟩ := (dirlookup_returns_iff (update s₁.locked i false)).mp ⟨s'', looked⟩
    -- the lookup leaves the lock and the reference of the directory
    obtain ⟨locks, kept⟩ := dirlookup_keeps found
    obtain ⟨s₃, released⟩ := iunlockput_locked (locks ▸ held) (Nat.lt_of_lt_of_le used (kept i))
    exact ⟨s₃, (walk_cons_eq_some more).mpr ⟨node, s₁, off, ip, s₂, s₃, locked, isDir, found, released, rfl⟩⟩

/-- A walk to an inode is a walk to the directory before it and one lookup more. -/
theorem walk_eq_some_iff (proper : names ≠ []) : (∃ s', walk false names i s = .ok (some (ip, []), s')) ↔
      ∃ dp last s' off s'', walk true names i s = .ok (some (dp, last), s') ∧
        dirlookup dp last s' = .ok (some (off, ip), s'') := by
  induction names generalizing i s with
  | nil => exact absurd rfl proper
  | cons name names ih =>
    by_cases last : names = []
    · subst last
      exact walk_single_iff
    · have more : ∀ nameiparent : Bool, ¬ (nameiparent = true ∧ names = []) := fun _ stops => last stops.2
      constructor
      · rintro ⟨s', ran⟩
        obtain ⟨node, s₁, off, next, s₂, s₃, locked, isDir, looked, released, ran⟩ := (walk_cons_eq_some (more false)).mp ran
        obtain ⟨dp, element, t, off', t', parent, found⟩ := (ih last).mp ⟨s', ran⟩
        refine ⟨dp, element, t, off', t', (walk_cons_eq_some (more true)).mpr ?_, found⟩
        exact ⟨node, s₁, off, next, s₂, s₃, locked, isDir, looked, released, parent⟩
      · rintro ⟨dp, element, t, off', t', ran, found⟩
        obtain ⟨node, s₁, off, next, s₂, s₃, locked, isDir, looked, released, ran⟩ := (walk_cons_eq_some (more true)).mp ran
        obtain ⟨s', whole⟩ := (ih last).mpr ⟨dp, element, t, off', t', ran, found⟩
        refine ⟨s', (walk_cons_eq_some (more false)).mpr ?_⟩
        exact ⟨node, s₁, off, next, s₂, s₃, locked, isDir, looked, released, whole⟩

theorem namei_eq_some_iff {cwd : Nat} (proper : elements path ≠ []) :
    (∃ s', namei cwd path s = .ok (some (ip, []), s')) ↔
      ∃ dp last s' off s'', nameiparent cwd path s = .ok (some (dp, last), s') ∧
        dirlookup dp last s' = .ok (some (off, ip), s'') := by
  unfold namei nameiparent namex
  simp only [bind_eq_ok]
  constructor
  · rintro ⟨s', _, s₁, started, ran⟩
    obtain ⟨dp, last, t, off, t', parent, found⟩ := (walk_eq_some_iff proper).mp ⟨s', ran⟩
    exact ⟨dp, last, t, off, t', ⟨_, s₁, started, parent⟩, found⟩
  · rintro ⟨dp, last, t, off, t', ⟨_, s₁, started, parent⟩, found⟩
    obtain ⟨s', ran⟩ := (walk_eq_some_iff proper).mpr ⟨dp, last, t, off, t', parent, found⟩
    exact ⟨s', _, s₁, started, ran⟩

end Agreement

/-! ## The calls -/

section Calls

variable {Pid : Type} {s : State Pid}

/-- What a walk with this result leaves: one reference to the inode it returns, and no lock. -/
structure Released (s : State Pid) (res : Option (Nat × Name)) (s' : State Pid) : Prop where
  procs : s'.procs = s.procs
  ref : ∀ i, s'.ref i = s.ref i + if res.map Prod.fst = some i then 1 else 0
  unlocked : ∀ i, s'.locked i = false
  /-- Nothing changes but inodes that had neither links nor references. -/
  inodes : Pruned s.inodes s.ref s'.inodes

/-- Why a walk can stop: there is no room for two more inodes in the cache, or one that has to be
searched is free or has neither links nor references. -/
def Halts (s : State Pid) (cwd : Nat) (path : Path) (stop : Stop) : Prop :=
  stop = .igetNoInodes ∧ ninode < s.cached + 2 ∨
    stop = .ilockNoType ∧ ∃ j ∈ searched s.inodes (runs path) (origin cwd path),
      (s.inodes j).type = .free ∨ (s.inodes j).Lapsed (s.ref j)

/-- Between two calls the references to an inode are those of the processes. -/
theorem Settled.quiet [Fintype Pid] (settled : Settled s) : Busy s.inodes s.procs s.ref [] [] s := by
  have same : uses s.procs = s.ref := funext fun i => (settled.busy.ref i).symm
  exact same ▸ settled.busy

theorem Released.of_busy {inodes' : Inodes} {res : Option (Nat × Name)} {s' : State Pid}
    (pruned : Pruned s.inodes s.ref inodes') (busy : Busy inodes' s.procs s.ref (arrived res []) [] s') :
    Released s res s' where
  procs := busy.procs
  ref i := by
    rw [busy.ref]
    cases res with
    | none => rfl
    | some target => simp [arrived, List.count_cons]
  unlocked i := by
    rw [busy.locked]
    rfl
  inodes := busy.disk ▸ pruned

/-- `namex` is the fold of the lookups over the names in the path.  It is the loop of the source, it
fails only where an inode is no directory or does not have the name, and it keeps one reference, to
the inode that it returns.  `nameiparent` is `namei` without the last lookup. -/
theorem namex_resolves {cwd : Nat} (path : Path) (quiet : Busy s.inodes s.procs s.ref [] [] s) (present : 0 < s.ref cwd) :
    (∀ nameiparent : Bool,
      namex cwd path nameiparent = (do start cwd path; namexLoop nameiparent path (origin cwd path) : Kernel Pid _) ∧
      wp (namex cwd path nameiparent)
        (fun res s' =>
          res = (if nameiparent then resolveParent s.inodes (runs path) (origin cwd path)
            else (resolve s.inodes (runs path) (origin cwd path)).map (·, [])) ∧
          (res = none ↔
            nameiparent = true ∧ runs path = [] ∨ Blocked s.inodes nameiparent (runs path) (origin cwd path)) ∧
          Released s res s')
        (Halts s cwd path) s) ∧
    (runs path ≠ [] → ∀ ip, (∃ s', namei cwd path s = .ok (some (ip, []), s')) ↔
      ∃ dp name s' off s'', nameiparent cwd path s = .ok (some (dp, name), s') ∧
        dirlookup dp name s' = .ok (some (off, ip), s'')) ∧
    (runs path = [] → ∀ res s', nameiparent cwd path s = .ok (res, s') → res = none) := by
  have walked : ∀ nameiparent, wp (namex cwd path nameiparent)
      (fun res s' => res = find s.inodes nameiparent (runs path) (origin cwd path) ∧
        ∃ inodes', Pruned s.inodes (fun j => s.ref j + [].count j) inodes' ∧
          Busy inodes' s.procs s.ref (arrived res []) [] s') (Halts s cwd path) s := by
    intro nameiparent
    rw [← elements_eq_runs]
    refine wp_namex_or quiet present (fun full => .inl ⟨rfl, ?_⟩) (fun held => absurd rfl held) ?_
    · have most : inCache s.ref = s.cached := rfl
      rw [most, List.length_nil] at full
      omega
    · intro j mem gone
      rw [elements_eq_runs] at mem
      exact .inr ⟨rfl, j, mem, gone⟩
  refine ⟨fun nameiparent => ⟨namex_eq_loop cwd path nameiparent, wp_mono (walked nameiparent) ?_⟩, ?_, ?_⟩
  · rintro res s' ⟨rfl, inodes', pruned, busy⟩
    refine ⟨?_, find_eq_none_iff, .of_busy pruned busy⟩
    cases nameiparent with
    | false => exact find_eq_resolve _ _
    | true => exact find_eq_resolveParent _ _
  · intro proper ip
    rw [← elements_eq_runs] at proper
    exact namei_eq_some_iff proper
  · intro empty res s' ran
    obtain ⟨found, -⟩ := post_of_wp (walked true) ran
    rw [found, empty]
    rfl

/-- After `mkdir /a`, `//a/./` is inode 2, and there is one reference more to it. -/
theorem namei_directory : ∃ s s', (system Unit).step bootState ((), .mkdir (some [47, 97])) = some s ∧
    namei rootIno [47, 47, 97, 47, 46, 47] s = .ok (some (2, []), s') ∧ Released s (some (2, [])) s' := by
  have made : ((system Unit).step bootState ((), .mkdir (some [47, 97]))).any (fun s => decide (0 < s.ref rootIno) &&
      match namei rootIno [47, 47, 97, 47, 46, 47] s with
      | .ok (res, _) => decide (res = some (2, []))
      | .error _ => false) = true := by
    decide +kernel
  obtain ⟨s, taken, found⟩ := (Option.any_eq_true _ _).mp made
  obtain ⟨present, found⟩ := (Bool.and_eq_true _ _).mp found
  obtain ⟨-, -, -, -, settled⟩ := boot_bootState.settled.step (by decide) taken
  obtain ⟨resolves, -, -⟩ := namex_resolves [47, 47, 97, 47, 46, 47] settled.quiet (of_decide_eq_true present)
  split at found
  next res s' ran =>
    cases of_decide_eq_true found
    exact ⟨s, s', taken, ran, (post_of_wp (resolves false).2 ran).2.2⟩
  · cases found

end Calls

end Xv6Simplesh.Names
