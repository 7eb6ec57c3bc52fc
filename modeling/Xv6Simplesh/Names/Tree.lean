import Xv6Simplesh.Library.Counting
import Xv6Simplesh.Names.Calls

/-! # The tree of directories

What the inodes on disk are to each other.  An inode should count as many links as directory
entries name it, `.` and `..` apart, and as many as it has subdirectories, which name it
as `..`.  The lemmas say how these numbers change with one entry more, and how directories
look after an entry has been written or removed.
-/

namespace Xv6Simplesh.Names

open Library

abbrev Inodes := Nat → Inode

/-! ## Links -/

/-- The entry is not `.` or `..`, and it names the inode. -/
def Dirent.Refers (de : Dirent) (i : Nat) : Prop :=
  de.inum = i ∧ de.inum ≠ 0 ∧ de.name ≠ dot ∧ de.name ≠ dotdot

instance (de : Dirent) (i : Nat) : Decidable (de.Refers i) := by
  unfold Dirent.Refers
  infer_instance

/-- How many entries of the directory name inode `i`. -/
def Inode.entriesFor (node : Inode) (i : Nat) : Nat :=
  if node.type = .dir then node.slots.countP (·.Refers i) else 0

/-- The inode that `..` names. -/
def Inode.parent (node : Inode) : Option Nat :=
  (node.slots.find? fun de => de.inum ≠ 0 ∧ de.name = dotdot).map Dirent.inum

def entryCount (inodes : Inodes) (i : Nat) : Nat := ∑ d ∈ Finset.range ninodes, (inodes d).entriesFor i

/-- How many directories that some entry names have `i` as their `..`. -/
def subdirectories (inodes : Inodes) (i : Nat) : Nat :=
  ((Finset.range ninodes).filter fun d =>
    (inodes d).type = .dir ∧ 0 < entryCount inodes d ∧ (inodes d).parent = some i).card

def linkCount (inodes : Inodes) (i : Nat) : Nat :=
  entryCount inodes i + subdirectories inodes i + if i = rootIno then 1 else 0

variable {inodes inodes' : Inodes} {d i j : Nat} {node : Inode}

theorem Inode.dir_of_entriesFor (entry : 0 < node.entriesFor i) : node.type = .dir := by
  unfold entriesFor at entry
  split at entry
  next isDir => exact isDir
  · exact absurd entry (Nat.lt_irrefl 0)

theorem Inode.entriesFor_of_ne_dir (notDir : node.type ≠ .dir) (i : Nat) : node.entriesFor i = 0 :=
  if_neg notDir

variable {de : Dirent} {slots : List Dirent}

theorem Inode.entriesFor_pos (isDir : node.type = .dir) (mem : de ∈ node.slots)
    (refers : de.Refers i) : 0 < node.entriesFor i := by
  rw [entriesFor, if_pos isDir, List.countP_pos_iff]
  exact ⟨de, mem, decide_eq_true refers⟩

theorem entriesFor_le_entryCount (inside : d < ninodes) (i : Nat) : (inodes d).entriesFor i ≤ entryCount inodes i :=
  Finset.single_le_sum (f := fun d => (inodes d).entriesFor i) (fun _ _ => Nat.zero_le _)
    (Finset.mem_range.mpr inside)

theorem exists_of_entryCount (named : 0 < entryCount inodes i) : ∃ d < ninodes, 0 < (inodes d).entriesFor i := by
  obtain ⟨d, inside, entry⟩ := Finset.sum_pos_iff.mp named
  exact ⟨d, Finset.mem_range.mp inside, entry⟩

/-- Links do not change with inodes that keep their entries, where those that are named keep
their place. -/
theorem counts_congr (rows : ∀ d i, (inodes' d).entriesFor i = (inodes d).entriesFor i)
    (places : ∀ d, 0 < entryCount inodes d →
      (inodes' d).type = (inodes d).type ∧ (inodes' d).parent = (inodes d).parent) :
    (∀ i, entryCount inodes' i = entryCount inodes i) ∧ ∀ i, linkCount inodes' i = linkCount inodes i := by
  have entries : ∀ i, entryCount inodes' i = entryCount inodes i := fun i =>
    Finset.sum_congr rfl fun d _ => rows d i
  refine ⟨entries, fun i => ?_⟩
  have directories : subdirectories inodes' i = subdirectories inodes i := by
    unfold subdirectories
    apply congrArg Finset.card
    refine Finset.filter_congr fun d _ => ?_
    rw [entries]
    by_cases unnamed : entryCount inodes d = 0
    · rw [unnamed]
      simp only [Nat.lt_irrefl, false_and, and_false]
    · rw [(places d (by omega)).1, (places d (by omega)).2]
  rw [linkCount, linkCount, entries, directories]

/-! ## One entry more -/

/-- `inodes'` has one entry more than `inodes`, in directory `d` and naming `j`. -/
structure Gains (inodes : Inodes) (d j : Nat) (inodes' : Inodes) : Prop where
  inside : d < ninodes
  target : j < ninodes
  type : ∀ i, (inodes' i).type = (inodes i).type
  nlink : ∀ i, (inodes' i).nlink = (inodes i).nlink
  parent : ∀ i, (inodes' i).parent = (inodes i).parent
  entriesFor : ∀ c i, (inodes' c).entriesFor i = (inodes c).entriesFor i + if c = d ∧ i = j then 1 else 0

/-- The inodes whose links an entry counts for: that of the inode it names, and the `..` of
a directory. -/
def charge (inodes : Inodes) (d j : Nat) : List Nat := if (inodes j).type = .dir then [j, d] else [j]

namespace Gains

theorem entryCount (gains : Gains inodes d j inodes') (i : Nat) :
    entryCount inodes' i = Names.entryCount inodes i + if i = j then 1 else 0 := by
  have row : (∑ c ∈ Finset.range ninodes, if c = d ∧ i = j then 1 else 0) = if i = j then 1 else 0 := by
    by_cases same : i = j
    · simp only [same, and_true, if_true, Finset.sum_ite_eq', Finset.mem_range, gains.inside]
    · simp only [same, and_false, if_false, Finset.sum_const_zero]
  rw [Names.entryCount, Finset.sum_congr rfl fun c _ => gains.entriesFor c i, Finset.sum_add_distrib, row]
  rfl

/-- Where the entry is for a directory, that directory had none and belongs there. -/
theorem linkCount (gains : Gains inodes d j inodes')
    (new : (inodes j).type = .dir → Names.entryCount inodes j = 0 ∧ (inodes j).parent = some d) (i : Nat) :
    linkCount inodes' i = Names.linkCount inodes i + (charge inodes d j).count i := by
  have directories : subdirectories inodes' i =
      subdirectories inodes i + if (inodes j).type = .dir ∧ i = d then 1 else 0 := by
    unfold subdirectories
    by_cases added : (inodes j).type = .dir ∧ i = d
    · obtain ⟨unnamed, home⟩ := new added.1
      rw [if_pos added, ← Finset.card_insert_of_notMem (a := j)]
      · apply congrArg Finset.card
        ext c
        simp only [Finset.mem_filter, Finset.mem_range, Finset.mem_insert, gains.type, gains.parent, gains.entryCount]
        by_cases same : c = j
        · simp [same, gains.target, added, home]
        · simp [same]
      · simp [unnamed]
    · rw [if_neg added, Nat.add_zero]
      apply congrArg Finset.card
      refine Finset.filter_congr fun c _ => ?_
      rw [gains.type, gains.parent, gains.entryCount]
      by_cases same : c = j
      · -- a directory that gets the entry is below `d`, and so not below `i`
        subst same
        constructor
        · rintro ⟨isDir, -, home⟩
          rw [(new isDir).2] at home
          exact absurd ⟨isDir, (Option.some.inj home).symm⟩ added
        · rintro ⟨isDir, named, -⟩
          rw [(new isDir).1] at named
          exact absurd named (Nat.lt_irrefl 0)
      · rw [if_neg same, Nat.add_zero]
  have counted : (charge inodes d j).count i =
      (if i = j then 1 else 0) + if (inodes j).type = .dir ∧ i = d then 1 else 0 := by
    unfold charge
    by_cases isDir : (inodes j).type = .dir
    · rw [if_pos isDir]
      simp only [List.count_cons, List.count_nil, beq_iff_eq, isDir, true_and, eq_comm (a := i)]
      omega
    · rw [if_neg isDir]
      simp only [List.count_cons, List.count_nil, beq_iff_eq, isDir, false_and, if_false, eq_comm (a := i)]
      omega
  rw [Names.linkCount, Names.linkCount, gains.entryCount, directories, counted]
  omega

end Gains

/-! ## Slots -/

/-- A directory as `create` makes it: `.`, `..`, and then other names. -/
def Shaped (d : Nat) (slots : List Dirent) : Prop :=
  ∃ parent rest, slots = ⟨d, dot⟩ :: ⟨parent, dotdot⟩ :: rest ∧ parent ≠ 0 ∧
    ∀ de ∈ rest, de.inum ≠ 0 → de.name ≠ dot ∧ de.name ≠ dotdot

/-- `slots'` has the entry `de` where `slots` has an empty slot, or nothing at the end; it is
not among the first two. -/
def Inserts (slots : List Dirent) (de : Dirent) (slots' : List Dirent) : Prop :=
  ∃ first snd before spare after, (∀ empty ∈ spare, empty.inum = 0) ∧
    slots = first :: snd :: (before ++ spare ++ after) ∧ slots' = first :: snd :: (before ++ de :: after)

theorem Inode.parent_eq {parent : Nat} {rest : List Dirent}
    (slots : node.slots = ⟨d, dot⟩ :: ⟨parent, dotdot⟩ :: rest) (pos : parent ≠ 0) : node.parent = some parent := by
  simp [Inode.parent, slots, pos, dot, dotdot]

theorem writeSlot_cons_succ (first de : Dirent) (slots : List Dirent) (off : Nat) :
    writeSlot (first :: slots) (off + 1) de = first :: writeSlot slots off de := by
  unfold writeSlot
  simp only [List.length_cons, Nat.add_lt_add_iff_right, List.set_cons_succ, List.cons_append]
  split <;> rfl

theorem writeSlot_append (before after : List Dirent) (old de : Dirent) :
    writeSlot (before ++ old :: after) before.length de = before ++ de :: after := by
  induction before with
  | nil => rfl
  | cons first before ih =>
    rw [List.cons_append, List.length_cons, writeSlot_cons_succ, ih, List.cons_append]

theorem writeSlot_empty (slots : List Dirent) (de : Dirent) :
    ∃ before spare after, (∀ empty ∈ spare, empty.inum = 0) ∧ slots = before ++ spare ++ after ∧
      writeSlot slots (slots.findIdx fun de => de.inum = 0) de = before ++ de :: after := by
  induction slots with
  | nil => exact ⟨[], [], [], by simp, rfl, rfl⟩
  | cons first slots ih =>
    by_cases empty : first.inum = 0
    · refine ⟨[], [first], slots, by simp [empty], rfl, ?_⟩
      rw [List.findIdx_cons]
      simp [empty, writeSlot]
    · obtain ⟨before, spare, after, unused, split, written⟩ := ih
      refine ⟨first :: before, spare, after, unused, by rw [split]; rfl, ?_⟩
      rw [List.findIdx_cons]
      simp only [empty, decide_false, cond_false, writeSlot_cons_succ, written, List.cons_append]

theorem Shaped.insert (shaped : Shaped d slots) (pos : d ≠ 0) (de : Dirent) :
    Inserts slots de (writeSlot slots (slots.findIdx fun de => de.inum = 0) de) := by
  obtain ⟨parent, rest, rfl, parentPositive, -⟩ := shaped
  obtain ⟨before, spare, after, unused, split, written⟩ := writeSlot_empty rest de
  refine ⟨⟨d, dot⟩, ⟨parent, dotdot⟩, before, spare, after, unused, by rw [split], ?_⟩
  simp only [List.findIdx_cons, pos, parentPositive, decide_false, cond_false, writeSlot_cons_succ, written]

theorem scan_some {name : Name} {base off inum : Nat} (found : scan name slots base = some (off, inum)) :
    ∃ before after, slots = before ++ ⟨inum, name⟩ :: after ∧ off = base + before.length ∧ inum ≠ 0 := by
  induction slots generalizing base with
  | nil => cases found
  | cons first slots ih =>
    rw [scan] at found
    split at found
    next here =>
      cases found
      refine ⟨[], slots, ?_, rfl, here.1⟩
      rw [List.nil_append, ← here.2]
    · obtain ⟨before, after, rfl, idx, pos⟩ := ih found
      refine ⟨first :: before, after, rfl, ?_, pos⟩
      rw [idx, List.length_cons]
      omega

theorem Shaped.remove (shaped : Shaped d slots) {name : Name} {off inum : Nat}
    (found : scan name slots 0 = some (off, inum)) (proper : name ≠ dot ∧ name ≠ dotdot) :
    Inserts (writeSlot slots off ⟨0, []⟩) ⟨inum, name⟩ slots := by
  obtain ⟨parent, rest, rfl, -, -⟩ := shaped
  obtain ⟨before, after, split, rfl, -⟩ := scan_some found
  rw [split, Nat.zero_add, writeSlot_append]
  -- the entry found is neither of the first two, because of its name
  cases before with
  | nil =>
    cases split
    exact absurd rfl proper.1
  | cons first before =>
    cases before with
    | nil =>
      cases split
      exact absurd rfl proper.2
    | cons snd before =>
      refine ⟨first, snd, before, [⟨0, []⟩], after, by simp, ?_, rfl⟩
      simp only [List.cons_append, List.append_assoc, List.nil_append]

theorem Shaped.inserts {slots' : List Dirent} (shaped : Shaped d slots)
    (inserts : Inserts slots de slots') (proper : de.name ≠ dot ∧ de.name ≠ dotdot) : Shaped d slots' := by
  obtain ⟨parent, rest, rfl, pos, names⟩ := shaped
  obtain ⟨first, snd, before, spare, after, unused, split, rfl⟩ := inserts
  simp only [List.cons.injEq] at split
  obtain ⟨rfl, rfl, rfl⟩ := split
  refine ⟨parent, _, rfl, pos, fun other mem used => ?_⟩
  simp only [List.mem_append, List.mem_cons] at mem names
  rcases mem with mem | rfl | mem
  · exact names other (.inl (.inl mem)) used
  · exact proper
  · exact names other (.inr mem) used

theorem Shaped.removes {slots' : List Dirent} (shaped : Shaped d slots')
    (inserts : Inserts slots de slots') : Shaped d slots := by
  obtain ⟨parent, rest, rfl, pos, names⟩ := shaped
  obtain ⟨first, snd, before, spare, after, unused, rfl, split⟩ := inserts
  simp only [List.cons.injEq] at split
  obtain ⟨rfl, rfl, rfl⟩ := split
  refine ⟨parent, _, rfl, pos, fun other mem used => ?_⟩
  simp only [List.mem_append, List.mem_cons] at mem names
  rcases mem with (mem | mem) | mem
  · exact names other (.inl mem) used
  · exact absurd (unused other mem) used
  · exact names other (.inr (.inr mem)) used

theorem Shaped.parent_inserts {node' : Inode} (shaped : Shaped d node.slots)
    (inserts : Inserts node.slots de node'.slots) : node'.parent = node.parent := by
  obtain ⟨parent, rest, slots, pos, -⟩ := shaped
  obtain ⟨first, snd, before, spare, after, -, split, split'⟩ := inserts
  have heads := slots.symm.trans split
  simp only [List.cons.injEq] at heads
  obtain ⟨rfl, rfl, -⟩ := heads
  rw [Inode.parent_eq slots pos, Inode.parent_eq split' pos]

/-- An entry put into a directory, or seen the other way, taken out. -/
theorem gains_of_inserts (inside : d < ninodes) (target : j < ninodes)
    (others : ∀ i, i ≠ d → inodes' i = inodes i) (type : (inodes d).type = .dir) (type' : (inodes' d).type = .dir)
    (nlink : (inodes' d).nlink = (inodes d).nlink) (shaped : Shaped d (inodes d).slots)
    (inserts : Inserts (inodes d).slots de (inodes' d).slots) (refers : de.Refers j) : Gains inodes d j inodes' := by
  have parent := shaped.parent_inserts inserts
  obtain ⟨first, snd, before, spare, after, unused, split, split'⟩ := inserts
  refine ⟨inside, target, fun i => ?_, fun i => ?_, fun i => ?_, fun c i => ?_⟩
  · by_cases same : i = d
    · rw [same, type, type']
    · rw [others i same]
  · by_cases same : i = d
    · rw [same, nlink]
    · rw [others i same]
  · by_cases same : i = d
    · rw [same, parent]
    · rw [others i same]
  · by_cases same : c = d
    · subst same
      have none : spare.countP (fun de => decide (de.Refers i)) = 0 := by
        rw [List.countP_eq_zero]
        intro empty mem
        simp [Dirent.Refers, unused empty mem]
      have one : decide (de.Refers i) = decide (i = j) := by
        rw [decide_eq_decide]
        exact ⟨fun refers' => refers'.1.symm.trans refers.1, fun same => same ▸ refers⟩
      rw [Inode.entriesFor, Inode.entriesFor, if_pos type, if_pos type', split, split']
      simp only [List.countP_cons, List.countP_append, none, one, true_and, decide_eq_true_eq]
      omega
    · rw [others c same]
      simp only [same, false_and, if_false, Nat.add_zero]

end Xv6Simplesh.Names
