import Xv6Simplesh.Names.References

/-! # Link counts

`Tree` says what the directories are like, and that the link counts are right up to the links that a
call has counted and not made yet, or removed and still counts, and up to the names that were lost with
the directories they were in.  The steps of the calls keep it as long as no count comes to `limit`.
Counts are exact where no name is lost and `limit` is 32768; where it is 65536, a count is zero only of an
inode that nothing names.
-/

namespace Xv6Simplesh.Names

open Library Function

structure Tree (limit : Nat) (inodes : Inodes) (owed : List Nat) (lost : Nat → Nat) : Prop where
  wide : 300 ≤ limit ∧ limit ≤ 65536
  root : (inodes rootIno).type = .dir
  top : (inodes rootIno).parent = some rootIno
  range : ∀ i, (inodes i).type ≠ .free → 0 < i ∧ i < ninodes
  shaped : ∀ d, (inodes d).type = .dir → Shaped d (inodes d).slots
  named : ∀ i, 0 < entryCount inodes i → (inodes i).type ≠ .free
  /-- A directory has one name at most, where its `..` says. -/
  child : ∀ d j, 0 < (inodes d).entriesFor j → (inodes j).type = .dir →
    d ≠ j ∧ (inodes j).parent = some d ∧ entryCount inodes j = 1
  links : ∀ i, (inodes i).type ≠ .free → linkCount inodes i + lost i + owed.count i < limit ∧
    (inodes i).nlink = short (linkCount inodes i + lost i + owed.count i : Nat)
  /-- The names that are lost are names of files. -/
  files : ∀ i, (inodes i).type = .dir ∨ (inodes i).type = .free → lost i = 0

theorem short_add (n m : Int) : short (short n + m) = short (n + m) := by
  simp only [short, Int.bmod_add_bmod]

theorem short_inj {m n : Nat} (small : m < 65536) (small' : n < 65536) (same : short m = short n) : m = n := by
  simp only [short, Int.bmod] at same
  split_ifs at same <;> omega

theorem short_eq_zero {n : Int} (low : -65536 < n) (high : n < 65536) (zero : short n = 0) : n = 0 := by
  simp only [short, Int.bmod] at zero
  split_ifs at zero <;> omega

theorem short_bounds (n : Int) : -32768 ≤ short n ∧ short n < 32768 := by
  simp only [short, Int.bmod]
  split_ifs <;> omega

theorem short_eq_iff {n : Int} : short n = n ↔ -32768 ≤ n ∧ n < 32768 := by
  constructor
  · intro same
    have bounds := short_bounds n
    omega
  · rintro ⟨above, below⟩
    exact Int.bmod_eq_of_le (by omega) (by omega)

variable {d j : Nat}

theorem ne_of_free {inodes : Inodes} {i : Nat} (free : (inodes i).type = .free) (isDir : (inodes d).type = .dir) :
    i ≠ d := by
  rintro rfl
  rw [free] at isDir
  cases isDir

namespace Tree

variable {limit : Nat} {inodes inodes' : Inodes} {owed owed' : List Nat} {lost : Nat → Nat} {d i j : Nat}

section

variable (tree : Tree limit inodes owed lost)

include tree

theorem range_dir (isDir : (inodes d).type = .dir) : 0 < d ∧ d < ninodes :=
  tree.range d (by rw [isDir]; decide)

theorem entryCount_free (free : (inodes i).type = .free) : entryCount inodes i = 0 := by
  by_contra named
  exact tree.named i (Nat.pos_of_ne_zero named) free

theorem subdirectories_eq_zero (empty : ∀ j, (inodes d).entriesFor j = 0) : subdirectories inodes d = 0 := by
  unfold subdirectories
  rw [Finset.card_eq_zero, Finset.filter_eq_empty_iff]
  rintro c - ⟨isDir, named, home⟩
  obtain ⟨above, -, entry⟩ := exists_of_entryCount named
  have parent := (tree.child above c entry isDir).2.1
  rw [home] at parent
  cases parent
  rw [empty c] at entry
  cases entry

theorem linkCount_free (free : (inodes i).type = .free) : linkCount inodes i = 0 := by
  rw [linkCount, tree.entryCount_free free, tree.subdirectories_eq_zero, if_neg (ne_of_free free tree.root)]
  exact Inode.entriesFor_of_ne_dir (by rw [free]; decide)

theorem entryCount_dir_le (isDir : (inodes d).type = .dir) : entryCount inodes d ≤ 1 := by
  by_contra many
  have named : 0 < entryCount inodes d := by omega
  obtain ⟨above, -, entry⟩ := exists_of_entryCount named
  have one := (tree.child above d entry isDir).2.2
  omega

theorem linkCount_dir_le (isDir : (inodes d).type = .dir) : linkCount inodes d ≤ 202 := by
  have names := tree.entryCount_dir_le isDir
  have below : subdirectories inodes d ≤ 200 := by
    have bound := Finset.card_filter_le (Finset.range ninodes)
      (fun c => (inodes c).type = .dir ∧ 0 < entryCount inodes c ∧ (inodes c).parent = some d)
    rwa [Finset.card_range] at bound
  unfold linkCount
  split <;> omega

theorem room_dir (isDir : (inodes d).type = .dir) : linkCount inodes d + lost d + 1 < limit := by
  have bound := tree.linkCount_dir_le isDir
  have none := tree.files d (.inl isDir)
  have wide := tree.wide.1
  omega

theorem entryCount_pos (entry : 0 < (inodes d).entriesFor j) : 0 < entryCount inodes j := by
  have inside := (tree.range_dir (Inode.dir_of_entriesFor entry)).2
  exact Nat.lt_of_lt_of_le entry (entriesFor_le_entryCount inside j)

theorem recount (type : ∀ i, (inodes' i).type = (inodes i).type) (slots : ∀ i, (inodes' i).slots = (inodes i).slots)
    (nlink : ∀ i, (inodes i).type ≠ .free → linkCount inodes i + lost i + owed'.count i < limit ∧
      (inodes' i).nlink = short (linkCount inodes i + lost i + owed'.count i : Nat)) : Tree limit inodes' owed' lost := by
  have rows : ∀ d i, (inodes' d).entriesFor i = (inodes d).entriesFor i := by
    intro d i
    simp only [Inode.entriesFor, type, slots]
  have parent : ∀ d, (inodes' d).parent = (inodes d).parent := by
    intro d
    simp only [Inode.parent, slots]
  obtain ⟨entries, counts⟩ := counts_congr rows fun d _ => ⟨type d, parent d⟩
  refine ⟨tree.wide, ?_, ?_, ?_, ?_, ?_, ?_, fun i alloc => ?_, ?_⟩
  · rw [type, tree.root]
  · rw [parent, tree.top]
  · simpa only [type] using tree.range
  · simpa only [type, slots] using tree.shaped
  · simpa only [type, entries] using tree.named
  · simpa only [type, rows, entries, parent] using tree.child
  · rw [type] at alloc
    rw [counts]
    exact nlink i alloc
  · simpa only [type] using tree.files

end

theorem fresh (tree : Tree limit inodes [] lost) {node : Inode} (free : (inodes i).type = .free)
    (range : 0 < i ∧ i < ninodes) (one : node.nlink = 1)
    (slots : node.type = .dir → node.slots = [⟨i, dot⟩, ⟨d, dotdot⟩]) (pos : d ≠ 0) :
    Tree limit (update inodes i node) [i] lost := by
  have unnamed := tree.entryCount_free free
  have none : node.entriesFor = (inodes i).entriesFor := by
    funext j
    have zero : (inodes i).entriesFor j = 0 := Inode.entriesFor_of_ne_dir (by rw [free]; decide) j
    rw [zero, Inode.entriesFor]
    split
    next isDir => simp [slots isDir, Dirent.Refers]
    · rfl
  have rows : ∀ c j, (update inodes i node c).entriesFor j = (inodes c).entriesFor j := by
    intro c j
    by_cases same : c = i
    · rw [same, update_self, none]
    · rw [update_of_ne same]
  have others : ∀ c, 0 < entryCount inodes c → c ≠ i := by
    rintro c named rfl
    omega
  have root := (ne_of_free free tree.root).symm
  have nothing := tree.files i (.inr free)
  obtain ⟨entries, counts⟩ := counts_congr rows fun c named => by
    rw [update_of_ne (others c named)]
    exact ⟨rfl, rfl⟩
  refine ⟨tree.wide, ?_, ?_, fun c => ?_, fun c => ?_, fun c named => ?_, fun c j entry => ?_, fun c => ?_, fun c => ?_⟩
  · rw [update_of_ne root, tree.root]
  · rw [update_of_ne root, tree.top]
  · by_cases same : c = i
    · exact fun _ => same ▸ range
    · rw [update_of_ne same]
      exact tree.range c
  · by_cases same : c = i
    · subst same
      rw [update_self]
      exact fun isDir => ⟨d, [], slots isDir, pos, List.forall_mem_nil _⟩
    · rw [update_of_ne same]
      exact tree.shaped c
  · rw [entries] at named
    rw [update_of_ne (others c named)]
    exact tree.named c named
  · rw [rows] at entry
    rw [update_of_ne (others j (tree.entryCount_pos entry)), entries]
    exact tree.child c j entry
  · rw [counts]
    by_cases same : c = i
    · subst same
      rw [update_self, tree.linkCount_free free, one, nothing, List.count_singleton_self]
      exact fun _ => ⟨Nat.lt_of_lt_of_le (by decide) tree.wide.1, rfl⟩
    · rw [update_of_ne same, List.count_eq_zero.mpr (by simpa using same)]
      exact tree.links c
  · by_cases same : c = i
    · exact fun _ => same ▸ nothing
    · rw [update_of_ne same]
      exact tree.files c

theorem gain (tree : Tree limit inodes (charge inodes d j) lost) (gains : Gains inodes d j inodes')
    (shaped : ∀ c, (inodes' c).type = .dir → Shaped c (inodes' c).slots) (alloc : (inodes j).type ≠ .free)
    (new : (inodes j).type = .dir → d ≠ j ∧ (inodes j).parent = some d ∧ entryCount inodes j = 0) :
    Tree limit inodes' [] lost := by
  refine ⟨tree.wide, ?_, ?_, ?_, shaped, fun i named => ?_, fun c i entry isDir => ?_, fun i used => ?_, ?_⟩
  · rw [gains.type, tree.root]
  · rw [gains.parent, tree.top]
  · simpa only [gains.type] using tree.range
  · rw [gains.type]
    rw [gains.entryCount] at named
    split at named
    next same => exact same ▸ alloc
    · rw [Nat.add_zero] at named
      exact tree.named i named
  · rw [gains.type] at isDir
    rw [gains.entriesFor] at entry
    rw [gains.parent, gains.entryCount]
    by_cases same : i = j
    · subst same
      obtain ⟨ne, home, unnamed⟩ := new isDir
      have here : c = d := by
        by_contra elsewhere
        rw [if_neg fun both => elsewhere both.1] at entry
        have named := tree.entryCount_pos entry
        omega
      rw [here, unnamed, if_pos rfl]
      exact ⟨ne, home, rfl⟩
    · rw [if_neg fun both => same both.2, Nat.add_zero] at entry
      rw [if_neg same, Nat.add_zero]
      exact tree.child c i entry isDir
  · rw [gains.type] at used
    rw [gains.nlink, gains.linkCount fun isDir => ⟨(new isDir).2.2, (new isDir).2.1⟩, List.count_nil, Nat.add_zero,
      Nat.add_right_comm]
    exact tree.links i used
  · simpa only [gains.type] using tree.files

theorem lose (tree : Tree limit inodes' [] lost) (gains : Gains inodes d j inodes')
    (shaped : ∀ c, (inodes c).type = .dir → Shaped c (inodes c).slots) :
    Tree limit inodes (charge inodes d j) lost := by
  have there : 0 < (inodes' d).entriesFor j := by
    rw [gains.entriesFor, if_pos ⟨rfl, rfl⟩]
    omega
  have new : (inodes j).type = .dir → entryCount inodes j = 0 ∧ (inodes j).parent = some d := by
    intro isDir
    have child := (tree.child d j there (by rwa [gains.type])).2
    rw [gains.parent, gains.entryCount, if_pos rfl] at child
    exact ⟨by omega, child.1⟩
  have fewer : ∀ i, entryCount inodes i ≤ entryCount inodes' i := by
    intro i
    rw [gains.entryCount]
    omega
  refine ⟨tree.wide, ?_, ?_, ?_, shaped, fun i named => ?_, fun c i entry isDir => ?_, fun i used => ?_, ?_⟩
  · rw [← gains.type, tree.root]
  · rw [← gains.parent, tree.top]
  · simpa only [gains.type] using tree.range
  · rw [← gains.type]
    exact tree.named i (Nat.lt_of_lt_of_le named (fewer i))
  · have entry' : 0 < (inodes' c).entriesFor i := by
      rw [gains.entriesFor]
      omega
    have child := tree.child c i entry' (by rwa [gains.type])
    rw [gains.parent, gains.entryCount] at child
    have other : i ≠ j := by
      rintro rfl
      have inside := (tree.range_dir (Inode.dir_of_entriesFor entry')).2
      have bound : (inodes c).entriesFor i ≤ entryCount inodes i := entriesFor_le_entryCount inside i
      have none := (new isDir).1
      omega
    rwa [if_neg other, Nat.add_zero] at child
  · have links := tree.links i (by rwa [gains.type])
    rwa [gains.nlink, gains.linkCount new, List.count_nil, Nat.add_zero, Nat.add_right_comm] at links
  · simpa only [gains.type] using tree.files

end Tree

/-! ## Names made and removed -/

section Names

variable {limit : Nat} {inodes : Inodes} {lost : Nat → Nat} {dp ip : Nat} {name : Name}

theorem scan_none {slots : List Dirent} {base : Nat} (absent : scan name slots base = none) :
    ∀ de ∈ slots, de.inum ≠ 0 → de.name ≠ name := by
  induction slots generalizing base with
  | nil => nofun
  | cons first slots ih =>
    rw [scan] at absent
    split at absent
    · cases absent
    next other =>
      rw [List.forall_mem_cons]
      exact ⟨fun used same => other ⟨used, same⟩, ih absent⟩

/-- A name that a directory does not have is not `.` or `..`. -/
theorem Shaped.proper {slots : List Dirent} (shaped : Shaped d slots) (pos : d ≠ 0)
    (absent : scan name slots 0 = none) : name ≠ dot ∧ name ≠ dotdot := by
  obtain ⟨parent, rest, rfl, used, -⟩ := shaped
  have others := scan_none absent
  simp only [List.forall_mem_cons] at others
  exact ⟨(others.1 pos).symm, (others.2.1 used).symm⟩

theorem Tree.enter (tree : Tree limit inodes (charge inodes dp ip) lost) (isDir : (inodes dp).type = .dir)
    (absent : scan name (inodes dp).slots 0 = none) (alloc : (inodes ip).type ≠ .free)
    (new : (inodes ip).type = .dir → dp ≠ ip ∧ (inodes ip).parent = some dp ∧ entryCount inodes ip = 0) :
    Tree limit (addEntry inodes dp name ip) [] lost := by
  obtain ⟨pos, inside⟩ := tree.range_dir isDir
  obtain ⟨pos', inside'⟩ := tree.range ip alloc
  have small : ip % 65536 = ip := Nat.mod_eq_of_lt (Nat.lt_trans inside' (by decide))
  have shaped := tree.shaped dp isDir
  have proper := shaped.proper (Nat.ne_of_gt pos) absent
  have inserts := shaped.insert (Nat.ne_of_gt pos) ⟨ip % 65536, name⟩
  have slots : (addEntry inodes dp name ip dp).slots =
      writeSlot (inodes dp).slots ((inodes dp).slots.findIdx fun de => de.inum = 0) ⟨ip % 65536, name⟩ := by
    rw [addEntry, update_self]
  refine tree.gain (gains_of_inserts inside inside' (fun i other => addEntry_of_ne other name ip) isDir ?_ ?_ shaped
    (slots ▸ inserts) ?_) ?_ alloc new
  · rw [addEntry_type, isDir]
  · rw [addEntry_nlink]
  · exact ⟨small, by rw [small]; exact Nat.ne_of_gt pos', proper⟩
  · intro c isDir'
    by_cases same : c = dp
    · rw [same, slots]
      exact shaped.inserts inserts proper
    · rw [addEntry_type] at isDir'
      rw [addEntry_of_ne same]
      exact tree.shaped c isDir'

/-- A link more that is counted. -/
theorem Tree.count {owed owed' : List Nat} (tree : Tree limit inodes owed lost)
    (room : (inodes ip).type ≠ .free → linkCount inodes ip + lost ip + owed.count ip + 1 < limit)
    (more : ∀ i, owed'.count i = owed.count i + if i = ip then 1 else 0) : Tree limit (counted inodes ip) owed' lost := by
  refine tree.recount (counted_type inodes ip) (counted_slots inodes ip) fun i alloc => ?_
  obtain ⟨bound, nlink⟩ := tree.links i alloc
  rw [counted, update_apply, more]
  by_cases same : i = ip
  · subst same
    rw [if_pos rfl, if_pos rfl, ← Nat.add_assoc]
    refine ⟨room alloc, ?_⟩
    rw [Inode.addLink, nlink, short_add]
    push_cast
    rfl
  · rw [if_neg same, if_neg same]
    exact ⟨bound, nlink⟩

theorem Tree.countDir {owed owed' : List Nat} (tree : Tree limit inodes owed lost) (isDir : (inodes dp).type = .dir)
    (few : owed.count dp = 0) (more : ∀ i, owed'.count i = owed.count i + if i = dp then 1 else 0) :
    Tree limit (counted inodes dp) owed' lost := by
  refine tree.count (fun _ => ?_) more
  rw [few]
  exact tree.room_dir isDir

theorem dotted_dir (major minor : Int) (ne : ip ≠ dp) (pos : ip % 65536 ≠ 0) :
    dotted (update inodes ip ⟨.dir, major, minor, 1, []⟩) .dir dp ip =
      counted (update inodes ip ⟨.dir, major, minor, 1, [⟨ip % 65536, dot⟩, ⟨dp % 65536, dotdot⟩]⟩) dp := by
  funext j
  by_cases same : j = ip
  · subst same
    simp [dotted, addEntry, counted, ne, writeSlot, List.findIdx_cons, pos]
  · simp [dotted, addEntry, counted, update_apply, same, ne.symm]

theorem Tree.make (tree : Tree limit inodes [] lost) {type : Kind} (major minor : Int) (isDir : (inodes dp).type = .dir)
    (absent : scan name (inodes dp).slots 0 = none) (free : freeInode inodes = some ip) (proper : type ≠ .free) :
    Tree limit (made inodes type major minor dp name ip) [] lost := by
  obtain ⟨unused, pos, inside⟩ := freeInode_some free
  obtain ⟨pos', inside'⟩ := tree.range_dir isDir
  have small : ip % 65536 = ip := Nat.mod_eq_of_lt (Nat.lt_trans inside (by decide))
  have small' : dp % 65536 = dp := Nat.mod_eq_of_lt (Nat.lt_trans inside' (by decide))
  have ne := ne_of_free unused isDir
  unfold made
  by_cases directory : type = .dir
  · subst directory
    rw [dotted_dir major minor ne (by omega), small, small']
    have fresh : Tree limit (update inodes ip ⟨.dir, major, minor, 1, [⟨ip, dot⟩, ⟨dp, dotdot⟩]⟩) [ip] lost :=
      tree.fresh unused ⟨pos, inside⟩ rfl (fun _ => rfl) (Nat.ne_of_gt pos')
    set base := update inodes ip ⟨.dir, major, minor, 1, [⟨ip, dot⟩, ⟨dp, dotdot⟩]⟩ with baseDef
    have new : counted base dp ip = ⟨.dir, major, minor, 1, [⟨ip, dot⟩, ⟨dp, dotdot⟩]⟩ := by
      rw [counted, update_of_ne ne, baseDef, update_self]
    have old : base dp = inodes dp := update_of_ne ne.symm _ _
    have due : charge (counted base dp) dp ip = [ip, dp] := by rw [charge, new, if_pos rfl]
    have ready : Tree limit (counted base dp) (charge (counted base dp) dp ip) lost := by
      refine fresh.countDir (old ▸ isDir) (List.count_eq_zero.mpr (by simpa using ne.symm)) fun i => ?_
      rw [due]
      simp only [List.count_cons, List.count_nil, beq_iff_eq, eq_comm (b := i)]
      omega
    refine ready.enter ?_ ?_ (by rw [new]; simp) fun _ => ⟨ne.symm, ?_, ?_⟩
    · rw [counted_type, old, isDir]
    · rw [counted_slots, old, absent]
    · rw [new, Inode.parent_eq rfl (Nat.ne_of_gt pos')]
    · -- the one link that it counts is the one it owes
      obtain ⟨bound, one⟩ := ready.links ip (by rw [new]; simp)
      rw [new, due, List.count_cons_self, linkCount] at one
      rw [due, List.count_cons_self, linkCount] at bound
      have same := short_inj (m := 1) (by decide) (Nat.lt_of_lt_of_le bound ready.wide.2) one
      omega
  · rw [dotted, if_neg directory]
    have fresh : Tree limit (update inodes ip ⟨type, major, minor, 1, []⟩) [ip] lost :=
      tree.fresh unused ⟨pos, inside⟩ rfl (fun isDir => absurd isDir directory) (Nat.ne_of_gt pos')
    set base := update inodes ip ⟨type, major, minor, 1, []⟩ with baseDef
    have new : base ip = ⟨type, major, minor, 1, []⟩ := by rw [baseDef, update_self]
    have old : base dp = inodes dp := update_of_ne ne.symm _ _
    have due : charge base dp ip = [ip] := by rw [charge, new, if_neg directory]
    refine Tree.enter (due ▸ fresh) (old ▸ isDir) (old ▸ absent) (by rw [new]; exact proper) fun isDir => ?_
    rw [new] at isDir
    exact absurd isDir directory

theorem Tree.room (tree : Tree limit inodes [] lost) (alloc : (inodes ip).type ≠ .free)
    (fits : (inodes ip).nlink ≠ short (limit - 1)) : linkCount inodes ip + lost ip + [].count ip + 1 < limit := by
  obtain ⟨bound, nlink⟩ := tree.links ip alloc
  by_contra full
  refine fits ?_
  rw [nlink]
  congr 1
  omega

theorem Tree.link (tree : Tree limit inodes [] lost) (alloc : (inodes ip).type ≠ .free)
    (notDir : (inodes ip).type ≠ .dir) (isDir : (inodes dp).type = .dir) (absent : scan name (inodes dp).slots 0 = none)
    (fits : (inodes ip).nlink ≠ short (limit - 1)) : Tree limit (addEntry (counted inodes ip) dp name ip) [] lost := by
  have due : charge (counted inodes ip) dp ip = [ip] := by rw [charge, counted_type, if_neg notDir]
  have counts : Tree limit (counted inodes ip) [ip] lost := by
    refine tree.count (fun _ => tree.room alloc fits) fun i => ?_
    simp only [List.count_cons, List.count_nil, beq_iff_eq, eq_comm (b := i)]
  refine Tree.enter (due ▸ counts) ?_ ?_ ?_ fun isDir => ?_
  · rw [counted_type, isDir]
  · rw [counted_slots, absent]
  · rwa [counted_type]
  · rw [counted_type] at isDir
    exact absurd isDir notDir

def cleared (inodes : Inodes) (dp off : Nat) : Inodes :=
  update inodes dp { inodes dp with slots := writeSlot (inodes dp).slots off ⟨0, []⟩ }

variable {c cwd off : Nat} {path : Path}

theorem removed_slots (ne : ip ≠ dp) : (removed inodes dp off ip j).slots = (cleared inodes dp off j).slots := by
  unfold removed cleared
  simp only [update_apply]
  split_ifs <;> simp_all [Inode.dropLink]

theorem Tree.unlinks (tree : Tree limit inodes [] lost) (unlinks : Unlinks inodes cwd path dp off ip) :
    (inodes dp).type = .dir ∧ (inodes ip).type ≠ .free ∧ ip ≠ dp ∧ 0 < (inodes dp).entriesFor ip := by
  obtain ⟨name, target, proper, found, -⟩ := unlinks
  have isDir := find_parent_dir target
  obtain ⟨before, after, split, -, used⟩ := scan_some found
  have entry : 0 < (inodes dp).entriesFor ip :=
    Inode.entriesFor_pos isDir (by simp [split] : (⟨ip, name⟩ : Dirent) ∈ _) ⟨rfl, used, proper⟩
  refine ⟨isDir, tree.named ip (tree.entryCount_pos entry), ?_, entry⟩
  rintro rfl
  exact (tree.child ip ip entry isDir).1 rfl

/-- The inodes without the entry that `unlink` clears. -/
theorem Tree.gains_cleared (tree : Tree limit inodes [] lost) (unlinks : Unlinks inodes cwd path dp off ip) :
    Gains (cleared inodes dp off) dp ip inodes ∧
      ∀ c, (cleared inodes dp off c).type = .dir → Shaped c (cleared inodes dp off c).slots := by
  obtain ⟨isDir, alloc, ne, -⟩ := tree.unlinks unlinks
  obtain ⟨name, target, proper, found, -⟩ := unlinks
  obtain ⟨-, -, -, -, used⟩ := scan_some found
  have shaped := tree.shaped dp isDir
  have inserts := shaped.remove found proper
  have here : cleared inodes dp off dp = { inodes dp with slots := writeSlot (inodes dp).slots off ⟨0, []⟩ } := update_self ..
  have others : ∀ c, c ≠ dp → cleared inodes dp off c = inodes c := fun c other => update_of_ne other _ _
  have shaped' : Shaped dp (cleared inodes dp off dp).slots := by
    rw [here]
    exact shaped.removes inserts
  constructor
  · refine gains_of_inserts (tree.range_dir isDir).2 (tree.range ip alloc).2
      (fun c other => (others c other).symm) ?_ isDir ?_ shaped' ?_ (⟨rfl, used, proper⟩ : Dirent.Refers ⟨ip, name⟩ ip)
    · rw [here, isDir]
    · rw [here]
    · rw [here]
      exact inserts
  · intro c isDir'
    by_cases same : c = dp
    · rw [same]
      exact shaped'
    · rw [others c same] at isDir' ⊢
      exact tree.shaped c isDir'

theorem Tree.entriesFor_removed (tree : Tree limit inodes [] lost)
    (unlinks : Unlinks inodes cwd path dp off ip) {i : Nat} (other : ¬ (c = dp ∧ i = ip)) :
    (removed inodes dp off ip c).entriesFor i = (inodes c).entriesFor i := by
  have gains := (tree.gains_cleared unlinks).1
  rw [gains.entriesFor c i, if_neg other, Nat.add_zero]
  simp only [Inode.entriesFor, removed_type, gains.type, removed_slots (tree.unlinks unlinks).2.2.1]

theorem Tree.unlink (tree : Tree limit inodes [] lost)
    (unlinks : Unlinks inodes cwd path dp off ip) : Tree limit (removed inodes dp off ip) [] lost := by
  obtain ⟨-, -, ne, -⟩ := tree.unlinks unlinks
  obtain ⟨gains, shaped⟩ := tree.gains_cleared unlinks
  have smaller := tree.lose gains shaped
  refine smaller.recount (fun i => by rw [removed_type, gains.type]) (fun i => removed_slots ne) fun i used => ?_
  rw [removed_nlink]
  have due : (charge (cleared inodes dp off) dp ip).count i =
      if i = ip ∨ (i = dp ∧ (inodes ip).type = .dir) then 1 else 0 := by
    rw [charge, ← gains.type]
    by_cases directory : (inodes ip).type = .dir
    · by_cases first : i = ip
      · simp [directory, first, ne.symm]
      · simp [directory, first, List.count_cons, eq_comm (b := i)]
    · simp [directory, List.count_cons, eq_comm (b := i)]
  obtain ⟨bound, count⟩ := smaller.links i used
  rw [← gains.nlink, due] at count
  rw [List.count_nil]
  refine ⟨by omega, ?_⟩
  split
  next one =>
    rw [if_pos one] at count
    rw [count, Int.sub_eq_add_neg, short_add]
    congr 1
    push_cast
    omega
  next other => rw [count, if_neg other]

/-! ## Inodes freed -/

/-- The link counts are exact. -/
def Exact (inodes : Inodes) : Prop := ∀ i, (inodes i).type ≠ .free → (inodes i).nlink = linkCount inodes i

theorem Tree.exact (tree : Tree 32768 inodes [] fun _ => 0) : Exact inodes := by
  intro i alloc
  obtain ⟨bound, nlink⟩ := tree.links i alloc
  rw [List.count_nil] at bound nlink
  rw [nlink, short_eq_iff.mpr ⟨by omega, by omega⟩]
  simp only [Nat.add_zero]

section Sweep

variable {users : Nat → Nat} {x : Nat}

theorem Tree.unnamed (tree : Tree limit inodes [] lost) {n : Nat} (lapsed : (inodes x).Lapsed n) :
    linkCount inodes x = 0 ∧ lost x = 0 := by
  obtain ⟨bound, nlink⟩ := tree.links x lapsed.1
  rw [lapsed.2.1] at nlink
  have none := short_inj (m := 0) (by decide) (Nat.lt_of_lt_of_le bound tree.wide.2) nlink
  omega

theorem Tree.entryCount_eq_zero (tree : Tree limit inodes [] lost) (lapsed : (inodes x).Lapsed (users x)) :
    entryCount inodes x = 0 := by
  have none := (tree.unnamed lapsed).1
  unfold linkCount at none
  omega

/-- An inode without links has no subdirectories. -/
theorem Tree.entriesFor_dir (tree : Tree limit inodes [] lost) (lapsed : (inodes x).Lapsed (users x))
    (isDir : (inodes j).type = .dir) : (inodes x).entriesFor j = 0 := by
  by_contra entry
  have entry := Nat.pos_of_ne_zero entry
  have below : 0 < subdirectories inodes x := Finset.card_pos.mpr ⟨j, Finset.mem_filter.mpr
    ⟨Finset.mem_range.mpr (tree.range_dir isDir).2, isDir, tree.entryCount_pos entry,
      (tree.child x j entry isDir).2.1⟩⟩
  have none := (tree.unnamed lapsed).1
  unfold linkCount at none
  omega

theorem sweep_of_alloc (used : (Names.sweep inodes users c).type ≠ .free) : Names.sweep inodes users c = inodes c :=
  if_neg (not_lapsed_of_sweep used)

theorem Tree.sweep_of_named (tree : Tree limit inodes [] lost) (named : 0 < linkCount inodes c) :
    Names.sweep inodes users c = inodes c := by
  refine if_neg fun lapsed => ?_
  rw [(tree.unnamed lapsed).1] at named
  cases named

theorem entriesFor_sweep_le (c i : Nat) : (Names.sweep inodes users c).entriesFor i ≤ (inodes c).entriesFor i := by
  rw [Names.sweep]
  split
  · exact Nat.zero_le _
  · exact le_refl _

theorem entryCount_sweep_le (i : Nat) : entryCount (Names.sweep inodes users) i ≤ entryCount inodes i :=
  Finset.sum_le_sum fun c _ => entriesFor_sweep_le c i

theorem entryCount_sweep_eq (bare : ∀ c, (inodes c).Lapsed (users c) → (inodes c).entriesFor j = 0) :
    entryCount (Names.sweep inodes users) j = entryCount inodes j := by
  refine Finset.sum_congr rfl fun c _ => ?_
  rw [Names.sweep]
  split
  next lapsed => exact (bare c lapsed).symm
  · rfl

section

variable (tree : Tree limit inodes [] lost)

include tree

theorem Tree.entryCount_sweep (isDir : (inodes j).type = .dir) :
    entryCount (Names.sweep inodes users) j = entryCount inodes j :=
  entryCount_sweep_eq fun _ lapsed => tree.entriesFor_dir lapsed isDir

theorem Tree.subdirectories_sweep (i : Nat) :
    subdirectories (Names.sweep inodes users) i = subdirectories inodes i := by
  refine congrArg Finset.card (Finset.filter_congr fun c _ => ?_)
  by_cases lapsed : (inodes c).Lapsed (users c)
  · rw [Names.sweep, if_pos lapsed, tree.entryCount_eq_zero lapsed]
    exact iff_of_false (fun same => by cases same.1) fun named => Nat.lt_irrefl 0 named.2.1
  · rw [show Names.sweep inodes users c = inodes c from if_neg lapsed]
    refine and_congr_right fun isDir => ?_
    rw [tree.entryCount_sweep isDir]

theorem Tree.linkCount_sweep_le (i : Nat) : linkCount (Names.sweep inodes users) i ≤ linkCount inodes i := by
  have entries : entryCount (Names.sweep inodes users) i ≤ entryCount inodes i := entryCount_sweep_le i
  unfold linkCount
  rw [tree.subdirectories_sweep]
  omega

/-- A directory that is freed with its entries takes names of files with it. -/
theorem Tree.sweep (users : Nat → Nat) : Tree limit (sweep inodes users) []
    fun i => lost i + (linkCount inodes i - linkCount (Names.sweep inodes users) i) := by
  have root : Names.sweep inodes users rootIno = inodes rootIno :=
    tree.sweep_of_named (by rw [linkCount, if_pos rfl]; omega)
  have named : ∀ c, 0 < entryCount inodes c → Names.sweep inodes users c = inodes c := fun c named =>
    tree.sweep_of_named (by rw [linkCount]; omega)
  refine ⟨tree.wide, ?_, ?_, fun c used => ?_, fun c isDir => ?_, fun c entries => ?_, fun c j entry isDir => ?_,
    fun c used => ?_, fun c kind => ?_⟩
  · rw [root, tree.root]
  · rw [root, tree.top]
  · exact tree.range c (sweep_of_alloc used ▸ used)
  · have same := sweep_of_alloc (by rw [isDir]; decide : (Names.sweep inodes users c).type ≠ .free)
    rw [same] at isDir ⊢
    exact tree.shaped c isDir
  · have before := Nat.lt_of_lt_of_le entries (entryCount_sweep_le c)
    rw [named c before]
    exact tree.named c before
  · have before := Nat.lt_of_lt_of_le entry (entriesFor_sweep_le c j)
    have same := sweep_of_alloc (by rw [isDir]; decide : (Names.sweep inodes users j).type ≠ .free)
    rw [same] at isDir ⊢
    rw [tree.entryCount_sweep isDir]
    exact tree.child c j before isDir
  · have fewer : linkCount (Names.sweep inodes users) c ≤ linkCount inodes c := tree.linkCount_sweep_le c
    have links := tree.links c (sweep_of_alloc used ▸ used)
    rw [sweep_of_alloc used]
    have total : linkCount (Names.sweep inodes users) c +
        (lost c + (linkCount inodes c - linkCount (Names.sweep inodes users) c)) = linkCount inodes c + lost c := by omega
    rwa [total]
  · have none : lost c = 0 ∧ linkCount inodes c = linkCount (Names.sweep inodes users) c := by
      have fewer : linkCount (Names.sweep inodes users) c ≤ linkCount inodes c := tree.linkCount_sweep_le c
      by_cases lapsed : (inodes c).Lapsed (users c)
      · obtain ⟨unnamed, none⟩ := tree.unnamed lapsed
        omega
      · rw [Names.sweep, if_neg lapsed] at kind
        refine ⟨tree.files c kind, ?_⟩
        rcases kind with isDir | free
        · rw [linkCount, linkCount, tree.entryCount_sweep isDir, tree.subdirectories_sweep]
        · have none := tree.linkCount_free free
          omega
    rw [none.1, none.2, Nat.sub_self]

theorem Tree.sweep_bare (bare : ∀ x, (inodes x).Lapsed (users x) → ∀ j, (inodes x).entriesFor j = 0) :
    Tree limit (Names.sweep inodes users) [] lost := by
  have same : ∀ i, linkCount (Names.sweep inodes users) i = linkCount inodes i := by
    intro i
    have entries := entryCount_sweep_eq fun c lapsed => bare c lapsed i
    rw [linkCount, linkCount, entries, tree.subdirectories_sweep]
  simpa only [same, Nat.sub_self, Nat.add_zero] using tree.sweep users

end

/-- Where a directory goes with an entry, the inode that the entry names counts a link too many. -/
theorem Tree.inexact (tree : Tree 32768 inodes [] fun _ => 0) (lapsed : (inodes x).Lapsed (users x))
    (entry : 0 < (inodes x).entriesFor j) : ¬ Exact (Names.sweep inodes users) := by
  intro exact
  have strictly : entryCount (Names.sweep inodes users) j < entryCount inodes j := by
    refine Finset.sum_lt_sum (fun c _ => entriesFor_sweep_le c j)
      ⟨x, Finset.mem_range.mpr (tree.range x lapsed.1).2, ?_⟩
    rw [Names.sweep, if_pos lapsed]
    exact entry
  have named := tree.entryCount_pos entry
  have stays : Names.sweep inodes users j = inodes j := tree.sweep_of_named (by rw [linkCount]; omega)
  have alloc := tree.named j named
  have before := tree.exact j alloc
  have after := exact j (stays.symm ▸ alloc)
  rw [stays, before, linkCount, linkCount, tree.subdirectories_sweep] at after
  omega

end Sweep

end Names

/-! ## What a call drops -/

/-- The call makes a link to a file whose count is `full`. -/
def Overflows (full : Int) (inodes : Inodes) (cwd : Nat) : Call → Prop
  | .link (some old) (some new) => ∃ ip last dp name,
    find inodes false (elements old) (origin cwd old) = some (ip, last) ∧
      ((inodes ip).type ≠ .dir ∧ (inodes ip).type ≠ .free) ∧
      find inodes true (elements new) (origin cwd new) = some (dp, name) ∧ scan name (inodes dp).slots 0 = none ∧
      (inodes ip).nlink = full
  | _ => False

variable {Pid : Type} [Fintype Pid] [DecidableEq Pid]

/-- The call takes the last link of an inode that nobody refers to, or the last reference to an inode
without links. -/
inductive Drops (s : State Pid) (p : Pid) (cwd : Nat) : Call → Nat → Prop where
  | name {path : Path} {dp off ip : Nat} (unlinks : Unlinks s.inodes cwd path dp off ip)
      (last : (s.inodes ip).nlink = 1) (unused : uses s.procs ip = 0) : Drops s p cwd (.unlink (some path)) ip
  /-- The directory that loses a subdirectory. -/
  | above {path : Path} {dp off ip : Nat} (unlinks : Unlinks s.inodes cwd path dp off ip)
      (isDir : (s.inodes ip).type = .dir) (last : (s.inodes dp).nlink = 1) (unused : uses s.procs dp = 0) :
      Drops s p cwd (.unlink (some path)) dp
  | chdir {path : Path} {ip : Nat} {name : Name}
      (found : find s.inodes false (elements path) (origin cwd path) = some (ip, name))
      (isDir : (s.inodes ip).type = .dir) (other : ip ≠ cwd) (linkless : (s.inodes cwd).nlink = 0)
      (last : uses s.procs cwd = 1) : Drops s p cwd (.chdir (some path)) cwd
  | close {fd : Option Int} {slot : Fin nofile} {i : Nat} (file : argfd (s.procs p).ofile fd = some (slot, i))
      (linkless : (s.inodes i).nlink = 0) (last : uses s.procs i = 1) : Drops s p cwd (.close fd) i
  | exit {i : Nat} (linkless : (s.inodes i).nlink = 0) (referred : 0 < (s.procs p).refers i)
      (last : uses s.procs i = (s.procs p).refers i) : Drops s p cwd .exit i

/-- The call leaves the inode with neither links nor references. -/
def Lapses (s : State Pid) (p : Pid) (cwd : Nat) (call : Call) (i : Nat) : Prop :=
  ((plan s p cwd call).1 i).Lapsed (uses (plan s p cwd call).2 i)

section Drops

variable {limit : Nat} {inodes inodes' : Inodes} {lost : Nat → Nat} {s s' : State Pid} {p : Pid} {cwd i n : Nat}
  {call : Call}

theorem Tree.change (tree : Tree limit inodes [] lost) (change : Change inodes cwd call inodes')
    (fits : ¬ Overflows (short (limit - 1)) inodes cwd call) : Tree limit inodes' [] lost := by
  cases change with
  | none => exact tree
  | make major minor visits isDir absent free proper => exact tree.make major minor isDir absent free proper
  | @link old new dp ip last name target notDir alloc place absent =>
    exact tree.link alloc notDir (find_parent_dir place) absent fun full =>
      fits ⟨ip, last, dp, name, target, ⟨notDir, alloc⟩, place, absent, full⟩
  | unlink unlinks => exact tree.unlink unlinks

theorem addEntry_parent {dp : Nat} (shaped : Shaped dp (inodes dp).slots) (pos : dp ≠ 0) (name : Name) (inum d : Nat) :
    (addEntry inodes dp name inum d).parent = (inodes d).parent := by
  by_cases same : d = dp
  · subst same
    rw [addEntry, update_self]
    exact shaped.parent_inserts (shaped.insert pos _)
  · rw [addEntry_of_ne same]

/-- A directory stays where it is. -/
theorem Tree.change_dir (tree : Tree limit inodes [] lost) (change : Change inodes cwd call inodes')
    (isDir : (inodes d).type = .dir) : (inodes' d).type = .dir ∧ (inodes' d).parent = (inodes d).parent := by
  have pos {dp : Nat} (isDir : (inodes dp).type = .dir) : dp ≠ 0 := Nat.ne_of_gt (tree.range_dir isDir).1
  cases change with
  | none => exact ⟨isDir, rfl⟩
  | @make _ dp ip name type major minor visits place absent free proper =>
    have other := (ne_of_free (freeInode_some free).1 isDir).symm
    refine ⟨by rw [made_type, if_neg other, isDir], ?_⟩
    by_cases same : d = dp
    · subst same
      have slots : (dotted (update inodes ip ⟨type, major, minor, 1, []⟩) type d ip d).slots = (inodes d).slots := by
        rw [dotted_slots other.symm, update_of_ne other]
      rw [made, addEntry_parent (slots ▸ tree.shaped d isDir) (pos isDir), Inode.parent, slots, Inode.parent]
    · rw [made_of_ne other same]
  | @link _ _ dp ip _ name _ _ _ place =>
    have above := find_parent_dir place
    have slots := counted_slots inodes ip
    refine ⟨by rw [addEntry_type, counted_type, isDir], ?_⟩
    rw [addEntry_parent ((slots dp).symm ▸ tree.shaped dp above) (pos above), Inode.parent, slots, Inode.parent]
  | unlink unlinks =>
    have gains := (tree.gains_cleared unlinks).1
    refine ⟨by rw [removed_type, isDir], ?_⟩
    rw [gains.parent, Inode.parent, removed_slots (tree.unlinks unlinks).2.2.1, Inode.parent]

/-- An inode without links after the change was without links before, or `unlink` takes one. -/
theorem Tree.lapsed_cases (tree : Tree limit inodes [] lost) (change : Change inodes cwd call inodes')
    (fits : ¬ Overflows (short (limit - 1)) inodes cwd call) (lapsed : (inodes' i).Lapsed n) :
    (inodes i).Lapsed n ∨ ∃ path dp off ip, call = .unlink (some path) ∧ Unlinks inodes cwd path dp off ip ∧
      (i = ip ∨ i = dp ∧ (inodes ip).type = .dir) ∧ (inodes i).nlink = 1 := by
  obtain ⟨alloc, linkless, unused⟩ := lapsed
  -- a count that has grown is not zero
  have grown : (inodes i).type ≠ .free → linkCount inodes i + lost i + [].count i + 1 < limit →
      short ((inodes i).nlink + 1) ≠ 0 := by
    intro used room zero
    have same : short (linkCount inodes i + lost i + [].count i + 1 : Nat) = short (0 : Nat) := by
      rw [Int.natCast_succ, ← short_add, ← (tree.links i used).2, zero]
      rfl
    cases short_inj (Nat.lt_of_lt_of_le room tree.wide.2) (by decide) same
  cases change with
  | none => exact .inl ⟨alloc, linkless, unused⟩
  | @make _ dp ip name type major minor visits isDir absent free proper =>
    rw [made_nlink (ne_of_free (freeInode_some free).1 isDir)] at linkless
    rw [made_type] at alloc
    split at linkless
    · cases linkless
    next old =>
      rw [if_neg old] at alloc
      split at linkless
      next here =>
        refine absurd linkless (grown alloc ?_)
        rw [here.1, List.count_nil]
        exact tree.room_dir isDir
      · exact .inl ⟨alloc, linkless, unused⟩
  | @link old new dp ip last name target notDir used place absent =>
    rw [addEntry_nlink, counted, update_apply] at linkless
    rw [addEntry_type, counted_type] at alloc
    split at linkless
    next same =>
      subst same
      exact absurd linkless (grown alloc (tree.room alloc fun full =>
        fits ⟨i, last, dp, name, target, ⟨notDir, alloc⟩, place, absent, full⟩))
    · exact .inl ⟨alloc, linkless, unused⟩
  | @unlink path dp off ip unlinks =>
    rw [removed_type] at alloc
    rw [removed_nlink] at linkless
    split at linkless
    next taken =>
      have bounds := short_bounds (linkCount inodes i + lost i + [].count i : Nat)
      rw [← (tree.links i alloc).2] at bounds
      have zero := short_eq_zero (by omega) (by omega) linkless
      exact .inr ⟨path, dp, off, ip, rfl, unlinks, taken, by omega⟩
    · exact .inl ⟨alloc, linkless, unused⟩

omit [DecidableEq Pid] in
theorem Settled.alloc_of_uses (settled : Settled s) (root : (s.inodes rootIno).type = .dir) (used : 0 < uses s.procs i) :
    (s.inodes i).type ≠ .free := by
  have referred : 0 < s.ref i := by rw [settled.busy.ref, List.count_nil]; exact used
  rcases settled.busy.valid i used with loaded | rfl
  · exact settled.busy.typed i referred loaded
  · rw [root]
    decide

theorem State.uses_withFile_le (s : State Pid) (p : Pid) (ip : Option Nat) (i : Nat) :
    uses s.procs i ≤ uses (s.withFile p ip) i := by
  unfold withFile
  split
  · exact le_refl _
  next ip =>
    split
    · exact le_refl _
    next fd new =>
      have more := uses_setFile s.procs p fd (some ip) i
      rw [s.newFd_some new] at more
      simp only [reduceCtorEq, if_false] at more
      omega

theorem uses_exit (procs : Pid → Proc) (p : Pid) (i : Nat) :
    uses (update procs p ⟨none, fun _ => none⟩) i + (procs p).refers i = uses procs i := by
  have updated := uses_update procs p ⟨none, fun _ => none⟩ i
  simpa [Proc.refers, tally] using updated

/-- An inode without links that is there because of references, and loses them all. -/
theorem Settled.drops_of_lapsed (settled : Settled s) (alive : (s.procs p).cwd = some cwd)
    (lapsed : (s.inodes i).Lapsed (uses (plan s p cwd call).2 i)) : Drops s p cwd call i := by
  obtain ⟨alloc, linkless, unused⟩ := lapsed
  have used : 0 < uses s.procs i := by
    by_contra unused
    exact settled.kept i ⟨alloc, linkless, by rw [List.count_nil]; omega⟩
  unfold plan at unused
  split at unused <;> dsimp only at unused
  next path omode =>
    have more := s.uses_withFile_le p (opened s.inodes cwd path omode).2 i
    omega
  · omega
  · omega
  · omega
  · omega
  next path =>
    unfold moved at unused
    split at unused
    · rw [update_eq_self] at unused
      omega
    next ip name found =>
      split at unused
      next isDir =>
        have moves := uses_chdir alive (some ip) i
        have here : i = cwd := by
          by_contra other
          rw [if_neg other] at moves
          omega
        subst here
        rw [if_pos rfl] at moves
        have other : ip ≠ i := by
          rintro rfl
          rw [if_pos rfl] at moves
          omega
        exact .chdir found isDir other linkless (by omega)
      · rw [update_eq_self] at unused
        omega
  next fd =>
    unfold Proc.closed at unused
    split at unused
    · rw [update_eq_self] at unused
      omega
    next slot file found =>
      have closes := uses_close (argfd_some found) i
      split at closes
      next here =>
        subst here
        exact .close found linkless (by omega)
      · omega
  next =>
    have leaves := uses_exit s.procs p i
    exact .exit linkless (by omega) (by omega)
  · omega

/-- What a call drops, said of the state before, is what it leaves to be freed. -/
theorem lapses_iff_drops (settled : Settled s) (tree : Tree limit s.inodes [] lost)
    (fits : ¬ Overflows (short (limit - 1)) s.inodes cwd call) (alive : (s.procs p).cwd = some cwd) :
    Lapses s p cwd call i ↔ Drops s p cwd call i := by
  constructor
  · intro lapses
    rcases tree.lapsed_cases (plan_change s p cwd call) fits lapses with
      before | ⟨path, dp, off, ip, rfl, unlinks, taken, last⟩
    · exact settled.drops_of_lapsed alive before
    · rcases taken with rfl | ⟨rfl, isDir⟩
      · exact .name unlinks last lapses.2.2
      · exact .above unlinks isDir last lapses.2.2
  · intro drops
    cases drops with
    | @name path dp off ip unlinks last unused =>
      refine ⟨?_, ?_, unused⟩
      · rw [plan, unlinks.unlinked, removed_type]
        exact (tree.unlinks unlinks).2.1
      · rw [plan, unlinks.unlinked, removed_nlink, if_pos (.inl rfl), last]
        rfl
    | @above path dp off ip unlinks isDir last unused =>
      refine ⟨?_, ?_, unused⟩
      · rw [plan, unlinks.unlinked, removed_type, (tree.unlinks unlinks).1]
        decide
      · rw [plan, unlinks.unlinked, removed_nlink, if_pos (.inr ⟨rfl, isDir⟩), last]
        rfl
    | @chdir path ip name found isDir other linkless last =>
      refine ⟨settled.alloc_of_uses tree.root (by omega), linkless, ?_⟩
      have moves := uses_chdir alive (some ip) cwd
      rw [if_pos rfl, if_neg fun same => other (Option.some.inj same)] at moves
      simp only [plan, moved, found, isDir, if_true]
      omega
    | @close fd slot i file linkless last =>
      refine ⟨settled.alloc_of_uses tree.root (by omega), linkless, ?_⟩
      have closes := uses_close (argfd_some file) i
      rw [if_pos rfl] at closes
      simp only [plan, Proc.closed, file]
      omega
    | exit linkless referred last =>
      refine ⟨settled.alloc_of_uses tree.root (by omega), linkless, ?_⟩
      have leaves := uses_exit s.procs p i
      simp only [plan]
      omega

/-- The inodes whose links or references the call may change, but for those of new names. -/
def touched (s : State Pid) (p : Pid) (cwd : Nat) : Call → List Nat
  | .link (some old) _ => ((find s.inodes false (elements old) (origin cwd old)).map Prod.fst).toList
  | .unlink (some path) =>
    match find s.inodes true (elements path) (origin cwd path) with
    | none => []
    | some (dp, name) => dp :: ((scan name (s.inodes dp).slots 0).map Prod.snd).toList
  | .chdir _ => [cwd]
  | .close fd => ((argfd (s.procs p).ofile fd).map Prod.snd).toList
  | .exit => (s.procs p).cwd.toList ++ (List.finRange nofile).filterMap (s.procs p).ofile
  | _ => []

omit [Fintype Pid] [DecidableEq Pid] in
theorem Overflows.touched {full : Int} (overflows : Overflows full s.inodes cwd call) :
    ∃ i ∈ touched s p cwd call, (s.inodes i).nlink = full := by
  unfold Overflows at overflows
  split at overflows
  · obtain ⟨ip, last, dp, name, target, -, -, -, full⟩ := overflows
    exact ⟨ip, by simp [Names.touched, target], full⟩
  · exact overflows.elim

omit [DecidableEq Pid] in
theorem Drops.mem_touched (drops : Drops s p cwd call i) : i ∈ touched s p cwd call := by
  cases drops with
  | name unlinks =>
    obtain ⟨name, target, -, found, -⟩ := unlinks
    simp [touched, target, found]
  | above unlinks =>
    obtain ⟨name, target, -⟩ := unlinks
    simp [touched, target]
  | chdir => exact .head _
  | close file => simp [touched, file]
  | exit _ referred =>
    by_contra outside
    simp only [touched, List.mem_append, Option.mem_toList, List.mem_filterMap, List.mem_finRange, true_and, not_or,
      not_exists] at outside
    rw [Proc.refers, if_neg outside.1, tally, Finset.sum_eq_zero fun fd _ => if_neg (outside.2 fd)] at referred
    cases referred

/-- The inode has a link more than a call can take, or one and a reference. -/
def State.Lasting (s : State Pid) (i : Nat) : Prop :=
  2 ≤ (s.inodes i).nlink ∨ (s.inodes i).nlink = 1 ∧ 0 < uses s.procs i

instance (s : State Pid) (i : Nat) : Decidable (s.Lasting i) := by
  unfold State.Lasting
  infer_instance

omit [DecidableEq Pid] in
theorem Drops.not_lasting (drops : Drops s p cwd call i) : ¬ s.Lasting i := by
  unfold State.Lasting
  cases drops <;> omega

theorem Drops.type (drops : Drops s p cwd call i) (j : Nat) : ((plan s p cwd call).1 j).type = (s.inodes j).type := by
  cases drops with
  | name unlinks => rw [plan, unlinks.unlinked, removed_type]
  | above unlinks => rw [plan, unlinks.unlinked, removed_type]
  | _ => rfl

/-- The names of files in a directory that goes are in it before the call. -/
theorem Drops.entriesFor (drops : Drops s p cwd call i) (tree : Tree limit s.inodes [] lost)
    (notDir : (s.inodes j).type ≠ .dir) : ((plan s p cwd call).1 i).entriesFor j = (s.inodes i).entriesFor j := by
  cases drops with
  | name unlinks =>
    rw [plan, unlinks.unlinked, tree.entriesFor_removed unlinks fun same => (tree.unlinks unlinks).2.2.1 same.1]
  | above unlinks isDir =>
    rw [plan, unlinks.unlinked, tree.entriesFor_removed unlinks]
    rintro ⟨-, rfl⟩
    exact notDir isDir
  | _ => rfl

end Drops

/-! ## Runs -/

/-- No link count overflows, and no directory goes that has names of files in it. -/
def Careful (s : State Pid) (event : Pid × Call) : Prop :=
  ∀ cwd, (s.procs event.1).cwd = some cwd → ¬ Overflows 32767 s.inodes cwd event.2 ∧
    ∀ d, Drops s event.1 cwd event.2 d → ∀ i, (s.inodes i).type ≠ .dir → (s.inodes d).entriesFor i = 0

/-- Link counts are exact, and an inode without links and references is free. -/
def LinksExact (s : State Pid) : Prop :=
  Exact s.inodes ∧ ∀ i, linkCount s.inodes i = 0 → uses s.procs i = 0 → (s.inodes i).type = .free

variable {inodes inodes' : Inodes} {s s' : State Pid} {p : Pid} {cwd : Nat} {call : Call}

theorem overflow_inexact (overflows : Overflows 32767 s.inodes cwd call) : ¬ Exact (outcome s p cwd call) := by
  unfold Overflows at overflows
  split at overflows
  next old new =>
    obtain ⟨ip, last, dp, name, target, ⟨notDir, alloc⟩, place, absent, full⟩ := overflows
    have planned : (plan s p cwd (.link (some old) (some new))).1 = addEntry (counted s.inodes ip) dp name ip := by
      simp only [plan, linked, target, notDir, alloc, or_self, if_false, place, absent, if_true]
    have count : (addEntry (counted s.inodes ip) dp name ip ip).nlink = -32768 := by
      rw [addEntry_nlink, counted, update_self, Inode.addLink, full]
      rfl
    intro exact
    unfold outcome at exact
    rw [planned] at exact
    have stays : sweep (addEntry (counted s.inodes ip) dp name ip)
        (uses (plan s p cwd (.link (some old) (some new))).2) ip = addEntry (counted s.inodes ip) dp name ip ip := by
      refine if_neg fun lapsed => ?_
      have linkless := lapsed.2.1
      rw [count] at linkless
      cases linkless
    have links := exact ip
    rw [stays, addEntry_type, counted_type, count] at links
    have impossible := links alloc
    omega
  · exact overflows.elim

omit [DecidableEq Pid] in
theorem Boot.tree (boot : Boot s) {limit : Nat} (wide : 300 ≤ limit ∧ limit ≤ 65536) :
    Tree limit s.inodes [] fun _ => 0 := by
  obtain ⟨spare, unused, root⟩ := boot.root
  have alone : ∀ i, (s.inodes i).type ≠ .free → i = rootIno := by
    intro i alloc
    by_contra other
    exact alloc (boot.free i other)
  have rows : ∀ d i, (s.inodes d).entriesFor i = 0 := by
    intro d i
    by_contra entry
    have isDir := Inode.dir_of_entriesFor (Nat.pos_of_ne_zero entry)
    have same := alone d (by rw [isDir]; decide)
    refine entry ?_
    have none : spare.countP (fun de => decide (de.Refers i)) = 0 := by
      rw [List.countP_eq_zero]
      intro de mem
      simp [Dirent.Refers, unused de mem]
    rw [same, root, Inode.entriesFor, if_pos rfl]
    simp only [List.countP_cons, none]
    simp [Dirent.Refers]
  have entries : ∀ i, entryCount s.inodes i = 0 := fun i => Finset.sum_eq_zero fun d _ => rows d i
  have directories : ∀ i, subdirectories s.inodes i = 0 := by
    intro i
    simp [subdirectories, entries]
  refine ⟨wide, by rw [root], ?_, fun i alloc => ?_, fun d isDir => ?_, fun i named => ?_, fun d j entry => ?_,
    fun i alloc => ?_, fun _ _ => rfl⟩
  · rw [root]
    rfl
  · rw [alone i alloc]
    decide
  · rw [alone d (by rw [isDir]; decide), root]
    exact ⟨rootIno, spare, rfl, by decide, fun de mem used => absurd (unused de mem) used⟩
  · rw [entries] at named
    cases named
  · rw [rows] at entry
    cases entry
  · rw [linkCount, entries, directories, alone i alloc, root]
    exact ⟨by simp only [if_true, List.count_nil]; omega, rfl⟩

theorem Tree.root_ok {limit : Nat} {lost : Nat → Nat} (tree : Tree limit inodes [] lost) :
    (inodes rootIno).type = .dir ∧ (inodes rootIno).nlink ≠ 0 := by
  refine ⟨tree.root, fun linkless => ?_⟩
  have lapsed : (inodes rootIno).Lapsed 0 := ⟨by rw [tree.root]; decide, linkless, rfl⟩
  have unnamed := (tree.unnamed lapsed).1
  rw [linkCount, if_pos rfl] at unnamed
  omega

omit [DecidableEq Pid] in
theorem LinksExact.of_tree (tree : Tree 32768 s.inodes [] fun _ => 0) (settled : Settled s) : LinksExact s := by
  refine ⟨tree.exact, fun i none unused => ?_⟩
  by_contra alloc
  have linkless := tree.exact i alloc
  rw [none] at linkless
  exact settled.kept i ⟨alloc, linkless, unused⟩

/-- Link counts stay exact in the runs of careful calls, and in no others. -/
theorem links_exact_iff_careful (boot : Boot s) (events : List (Pid × Call)) :
    (system Pid).Always LinksExact s events ↔ (system Pid).Throughout Careful s events := by
  refine System.always_iff_throughout (fun s => Settled s ∧ Tree 32768 s.inodes [] fun _ => 0)
    (fun s both => .of_tree both.2 both.1) ?_ ⟨boot.settled, boot.tree (by decide)⟩ ((system Pid).throughout_true s events)
  rintro s ⟨p, call⟩ s' ⟨settled, tree⟩ - taken
  obtain ⟨cwd, alive, disk, procs, settled'⟩ := settled.step tree.root_ok taken
  have planned := tree.change (plan_change s p cwd call)
  constructor
  · rintro ⟨exact, -⟩ cwd' alive'
    obtain rfl : cwd = cwd' := Option.some.inj (alive.symm.trans alive')
    rw [disk] at exact
    have fits : ¬ Overflows 32767 s.inodes cwd call := fun overflows => overflow_inexact overflows exact
    refine ⟨fits, fun d drops i notDir => ?_⟩
    by_contra entry
    have lapses := (lapses_iff_drops settled tree fits alive).mpr drops
    refine (planned fits).inexact lapses (?_ : 0 < ((plan s p cwd call).1 d).entriesFor i) exact
    rw [drops.entriesFor tree notDir]
    exact Nat.pos_of_ne_zero entry
  · intro careful
    obtain ⟨fits, bare⟩ := careful cwd alive
    refine ⟨settled', ?_⟩
    rw [disk]
    refine (planned fits).sweep_bare fun d lapses i => ?_
    have drops := (lapses_iff_drops settled tree fits alive).mp lapses
    by_cases isDir : (s.inodes i).type = .dir
    · exact (planned fits).entriesFor_dir lapses (by rw [drops.type, isDir])
    · rw [drops.entriesFor tree isDir, bare d drops i isDir]

/-- `mkdir /a`, `open /f` to make it, `link /f /g`, `unlink /f`, `close 0`, `mkdir /a/b`, `chdir /a/b`,
`unlink /a/b`, `chdir ..`, `chdir ..`, `unlink /a`. -/
def errands : List (Unit × Call) :=
  [((), .mkdir (some [47, 97])), ((), .openFile (some [47, 102]) (some oCreate)),
    ((), .link (some [47, 102]) (some [47, 103])), ((), .unlink (some [47, 102])), ((), .close (some 0)),
    ((), .mkdir (some [47, 97, 47, 98])), ((), .chdir (some [47, 97, 47, 98])), ((), .unlink (some [47, 97, 47, 98])),
    ((), .chdir (some [46, 46])), ((), .chdir (some [46, 46])), ((), .unlink (some [47, 97]))]

/-- A check that the call is careful. -/
def spared (s : State Unit) (event : Unit × Call) : Bool :=
  (s.procs ()).cwd.all fun cwd => (touched s () cwd event.2).all fun d =>
    (s.inodes d).nlink ≠ 32767 ∧ (s.Lasting d ∨ ∀ de ∈ (s.inodes d).slots,
      de.inum = 0 ∨ de.name = dot ∨ de.name = dotdot ∨ (s.inodes de.inum).type = .dir)

theorem spared_sound (s : State Unit) (event : Unit × Call) (check : spared s event = true) : Careful s event := by
  obtain ⟨⟨⟩, call⟩ := event
  intro cwd alive
  simp only [spared, alive, Option.all_some, List.all_eq_true, decide_eq_true_eq] at check
  refine ⟨fun overflows => ?_, fun d drops i notDir => ?_⟩
  · obtain ⟨i, mem, full⟩ := overflows.touched (s := s) (p := ())
    exact (check i mem).1 full
  · rcases (check d drops.mem_touched).2 with lasting | bare
    · exact absurd lasting drops.not_lasting
    · unfold Inode.entriesFor
      split
      · rw [List.countP_eq_zero]
        intro de mem refers
        obtain ⟨rfl, used, notDot, notDotdot⟩ := of_decide_eq_true refers
        rcases bare de mem with none | dot | dotdot | isDir
        exacts [used none, notDot dot, notDotdot dotdot, notDir isDir]
      · rfl

theorem links_exact_errands : Boot bootState ∧ (system Unit).Always LinksExact bootState errands := by
  have ran : ((system Unit).run spared bootState errands).isSome := by decide +kernel
  exact ⟨boot_bootState, (links_exact_iff_careful boot_bootState _).mpr (System.throughout_of_run spared_sound ran)⟩

/-- `mkdir /a`, `chdir /a`, `unlink /a`, `open f` to make it, `chdir /`: the directory is gone, and the
file counts its entry there. -/
theorem links_inexact_removed_directory : ¬ (system Unit).Always LinksExact bootState
      [((), .mkdir (some [47, 97])), ((), .chdir (some [47, 97])), ((), .unlink (some [47, 97])),
        ((), .openFile (some [102]) (some oCreate)), ((), .chdir (some [47]))] := by
  intro always
  have ran : ((system Unit).run (fun _ _ => true) bootState
      [((), .mkdir (some [47, 97])), ((), .chdir (some [47, 97])), ((), .unlink (some [47, 97])),
        ((), .openFile (some [102]) (some oCreate)), ((), .chdir (some [47]))]).map
      (fun s => decide ((s.inodes 3).type = .file ∧ (s.inodes 3).nlink = 1 ∧ linkCount s.inodes 3 = 0)) = some true := by
    decide +kernel
  obtain ⟨final, reached, found⟩ := Option.map_eq_some_iff.mp ran
  obtain ⟨type, one, none⟩ := of_decide_eq_true found
  have exact := (always.of_run reached).1 3 (by rw [type]; nofun)
  rw [one, none] at exact
  cases exact

end Xv6Simplesh.Names
