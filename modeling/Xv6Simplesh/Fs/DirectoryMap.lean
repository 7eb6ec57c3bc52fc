import Mathlib.Data.List.Sigma
import Xv6Simplesh.Fs.Dirlink
import Xv6Simplesh.Names.Cache

/-! # A directory is a finite map

The file of a directory is a list of slots of sixteen bytes each.  `dirlookup` and `dirlink` read
it slot by slot with `readi`, and change one slot with `writei`.  Read as slots, they are the
functions on slots that the calls on names are made of, and the entries in use are the pairs of a
finite map from names to inode numbers.  Names are compared by `strncmp` and stored by `strncpy`;
both know the first `DIRSIZ` bytes up to the first NUL.
-/

namespace Xv6Simplesh.Fs

open Library Mkfs
open Names (Dirent scan writeSlot)

/-! ## Names -/

/-- What directories know of a name: its first `DIRSIZ` bytes up to the first NUL. -/
def key (name : List UInt8) : List UInt8 := (name.take dirsiz).takeWhile (· ≠ 0)

theorem takeWhile_take_succ (n : Nat) (p : List UInt8) : (p.take (n + 1)).takeWhile (· ≠ 0) =
    if p.headD 0 = 0 then [] else p.headD 0 :: (p.tail.take n).takeWhile (· ≠ 0) := by
  cases p with
  | nil => rfl
  | cons a p =>
    by_cases nul : a = 0
    · simp [nul]
    · simp [nul]

theorem strncmp_eq_zero (n : Nat) (p q : List UInt8) :
    strncmp n p q = 0 ↔ (p.take n).takeWhile (· ≠ 0) = (q.take n).takeWhile (· ≠ 0) := by
  induction n generalizing p q with
  | zero => simp [strncmp]
  | succ n ih =>
    rw [strncmp, takeWhile_take_succ, takeWhile_take_succ]
    generalize p.headD 0 = a, q.headD 0 = b
    have difference : ((a.toNat : Int) - b.toNat = 0) ↔ a = b := by
      rw [← UInt8.toNat_inj]
      omega
    by_cases nul : a = 0
    · -- the loop stops, and the strings are equal if the other one ends here too
      rw [if_neg (fun both => both.1 nul), difference, if_pos nul, nul]
      split
      next ends => simp [ends]
      next goes => simp [Ne.symm goes]
    · by_cases same : a = b
      · subst same
        rw [if_pos ⟨nul, rfl⟩, if_neg nul, if_neg nul, ih, List.cons.injEq]
        simp
      · rw [if_neg (fun both => same both.2), difference, if_neg nul]
        split
        next => simp [same]
        next => simp [same]

theorem namecmp_eq_zero (s t : List UInt8) : namecmp s t = 0 ↔ key s = key t := strncmp_eq_zero dirsiz s t

/-! ## Slots -/

/-- The entry in sixteen bytes. -/
def decode (de : List UInt8) : Dirent := ⟨direntInum de, direntName de⟩

def slotsOf (contents : List UInt8) : List Dirent :=
  (List.range (contents.length / direntSize)).map fun k => decode ((contents.drop (direntSize * k)).take direntSize)

def State.slots (s : State) (dp : Nat) : List Dirent := slotsOf (s.contents dp)

theorem direntName_eq (de : List UInt8) : direntName de = key (de.drop 2) := rfl

variable {contents de name : List UInt8} {count inum k off : Nat}

theorem key_eq_take (string : 0 ∉ name) : key name = name.take dirsiz := by
  rw [key, List.takeWhile_eq_self_iff]
  intro byte mem
  have other : byte ≠ 0 := fun nul => string (nul ▸ List.mem_of_mem_take mem)
  simp [other]

theorem decode_dirent (small : inum < 2 ^ 16) (string : 0 ∉ name) : decode (dirent inum name) = ⟨inum, key name⟩ := by
  rw [decode, direntInum_dirent small, direntName_dirent inum string, key_eq_take string]

theorem decode_zeros : decode (List.replicate direntSize 0) = ⟨0, []⟩ := by decide

@[simp] theorem slotsOf_nil : slotsOf [] = [] := rfl

theorem length_slotsOf (contents : List UInt8) : (slotsOf contents).length = contents.length / direntSize := by
  simp [slotsOf]

theorem slotsOf_append (length : de.length = direntSize) (contents : List UInt8) :
    slotsOf (de ++ contents) = decode de :: slotsOf contents := by
  have count : (de ++ contents).length / direntSize = contents.length / direntSize + 1 := by
    rw [List.length_append, length, Nat.add_div_left _ (by decide)]
  have first : ((de ++ contents).drop (direntSize * 0)).take direntSize = de := by
    rw [Nat.mul_zero, List.drop_zero, List.take_left' length]
  have later : ∀ k, (de ++ contents).drop (direntSize * (k + 1)) = contents.drop (direntSize * k) := by
    intro k
    rw [Nat.mul_succ, Nat.add_comm, ← List.drop_drop, List.drop_left' length]
  simp only [slotsOf, count, List.range_succ_eq_map, List.map_cons, first, List.map_map, Function.comp_def, later]

theorem slotsOf_drop (whole : contents.length = direntSize * count)
    (inside : k < count) : ((contents.drop (direntSize * k)).take direntSize).length = direntSize ∧
    (slotsOf contents).drop k =
      decode ((contents.drop (direntSize * k)).take direntSize) :: (slotsOf contents).drop (k + 1) := by
  have slots : (slotsOf contents).length = count := by
    rw [length_slotsOf, whole, Nat.mul_div_cancel_left _ (by decide)]
  have room : direntSize * k + direntSize ≤ contents.length := by
    rw [whole, ← Nat.mul_succ]
    exact Nat.mul_le_mul_left _ inside
  refine ⟨?_, ?_⟩
  · rw [List.length_take, List.length_drop]
    omega
  · rw [List.drop_eq_getElem_cons (by omega)]
    simp [slotsOf]

theorem exists_first (whole : contents.length = direntSize * (count + 1)) :
    ∃ first rest, contents = first ++ rest ∧ first.length = direntSize ∧ rest.length = direntSize * count := by
  refine ⟨contents.take direntSize, contents.drop direntSize, (List.take_append_drop _ _).symm, ?_, ?_⟩
  · rw [List.length_take, whole, Nat.mul_succ]
    omega
  · rw [List.length_drop, whole, Nat.mul_succ, Nat.add_sub_cancel]

theorem slotsOf_splice (whole : contents.length = direntSize * count)
    (inside : k ≤ count) (length : de.length = direntSize) :
    slotsOf (splice contents (direntSize * k) de) = writeSlot (slotsOf contents) k (decode de) := by
  induction k generalizing contents count with
  | zero =>
    cases count with
    | zero =>
      have empty : contents = [] := List.length_eq_zero_iff.mp whole
      have written : splice [] (direntSize * 0) de = de ++ [] := by simp [splice]
      rw [empty, written, slotsOf_append length]
      rfl
    | succ count =>
      obtain ⟨first, rest, rfl, taken, -⟩ := exists_first whole
      have written : splice (first ++ rest) (direntSize * 0) de = de ++ rest := by
        simp only [splice, Nat.mul_zero, List.take_zero, List.nil_append, Nat.zero_add, length, List.drop_left' taken]
      rw [written, slotsOf_append length, slotsOf_append taken]
      rfl
  | succ k ih =>
    cases count with
    | zero => exact absurd inside (Nat.not_succ_le_zero k)
    | succ count =>
      obtain ⟨first, rest, rfl, taken, left⟩ := exists_first whole
      have written : splice (first ++ rest) (direntSize * (k + 1)) de = first ++ splice rest (direntSize * k) de := by
        have start : direntSize * (k + 1) = first.length + direntSize * k := by
          rw [taken, Nat.mul_succ, Nat.add_comm]
        simp only [splice, start, List.take_length_add_append, Nat.add_assoc, List.drop_length_add_append,
          List.append_assoc]
      rw [written, slotsOf_append taken, ih left (Nat.le_of_succ_le_succ inside),
        slotsOf_append taken, Names.writeSlot_cons_succ]

/-! ## The loops -/

/-- A directory of a file system in which no block belongs to two files and no file has a hole. -/
structure Directory (s : State) (dp : Nat) : Prop where
  owned : Owned s
  solid : ∀ i < s.sb.ninodes, s.Solid i
  bound : dp < s.sb.ninodes
  type : (s.inodes dp).type = tDir
  whole : direntSize ∣ (s.inodes dp).size

/-- Only directory `dp` changes. -/
def Beside (dp : Nat) (s s' : State) : Prop :=
  s'.sb = s.sb ∧ ∀ i < s.sb.ninodes, (s'.inodes i).type = (s.inodes i).type ∧ (i ≠ dp → s'.slots i = s.slots i)

theorem length_contents (s : State) (inum : Nat) : (s.contents inum).length = (s.inodes inum).size := by
  simp [State.contents, State.bytes]

namespace Directory

variable {s : State} {dp : Nat}

section

variable (directory : Directory s dp)

include directory

theorem file : (s.inodes dp).type ≠ tDev := by
  rw [directory.type]
  decide

theorem size_eq : (s.inodes dp).size = direntSize * s.entryCount dp := by
  obtain ⟨count, size⟩ := directory.whole
  have rounded : s.entryCount dp = count := by
    rw [State.entryCount, size, Nat.mul_add_div (by decide), Nat.div_eq_of_lt (by decide), Nat.add_zero]
  rw [rounded, size]

theorem lt_size (inside : k < s.entryCount dp) : direntSize * k < (s.inodes dp).size := by
  rw [directory.size_eq]
  exact Nat.mul_lt_mul_of_pos_left inside (by decide)

theorem length_slots : (s.slots dp).length = s.entryCount dp := by
  rw [State.slots, length_slotsOf, length_contents, directory.size_eq, Nat.mul_div_cancel_left _ (by decide)]

theorem readEntry (devsw : DevswRead) (panic : DirPanic)
    (inside : k < s.entryCount dp) : ∃ de, Fs.readEntry devsw panic s dp (direntSize * k) = .ok (de, s) ∧
      (s.slots dp).drop k = decode de :: (s.slots dp).drop (k + 1) := by
  have whole : (s.contents dp).length = direntSize * s.entryCount dp := by
    rw [length_contents, directory.size_eq]
  obtain ⟨length, slot⟩ := slotsOf_drop whole inside
  refine ⟨_, ?_, slot⟩
  have limit := (directory.solid dp directory.bound).size_le
  have size := directory.size_eq
  have room : direntSize * k + direntSize ≤ (s.inodes dp).size := by
    rw [size, ← Nat.mul_succ]
    exact Nat.mul_le_mul_left _ inside
  have read := readi_contents devsw (directory.solid dp directory.bound) directory.file
    (show direntSize * k ≤ (s.inodes dp).size by omega)
    (show direntSize * k + direntSize < 2 ^ 32 by
      dsimp only [maxFile, ndirect, nindirect, bsize] at limit
      omega)
  have all : min direntSize ((s.inodes dp).size - direntSize * k) = direntSize := by omega
  simp only [Fs.readEntry, read, all, if_true]

theorem dirlookupLoop (devsw : DevswRead) (name : List UInt8) (count k : Nat)
    (left : k + count = s.entryCount dp) : Fs.dirlookupLoop devsw dp name count s (direntSize * k) =
      .ok ((scan (key name) ((s.slots dp).drop k) k).map fun (off, inum) => (inum, direntSize * off), s) := by
  induction count generalizing k with
  | zero =>
    rw [List.drop_eq_nil_of_le (by rw [directory.length_slots]; omega)]
    rfl
  | succ count ih =>
    have inside : k < s.entryCount dp := by omega
    obtain ⟨de, read, slot⟩ := directory.readEntry devsw .dirlookupRead inside
    have next := ih (k + 1) (by omega)
    rw [Nat.mul_succ] at next
    rw [Fs.dirlookupLoop, if_pos (directory.lt_size inside), read, ok_bind, slot, scan]
    simp only [next, namecmp_eq_zero]
    by_cases unused : direntInum de = 0
    · simp [unused, decode]
    · by_cases same : key name = key (de.drop 2)
      · simp [unused, decode, direntName_eq, same]
      · simp [unused, decode, direntName_eq, same, Ne.symm same]

theorem dirlookup (devsw : DevswRead) (name : List UInt8) :
    Fs.dirlookup devsw s dp name =
      .ok ((scan (key name) (s.slots dp) 0).map fun (off, inum) => (inum, direntSize * off), s) := by
  rw [Fs.dirlookup, if_neg (not_not.mpr directory.type)]
  exact directory.dirlookupLoop devsw name _ 0 (Nat.zero_add _)

/-- The loop of `dirlink` ends at the first slot that is not in use, or at the end. -/
theorem emptyLoop (devsw : DevswRead) (count k : Nat)
    (left : k + count = s.entryCount dp) : Fs.emptyLoop devsw dp count s (direntSize * k) =
      .ok (direntSize * (k + ((s.slots dp).drop k).findIdx fun de => de.inum = 0), s) := by
  induction count generalizing k with
  | zero =>
    rw [List.drop_eq_nil_of_le (by rw [directory.length_slots]; omega)]
    rfl
  | succ count ih =>
    have inside : k < s.entryCount dp := by omega
    obtain ⟨de, read, slot⟩ := directory.readEntry devsw .dirlinkRead inside
    have next := ih (k + 1) (by omega)
    rw [Nat.mul_succ] at next
    rw [Fs.emptyLoop, if_pos (directory.lt_size inside), read, ok_bind, slot, List.findIdx_cons]
    by_cases unused : direntInum de = 0
    · simp [unused, decode]
    · simp [unused, decode, next, Nat.add_assoc, Nat.add_comm 1]

end

/-! ## Writing a slot -/

theorem chunk_entry (k : Nat) : chunk (direntSize * k) direntSize 0 = direntSize := by
  dsimp only [chunk, direntSize, dirsiz, bsize]
  omega

theorem blockCount_entry (k : Nat) : blockCount (direntSize * k) direntSize = 1 := by
  dsimp only [blockCount, direntSize, dirsiz, bsize]
  split
  · omega
  · omega

/-- Below the size the block is there, and nothing is allocated. -/
theorem writeLoop_entry (directory : Directory s dp) (src : Nat → UInt8) (inside : k < s.entryCount dp) :
    ∃ s', writeLoop s dp src (direntSize * k) direntSize 0 = .ok s' := by
  have present := State.solid_iff.mp (directory.solid dp directory.bound) _ (directory.lt_size inside)
  rw [writeLoop, if_pos (by decide), bmap_present present, ok_bind]
  simp only [chunk_entry, Nat.zero_add]
  rw [writeLoop, if_neg (Nat.lt_irrefl _)]
  exact ⟨_, rfl⟩

/-- `writei` of an entry changes its slot, unless it needs a block and there are too few. -/
theorem writeEntry (directory : Directory s dp) (devsw : Devsw) {src : Nat → UInt8}
    (bytes : (List.range direntSize).map src = de) (inside : k ≤ s.entryCount dp)
    (fits : direntSize * k + direntSize ≤ maxFile * bsize) :
    (∃ s', writei devsw s dp src (direntSize * k) direntSize = .ok ((direntSize : Nat), s') ∧ Beside dp s s' ∧
      Directory s' dp ∧ s'.slots dp = writeSlot (s.slots dp) k (decode de)) ∨
    (writei devsw s dp src (direntSize * k) direntSize = .error .outOfBlocks ∧ k = s.entryCount dp ∧
      s.freeBlocks.length < 3) := by
  have size := directory.size_eq
  have start : direntSize * k ≤ (s.inodes dp).size := by
    rw [size]
    exact Nat.mul_le_mul_left _ inside
  have accepts : ¬ s.Refuses dp (direntSize * k) direntSize := by
    unfold State.Refuses
    dsimp only [maxFile, ndirect, nindirect, bsize] at fits ⊢
    omega
  have length : de.length = direntSize := by rw [← bytes, List.length_map, List.length_range]
  -- what there is when `writei` returns
  have written : ∀ {r : Int} {s' : State}, writei devsw s dp src (direntSize * k) direntSize = .ok (r, s') →
      r = (direntSize : Nat) ∧ Beside dp s s' ∧ Directory s' dp ∧
        s'.slots dp = writeSlot (s.slots dp) k (decode de) := by
    intro r s' wrote
    obtain ⟨res, after⟩ := writei_overwritten devsw directory.owned directory.bound directory.solid directory.file
      accepts wrote
    refine ⟨res, ⟨after.sb, fun i inside => ⟨after.type i, fun other => ?_⟩⟩,
      ⟨after.owned, after.sb ▸ after.solid, after.sb ▸ directory.bound, ?_, ?_⟩, ?_⟩
    · rw [State.slots, (after.others i inside other).2, State.slots]
    · rw [after.type, directory.type]
    · rw [after.size]
      obtain larger | smaller := Nat.le_total (direntSize * k + direntSize) (s.inodes dp).size
      · rw [Nat.max_eq_left larger]
        exact directory.whole
      · rw [Nat.max_eq_right smaller]
        exact ⟨k + 1, (Nat.mul_succ _ _).symm⟩
    · rw [State.slots, after.contents, bytes]
      exact slotsOf_splice (by rw [length_contents, size]) inside length
  -- the loop is all of `writei` that can fail
  have ret : (∃ s', writeLoop s dp src (direntSize * k) direntSize 0 = .ok s') →
      ∃ r s', writei devsw s dp src (direntSize * k) direntSize = .ok (r, s') := by
    rintro ⟨s', looped⟩
    rw [writei_accepted devsw directory.file accepts, looped, ok_bind]
    split
    · exact ⟨_, _, rfl⟩
    · exact ⟨_, _, rfl⟩
  obtain below | reached := Nat.lt_or_eq_of_le inside
  · obtain ⟨r, s', wrote⟩ := ret (directory.writeLoop_entry src below)
    obtain ⟨rfl, after⟩ := written wrote
    exact .inl ⟨s', wrote, after⟩
  · obtain ⟨s', bns, looped, -⟩ | ⟨failed, few⟩ := writeLoop_writes src directory.owned directory.bound
      (show direntSize * k + (direntSize - 0) ≤ maxFile * bsize from fits)
    · obtain ⟨r, s', wrote⟩ := ret ⟨s', looped⟩
      obtain ⟨rfl, after⟩ := written wrote
      exact .inl ⟨s', wrote, after⟩
    · rw [Nat.sub_zero, blockCount_entry] at few
      refine .inr ⟨?_, reached, few⟩
      rw [writei_accepted devsw directory.file accepts, failed]
      rfl

end Directory

/-! ## `iput` of another file -/

section Iput

variable {s : State} {inum : Nat}

/-- `iput` returns, and where it drops the file it leaves the others as they were. -/
theorem iput_keeps (owned : Owned s) (solid : ∀ i < s.sb.ninodes, s.Solid i) {last : Bool}
    (bound : last = true → inum < s.sb.ninodes) : ∃ s', iput s inum last = .ok s' ∧ s'.sb = s.sb ∧ Owned s' ∧
      (∀ i < s.sb.ninodes, s'.Solid i) ∧
      ∀ i < s.sb.ninodes, (last = true → i ≠ inum) → s'.inodes i = s.inodes i ∧ s'.contents i = s.contents i := by
  unfold iput
  split
  next drops =>
    have inside := bound drops.1
    obtain ⟨mid, ran, final⟩ := itrunc_truncates owned inside
    have bound' : inum < mid.sb.ninodes := final.sb ▸ inside
    have emptied := (owned.truncated final).setSize inum 0
    have stored := emptied.iupdate bound'
    have typed := stored.setInode { (iupdate (mid.setSize inum 0) inum).inodes inum with type := 0 } rfl
    have keeps : ∀ i < s.sb.ninodes, i ≠ inum → Keeps i s _ := fun i below other =>
      ((((keeps_truncating final owned below other).trans (keeps_setInode mid other _)).trans
        (keeps_iupdate emptied bound' (final.sb ▸ below))).trans (keeps_setInode _ other _)).trans
        (keeps_iupdate typed bound' (final.sb ▸ below))
    rw [ran, ok_bind]
    refine ⟨_, rfl, final.sb, typed.iupdate bound', fun i below => ?_, fun i below away => ?_⟩
    · by_cases same : i = inum
      · -- the file that is dropped has no bytes
        refine State.solid_iff.mpr fun idx there => ?_
        simp [same, iupdate, State.logWrite, State.setInode, State.setSize] at there
      · exact (keeps i below same).solid (solid i below)
    · exact ⟨(keeps i below (away drops.1)).inode, (keeps i below (away drops.1)).contents (solid i below)⟩
  next => exact ⟨s, rfl, rfl, owned, solid, fun i _ _ => ⟨rfl, rfl⟩⟩

end Iput

/-! ## Entries -/

/-- What a slot in use maps to what. -/
def entry (de : Dirent) : Option (Sigma fun _ : List UInt8 => Nat) :=
  if de.inum = 0 then none else some ⟨de.name, de.inum⟩

def entriesOf (slots : List Dirent) : List (Sigma fun _ : List UInt8 => Nat) := slots.filterMap entry

/-- The names in use are pairwise different. -/
def Distinct (slots : List Dirent) : Prop :=
  slots.Pairwise fun de de' => de.inum ≠ 0 → de'.inum ≠ 0 → de.name ≠ de'.name

section Entries

variable {slots : List Dirent} {name : List UInt8} {inum : Nat}

theorem entry_eq_some {de : Dirent} {pair : Sigma fun _ : List UInt8 => Nat} :
    entry de = some pair ↔ de.inum ≠ 0 ∧ pair = ⟨de.name, de.inum⟩ := by
  unfold entry
  split
  next unused => simp [unused]
  next used => simp [used, eq_comm]

theorem distinct_iff : Distinct slots ↔ (entriesOf slots).NodupKeys := by
  rw [List.nodupKeys_iff_pairwise, entriesOf, List.pairwise_filterMap, Distinct]
  apply List.Pairwise.iff
  intro de de'
  simp only [entry_eq_some]
  constructor
  · rintro ne _ ⟨used, rfl⟩ _ ⟨used', rfl⟩
    exact ne used used'
  · intro ne used used'
    exact ne _ ⟨used, rfl⟩ _ ⟨used', rfl⟩

theorem scan_eq_dlookup (name : List UInt8) (slots : List Dirent) (base : Nat) :
    (scan name slots base).map Prod.snd = (entriesOf slots).dlookup name := by
  induction slots generalizing base with
  | nil => rfl
  | cons de slots ih =>
    rw [scan, entriesOf, List.filterMap_cons]
    by_cases unused : de.inum = 0
    · simpa [unused, entry, entriesOf] using ih (base + 1)
    · by_cases same : de.name = name
      · subst same
        simp [unused, entry]
      · have other : name ≠ de.name := Ne.symm same
        simpa [unused, same, other, entry, entriesOf] using ih (base + 1)

theorem mem_entriesOf : ⟨name, inum⟩ ∈ entriesOf slots ↔ inum ≠ 0 ∧ ⟨inum, name⟩ ∈ slots := by
  simp only [entriesOf, List.mem_filterMap, entry_eq_some]
  constructor
  · rintro ⟨de, mem, used, same⟩
    cases same
    exact ⟨used, mem⟩
  · rintro ⟨used, mem⟩
    exact ⟨⟨inum, name⟩, mem, used, rfl⟩

theorem entriesOf_middle (before after : List Dirent) {spare : List Dirent} (name : List UInt8)
    (unused : ∀ de ∈ spare, de.inum = 0) (used : inum ≠ 0) :
    (entriesOf (before ++ ⟨inum, name⟩ :: after)).Perm (⟨name, inum⟩ :: entriesOf (before ++ spare ++ after)) := by
  have nothing : spare.filterMap entry = [] := by
    rw [List.filterMap_eq_nil_iff]
    intro de mem
    simp [entry, unused de mem]
  have here : entry ⟨inum, name⟩ = some ⟨name, inum⟩ := if_neg used
  simp only [entriesOf, List.filterMap_append, List.filterMap_cons, here, nothing, List.append_nil]
  exact List.perm_middle

theorem entriesOf_link (slots : List Dirent) (name : List UInt8) (used : inum ≠ 0) :
    (entriesOf (writeSlot slots (slots.findIdx fun de => de.inum = 0) ⟨inum, name⟩)).Perm
      (⟨name, inum⟩ :: entriesOf slots) := by
  obtain ⟨before, spare, after, unused, split, written⟩ := Names.writeSlot_empty slots ⟨inum, name⟩
  rw [written, split]
  exact entriesOf_middle before after name unused used

theorem entriesOf_erase (found : scan name slots 0 = some (off, inum)) :
    (entriesOf slots).Perm (⟨name, inum⟩ :: entriesOf (writeSlot slots off ⟨0, []⟩)) := by
  obtain ⟨before, after, rfl, rfl, used⟩ := Names.scan_some found
  rw [Nat.zero_add, Names.writeSlot_append]
  have empty : ∀ de ∈ [(⟨0, []⟩ : Dirent)], de.inum = 0 := by simp
  have middle := entriesOf_middle before after name empty used
  rwa [List.append_assoc] at middle

theorem dlookup_of_perm {pairs pairs' : List (Sigma fun _ : List UInt8 => Nat)} (nodup : pairs'.NodupKeys)
    (perm : pairs'.Perm (⟨name, inum⟩ :: pairs)) :
    pairs.NodupKeys ∧ pairs.dlookup name = none ∧ pairs'.dlookup name = some inum ∧
      ∀ other, other ≠ name → pairs'.dlookup other = pairs.dlookup other := by
  have nodup' : (⟨name, inum⟩ :: pairs : List (Sigma fun _ : List UInt8 => Nat)).NodupKeys :=
    (List.perm_nodupKeys perm).mp nodup
  obtain ⟨fresh, rest⟩ := List.nodupKeys_cons.mp nodup'
  refine ⟨rest, List.dlookup_eq_none.mpr fresh, ?_, fun other ne => ?_⟩
  · rw [List.perm_dlookup name nodup perm, List.dlookup_cons_eq]
  · rw [List.perm_dlookup other nodup perm, List.dlookup_cons_ne _ _ ne]

end Entries

/-- The map that a directory is. -/
def State.lookup (s : State) (dp : Nat) (name : List UInt8) : Option Nat := (entriesOf (s.slots dp)).dlookup name

/-! ## Calls -/

inductive UnlinkPanic where
  | dir (panic : DirPanic)
  | writei
deriving DecidableEq, Repr

/-- The part of `sys_unlink` that works on the directory: `dirlookup` of the name and `writei` of
zeros over the entry. -/
def eraseEntry (devsw : DevswRead × Devsw) (s : State) (dp : Nat) (name : List UInt8) :
    Except UnlinkPanic (Int × State) :=
  match dirlookup devsw.1 s dp name with
  | .error panic => .error (.dir panic)
  | .ok (none, s) => .ok (-1, s)
  | .ok (some (_, off), s) =>
    match writei devsw.2 s dp (fun _ => 0) off direntSize with
    | .error panic => .error (.dir (.fs panic))
    | .ok (r, s) => if r = direntSize then .ok (0, s) else .error .writei

/-- `dirlookup` returns, and this is the inode number that it finds. -/
def Finds (devsw : DevswRead) (s : State) (dp : Nat) (name : List UInt8) (res : Option Nat) : Prop :=
  ∃ found, dirlookup devsw s dp name = .ok (found, s) ∧ found.map Prod.fst = res

namespace Directory

variable {s : State} {dp : Nat}

section

variable (directory : Directory s dp)

include directory

theorem finds_iff (devsw : DevswRead) (name : List UInt8) (res : Option Nat) :
    Finds devsw s dp name res ↔ s.lookup dp (key name) = res := by
  rw [Finds, directory.dirlookup, State.lookup, ← scan_eq_dlookup (key name) (s.slots dp) 0]
  constructor
  · rintro ⟨found, same, rfl⟩
    cases same
    rw [Option.map_map]
    rfl
  · rintro rfl
    refine ⟨_, rfl, ?_⟩
    rw [Option.map_map]
    rfl

theorem dirlink_present (devsw : DevswRead × Devsw) (inum : Nat)
    {last : Nat → Bool} (held : last dp = false) (cached : ∀ i, last i = true → i < s.sb.ninodes) {ip : Nat}
    (found : scan (key name) (s.slots dp) 0 = some (off, ip)) :
    ∃ s', dirlink devsw s dp name inum last = .ok (-1, s') ∧ Directory s' dp ∧ s'.inodes dp = s.inodes dp ∧
      s'.contents dp = s.contents dp := by
  obtain ⟨s', put, sb, owned, solid, kept⟩ := iput_keeps directory.owned directory.solid (cached ip)
  have away : last ip = true → dp ≠ ip := by
    rintro only rfl
    rw [held] at only
    cases only
  obtain ⟨inode, contents⟩ := kept dp directory.bound away
  refine ⟨s', ?_, ⟨owned, sb ▸ solid, sb ▸ directory.bound, ?_, ?_⟩, inode, contents⟩
  · simp only [Fs.dirlink, directory.dirlookup, found, Option.map_some, ok_bind, put]
  · rw [inode, directory.type]
  · rw [inode]
    exact directory.whole

theorem dirlink_absent (devsw : DevswRead × Devsw)
    (string : 0 ∉ name) (small : inum < 2 ^ 16) (last : Nat → Bool) (below : (s.inodes dp).size < maxFile * bsize)
    (absent : scan (key name) (s.slots dp) 0 = none) :
    (∃ s', dirlink devsw s dp name inum last = .ok (0, s') ∧ Beside dp s s' ∧ Directory s' dp ∧
      s'.slots dp = writeSlot (s.slots dp) ((s.slots dp).findIdx fun de => de.inum = 0) ⟨inum, key name⟩) ∨
    (dirlink devsw s dp name inum last = .error (.fs .outOfBlocks) ∧ s.freeBlocks.length < 3 ∧
      ∀ de ∈ s.slots dp, de.inum ≠ 0) := by
  have slots := directory.length_slots
  have size := directory.size_eq
  have first : ((s.slots dp).findIdx fun de => de.inum = 0) ≤ (s.slots dp).length := List.findIdx_le_length
  have scanned := directory.emptyLoop devsw.1 (s.entryCount dp) 0 (Nat.zero_add _)
  rw [Nat.mul_zero, Nat.zero_add, List.drop_zero] at scanned
  have bytes : (List.range direntSize).map (fun i => (dirent inum name).getD i 0) = dirent inum name := by
    apply List.ext_getElem
    · rw [List.length_map, List.length_range, length_dirent]
      rfl
    · intro i low high
      rw [List.getElem_map, List.getElem_range, List.getD_eq_getElem _ _ high]
  have fits : direntSize * ((s.slots dp).findIdx fun de => de.inum = 0) + direntSize ≤ maxFile * bsize := by
    have early := Nat.mul_le_mul_left direntSize (slots ▸ first)
    dsimp only [maxFile, ndirect, nindirect, bsize, direntSize, dirsiz] at below size early ⊢
    omega
  obtain ⟨s', wrote, beside, directory', written⟩ | ⟨failed, full, few⟩ :=
    directory.writeEntry devsw.2 bytes (slots ▸ first) fits
  · rw [decode_dirent small string] at written
    refine .inl ⟨s', ?_, beside, directory', written⟩
    simp only [Fs.dirlink, directory.dirlookup, absent, Option.map_none, ok_bind, scanned, wrote, if_true]
  · refine .inr ⟨?_, few, ?_⟩
    · simp only [Fs.dirlink, directory.dirlookup, absent, Option.map_none, ok_bind, scanned, failed]
    · rw [← slots, List.findIdx_eq_length] at full
      simpa using full

theorem eraseEntry (devsw : DevswRead × Devsw) (name : List UInt8) :
    ∃ r s', Fs.eraseEntry devsw s dp name = .ok (r, s') ∧ Beside dp s s' ∧ Directory s' dp ∧
      s'.slots dp = match scan (key name) (s.slots dp) 0 with
        | none => s.slots dp
        | some (off, _) => writeSlot (s.slots dp) off ⟨0, []⟩ := by
  cases found : scan (key name) (s.slots dp) 0 with
  | none =>
    refine ⟨-1, s, ?_, ⟨rfl, fun i _ => ⟨rfl, fun _ => rfl⟩⟩, directory, rfl⟩
    simp only [Fs.eraseEntry, directory.dirlookup, found, Option.map_none]
  | some place =>
    obtain ⟨off, inum⟩ := place
    obtain ⟨before, after, split, idx, -⟩ := Names.scan_some found
    have inside : off < s.entryCount dp := by
      rw [← directory.length_slots, split, List.length_append, List.length_cons]
      omega
    have fits : direntSize * off + direntSize ≤ maxFile * bsize := by
      have limit := (directory.solid dp directory.bound).size_le
      have size := directory.size_eq
      have later := Nat.mul_le_mul_left direntSize inside
      rw [Nat.mul_succ] at later
      omega
    have zeros : (List.range direntSize).map (fun _ => (0 : UInt8)) = List.replicate direntSize 0 := by
      rw [List.map_const', List.length_range]
    obtain ⟨s', wrote, beside, directory', written⟩ | ⟨failed, full, few⟩ :=
      directory.writeEntry devsw.2 zeros inside.le fits
    · rw [decode_zeros] at written
      refine ⟨0, s', ?_, beside, directory', written⟩
      simp only [Fs.eraseEntry, directory.dirlookup, found, Option.map_some, wrote, if_true]
    · omega

end

end Directory

/-! ## The calls on names -/

/-- The directories that the calls on names work on are those of the file system. -/
def Shows (s : State) (inodes : Names.Inodes) : Prop :=
  ∀ i < s.sb.ninodes, ((inodes i).type = .dir ↔ (s.inodes i).type = tDir) ∧
    ((inodes i).type = .dir → (inodes i).slots = s.slots i)

namespace Shows

variable {s s' : State} {inodes : Names.Inodes} {dp : Nat}

theorem change (shows : Shows s inodes) (beside : Beside dp s s') {node : Names.Inode}
    (type : node.type = (inodes dp).type) (slots : node.slots = s'.slots dp) :
    Shows s' (Function.update inodes dp node) := by
  intro i inside
  rw [beside.1] at inside
  obtain ⟨type', others⟩ := beside.2 i inside
  rw [type']
  by_cases here : i = dp
  · rw [here, Function.update_self, type]
    exact ⟨(shows dp (here ▸ inside)).1, fun _ => slots⟩
  · rw [Function.update_of_ne here, others here]
    exact shows i inside

/-- Where `dirlink` on slots returns, `dirlink` on blocks returns the same and leaves the same
directories, unless `balloc` is out of blocks. -/
theorem dirlink {Pid : Type} {procs : Pid → Names.Proc} {users : Nat → Nat} {extra held : List Nat}
    {t : Names.State Pid} (shows : Shows s inodes) (directory : Directory s dp)
    (busy : Names.Busy inodes procs users extra held t) (kept : Names.Kept inodes users extra)
    (devsw : DevswRead × Devsw) (string : 0 ∉ name) (short : name.length ≤ dirsiz)
    (small : inum < 65536) (below : (s.inodes dp).size < maxFile * bsize) :
    Command.wp (Names.dirlink dp name inum) (fun r t' =>
      (∃ s', Fs.dirlink devsw s dp name inum (fun _ => false) = .ok (r, s') ∧ Shows s' t'.inodes) ∨
      Fs.dirlink devsw s dp name inum (fun _ => false) = .error (.fs .outOfBlocks) ∧ s.freeBlocks.length < 3)
      (Names.Unless False) t := by
  obtain ⟨kind, slots⟩ := shows dp directory.bound
  have slots := slots (kind.mpr directory.type)
  have whole : key name = name := by rw [key_eq_take string, List.take_of_length_le short]
  cases found : scan name (inodes dp).slots 0 with
  | some place =>
    refine Command.wp_mono (Names.wp_dirlink_old busy kept (by simp [found]) inum) ?_
    rintro r t' ⟨rfl, after⟩
    refine .inl ⟨s, ?_, after.disk ▸ shows⟩
    rw [slots] at found
    simp [Fs.dirlink, directory.dirlookup, whole, found, ok_bind, iput]
  | none =>
    refine Command.wp_mono (Names.wp_dirlink_new busy found inum) ?_
    rintro r t' ⟨rfl, after⟩
    rw [slots] at found
    obtain ⟨s', linked, beside, -, written⟩ | ⟨failed, few, -⟩ :=
      directory.dirlink_absent devsw string small (fun _ => false) below (by rw [whole, found])
    · refine .inl ⟨s', linked, ?_⟩
      rw [after.disk]
      refine shows.change beside rfl ?_
      rw [written, ← slots, whole, Nat.mod_eq_of_lt small]
    · exact .inr ⟨failed, few⟩

/-- Erasing an entry on blocks leaves the directories that `sys_unlink` leaves on slots. -/
theorem erase (shows : Shows s inodes) (directory : Directory s dp) (devsw : DevswRead × Devsw) (found : scan (key name) (inodes dp).slots 0 = some (off, inum)) :
    ∃ r s', eraseEntry devsw s dp name = .ok (r, s') ∧ Shows s' (Function.update inodes dp
      { inodes dp with slots := writeSlot (inodes dp).slots off ⟨0, []⟩ }) := by
  obtain ⟨kind, slots⟩ := shows dp directory.bound
  have slots := slots (kind.mpr directory.type)
  obtain ⟨r, s', erased, beside, -, written⟩ := directory.eraseEntry devsw name
  rw [← slots, found] at written
  exact ⟨r, s', erased, shows.change beside rfl written.symm⟩

end Shows

/-! ## Runs -/

inductive DirectoryCall where
  | dirlink (name : List UInt8) (inum : Nat) (last : Nat → Bool)
  | erase (name : List UInt8)

/-- The name is a string of C, the inode number fits in the entry, and there is room for one more
entry.  The caller of `dirlink` holds a reference to the directory, and inodes in memory are inodes
of the file system. -/
def DirectoryCall.Allowed (dp : Nat) (s : State) : DirectoryCall → Prop
  | .dirlink name inum last => 0 ∉ name ∧ 0 < inum ∧ inum < 65536 ∧ (s.inodes dp).size < maxFile * bsize ∧
      last dp = false ∧ ∀ i, last i = true → i < s.sb.ninodes
  | .erase _ => True

/-- The state after a call that returns. -/
def DirectoryCall.perform (devsw : DevswRead × Devsw) (dp : Nat) (s : State) : DirectoryCall → Option State
  | .dirlink name inum last => (Fs.dirlink devsw s dp name inum last).toOption.map Prod.snd
  | .erase name => (eraseEntry devsw s dp name).toOption.map Prod.snd

/-- The runs of calls on a directory. -/
def directoryRuns (devsw : DevswRead × Devsw) (start : State) (dp : Nat) : System State DirectoryCall where
  initial s := s = start
  step := DirectoryCall.perform devsw dp

/-- A directory in which no name is twice. -/
structure IsMap (dp : Nat) (s : State) : Prop where
  directory : Directory s dp
  nodup : (entriesOf (s.slots dp)).NodupKeys

namespace IsMap

variable {s : State} {dp : Nat}

section

variable (map : IsMap dp s) (devsw : DevswRead × Devsw) {name : List UInt8} {inum : Nat} {last : Nat → Bool}
  (allowed : (DirectoryCall.dirlink name inum last).Allowed dp s)

include map devsw allowed

/-- `dirlink` of a name that is there fails, and leaves the directory as it is. -/
theorem link_present {used : Nat} (present : s.lookup dp (key name) = some used) :
    ∃ s', dirlink devsw s dp name inum last = .ok (-1, s') ∧ IsMap dp s' ∧ s'.inodes dp = s.inodes dp ∧
      s'.contents dp = s.contents dp := by
  obtain ⟨-, -, -, -, held, cached⟩ := allowed
  rw [State.lookup, ← scan_eq_dlookup _ _ 0] at present
  obtain ⟨⟨off, ip⟩, found, -⟩ := Option.map_eq_some_iff.mp present
  obtain ⟨s', linked, directory, inode, contents⟩ := map.directory.dirlink_present devsw inum held cached found
  refine ⟨s', linked, ⟨directory, ?_⟩, inode, contents⟩
  rw [State.slots, contents]
  exact map.nodup

/-- `dirlink` of a name that is not there adds it to the map. -/
theorem link_absent (absent : s.lookup dp (key name) = none) :
    (∃ s', dirlink devsw s dp name inum last = .ok (0, s') ∧ IsMap dp s' ∧ s'.lookup dp (key name) = some inum ∧
      ∀ other, other ≠ key name → s'.lookup dp other = s.lookup dp other) ∨
    (dirlink devsw s dp name inum last = .error (.fs .outOfBlocks) ∧ s.freeBlocks.length < 3 ∧
      ∀ de ∈ s.slots dp, de.inum ≠ 0) := by
  obtain ⟨string, pos, small, below, -, -⟩ := allowed
  have fresh : key name ∉ (entriesOf (s.slots dp)).keys := List.dlookup_eq_none.mp absent
  rw [State.lookup, ← scan_eq_dlookup _ _ 0, Option.map_eq_none_iff] at absent
  obtain ⟨s', linked, -, directory, slots⟩ | failed :=
    map.directory.dirlink_absent devsw string small last below absent
  · have perm := entriesOf_link (s.slots dp) (key name) (Nat.pos_iff_ne_zero.mp pos)
    rw [← slots] at perm
    have nodup := (List.perm_nodupKeys perm).mpr (List.nodupKeys_cons.mpr ⟨fresh, map.nodup⟩)
    obtain ⟨-, -, here, others⟩ := dlookup_of_perm nodup perm
    exact .inl ⟨s', linked, ⟨directory, nodup⟩, here, others⟩
  · exact .inr failed

end

theorem erase (map : IsMap dp s) (devsw : DevswRead × Devsw) (name : List UInt8) :
    ∃ r s', eraseEntry devsw s dp name = .ok (r, s') ∧ IsMap dp s' ∧ s'.lookup dp (key name) = none ∧
      ∀ other, other ≠ key name → s'.lookup dp other = s.lookup dp other := by
  obtain ⟨r, s', erased, -, directory, slots⟩ := map.directory.eraseEntry devsw name
  refine ⟨r, s', erased, ?_⟩
  cases found : scan (key name) (s.slots dp) 0 with
  | none =>
    rw [found] at slots
    have nodup : (entriesOf (s'.slots dp)).NodupKeys := slots ▸ map.nodup
    refine ⟨⟨directory, nodup⟩, ?_, fun other _ => by rw [State.lookup, slots, State.lookup]⟩
    rw [State.lookup, slots, ← scan_eq_dlookup _ _ 0, found]
    rfl
  | some place =>
    obtain ⟨off, inum⟩ := place
    rw [found] at slots
    have written : s'.slots dp = writeSlot (s.slots dp) off ⟨0, []⟩ := slots
    have perm := entriesOf_erase found
    rw [← written] at perm
    obtain ⟨nodup, gone, -, others⟩ := dlookup_of_perm map.nodup perm
    exact ⟨⟨directory, nodup⟩, gone, fun other ne => (others other ne).symm⟩

theorem perform (map : IsMap dp s) {devsw : DevswRead × Devsw} {call : DirectoryCall} (allowed : call.Allowed dp s)
    {s' : State} (performed : call.perform devsw dp s = some s') : IsMap dp s' := by
  cases call with
  | dirlink name inum last =>
    obtain ⟨⟨r, s'⟩, returned, rfl⟩ := Option.map_eq_some_iff.mp performed
    have linked := toOption_eq_some returned
    cases present : s.lookup dp (key name) with
    | some used =>
      obtain ⟨_, linked', map', -⟩ := map.link_present devsw allowed present
      rw [linked'] at linked
      cases linked
      exact map'
    | none =>
      obtain ⟨_, linked', map', -⟩ | ⟨failed, -⟩ := map.link_absent devsw allowed present
      · rw [linked'] at linked
        cases linked
        exact map'
      · rw [failed] at linked
        cases linked
  | erase name =>
    obtain ⟨⟨r, s'⟩, returned, rfl⟩ := Option.map_eq_some_iff.mp performed
    obtain ⟨_, _, erased, map', -⟩ := map.erase devsw name
    rw [toOption_eq_some returned] at erased
    cases erased
    exact map'

end IsMap

theorem isMap_of_reachable {devsw : DevswRead × Devsw} {start s : State} {dp : Nat} (map : IsMap dp start)
    (reach : (directoryRuns devsw start dp).Reachable (DirectoryCall.Allowed dp) s) : IsMap dp s := by
  refine reach.invariant (IsMap dp) ?_ ?_
  · rintro _ rfl
    exact map
  · intro s call next _ map allowed performed
    exact map.perform allowed performed

/-- A directory is a finite map, after any run of calls of `dirlink` and erasures.  The names in
use stay pairwise different.  `dirlookup` finds what is in the slots.  `dirlink` returns -1 and
leaves the directory as it is exactly if the name is there; otherwise it adds the name, unless all
slots are in use and `balloc` is out of blocks.  Erasing removes the name.  All other names are
found as before. -/
theorem directory_is_map (devsw : DevswRead × Devsw) (start s : State) (dp : Nat) (directory : Directory start dp)
    (distinct : Distinct (start.slots dp))
    (reach : (directoryRuns devsw start dp).Reachable (DirectoryCall.Allowed dp) s) : Distinct (s.slots dp) ∧
    (∀ name, ∃ res, Finds devsw.1 s dp name res) ∧
    (∀ name inum, Finds devsw.1 s dp name (some inum) ↔ inum ≠ 0 ∧ ⟨inum, key name⟩ ∈ s.slots dp) ∧
    (∀ name inum last, (DirectoryCall.dirlink name inum last).Allowed dp s →
      ((∃ s', dirlink devsw s dp name inum last = .ok (-1, s') ∧ s'.inodes dp = s.inodes dp ∧
          s'.contents dp = s.contents dp) ↔
        ∃ used, Finds devsw.1 s dp name (some used)) ∧
      (Finds devsw.1 s dp name none →
        (∃ s', dirlink devsw s dp name inum last = .ok (0, s') ∧ Finds devsw.1 s' dp name (some inum) ∧
          ∀ other, key other ≠ key name → ∀ res,
            Finds devsw.1 s' dp other res ↔ Finds devsw.1 s dp other res) ∨
        (dirlink devsw s dp name inum last = .error (.fs .outOfBlocks) ∧ s.freeBlocks.length < 3 ∧
          ∀ de ∈ s.slots dp, de.inum ≠ 0))) ∧
    ∀ name, ∃ r s', eraseEntry devsw s dp name = .ok (r, s') ∧ Finds devsw.1 s' dp name none ∧
      ∀ other, key other ≠ key name → ∀ res,
        Finds devsw.1 s' dp other res ↔ Finds devsw.1 s dp other res := by
  have map := isMap_of_reachable ⟨directory, distinct_iff.mp distinct⟩ reach
  have finds := map.directory.finds_iff devsw.1
  refine ⟨distinct_iff.mpr map.nodup, fun name => ⟨_, (finds name _).mpr rfl⟩, fun name inum => ?_,
    fun name inum last allowed => ⟨⟨?_, ?_⟩, fun absent => ?_⟩, fun name => ?_⟩
  · rw [finds, State.lookup, ← mem_entriesOf]
    exact List.mem_dlookup_iff map.nodup
  · rintro ⟨s', linked, -⟩
    cases present : s.lookup dp (key name) with
    | some used => exact ⟨used, (finds name _).mpr present⟩
    | none =>
      -- `dirlink` would return 0 or not at all
      obtain ⟨_, linked', -⟩ | ⟨failed, -⟩ := map.link_absent devsw allowed present
      · rw [linked'] at linked
        cases linked
      · rw [failed] at linked
        cases linked
  · rintro ⟨used, present⟩
    obtain ⟨s', linked, -, kept⟩ := map.link_present devsw allowed ((finds name _).mp present)
    exact ⟨s', linked, kept⟩
  · obtain ⟨s', linked, map', here, others⟩ | failed := map.link_absent devsw allowed ((finds name _).mp absent)
    · have finds' := map'.directory.finds_iff devsw.1
      refine .inl ⟨s', linked, (finds' name _).mpr here, fun other ne res => ?_⟩
      rw [finds', finds, others _ ne]
    · exact .inr failed
  · obtain ⟨r, s', erased, map', gone, others⟩ := map.erase devsw name
    have finds' := map'.directory.finds_iff devsw.1
    refine ⟨r, s', erased, (finds' name _).mpr gone, fun other ne res => ?_⟩
    rw [finds', finds, others _ ne]

/-- The image without files, with an empty directory. -/
def emptyDirectory : State := emptyImage.setInode 1 { emptyImage.inodes 1 with type := tDir }

theorem emptyDirectory_directory : Directory emptyDirectory 1 where
  owned := emptyImage_owned.setInode _ rfl
  solid i _ := by
    refine State.solid_iff.mpr fun idx below => ?_
    have empty : (emptyDirectory.inodes i).size = 0 := by
      simp only [emptyDirectory, State.setInode, Function.update_apply]
      split
      · rfl
      · rfl
    omega
  bound := by decide
  type := rfl
  whole := Nat.dvd_zero _

/-- The first name in an empty directory, of fifteen bytes, is found by its first fourteen. -/
theorem directory_is_map_long_name : ∃ s', dirlink (fun _ => none, fun _ => none) emptyDirectory 1
      (List.replicate 15 97) 5 (fun _ => false) = .ok (0, s') ∧
    Finds (fun _ => none) s' 1 (List.replicate 15 97) (some 5) := by
  have enough : 3 ≤ emptyDirectory.freeBlocks.length := three_le_freeBlocks_emptyImage
  obtain ⟨-, ret, finds, links, -⟩ := directory_is_map (fun _ => none, fun _ => none) emptyDirectory
    emptyDirectory 1 emptyDirectory_directory .nil (.initial rfl)
  have allowed : (DirectoryCall.dirlink (List.replicate 15 97) 5 fun _ => false).Allowed 1 emptyDirectory :=
    ⟨by decide, by decide, by decide, by decide, rfl, by simp⟩
  obtain ⟨-, added⟩ := links _ _ _ allowed
  -- there is nothing in the directory yet
  have absent : Finds (fun _ => none) emptyDirectory 1 (List.replicate 15 97) none := by
    obtain ⟨res, found⟩ := ret (List.replicate 15 97)
    cases res with
    | none => exact found
    | some inum => exact nomatch ((finds _ inum).mp found).2
  obtain ⟨s', linked, found, -⟩ | ⟨-, few, -⟩ := added absent
  · exact ⟨s', linked, found⟩
  · exact absurd few (Nat.not_lt.mpr enough)

end Xv6Simplesh.Fs
