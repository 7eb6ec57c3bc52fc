import Xv6Simplesh.Mkfs.Build

/-! # The kernel on the images of `mkfs`

Does the kernel find on the disk what `mkfs` meant to put there?  `Agrees` says so of
one input file: the kernel finds its inode, and `readi` returns its bytes.
`WellFormed` says so of the image as a whole: no block within the size of an inode is
missing, blocks have one owner, the bitmap matches, and the root directory lists the
files.

Both hold of what `mkfs` writes as long as files stay within the singly indirect
blocks, which is all that `iappend` can lay out, although it lets in files up to
`MAXFILE`.  The inode blocks have room for 206 files; the inode after that lies in the
bitmap.  And when the entries of the root directory fill its last block, rounding its
size up adds a block that was never allocated.
-/

namespace Xv6Simplesh.Mkfs

open Library Fs

/-! ## What the kernel finds -/

/-- The kernel and `mkfs` agree on a file: the kernel looks at the inode that `mkfs` made for
it, its size is the length of the file, and reading from the start returns its bytes. -/
structure Agrees (disk : Nat → Bytes) (inum : Nat) (contents : List UInt8) : Prop where
  made : (State.ofDisk disk).sb = sb ∧ ((State.ofDisk disk).inodes inum).type = tFile
  size : ((State.ofDisk disk).inodes inum).size = contents.length
  read : ∀ (devsw : DevswRead) (n : Nat), contents.length ≤ n → n < 2 ^ 32 →
    readi devsw (State.ofDisk disk) inum 0 n = .ok (contents.length, contents, State.ofDisk disk)

/-- `de.inum` of the directory entry in a buffer. -/
def direntInum (de : List UInt8) : Nat := (de.getD 0 0).toNat + 256 * (de.getD 1 0).toNat

/-- `de.name` up to its end: a NUL or the end of the field. -/
def direntName (de : List UInt8) : List UInt8 := ((de.drop 2).take dirsiz).takeWhile (· ≠ 0)

/-- Some entry of the directory has the name and the inode number. -/
def Lists (s : State) (dir : Nat) (name : List UInt8) (inum : Nat) : Prop :=
  ∃ (index : Nat) (de : List UInt8), 16 * index + 16 ≤ (s.inodes dir).size ∧
    (∀ devsw : DevswRead, readi devsw s dir (16 * index) 16 = .ok (16, de, s)) ∧
    direntInum de = inum ∧ direntName de = name

/-- What the kernel assumes of an image. -/
structure WellFormed (disk : Nat → Bytes) (files : List HostFile) : Prop where
  /-- No block within the size of an inode is missing. -/
  complete : ∀ i < (State.ofDisk disk).sb.ninodes,
    ∀ bn < (((State.ofDisk disk).inodes i).size + (bsize - 1)) / bsize, (State.ofDisk disk).block i bn ≠ 0
  /-- Blocks are distinct and in the data area, and the bitmap marks them and the metadata. -/
  owned : Owned (State.ofDisk disk)
  /-- The root directory lists the files. -/
  listed : ∀ i file, files[i]? = some file →
    Lists (State.ofDisk disk) rootIno (file.target.take dirsiz) (i + 2)

/-! ## Files that fit -/

variable {file : HostFile} {inum : Nat}

section Finished

variable {disk : Nat → Bytes} {files : List HostFile} {next : Nat}

section

variable (ended : Finished disk files next)

include ended

/-- The kernel reads the super block that `mkfs` wrote, and so it sees what `mkfs` saw. -/
theorem Finished.ofDisk : State.ofDisk disk = ⟨sb, disk, readInode sb disk, []⟩ := by
  have read : readsb (disk 1) = sb := by
    rw [ended.superblock]
    exact readsb_superblockWords
  simp only [State.ofDisk, read]

theorem Finished.inodes (i : Nat) : (State.ofDisk disk).inodes i = readInode sb disk i := by
  rw [ended.ofDisk]

theorem Finished.node (i : Nat) (r : Role) : (State.ofDisk disk).node i r = (view disk).node i r := by
  rw [ended.ofDisk]
  cases r <;> rfl

theorem Finished.block (i bn : Nat) : (State.ofDisk disk).block i bn = (view disk).block i bn := by
  simp only [State.block, ended.node]

end

variable {i : Nat}

theorem Holding.bytes_eq {s : State} {count : Nat → Nat} {data : Nat → List UInt8}
    (holding : Holding s next count data) (inside : i < s.sb.ninodes) {off n : Nat}
    (within : off + n ≤ (data i).length) : s.bytes i off n = ((data i).drop off).take n := by
  refine List.ext_getElem ?_ fun index before before' => ?_
  · simp only [State.bytes, List.length_map, List.length_range, List.length_take, List.length_drop]
    omega
  · simp only [State.bytes, List.length_map, List.length_range] at before
    simp only [State.bytes, List.getElem_map, List.getElem_range, List.getElem_take, List.getElem_drop]
    rw [holding.bytes i inside _ (by omega), List.getD_eq_getElem _ _ (by omega)]

theorem Finished.readi (ended : Finished disk files next) (devsw : DevswRead)
    (inside : i < wideSb.ninodes) (regular : kindOf files i ≠ tDev) {off n count : Nat}
    (word : off + n < 2 ^ 32) (clipped : min n (((State.ofDisk disk).inodes i).size - off) = count)
    (within : off + count ≤ (contentsOf files i).length) :
    readi devsw (State.ofDisk disk) i off n =
      .ok (count, ((contentsOf files i).drop off).take count, State.ofDisk disk) := by
  have size : (contentsOf files i).length ≤ ((State.ofDisk disk).inodes i).size := by
    rw [ended.inodes, ended.size i inside]
    split
    next root =>
      rw [root]
      simp only [contentsOf, rootSize]
      dsimp only [bsize]
      omega
    next => exact Nat.le_refl _
  have bytes : (State.ofDisk disk).bytes i off count = ((contentsOf files i).drop off).take count := by
    rw [← ended.holding.bytes_eq inside within]
    simp only [State.bytes, State.byteAt, ended.block]
    rfl
  have type : ((State.ofDisk disk).inodes i).type ≠ tDev := by
    rw [ended.inodes, ended.kinds i inside]
    exact regular
  rw [readi_present devsw type (by omega) word, clipped, bytes]
  intro idx low high
  rw [ended.block]
  exact ended.holding.block_present inside (by omega)

/-- The kernel and `mkfs` agree on every file of a finished image. -/
theorem Finished.agrees (ended : Finished disk files next) (room : files.length + 2 ≤ wideSb.ninodes) (listed : files[i]? = some file) : Agrees disk (i + 2) file.contents := by
  have before : i < files.length := (List.getElem?_eq_some_iff.mp listed).1
  have inside : i + 2 < wideSb.ninodes := by omega
  have other : i + 2 ≠ rootIno := by
    dsimp only [rootIno]
    omega
  have contents : contentsOf files (i + 2) = file.contents := by
    simp only [contentsOf, listed]
    rfl
  have kind : kindOf files (i + 2) = tFile := by
    rw [kindOf, if_neg other, if_pos (by omega)]
  have size : ((State.ofDisk disk).inodes (i + 2)).size = file.contents.length := by
    rw [ended.inodes, ended.size _ inside, if_neg other, contents]
  constructor
  · refine ⟨by rw [ended.ofDisk], ?_⟩
    rw [ended.inodes, ended.kinds _ inside, kind]
  · exact size
  · intro devsw n long word
    have count : min n (((State.ofDisk disk).inodes (i + 2)).size - 0) = file.contents.length := by
      rw [size]
      omega
    have read := ended.readi devsw inside (by rw [kind]; decide) (show 0 + n < 2 ^ 32 by omega) count
      (by rw [contents]; omega)
    rw [contents, List.drop_zero, List.take_length] at read
    exact read

/-! ## The root directory -/

theorem rootData_entry (listed : files[i]? = some file) :
    ((rootData files).drop (16 * (i + 2))).take 16 = dirent (i + 2) file.target := by
  induction files using List.reverseRecOn with
  | nil => cases listed
  | append_singleton files last ih =>
    have length := length_rootData files
    rw [rootData_concat]
    by_cases before : i < files.length
    · rw [List.getElem?_append_left before] at listed
      rw [List.drop_append_of_le_length (by omega), List.take_append_of_le_length (by rw [List.length_drop]; omega)]
      exact ih listed
    · have inside := (List.getElem?_eq_some_iff.mp listed).1
      rw [List.length_append, List.length_singleton] at inside
      have here : i = files.length := by omega
      rw [here, List.getElem?_concat_length] at listed
      cases listed
      rw [here, List.drop_left' length, List.take_of_length_le (by rw [length_dirent])]

theorem direntInum_dirent (small : inum < 2 ^ 16) (name : List UInt8) : direntInum (dirent inum name) = inum := by
  simp only [direntInum, dirent, List.getD_cons_zero, List.getD_cons_succ, UInt8.toNat_ofNat']
  omega

theorem direntName_dirent (inum : Nat) {name : List UInt8} (terminated : 0 ∉ name) :
    direntName (dirent inum name) = name.take dirsiz := by
  have field : ((dirent inum name).drop 2).take dirsiz = name.take dirsiz ++ List.replicate (dirsiz - name.length) 0 :=
    List.take_of_length_le (Nat.le_of_eq (length_strncpy name dirsiz))
  have text : ∀ byte ∈ name.take dirsiz, decide (byte ≠ 0) = true := by
    intro byte mem
    refine decide_eq_true fun zero => terminated ?_
    rw [← zero]
    exact List.mem_of_mem_take mem
  have padding : (List.replicate (dirsiz - name.length) (0 : UInt8)).takeWhile (· ≠ 0) = [] := by
    cases dirsiz - name.length <;> simp [List.replicate_succ]
  rw [direntName, field, List.takeWhile_append_of_pos text, padding, List.append_nil]

theorem HostFile.target_terminated (file : HostFile) : 0 ∉ file.target := by
  unfold HostFile.target
  split
  · exact fun mem => file.terminated (List.mem_of_mem_tail mem)
  · exact file.terminated

theorem Finished.listed (ended : Finished disk files next) (room : files.length + 2 ≤ wideSb.ninodes) (listed : files[i]? = some file) :
    Lists (State.ofDisk disk) rootIno (file.target.take dirsiz) (i + 2) := by
  have root : rootIno < wideSb.ninodes := by decide
  have wide : wideSb.ninodes = 208 := rfl
  have before : i < files.length := (List.getElem?_eq_some_iff.mp listed).1
  have length : (contentsOf files rootIno).length = 16 * (files.length + 2) := length_rootData files
  have size : 16 * (i + 2) + 16 ≤ ((State.ofDisk disk).inodes rootIno).size := by
    rw [ended.inodes, ended.size _ root, if_pos rfl, rootSize, length_rootData]
    dsimp only [bsize]
    omega
  refine ⟨i + 2, dirent (i + 2) file.target, size, fun devsw => ?_, direntInum_dirent (by omega) _,
    direntName_dirent _ file.target_terminated⟩
  have kind : kindOf files rootIno ≠ tDev := by
    rw [kindOf, if_pos rfl]
    decide
  have read := ended.readi devsw root kind (show 16 * (i + 2) + 16 < 2 ^ 32 by omega)
    (Nat.min_eq_left (by omega)) (by omega)
  have entry : ((contentsOf files rootIno).drop (16 * (i + 2))).take 16 = dirent (i + 2) file.target :=
    rootData_entry listed
  rw [entry] at read
  exact read

/-! ## Ownership and the bitmap -/

theorem Finished.node_unmade (ended : Finished disk files next) (inside : i < wideSb.ninodes)
    (unmade : files.length + 2 ≤ i) (r : Role) : (view disk).node i r = 0 := by
  have empty : contentsOf files i = [] := by
    obtain ⟨k, rfl⟩ : ∃ k, i = k + 2 := ⟨i - 2, by omega⟩
    simp only [contentsOf, List.getElem?_eq_none (show files.length ≤ k by omega)]
    rfl
  have absent := (ended.holding.present i inside r).not.mpr (by rw [empty]; exact Nat.not_lt_zero _)
  exact not_not.mp absent

theorem Finished.holder (ended : Finished disk files next) (room : files.length + 2 ≤ ninodes) :
    (State.ofDisk disk).holder = (view disk).holder := by
  have fewer : ninodes ≤ wideSb.ninodes := by decide
  have count : (State.ofDisk disk).sb.ninodes = ninodes := by
    rw [ended.ofDisk]
    rfl
  funext ⟨i, r⟩
  simp only [State.holder, ended.node, count]
  by_cases low : i < ninodes
  · have inside : i < (view disk).sb.ninodes := Nat.lt_of_lt_of_le low fewer
    simp only [low, inside]
  · rw [if_neg fun both => low both.1, if_neg]
    rintro ⟨inside, present⟩
    exact present (ended.node_unmade inside (by omega) r)

theorem Finished.owned (ended : Finished disk files next) (room : files.length + 2 ≤ ninodes) :
    Owned (State.ofDisk disk) := by
  have holder := ended.holder room
  have super : (State.ofDisk disk).sb = sb := by
    rw [ended.ofDisk]
  have data : sb.nmeta = nmeta := rfl
  have last : sb.size = fsSize := rfl
  have blocks := ended.blocks
  refine ⟨?_, rfl, ?_, ?_, ?_⟩
  · rw [super]
    exact mkfsSuperblock_layout
  · intro b held
    rw [holder, ended.holding.held b] at held
    rw [super]
    omega
  · rw [holder]
    exact ended.holding.exclusive
  · intro b inside
    have bit : (State.ofDisk disk).used b = (view disk).used b := by
      rw [ended.ofDisk]
      rfl
    have start := ended.holding.start
    rw [super] at inside
    rw [holder, ended.holding.held b, bit, ended.bitmap b inside, super, decide_eq_true_eq]
    omega

/-! ## Blocks within the size -/

/-- No block is missing exactly when the entries of the root directory do not fill its last block. -/
theorem Finished.complete_iff (ended : Finished disk files next) (room : files.length + 2 ≤ ninodes) :
    (∀ i < (State.ofDisk disk).sb.ninodes,
      ∀ bn < (((State.ofDisk disk).inodes i).size + (bsize - 1)) / bsize, (State.ofDisk disk).block i bn ≠ 0) ↔
      (files.length + 2) % 32 ≠ 0 := by
  have fewer : ninodes ≤ wideSb.ninodes := by decide
  have root : rootIno < wideSb.ninodes := by decide
  have count : (State.ofDisk disk).sb.ninodes = ninodes := by
    rw [ended.ofDisk]
    rfl
  have length : (contentsOf files rootIno).length = 16 * (files.length + 2) := length_rootData files
  have rootEnd : rootSize files = (16 * (files.length + 2) / bsize + 1) * bsize := by
    rw [rootSize, length_rootData]
  rw [count]
  constructor
  · intro complete full
    have limit : ninodes = 200 := rfl
    have missing := complete rootIno (by decide) (16 * (files.length + 2) / bsize) (by
      rw [ended.inodes, ended.size _ root, if_pos rfl, rootEnd]
      dsimp only [bsize]
      omega)
    have single : 16 * (files.length + 2) / bsize < ndirect + nindirect := by
      dsimp only [ndirect, nindirect, bsize]
      omega
    have file : 16 * (files.length + 2) / bsize < maxFile := Nat.lt_of_lt_of_le single (Nat.le_add_right _ _)
    rw [ended.block, State.block, dif_pos file, ended.holding.present rootIno root, order_leaf file single,
      length] at missing
    dsimp only [span, rolesFor, ndirect, bsize] at missing
    split at missing <;> split at missing <;> omega
  · intro partly i inside bn within
    have wide : i < wideSb.ninodes := Nat.lt_of_lt_of_le inside fewer
    rw [ended.inodes, ended.size i wide] at within
    have before : bn * bsize < (contentsOf files i).length := by
      split at within
      next same =>
        rw [same, length]
        rw [rootEnd] at within
        dsimp only [bsize] at within ⊢
        omega
      next =>
        dsimp only [bsize] at within ⊢
        omega
    have present := ended.holding.block_present wide before
    rw [Nat.mul_div_cancel _ (by decide)] at present
    rw [ended.block]
    exact present

theorem Finished.wellFormed_iff (ended : Finished disk files next) (room : files.length + 2 ≤ ninodes) :
    WellFormed disk files ↔ (files.length + 2) % 32 ≠ 0 := by
  have fewer : ninodes ≤ wideSb.ninodes := by decide
  rw [← ended.complete_iff room]
  exact ⟨fun formed => formed.complete, fun complete =>
    ⟨complete, ended.owned room, fun _ _ listed => ended.listed (by omega) listed⟩⟩

end Finished

/-! ## More files than inodes

Past the inode blocks, inodes overlap the bitmap and then the data blocks, and little is
known about the image.  But the bitmap is written last, and its first words are full. -/

section Overflow

variable {img img' : Image}

theorem winode_freeblock {ip : Inode} (ran : winode img inum ip = .ok img') : img'.freeblock = img.freeblock := by
  obtain ⟨buf, -, ran⟩ := ok_of_bind ran
  cases ran
  rfl

theorem ialloc_freeblock {type : Int} (ran : ialloc img type = .ok (inum, img')) :
    img'.freeblock = img.freeblock := by
  obtain ⟨after, wrote, ran⟩ := ok_of_bind ran
  cases ran
  have same := winode_freeblock wrote
  exact same

theorem allocAddr_freeblock (img : Image) (din : Inode) (slot : Nat) :
    img.freeblock ≤ (allocAddr img din slot).2.2.freeblock := by
  unfold allocAddr
  split
  · exact Nat.le_succ _
  · exact Nat.le_refl _

theorem allocEntry_freeblock (img : Image) (addr : Nat) (indirect : Bytes) (index : Nat) :
    img.freeblock ≤ (allocEntry img addr indirect index).2.freeblock := by
  unfold allocEntry
  split
  · exact Nat.le_succ _
  · exact Nat.le_refl _

theorem locate_freeblock {din din' : Inode} {fbn x : Nat} (ran : locate img din fbn = .ok (x, din', img')) :
    img.freeblock ≤ img'.freeblock := by
  unfold locate at ran
  split at ran
  · have first := allocAddr_freeblock img din fbn
    rw [Except.ok.inj ran] at first
    exact first
  · have first := allocAddr_freeblock img din ndirect
    generalize allocAddr img din ndirect = taken at first ran
    obtain ⟨addr, din₁, img₁⟩ := taken
    obtain ⟨indirect, -, ran⟩ := ok_of_bind ran
    split at ran
    · have snd := allocEntry_freeblock img₁ addr indirect (fbn - ndirect)
      generalize allocEntry img₁ addr indirect (fbn - ndirect) = entry at snd ran
      cases ran
      exact Nat.le_trans first snd
    · cases ran

theorem appendLoop_freeblock {p : List UInt8} : ∀ {img : Image} {din din' : Inode} {off off' : Nat},
    appendLoop img din off p = .ok (img', din', off') → img.freeblock ≤ img'.freeblock := by
  induction left : p.length using Nat.strong_induction_on generalizing p with
  | _ n ih =>
    intro img din din' off off' ran
    unfold appendLoop at ran
    split at ran
    next pos =>
      obtain ⟨some, -⟩ := portion_spec off pos
      dsimp only at ran
      split at ran
      · obtain ⟨⟨x, din₁, img₁⟩, located, ran⟩ := ok_of_bind ran
        obtain ⟨buf, -, ran⟩ := ok_of_bind ran
        have rest := ih _ (by rw [List.length_drop]; omega) rfl ran
        exact Nat.le_trans (locate_freeblock located) rest
      · cases ran
    next =>
      cases ran
      exact Nat.le_refl _

theorem iappend_freeblock {p : List UInt8} (ran : iappend img inum p = .ok img') :
    img.freeblock ≤ img'.freeblock := by
  obtain ⟨din, -, ran⟩ := ok_of_bind ran
  obtain ⟨⟨after, din', off⟩, loop, ran⟩ := ok_of_bind ran
  rw [winode_freeblock ran]
  exact appendLoop_freeblock loop

theorem addFile_freeblock {rootino : Nat} (ran : addFile rootino img file = .ok img') :
    img.freeblock ≤ img'.freeblock := by
  unfold addFile at ran
  split at ran
  · cases ran
  · obtain ⟨⟨inum, img₁⟩, made, ran⟩ := ok_of_bind ran
    obtain ⟨img₂, entry, ran⟩ := ok_of_bind ran
    have start : img.freeblock ≤ img₂.freeblock := by
      rw [← ialloc_freeblock made]
      exact iappend_freeblock entry
    exact foldlM_ok_invariant (fun after => img.freeblock ≤ after.freeblock)
      (fun state chunk after before stepped => Nat.le_trans before (iappend_freeblock stepped)) start ran

theorem mkfs_bitmap {files : List HostFile} {disk : Nat → Bytes} (ran : mkfs files = .ok disk) :
    ∃ used, nmeta ≤ used ∧ disk sb.bmapstart = bitmapOf used := by
  obtain ⟨⟨rootino, img⟩, made, ran⟩ := ok_of_bind ran
  dsimp only at ran
  split at ran
  · obtain ⟨img₁, entry, ran⟩ := ok_of_bind ran
    obtain ⟨img₂, entry', ran⟩ := ok_of_bind ran
    obtain ⟨img₃, loop, ran⟩ := ok_of_bind ran
    obtain ⟨img₄, fixed, ran⟩ := ok_of_bind ran
    obtain ⟨img₅, marked, ran⟩ := ok_of_bind ran
    have start : nmeta ≤ img₂.freeblock := by
      have first : img.freeblock = nmeta := ialloc_freeblock made
      have snd := iappend_freeblock entry
      have third := iappend_freeblock entry'
      omega
    have grown : nmeta ≤ img₃.freeblock := foldlM_ok_invariant (fun after => nmeta ≤ after.freeblock)
      (fun state file after before stepped => Nat.le_trans before (addFile_freeblock stepped)) start loop
    have same : img₄.freeblock = img₃.freeblock := by
      obtain ⟨din, -, wrote⟩ := ok_of_bind fixed
      exact winode_freeblock wrote
    cases ran
    unfold balloc at marked
    split at marked
    · cases marked
      refine ⟨img₄.freeblock, same ▸ grown, ?_⟩
      rw [wsect_of_lt _ (by decide)]
      dsimp only
      rw [Function.update_self]
    · cases marked
  · cases ran

theorem even_of_lowShort {word : Nat} (short : lowShort word = 2) : word % 2 = 0 := by
  unfold lowShort at short
  simp only [Int.bmod_def] at short
  omega

/-- The bitmap where the inode after the last inode block would be. -/
theorem type_overflow {files : List HostFile} {disk : Nat → Bytes} (ran : mkfs files = .ok disk) :
    (readInode sb disk wideSb.ninodes).type ≠ tFile := by
  obtain ⟨used, many, marked⟩ := mkfs_bitmap ran
  have first : (disk sb.bmapstart).bit 0 = true := by
    rw [marked, bit_bitmapOf]
    exact decide_eq_true (Nat.lt_of_lt_of_le (by decide) many)
  have block : sb.iblock wideSb.ninodes = sb.bmapstart := by decide
  have base : dinodeBase wideSb.ninodes = 0 := by decide
  rw [readInode, block, base]
  generalize disk sb.bmapstart = data at first
  rw [Bytes.bit_eq_testBit] at first
  have odd : (data 0).toNat % 2 = 1 := by
    simpa [Nat.testBit_zero] using first
  intro file
  -- `T_FILE` is even, and the lowest bit of the bitmap is set
  simp only [loadDinode] at file
  have even := even_of_lowShort file
  simp only [Bytes.word, Nat.mul_zero] at even
  omega

end Overflow

/-! ## Runs to completion -/

theorem wide_ninodes : wideSb.ninodes = 208 := rfl

/-- A blank disk has no super block, so nothing on it is what `mkfs` meant. -/
theorem not_agrees_zero (inum : Nat) (contents : List UInt8) : ¬ Agrees (fun _ => Bytes.fill 0) inum contents := by
  intro agrees
  have size : (State.ofDisk fun _ => Bytes.fill 0).sb.size = fsSize := by
    rw [agrees.made.1]
    rfl
  exact absurd size (by decide)

theorem not_wellFormed_zero (files : List HostFile) : ¬ WellFormed (fun _ => Bytes.fill 0) files := by
  intro formed
  have start := formed.owned.layout.afterSuperblock
  have zero : (State.ofDisk fun _ => Bytes.fill 0).sb.inodestart = 0 := rfl
  omega

section Runs

variable {files : List HostFile} {disk : Nat → Bytes}

section

variable (room : files.length + 2 ≤ wideSb.ninodes)

include room

/-- With few enough files of a size that can be laid out, the run ends with a finished image. -/
theorem finished_of_leaves
    (small : ∀ file ∈ files, file.contents.length ≤ singleLimit) (leaves : Leaves (mkfs files) disk) :
    ∃ next, Finished disk files next := by
  rcases mkfs_spec room with ⟨-, made, ran, ended⟩ | ⟨e, ran, defined, -⟩
  · rcases leaves with same | undefined
    · rw [ran] at same
      cases same
      exact ended
    · rw [ran] at undefined
      cases undefined
  · rcases leaves with same | undefined
    · rw [ran] at same
      cases same
    · rw [ran] at undefined
      cases undefined
      exact absurd rfl (defined small)

/-- A file that cannot be laid out makes the behaviour undefined. -/
theorem undefined_of_large
    (large : ¬ ∀ file ∈ files, file.contents.length ≤ singleLimit) (leaves : Leaves (mkfs files) disk) :
    mkfs files = .error .outOfBounds := by
  rcases mkfs_spec room with ⟨small, -⟩ | ⟨e, ran, -, -⟩
  · exact absurd small large
  · rcases leaves with same | undefined
    · rw [ran] at same
      cases same
    · exact undefined

theorem mkfs_completes
    (small : ∀ file ∈ files, file.contents.length ≤ singleLimit) (names : ∀ file ∈ files, 47 ∉ file.name)
    (enough : nmeta + rootCost files.length + (files.map HostFile.cost).sum < bsize * 8) :
    ∃ disk next, mkfs files = .ok disk ∧ Finished disk files next := by
  rcases mkfs_spec room with ⟨-, disk, ran, next, ended⟩ | ⟨e, ran, defined, ample⟩
  · exact ⟨disk, next, ran, ended⟩
  · exact absurd (ample ⟨names, enough⟩) (defined small)

end

end Runs

/-! ## The contents of files -/

/-- The kernel reads back what the input files hold, for exactly the inputs that fit. -/
theorem mkfs_agrees_iff (files : List HostFile) (completes : ∃ disk, Leaves (mkfs files) disk) :
    (∀ disk, Leaves (mkfs files) disk → ∀ i file, files[i]? = some file → Agrees disk (i + 2) file.contents) ↔
      files.length ≤ 206 ∧ ∀ file ∈ files, file.contents.length ≤ singleLimit := by
  have wide := wide_ninodes
  constructor
  · intro agree
    by_cases room : files.length ≤ 206
    · refine ⟨room, ?_⟩
      by_contra large
      -- the behaviour is undefined, and any disk may be left
      obtain ⟨disk, leaves⟩ := completes
      have undefined := undefined_of_large (by omega) large leaves
      have nonempty : 0 < files.length := by
        by_contra none
        rw [List.length_eq_zero_iff.mp (show files.length = 0 by omega)] at large
        exact large fun file mem => nomatch mem
      exact not_agrees_zero _ _ (agree _ (.inr undefined) 0 files[0] (List.getElem?_eq_getElem nonempty))
    · -- the inode of file 206 is where the bitmap begins
      have many : 206 < files.length := by omega
      obtain ⟨disk, leaves⟩ := completes
      rcases leaves with ran | undefined
      · have made := (agree disk (.inl ran) 206 files[206] (List.getElem?_eq_getElem many)).made
        have inode : (State.ofDisk disk).inodes 208 = readInode sb disk 208 := congrArg (readInode · disk 208) made.1
        rw [inode] at made
        exact absurd made.2 (type_overflow ran)
      · exact absurd (agree _ (.inr undefined) 206 files[206] (List.getElem?_eq_getElem many)) (not_agrees_zero _ _)
  · rintro ⟨room, small⟩ disk leaves i file listed
    obtain ⟨next, ended⟩ := finished_of_leaves (by omega) small leaves
    exact ended.agrees (by omega) listed

/-- `README`, with a line of text. -/
def readmeFile : HostFile where
  name := [82, 69, 65, 68, 77, 69]
  terminated := by decide
  chunks := [[104, 101, 108, 108, 111], [10]]
  sized := by decide

theorem mkfs_agrees_readme : ∃ disk, mkfs [readmeFile] = .ok disk ∧ Agrees disk 2 readmeFile.contents := by
  have small : ∀ file ∈ [readmeFile], file.contents.length ≤ singleLimit := by decide
  obtain ⟨disk, -, ran, -⟩ := mkfs_completes (by decide) small (by decide) (by decide)
  have agree := (mkfs_agrees_iff [readmeFile] ⟨disk, .inl ran⟩).mpr ⟨by decide, small⟩
  exact ⟨disk, ran, agree disk (.inl ran) 0 readmeFile rfl⟩

/-- A file of one byte more than the singly indirect blocks hold. -/
def largeFile : HostFile where
  name := [97]
  terminated := by decide
  chunks := List.replicate (ndirect + nindirect) (List.replicate bsize 1) ++ [[1]]
  sized := by
    intro chunk mem
    rw [List.mem_append, List.mem_singleton] at mem
    rcases mem with full | rfl
    · rw [List.eq_of_mem_replicate full, List.length_replicate]
      decide
    · decide

theorem length_largeFile : largeFile.contents.length = singleLimit + 1 := by
  rw [HostFile.contents, largeFile, List.flatten_append, List.length_append, List.flatten_replicate_replicate,
    List.length_replicate, List.flatten_singleton, List.length_singleton]

theorem mkfs_largeFile_undefined : largeFile.contents.length ≤ maxFile * bsize ∧
    mkfs [largeFile] = .error .outOfBounds ∧
    ¬ ∀ disk, Leaves (mkfs [largeFile]) disk → Agrees disk 2 largeFile.contents := by
  have undefined : mkfs [largeFile] = .error .outOfBounds := by
    have cost : largeFile.cost = need (singleLimit + 1) := congrArg need length_largeFile
    rcases mkfs_spec (show [largeFile].length + 2 ≤ wideSb.ninodes by decide) with
      ⟨small, -⟩ | ⟨e, ran, -, ample⟩
    · have fits := small largeFile (.head _)
      rw [length_largeFile] at fits
      exact absurd fits (by decide)
    · rw [ran, ample ⟨by decide, ?_⟩]
      rw [List.map_cons, List.map_nil, cost]
      decide
  refine ⟨?_, undefined, fun agree => not_agrees_zero _ _ (agree _ (.inr undefined))⟩
  rw [length_largeFile]
  decide

/-! ## The image as a whole -/

/-- The image is what the kernel assumes, for exactly the inputs that can be laid out and do not
fill the last block of the root directory. -/
theorem mkfs_wellFormed_iff (files : List HostFile) (count : files.length ≤ 198)
    (completes : ∃ disk, Leaves (mkfs files) disk) :
    (∀ disk, Leaves (mkfs files) disk → WellFormed disk files) ↔
      (∀ file ∈ files, file.contents.length ≤ singleLimit) ∧ (files.length + 2) % 32 ≠ 0 := by
  have wide := wide_ninodes
  have room : files.length + 2 ≤ ninodes := Nat.add_le_add_right count 2
  obtain ⟨disk, leaves⟩ := completes
  constructor
  · intro formed
    have small : ∀ file ∈ files, file.contents.length ≤ singleLimit := by
      by_contra large
      exact not_wellFormed_zero _ (formed _ (.inr (undefined_of_large (by omega) large leaves)))
    obtain ⟨next, ended⟩ := finished_of_leaves (by omega) small leaves
    exact ⟨small, (ended.wellFormed_iff room).mp (formed disk leaves)⟩
  · rintro ⟨small, partly⟩ disk leaves
    obtain ⟨next, ended⟩ := finished_of_leaves (by omega) small leaves
    exact (ended.wellFormed_iff room).mpr partly

theorem mkfs_wellFormed_readme : ∃ disk, mkfs [readmeFile] = .ok disk ∧ WellFormed disk [readmeFile] := by
  have small : ∀ file ∈ [readmeFile], file.contents.length ≤ singleLimit := by decide
  obtain ⟨disk, -, ran, -⟩ := mkfs_completes (by decide) small (by decide) (by decide)
  have formed := (mkfs_wellFormed_iff [readmeFile] (by decide) ⟨disk, .inl ran⟩).mpr ⟨small, by decide⟩
  exact ⟨disk, ran, formed disk (.inl ran)⟩

/-- An empty file. -/
def emptyFile : HostFile where
  name := [97]
  terminated := by decide
  chunks := []
  sized := by decide

/-- With thirty files the entries of the root directory fill a block. -/
theorem mkfs_thirty_files : ∃ disk, mkfs (List.replicate 30 emptyFile) = .ok disk ∧
    ¬ WellFormed disk (List.replicate 30 emptyFile) := by
  have made : ∃ disk next, mkfs (List.replicate 30 emptyFile) = .ok disk ∧
      Finished disk (List.replicate 30 emptyFile) next :=
    mkfs_completes (by decide) (by decide) (by decide) (by decide)
  obtain ⟨disk, next, ran, ended⟩ := made
  refine ⟨disk, ran, fun formed => ?_⟩
  exact absurd ((ended.wellFormed_iff (by decide)).mp formed) (by decide)

end Xv6Simplesh.Mkfs
