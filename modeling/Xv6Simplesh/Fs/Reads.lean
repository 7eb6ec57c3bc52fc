import Xv6Simplesh.Fs.Bmap

/-! # Reading inodes: `ilock` and `readi`

`ilock` takes an inode from its `struct dinode` on the disk, and `readi` copies the
bytes of a file out of the blocks that `bmap` finds.  Where every block of the range
is there, `bmap` allocates nothing, and `readi` returns the bytes that the blocks hold
and leaves the state as it was.
-/

namespace Xv6Simplesh.Fs

open Library Function

/-! ## `struct dinode` -/

/-- The `short` in the low half of a word. -/
def lowShort (word : Nat) : Int := Int.bmod (word % 2 ^ 16 : Nat) (2 ^ 16)

/-- The `short` in the high half of a word. -/
def highShort (word : Nat) : Int := Int.bmod (word / 2 ^ 16 : Nat) (2 ^ 16)

/-- Take an inode from the `struct dinode` that starts at word `base` of its block. -/
def loadDinode (data : Bytes) (base : Nat) : Inode where
  type := lowShort (data.word base)
  major := highShort (data.word base)
  minor := lowShort (data.word (base + 1))
  nlink := highShort (data.word (base + 1))
  size := data.word (base + 2)
  addrs slot := if slot < ndirect + 2 then data.word (base + 3 + slot) else 0

/-- The word of its block at which an inode starts. -/
def dinodeBase (inum : Nat) : Nat := inum % ipb * (bsize / 4 / ipb)

/-- The inode as `ilock` reads it. -/
def readInode (sb : Superblock) (disk : Nat → Bytes) (inum : Nat) : Inode :=
  loadDinode (disk (sb.iblock inum)) (dinodeBase inum)

/-- The kernel's view of a disk that it has not worked on yet. -/
def State.ofDisk (disk : Nat → Bytes) : State where
  sb := readsb (disk 1)
  disk := disk
  inodes := readInode (readsb (disk 1)) disk
  logged := []

/-- The values that the fields of `struct dinode` have room for. -/
structure Inode.Fits (ip : Inode) : Prop where
  type : -2 ^ 15 ≤ ip.type ∧ ip.type < 2 ^ 15
  major : -2 ^ 15 ≤ ip.major ∧ ip.major < 2 ^ 15
  minor : -2 ^ 15 ≤ ip.minor ∧ ip.minor < 2 ^ 15
  nlink : -2 ^ 15 ≤ ip.nlink ∧ ip.nlink < 2 ^ 15
  size : ip.size < 2 ^ 32
  addrs : ∀ slot, ip.addrs slot < 2 ^ 32
  unused : ∀ slot, ndirect + 2 ≤ slot → ip.addrs slot = 0

theorem Inode.Fits.grow {ip : Inode} (fits : ip.Fits) {size : Nat} {addrs : Nat → Nat} (word : size < 2 ^ 32)
    (words : ∀ slot, addrs slot < 2 ^ 32) (unused : ∀ slot, ndirect + 2 ≤ slot → addrs slot = 0) :
    Inode.Fits { ip with size := size, addrs := addrs } :=
  ⟨fits.type, fits.major, fits.minor, fits.nlink, word, words, unused⟩

theorem bmod_short {val : Int} (fits : -2 ^ 15 ≤ val ∧ val < 2 ^ 15) : Int.bmod (val % 2 ^ 16) (2 ^ 16) = val := by
  simp only [Int.bmod_def]
  omega

theorem lowShort_shorts {low : Int} (high : Int) (fits : -2 ^ 15 ≤ low ∧ low < 2 ^ 15) :
    lowShort (shorts low high % 2 ^ 32) = low := by
  have half : shorts low high % 2 ^ 32 % 2 ^ 16 = (low % 2 ^ 16).toNat := by
    unfold shorts
    omega
  have pos : 0 ≤ low % 2 ^ 16 := by omega
  unfold lowShort
  rw [half, Int.toNat_of_nonneg pos]
  exact bmod_short fits

theorem highShort_shorts (low : Int) {high : Int} (fits : -2 ^ 15 ≤ high ∧ high < 2 ^ 15) :
    highShort (shorts low high % 2 ^ 32) = high := by
  have half : shorts low high % 2 ^ 32 / 2 ^ 16 = (high % 2 ^ 16).toNat := by
    unfold shorts
    omega
  have pos : 0 ≤ high % 2 ^ 16 := by omega
  unfold highShort
  rw [half, Int.toNat_of_nonneg pos]
  exact bmod_short fits

theorem word_storeDinode (data : Bytes) (base : Nat) (ip : Inode) (index : Nat) :
    (storeDinode data base ip).word index =
      if index = base then shorts ip.type ip.major % 2 ^ 32
      else if index = base + 1 then shorts ip.minor ip.nlink % 2 ^ 32
      else if index = base + 2 then ip.size % 2 ^ 32
      else if base + 3 ≤ index ∧ index < base + 3 + (ndirect + 2) then ip.addrs (index - (base + 3)) % 2 ^ 32
      else data.word index := by
  rw [storeDinode, Bytes.word_foldl_setWord]
  by_cases first : index = base
  · subst first
    rw [if_neg (by omega), if_pos rfl, Bytes.word_setWord_ne _ _ (by omega), Bytes.word_setWord_ne _ _ (by omega),
      Bytes.word_setWord_self]
  rw [if_neg first]
  by_cases snd : index = base + 1
  · subst snd
    rw [if_neg (by omega), if_pos rfl, Bytes.word_setWord_ne _ _ (by omega), Bytes.word_setWord_self]
  rw [if_neg snd]
  by_cases third : index = base + 2
  · subst third
    rw [if_neg (by omega), if_pos rfl, Bytes.word_setWord_self]
  rw [if_neg third, Bytes.word_setWord_ne _ _ (Ne.symm third), Bytes.word_setWord_ne _ _ (Ne.symm snd),
    Bytes.word_setWord_ne _ _ (Ne.symm first)]

theorem loadDinode_storeDinode (data : Bytes) (base : Nat) {ip : Inode} (fits : ip.Fits) :
    loadDinode (storeDinode data base ip) base = ip := by
  have first : (storeDinode data base ip).word base = shorts ip.type ip.major % 2 ^ 32 := by
    rw [word_storeDinode, if_pos rfl]
  have snd : (storeDinode data base ip).word (base + 1) = shorts ip.minor ip.nlink % 2 ^ 32 := by
    rw [word_storeDinode, if_neg (by omega), if_pos rfl]
  have third : (storeDinode data base ip).word (base + 2) = ip.size := by
    rw [word_storeDinode, if_neg (by omega), if_neg (by omega), if_pos rfl, Nat.mod_eq_of_lt fits.size]
  have slots : (fun slot => if slot < ndirect + 2 then (storeDinode data base ip).word (base + 3 + slot) else 0) =
      ip.addrs := by
    funext slot
    by_cases inside : slot < ndirect + 2
    · rw [if_pos inside, word_storeDinode, if_neg (by omega), if_neg (by omega), if_neg (by omega),
        if_pos (by omega), Nat.add_sub_cancel_left, Nat.mod_eq_of_lt (fits.addrs slot)]
    · rw [if_neg inside, fits.unused slot (by omega)]
  rw [loadDinode, first, snd, third, slots, lowShort_shorts _ fits.type, highShort_shorts _ fits.major,
    lowShort_shorts _ fits.minor, highShort_shorts _ fits.nlink]

theorem loadDinode_congr {data data' : Bytes} {base : Nat}
    (words : ∀ index, base ≤ index → index < base + 16 → data'.word index = data.word index) :
    loadDinode data' base = loadDinode data base := by
  have slots : ∀ slot, (if slot < ndirect + 2 then data'.word (base + 3 + slot) else 0) =
      if slot < ndirect + 2 then data.word (base + 3 + slot) else 0 := by
    intro slot
    by_cases inside : slot < ndirect + 2
    · have last : base + 3 + slot < base + 16 := by
        dsimp only [ndirect] at inside
        omega
      rw [if_pos inside, if_pos inside, words _ (by omega) last]
    · rw [if_neg inside, if_neg inside]
  simp only [loadDinode, words base (Nat.le_refl _) (by omega), words (base + 1) (by omega) (by omega),
    words (base + 2) (by omega) (by omega), slots]

/-- Storing an inode leaves the other inodes of its block alone. -/
theorem readInode_storeDinode (sb : Superblock) (disk : Nat → Bytes) {inum other : Nat} {ip : Inode}
    (fits : ip.Fits) :
    readInode sb (update disk (sb.iblock inum)
      (storeDinode (disk (sb.iblock inum)) (dinodeBase inum) ip)) other =
      if other = inum then ip else readInode sb disk other := by
  unfold readInode
  by_cases same : other = inum
  · rw [if_pos same, same, update_self, loadDinode_storeDinode _ _ fits]
  rw [if_neg same]
  by_cases block : sb.iblock other = sb.iblock inum
  · rw [block, update_self]
    refine loadDinode_congr fun index low high => ?_
    dsimp only [Superblock.iblock, dinodeBase, ipb, bsize] at block low high ⊢
    rw [word_storeDinode, if_neg (by omega), if_neg (by omega), if_neg (by omega),
      if_neg (by dsimp only [ndirect]; omega)]
  · rw [update_of_ne block]

/-! ## `readi` -/

/-- The loop of `readi`; `off` has moved on by `tot`, and `dst` is what has been copied. -/
def readLoop (s : State) (inum off n tot : Nat) (dst : List UInt8) : Except Panic (List UInt8 × State) :=
  if tot < n then do
    let (block, s) ← bmap s inum (off / bsize)
    let m := chunk off n tot
    readLoop s inum (off + m) n (tot + m) (dst ++ (s.disk block).slice (off % bsize) m)
  else .ok (dst, s)
termination_by n - tot
decreasing_by
  dsimp only [chunk, bsize]
  omega

/-- The table of device drivers: the `read` of a major number, if it has one. -/
abbrev DevswRead := Int → Option (Nat → Int × List UInt8)

/-- `readi`: the value it returns and the bytes it copies to `dst`, with the arithmetic
on `uint` written out. -/
def readi (devsw : DevswRead) (s : State) (inum off n : Nat) : Except Panic (Int × List UInt8 × State) :=
  let ip := s.inodes inum
  if ip.type = tDev then
    if ip.major < 0 ∨ ip.major ≥ ndev then .ok (-1, [], s)
    else
      match devsw ip.major with
      | none => .ok (-1, [], s)
      | some read => .ok ((read n).1, (read n).2, s)
  else if off > ip.size ∨ (off + n) % 2 ^ 32 < off then .ok (-1, [], s)
  else
    let n := if (off + n) % 2 ^ 32 > ip.size then ip.size - off else n
    do
      let (dst, s) ← readLoop s inum off n 0 []
      .ok (n, dst, s)

/-! ## Files without holes -/

namespace State

variable {s : State} {inum : Nat}

/-- The block with number `bn` of a file, 0 if there is none. -/
def block (s : State) (inum bn : Nat) : Nat :=
  if inside : bn < maxFile then s.node inum (Role.leaf ⟨bn, inside⟩) else 0

/-- The byte of a file at a position. -/
def byteAt (s : State) (inum idx : Nat) : UInt8 := s.disk (s.block inum (idx / bsize)) (idx % bsize)

theorem lt_of_block {bn : Nat} (present : s.block inum bn ≠ 0) : bn < maxFile := by
  by_contra outside
  exact present (dif_neg outside)

end State

section Present

variable {s : State} {inum : Nat}

theorem loadAddr_present {slot : Nat} (present : (s.inodes inum).addrs slot ≠ 0) :
    loadAddr s inum slot = .ok ((s.inodes inum).addrs slot, s) := if_neg present

theorem entry_present {block index : Nat} (present : s.entry block index ≠ 0) :
    block ≠ 0 ∧ s.entry block index = (s.disk block).word index := by
  unfold State.entry at present ⊢
  split at present
  · exact absurd rfl present
  next table => exact ⟨table, if_neg table⟩

theorem loadEntry_present {block index : Nat} (present : s.entry block index ≠ 0) :
    loadEntry s block index = .ok (s.entry block index, s) := by
  have word := (entry_present present).2
  rw [word] at present ⊢
  exact if_neg present

/-- `bmap` finds a block that is there and changes nothing. -/
theorem bmap_present {bn : Nat} (present : s.block inum bn ≠ 0) : bmap s inum bn = .ok (s.block inum bn, s) := by
  have inside := State.lt_of_block present
  rw [State.block, dif_pos inside] at present ⊢
  unfold Role.leaf at present ⊢
  unfold bmap
  by_cases direct : bn < ndirect
  · simp only [direct, dite_true, if_true] at present ⊢
    exact loadAddr_present present
  by_cases indirect : bn - ndirect < nindirect
  · simp only [direct, indirect, dite_true, dite_false, if_true, if_false] at present ⊢
    rw [loadAddr_present (entry_present present).1]
    exact loadEntry_present present
  · have double : bn - ndirect - nindirect < nindirect * nindirect := by
      dsimp only [maxFile, ndirect, nindirect, bsize] at inside indirect ⊢
      omega
    simp only [direct, indirect, double, dite_false, if_true, if_false] at present ⊢
    have table := (entry_present present).1
    rw [loadAddr_present (entry_present table).1]
    change loadEntry s _ _ >>= _ = _
    rw [loadEntry_present table]
    exact loadEntry_present present

/-- The bytes of a file from `off` on. -/
def State.bytes (s : State) (inum off count : Nat) : List UInt8 := (List.range count).map fun i => s.byteAt inum (off + i)

theorem State.bytes_add (s : State) (inum off count count' : Nat) :
    s.bytes inum off (count + count') = s.bytes inum off count ++ s.bytes inum (off + count) count' := by
  simp only [bytes, List.range_add, List.map_append, List.map_map, comp_def, Nat.add_assoc]

theorem State.slice_block (s : State) (inum : Nat) {off count : Nat} (inside : off % bsize + count ≤ bsize) :
    (s.disk (s.block inum (off / bsize))).slice (off % bsize) count = s.bytes inum off count := by
  refine List.map_congr_left fun i mem => ?_
  have bound := List.mem_range.mp mem
  have block : (off + i) / bsize = off / bsize := by
    dsimp only [bsize] at *
    omega
  have column : (off + i) % bsize = off % bsize + i := by
    dsimp only [bsize] at *
    omega
  simp only [State.byteAt, block, column]

theorem readLoop_present {off n tot : Nat} (dst : List UInt8)
    (present : ∀ idx, off ≤ idx → idx < off + (n - tot) → s.block inum (idx / bsize) ≠ 0) :
    readLoop s inum off n tot dst = .ok (dst ++ s.bytes inum off (n - tot), s) := by
  -- the chunk that an iteration moves is a prefix of what is left
  induction rem : n - tot using Nat.strong_induction_on generalizing off tot dst with
  | _ count ih =>
    unfold readLoop
    by_cases more : tot < n
    · have moved : 0 < chunk off n tot ∧ chunk off n tot ≤ count ∧ off % bsize + chunk off n tot ≤ bsize := by
        dsimp only [chunk, bsize]
        omega
      rw [if_pos more, bmap_present (present off (Nat.le_refl _) (by omega))]
      have later : ∀ idx, off + chunk off n tot ≤ idx →
          idx < off + chunk off n tot + (n - (tot + chunk off n tot)) → s.block inum (idx / bsize) ≠ 0 :=
        fun idx low high => present idx (by omega) (by omega)
      have rest := ih (count - chunk off n tot) (by omega)
        (dst ++ (s.disk (s.block inum (off / bsize))).slice (off % bsize) (chunk off n tot)) later (by omega)
      refine rest.trans ?_
      rw [s.slice_block inum moved.2.2, List.append_assoc, ← s.bytes_add, Nat.add_sub_cancel' moved.2.1]
    · have done : count = 0 := by omega
      rw [if_neg more, done]
      simp only [State.bytes, List.range_zero, List.map_nil, List.append_nil]

/-- `readi` of a range without holes: the bytes up to the end of the file. -/
theorem readi_present (devsw : DevswRead) {off n : Nat} (regular : (s.inodes inum).type ≠ tDev)
    (inside : off ≤ (s.inodes inum).size) (word : off + n < 2 ^ 32)
    (present : ∀ idx, off ≤ idx → idx < off + min n ((s.inodes inum).size - off) →
      s.block inum (idx / bsize) ≠ 0) :
    readi devsw s inum off n =
      .ok (((min n ((s.inodes inum).size - off) : Nat) : Int),
        s.bytes inum off (min n ((s.inodes inum).size - off)), s) := by
  have count : (if (off + n) % 2 ^ 32 > (s.inodes inum).size then (s.inodes inum).size - off else n) =
      min n ((s.inodes inum).size - off) := by
    rw [Nat.mod_eq_of_lt word]
    split <;> omega
  have checked : ¬ (off > (s.inodes inum).size ∨ (off + n) % 2 ^ 32 < off) := by
    rw [Nat.mod_eq_of_lt word]
    omega
  simp only [readi, if_neg regular, if_neg checked, count]
  rw [readLoop_present]
  · rfl
  · exact present

end Present

end Xv6Simplesh.Fs
