import Xv6Simplesh.Fs.Contents
import Xv6Simplesh.Mkfs.Agreement

/-! # Reading never allocates

`readi` finds its blocks with `bmap`, which allocates the ones that are missing, and `writei`
stores the block numbers that `bmap` has put in an inode on the disk only where the file
grows.  That both are harmless rests on two facts: no file has a hole below its size, and each
inode in memory is the one on the disk.  With block ownership the calls that change files keep
them, and `readi` then changes nothing.
-/

namespace Xv6Simplesh.Fs

open Library Mkfs Function

/-! ## Inodes in memory and on the disk -/

/-- Every inode in memory is the one on the disk. -/
def Synced (s : State) : Prop := ∀ i < s.sb.ninodes, readInode s.sb s.disk i = s.inodes i

theorem bmod_bounds (val : Int) : -2 ^ 15 ≤ val.bmod (2 ^ 16) ∧ val.bmod (2 ^ 16) < 2 ^ 15 := by
  simp only [Int.bmod_def]
  omega

theorem lowShort_bounds (word : Nat) : -2 ^ 15 ≤ lowShort word ∧ lowShort word < 2 ^ 15 := by
  unfold lowShort
  exact bmod_bounds _

theorem highShort_bounds (word : Nat) : -2 ^ 15 ≤ highShort word ∧ highShort word < 2 ^ 15 := by
  unfold highShort
  exact bmod_bounds _

theorem loadDinode_fits (data : Bytes) (base : Nat) : (loadDinode data base).Fits := by
  unfold loadDinode
  constructor
  case size => exact data.word_lt _
  case addrs =>
    intro slot
    dsimp only
    split
    · exact data.word_lt _
    · decide
  case unused => exact fun slot outside => if_neg (Nat.not_lt.mpr outside)
  all_goals dsimp only
  · exact lowShort_bounds _
  · exact highShort_bounds _
  · exact lowShort_bounds _
  · exact highShort_bounds _

section Synced

variable {s s' : State} {inum : Nat}

theorem Synced.fits (synced : Synced s) (bound : inum < s.sb.ninodes) : (s.inodes inum).Fits := by
  rw [← synced inum bound]
  exact loadDinode_fits _ _

/-- `iupdate` of an inode makes up for what was assigned to it. -/
theorem synced_iupdate (others : ∀ i < s.sb.ninodes, i ≠ inum → readInode s.sb s.disk i = s.inodes i)
    (fits : (s.inodes inum).Fits) : Synced (iupdate s inum) := by
  intro i inside
  have stored : readInode s.sb (iupdate s inum).disk i = if i = inum then s.inodes inum else readInode s.sb s.disk i :=
    readInode_storeDinode s.sb s.disk fits
  change readInode s.sb (iupdate s inum).disk i = s.inodes i
  rw [stored]
  split
  next same => rw [same]
  next other => exact others i inside other

theorem readInode_before (owned : Owned s) (before : ∀ block < s.sb.bmapstart, s'.disk block = s.disk block)
    (inside : inum < s.sb.ninodes) : readInode s.sb s'.disk inum = readInode s.sb s.disk inum := by
  unfold readInode
  rw [before _ (owned.layout.iblock_lt inside).2]

theorem Owned.addrs_lt (owned : Owned s) (bound : inum < s.sb.ninodes) {slot : Nat} (inside : slot < ndirect + 2) :
    (s.inodes inum).addrs slot < 2 ^ 32 := by
  have role : ∃ r : Role, r.loc = .inode slot := by
    by_cases direct : slot < ndirect
    · exact ⟨.direct ⟨slot, direct⟩, rfl⟩
    by_cases indirect : slot = ndirect
    · exact ⟨.indirect, indirect ▸ rfl⟩
    · have double : slot = ndirect + 1 := by omega
      exact ⟨.double, double ▸ rfl⟩
  obtain ⟨r, loc⟩ := role
  rw [← s.node_inode inum loc]
  by_cases empty : s.node inum r = 0
  · rw [empty]
    decide
  · have area := owned.node_bounds bound empty
    have limit := owned.layout.sizeInt
    omega

end Synced

/-! ## Other files -/

/-- The inode, the blocks and the bytes of a file are as they were. -/
structure Keeps (i : Nat) (s s' : State) : Prop where
  inode : s'.inodes i = s.inodes i
  block : ∀ bn, s.block i bn ≠ 0 → s'.block i bn = s.block i bn
  data : ∀ bn, s.block i bn ≠ 0 → s'.disk (s.block i bn) = s.disk (s.block i bn)

section Others

variable {s s' s'' : State} {inum i : Nat}

namespace Keeps

theorem trans (first : Keeps i s s') (snd : Keeps i s' s'') : Keeps i s s'' := by
  refine ⟨snd.inode.trans first.inode, fun bn present => ?_, fun bn present => ?_⟩
  · have same := first.block bn present
    rw [snd.block bn (same ▸ present), same]
  · have same := snd.data bn (first.block bn present ▸ present)
    rw [first.block bn present] at same
    rw [same, first.data bn present]

theorem solid (keeps : Keeps i s s') (solid : s.Solid i) : s'.Solid i := by
  intro bn below
  rw [keeps.inode] at below
  rw [keeps.block bn (solid bn below)]
  exact solid bn below

theorem contents (keeps : Keeps i s s') (solid : s.Solid i) : s'.contents i = s.contents i := by
  rw [State.contents_eq, State.contents_eq, keeps.inode]
  apply List.map_congr_left
  intro idx mem
  have present := State.solid_iff.mp solid idx (List.mem_range.mp mem)
  simp only [State.byteAt, keeps.block _ present, keeps.data _ present]

end Keeps

theorem keeps_setInode (s : State) {inum i : Nat} (other : i ≠ inum) (node : Inode) :
    Keeps i s (s.setInode inum node) := by
  have inode : (s.setInode inum node).inodes i = s.inodes i := update_of_ne other _ _
  have addrs : ∀ slot, ((s.setInode inum node).inodes i).addrs slot = (s.inodes i).addrs slot := by simp [inode]
  refine ⟨inode, fun bn _ => ?_, fun bn _ => rfl⟩
  simp only [State.block, State.node_congr (fun slot _ => addrs slot) fun _ _ _ _ _ => rfl]

theorem keeps_iupdate (owned : Owned s) (bound : inum < s.sb.ninodes) (inside : i < s.sb.ninodes) :
    Keeps i s (iupdate s inum) := by
  refine ⟨rfl, fun bn _ => block_iupdate owned bound inside bn, fun bn present => ?_⟩
  have limit := State.lt_of_block present
  have inodeBlock := owned.layout.iblock_lt bound
  have area := s.sb.bmapstart_lt_nmeta
  simp only [State.block, dif_pos limit] at present ⊢
  have data := (owned.node_bounds inside present).1
  simp only [iupdate, State.logWrite]
  rw [update_of_ne (by omega)]

/-- Truncating a file clears bits of the bitmap and changes no block of data. -/
theorem keeps_truncating {freed : Role → Prop} {cleared : Nat → Prop} (final : Truncating inum s freed cleared s')
    (owned : Owned s) (inside : i < s.sb.ninodes) (other : i ≠ inum) : Keeps i s s' := by
  have data : ∀ r, s.node i r ≠ 0 → s'.disk (s.node i r) = s.disk (s.node i r) := fun r present =>
    final.disk _ (.inr (owned.node_bounds inside present).1)
  refine ⟨final.others i other, fun bn present => ?_, fun bn present => ?_⟩
  · have limit := State.lt_of_block present
    simp only [State.block, dif_pos limit]
    refine State.node_congr (fun slot _ => by rw [final.others i other]) (fun r p index loc table => ?_) _
    rw [data p table]
  · have limit := State.lt_of_block present
    simp only [State.block, dif_pos limit] at present ⊢
    exact data _ present

/-- Changing other fields of an inode than its addresses. -/
theorem Owned.setInode (owned : Owned s) (node : Inode) (addrs : node.addrs = (s.inodes inum).addrs) :
    Owned (s.setInode inum node) := by
  have same : ∀ i slot, ((s.setInode inum node).inodes i).addrs slot = (s.inodes i).addrs slot := by
    intro i slot
    simp only [State.setInode, update_apply]
    split
    next here => rw [addrs, here]
    next => rfl
  exact owned.congr rfl rfl (fun _ _ => rfl) fun i _ r => State.node_congr (fun slot _ => same i slot) (fun _ _ _ _ _ => rfl) r

end Others

theorem State.Solid.size_le {s : State} {inum : Nat} (solid : s.Solid inum) :
    (s.inodes inum).size ≤ maxFile * bsize := by
  by_contra larger
  have beyond := State.solid_iff.mp solid (maxFile * bsize) (by omega)
  rw [Nat.mul_div_cancel _ (by decide)] at beyond
  exact Nat.lt_irrefl _ (State.lt_of_block beyond)

/-! ## The invariant -/

/-- A state in which reading does not allocate. -/
structure Steady (s : State) : Prop where
  owned : Owned s
  solid : ∀ i < s.sb.ninodes, s.Solid i
  synced : Synced s

namespace Steady

variable {s s' : State} {inum : Nat}

theorem readi (steady : Steady s) (bound : inum < s.sb.ninodes) (file : (s.inodes inum).type ≠ tDev)
    (devsw : DevswRead) {off n : Nat} (offUint : off < 2 ^ 32) (nUint : n < 2 ^ 32) :
    ∃ r dst, Fs.readi devsw s inum off n = .ok (r, dst, s) := by
  by_cases refused : off > (s.inodes inum).size ∨ (off + n) % 2 ^ 32 < off
  · exact ⟨-1, [], by simp only [Fs.readi, if_neg file, if_pos refused]⟩
  · exact ⟨_, _, readi_contents devsw (steady.solid inum bound) file (by omega) (by omega)⟩

theorem writei (steady : Steady s) (bound : inum < s.sb.ninodes) (file : (s.inodes inum).type ≠ tDev)
    {devsw : Devsw} {src : Nat → UInt8} {off n : Nat} (offUint : off < 2 ^ 32) (nUint : n < 2 ^ 32) {r : Int}
    (wrote : Fs.writei devsw s inum src off n = .ok (r, s')) : s'.sb = s.sb ∧ Steady s' := by
  by_cases refuses : s.Refuses inum off n
  · rw [writei_refused devsw file offUint nUint refuses] at wrote
    cases wrote
    exact ⟨rfl, steady⟩
  obtain ⟨-, written⟩ := writei_overwritten devsw steady.owned bound steady.solid file refuses wrote
  refine ⟨written.sb, written.owned, written.sb ▸ written.solid, ?_⟩
  obtain ⟨-, mid, ownedMid, stores, rfl⟩ := writei_stores devsw steady.owned bound file refuses wrote
  have onDisk : ∀ i < s.sb.ninodes, readInode mid.sb mid.disk i = s.inodes i := by
    intro i inside
    rw [stores.sb, readInode_before steady.owned stores.before inside, steady.synced i inside]
  split
  next grows =>
    -- the new block numbers go to the disk with the size
    refine synced_iupdate (fun i inside other => ?_) ?_
    · have unchanged : ((mid.setSize inum (off + n)).inodes i) = mid.inodes i := update_of_ne other _ _
      rw [unchanged, stores.others i other]
      exact onDisk i (stores.sb ▸ inside)
    · have fits := steady.synced.fits bound
      have kept := stores.kept inum
      have size : off + n < 2 ^ 32 := by
        unfold State.Refuses at refuses
        omega
      simp only [State.setSize, State.setInode, update_self]
      rw [← kept] at fits
      refine fits.grow size (fun slot => ?_) fun slot outside => ?_
      · by_cases inside : slot < ndirect + 2
        · exact ownedMid.addrs_lt (stores.sb ▸ bound) inside
        · rw [stores.spare slot (by omega), (steady.synced.fits bound).unused slot (by omega)]
          decide
      · rw [stores.spare slot outside, (steady.synced.fits bound).unused slot outside]
  next stays =>
    -- below the size all blocks are there, so the inode has not changed
    have inodes : mid.inodes = s.inodes := by
      refine stores.inPlace fun idx low high => ?_
      refine State.solid_iff.mp (steady.solid inum bound) idx ?_
      unfold State.Refuses at refuses
      omega
    intro i inside
    rw [inodes]
    exact onDisk i (stores.sb ▸ inside)

/-- `iupdate` of an inode without bytes, where all the others are in order. -/
theorem iupdate_empty (owned : Owned s) (bound : inum < s.sb.ninodes)
    (solid : ∀ i < s.sb.ninodes, i ≠ inum → s.Solid i)
    (synced : ∀ i < s.sb.ninodes, i ≠ inum → readInode s.sb s.disk i = s.inodes i) (empty : (s.inodes inum).size = 0)
    (fits : (s.inodes inum).Fits) : Steady (iupdate s inum) := by
  refine ⟨owned.iupdate bound, fun i inside => ?_, synced_iupdate synced fits⟩
  by_cases same : i = inum
  · refine State.solid_iff.mpr fun idx below => ?_
    change idx < (s.inodes i).size at below
    rw [same, empty] at below
    omega
  · intro bn below
    rw [block_iupdate owned bound inside]
    exact solid i inside same bn below

theorem itrunc (steady : Steady s) (bound : inum < s.sb.ninodes) (truncated : Fs.itrunc s inum = .ok s') :
    s'.sb = s.sb ∧ Steady s' ∧ (s'.inodes inum).size = 0 ∧ (s'.inodes inum).type = (s.inodes inum).type := by
  obtain ⟨mid, ran, final⟩ := itrunc_truncates steady.owned bound
  rw [ran] at truncated
  cases truncated
  have owned := (steady.owned.truncated final).setSize inum 0
  have fits := steady.synced.fits bound
  have others : ∀ i, i ≠ inum → (mid.setSize inum 0).inodes i = s.inodes i := by
    intro i other
    rw [← final.others i other]
    exact update_of_ne other _ _
  have size : ((mid.setSize inum 0).inodes inum).size = 0 := by
    simp only [State.setSize, State.setInode, update_self]
  refine ⟨final.sb, iupdate_empty owned (final.sb ▸ bound) (fun i inside other bn below => ?_)
    (fun i inside other => ?_) size ?_, size, ?_⟩
  · -- the blocks of the other files are not touched
    have keeps : Keeps i s (mid.setSize inum 0) :=
      (keeps_truncating final steady.owned (final.sb ▸ inside) other).trans (keeps_setInode mid other _)
    exact keeps.solid (steady.solid i (final.sb ▸ inside)) bn below
  · rw [others i other, ← steady.synced i (final.sb ▸ inside)]
    have before : ∀ block < s.sb.bmapstart, (mid.setSize inum 0).disk block = s.disk block :=
      fun block early => final.disk block (.inl early)
    have sb : (mid.setSize inum 0).sb = s.sb := final.sb
    rw [sb, readInode_before steady.owned before (sb ▸ inside)]
  · have kept := final.kept
    simp only [State.setSize, State.setInode, update_self]
    have fits' := fits
    rw [← kept] at fits'
    refine fits'.grow (Nat.two_pow_pos 32) (fun slot => ?_) fun slot outside => ?_
    · by_cases inside : slot < ndirect + 2
      · rw [final.clear slot inside]
        decide
      · rw [final.intact slot inside]
        exact fits.addrs slot
    · rw [final.intact slot (by omega)]
      exact fits.unused slot outside
  · rw [← final.kept]
    simp only [iupdate, State.logWrite, State.setSize, State.setInode, update_self]

end Steady

end Xv6Simplesh.Fs
