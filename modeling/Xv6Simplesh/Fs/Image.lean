import Xv6Simplesh.Fs.Nodes

/-! # File system images

An image with the geometry of `mkfs`, given by its inodes, the entries of its
indirect blocks and its bitmap.  Images are the states that concrete instances
start from.
-/

namespace Xv6Simplesh.Fs

open Library

/-- The super block that `mkfs` writes. -/
def mkfsSuperblock : Superblock where
  size := fsSize
  nblocks := fsSize - 63
  ninodes := 200
  nlog := logSize
  logstart := 2
  inodestart := 32
  bmapstart := 58

theorem mkfsSuperblock_layout : mkfsSuperblock.Layout := by
  constructor <;> decide

theorem mkfsSuperblock_nmeta : mkfsSuperblock.nmeta = 63 := by decide

/-- The words of the super block, in the order of its fields. -/
def superblockWords (sb : Superblock) : Nat → Nat
  | 0 => sb.size
  | 1 => sb.nblocks
  | 2 => sb.ninodes
  | 3 => sb.nlog
  | 4 => sb.logstart
  | 5 => sb.inodestart
  | 6 => sb.bmapstart
  | _ => 0

theorem readsb_superblockWords : readsb (Bytes.ofWords (superblockWords mkfsSuperblock)) = mkfsSuperblock := by
  have words : ∀ i, superblockWords mkfsSuperblock i < 2 ^ 32 := by
    intro i
    unfold superblockWords
    split <;> decide
  simp only [readsb]
  rw [Bytes.word_ofWords (words 0), Bytes.word_ofWords (words 1), Bytes.word_ofWords (words 2),
    Bytes.word_ofWords (words 3), Bytes.word_ofWords (words 4), Bytes.word_ofWords (words 5),
    Bytes.word_ofWords (words 6)]
  rfl

def image (inodes : Nat → Inode) (tables : Nat → Nat → Nat) (used : Nat → Bool) : State where
  sb := mkfsSuperblock
  inodes := inodes
  logged := []
  disk b :=
    if b = 1 then Bytes.ofWords (superblockWords mkfsSuperblock)
    else if b < 63 then Bytes.ofBits fun i => used ((b - 58) * bpb + i)
    else Bytes.ofWords (tables b)

section Image

variable {inodes : Nat → Inode} {tables : Nat → Nat → Nat} {used : Nat → Bool}

theorem readsb_image : readsb ((image inodes tables used).disk 1) = mkfsSuperblock := by
  simp only [image, if_true]
  exact readsb_superblockWords

theorem used_image {b : Nat} (bound : b < fsSize) : (image inodes tables used).used b = used b := by
  have block : mkfsSuperblock.bblock b = b / bpb + 58 := rfl
  have row : b / bpb + 58 < 63 := by
    dsimp only [fsSize, bpb, bsize] at bound ⊢
    omega
  have idx : (b / bpb + 58 - 58) * bpb + b % bpb = b := by
    dsimp only [bpb, bsize]
    omega
  have later : b / bpb + 58 ≠ 1 := Nat.ne_of_gt (Nat.lt_add_left _ (by decide))
  simp only [State.used, image, block]
  rw [if_neg later, if_pos row, Bytes.bit_ofBits, idx]

theorem word_image {b index : Nat} (data : 63 ≤ b) (bound : tables b index < 2 ^ 32) :
    ((image inodes tables used).disk b).word index = tables b index := by
  simp only [image]
  rw [if_neg (by omega), if_neg (by omega), Bytes.word_ofWords bound]

end Image

/-- The image without files. -/
def emptyImage : State :=
  image (fun _ => ⟨0, 0, 0, 0, 0, fun _ => 0⟩) (fun _ _ => 0) (fun b => b < 63)

theorem emptyImage_owned : Owned emptyImage := by
  have noNodes : ∀ inum r, emptyImage.node inum r = 0 := by
    intro inum r
    cases r <;> rfl
  have none : ∀ slot, emptyImage.holder slot = none := by
    intro slot
    simp [State.holder, noNodes]
  refine ⟨mkfsSuperblock_layout, readsb_image, ?_, ?_, ?_⟩
  · rintro b ⟨slot, holds⟩
    rw [none] at holds
    cases holds
  · intro slot slot' b holds
    rw [none] at holds
    cases holds
  · intro b inside
    have nobody : ¬ Held emptyImage.holder b := by
      rintro ⟨slot, holds⟩
      rw [none] at holds
      cases holds
    have bit : emptyImage.used b = decide (b < 63) := used_image inside
    rw [bit, decide_eq_true_eq]
    exact ⟨.inl, fun either => either.resolve_right nobody⟩

/-! ## A crowded image

File 1 has 63 second-level blocks full of data but for one entry and fills the blocks
from 63 on; file 2 follows it and ends in the middle of the last but one of its singly
indirect blocks.  Two blocks between them are free, in two bitmap blocks, and all
blocks after file 2. -/

def crowdedInodes (inum : Nat) : Inode where
  type := if inum = 1 ∨ inum = 2 then 2 else 0
  major := 0
  minor := 0
  nlink := 1
  size := if inum = 1 then 4200000 else if inum = 2 then 70244 else 0
  addrs slot :=
    if inum = 1 ∧ slot = 12 then 63
    else if inum = 2 ∧ slot < 12 then 8192 + slot
    else 0

def crowdedTables (b index : Nat) : Nat :=
  if b = 63 then if index < 63 then 64 + 129 * index else 0
  else if b = 8203 then if index < 127 then 8204 + index else 0
  else if b = 64 ∧ index = 0 then 0
  else b + 1 + index

def crowdedImage : State :=
  image crowdedInodes crowdedTables fun b => b < 8331 ∧ b ≠ 65 ∧ b ≠ 8191

/-- The blocks of the two files. -/
def crowdedNode (inum : Nat) : Role → Nat
  | .direct i => if inum = 2 then 8192 + i else 0
  | .indirect => if inum = 2 then 8203 else 0
  | .indirectEntry i => if inum = 2 ∧ i.val < 127 then 8204 + i else 0
  | .double => if inum = 1 then 63 else 0
  | .table k => if inum = 1 ∧ k.val < 63 then 64 + 129 * k else 0
  | .tableEntry k l => if inum = 1 ∧ k.val < 63 ∧ (k.val ≠ 0 ∨ l.val ≠ 0) then 65 + 129 * k + l else 0

theorem node_crowdedImage (inum : Nat) (r : Role) : crowdedImage.node inum r = crowdedNode inum r := by
  have entry : ∀ b index, b < 8331 → b = 0 ∨ 63 ≤ b → index < nindirect →
      crowdedImage.entry b index = if b = 0 then 0 else crowdedTables b index := by
    intro b index bound data inside
    unfold State.entry
    split
    · rfl
    next present =>
      refine word_image (data.resolve_left present) ?_
      dsimp only [nindirect, bsize] at inside
      unfold crowdedTables
      split_ifs <;> omega
  refine State.node_eq (crowdedNode inum) ?_ ?_ r
  · intro r slot loc
    cases r with
    | direct i =>
      cases loc
      have inside : i.val < 11 := i.isLt
      simp only [crowdedNode, crowdedImage, image, crowdedInodes]
      split_ifs <;> omega
    | indirect =>
      cases loc
      simp [crowdedNode, crowdedImage, image, crowdedInodes, ndirect]
    | double =>
      cases loc
      simp [crowdedNode, crowdedImage, image, crowdedInodes, ndirect]
    | indirectEntry i => cases loc
    | table k => cases loc
    | tableEntry k l => cases loc
  · intro r p index loc
    have inside := Role.index_lt loc
    have known : crowdedNode inum p < 8331 ∧ (crowdedNode inum p = 0 ∨ 63 ≤ crowdedNode inum p) := by
      cases r <;> cases loc <;> simp only [crowdedNode] <;> split_ifs <;> omega
    rw [entry _ _ known.1 known.2 inside]
    cases r <;> cases loc <;> simp only [crowdedNode, crowdedTables] <;> split_ifs <;>
      first | contradiction | rfl | omega

theorem crowdedNode_injective {inum inum' : Nat} {r r' : Role} (same : crowdedNode inum r = crowdedNode inum' r')
    (present : crowdedNode inum r ≠ 0) : (inum, r) = (inum', r') := by
  cases r <;> cases r' <;> simp only [crowdedNode, ndirect, nindirect, bsize] at * <;> split_ifs at * <;>
    first
    | contradiction
    | omega
    | (simp only [Prod.mk.injEq, Role.direct.injEq, Role.indirectEntry.injEq, Role.table.injEq,
        Role.tableEntry.injEq, Fin.ext_iff, and_true]; omega)

/-- Every block up to the end of file 2 belongs to one of the files, but for the two holes. -/
theorem crowdedNode_surjective {b : Nat} (data : 63 ≤ b) (used : b < 8331 ∧ b ≠ 65 ∧ b ≠ 8191) :
    ∃ inum r, inum < mkfsSuperblock.ninodes ∧ crowdedNode inum r = b := by
  obtain ⟨bound, hole, hole'⟩ := used
  by_cases first : b < 8191
  · by_cases double : b = 63
    · exact ⟨1, .double, by decide, double.symm⟩
    · have row : (b - 64) / 129 < nindirect := by dsimp only [nindirect, bsize]; omega
      by_cases table : (b - 64) % 129 = 0
      · refine ⟨1, .table ⟨_, row⟩, by decide, (if_pos ⟨rfl, ?_⟩).trans ?_⟩ <;> dsimp only <;> omega
      · have column : (b - 64) % 129 - 1 < nindirect := by dsimp only [nindirect, bsize]; omega
        refine ⟨1, .tableEntry ⟨_, row⟩ ⟨_, column⟩, by decide, (if_pos ⟨rfl, ?_⟩).trans ?_⟩ <;> dsimp only <;> omega
  · by_cases direct : b < 8203
    · refine ⟨2, .direct ⟨b - 8192, by dsimp only [ndirect]; omega⟩, by decide, ?_⟩
      simp only [crowdedNode, if_true]
      omega
    · by_cases indirect : b = 8203
      · exact ⟨2, .indirect, by decide, indirect.symm⟩
      · refine ⟨2, .indirectEntry ⟨b - 8204, by dsimp only [nindirect, bsize]; omega⟩, by decide, ?_⟩
        rw [crowdedNode, if_pos ⟨rfl, by dsimp only; omega⟩]
        dsimp only
        omega

theorem used_crowdedImage {b : Nat} (bound : b < fsSize) :
    crowdedImage.used b = true ↔ b < 8331 ∧ b ≠ 65 ∧ b ≠ 8191 := by
  rw [crowdedImage, used_image bound, decide_eq_true_eq]

theorem freeBlocks_crowdedImage : crowdedImage.freeBlocks = 65 :: 8191 :: List.range' 8331 11669 := by
  have blocks : List.range crowdedImage.sb.size = List.range' 0 65 ++ (List.range' 65 1 ++ (List.range' 66 8125 ++
      (List.range' 8191 1 ++ (List.range' 8192 139 ++ List.range' 8331 11669)))) := by
    rw [List.range'_append_1, List.range'_append_1, List.range'_append_1, List.range'_append_1,
      List.range'_append_1, List.range_eq_range']
    exact congrArg (fun count => List.range' 0 count) (by decide)
  have full : ∀ start count, (∀ b, start ≤ b → b < start + count → b < 8331 ∧ b ≠ 65 ∧ b ≠ 8191) →
      (List.range' start count).filter (fun b => !crowdedImage.used b) = [] := by
    intro start count used
    rw [List.filter_eq_nil_iff]
    intro b mem
    obtain ⟨low, high⟩ := List.mem_range'_1.mp mem
    have used := used b low high
    rw [(used_crowdedImage (Nat.lt_trans used.1 (by decide))).mpr used]
    exact Bool.false_ne_true
  have free : ∀ start count, (∀ b, start ≤ b → b < start + count →
      b < 20000 ∧ ¬ (b < 8331 ∧ b ≠ 65 ∧ b ≠ 8191)) →
      (List.range' start count).filter (fun b => !crowdedImage.used b) = List.range' start count := by
    intro start count unused
    rw [List.filter_eq_self]
    intro b mem
    obtain ⟨low, high⟩ := List.mem_range'_1.mp mem
    obtain ⟨inside, unused⟩ := unused b low high
    rw [Bool.not_eq_true', ← Bool.not_eq_true]
    exact mt (used_crowdedImage inside).mp unused
  unfold State.freeBlocks
  rw [blocks]
  simp only [List.filter_append]
  rw [full 0 65, free 65 1, full 66 8125, free 8191 1, full 8192 139, free 8331 11669]
  · rfl
  all_goals
    intro b low high
    omega

theorem crowdedImage_owned : Owned crowdedImage := by
  have holder : ∀ {inum : Nat} {r : Role} {b : Nat}, crowdedImage.holder (inum, r) = some b →
      crowdedNode inum r = b ∧ b ≠ 0 := by
    intro inum r b holds
    obtain ⟨-, same, present⟩ := State.holder_eq_some.mp holds
    exact ⟨node_crowdedImage inum r ▸ same, present⟩
  have range : ∀ inum r, crowdedNode inum r ≠ 0 →
      63 ≤ crowdedNode inum r ∧ crowdedNode inum r < 8331 ∧ crowdedNode inum r ≠ 65 ∧ crowdedNode inum r ≠ 8191 := by
    intro inum r present
    cases r <;> simp only [crowdedNode] at present ⊢ <;> split_ifs at present ⊢ <;>
      simp_all [ndirect, nindirect, bsize] <;> omega
  refine ⟨mkfsSuperblock_layout, readsb_image, ?_, ?_, ?_⟩
  · rintro b ⟨⟨inum, r⟩, holds⟩
    obtain ⟨rfl, present⟩ := holder holds
    obtain ⟨low, high, -⟩ := range inum r present
    exact ⟨mkfsSuperblock_nmeta ▸ low, Nat.lt_trans high (by decide)⟩
  · rintro ⟨inum, r⟩ ⟨inum', r'⟩ b holds holds'
    obtain ⟨same, present⟩ := holder holds
    obtain ⟨same', -⟩ := holder holds'
    exact crowdedNode_injective (same.trans same'.symm) (same ▸ present)
  · intro b inside
    rw [used_crowdedImage inside]
    constructor
    · intro used
      rcases Nat.lt_or_ge b 63 with low | high
      · exact .inl (mkfsSuperblock_nmeta.symm ▸ low)
      · obtain ⟨inum, r, bound, same⟩ := crowdedNode_surjective high used
        refine .inr ⟨(inum, r), State.holder_eq_some.mpr ⟨bound, ?_, by omega⟩⟩
        rw [node_crowdedImage, same]
    · rintro (low | ⟨⟨inum, r⟩, holds⟩)
      · have low : b < 63 := mkfsSuperblock_nmeta ▸ low
        omega
      · obtain ⟨rfl, present⟩ := holder holds
        exact (range inum r present).2

end Xv6Simplesh.Fs
