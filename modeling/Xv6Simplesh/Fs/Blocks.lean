import Xv6Simplesh.Library.Bytes
import Xv6Simplesh.Param

/-! # Disk blocks: `balloc` and `bfree`

The state of the file system is the disk as the buffer cache shows it, the inodes
that the kernel works on and its copy of the super block.  `logged` records the
block numbers that were passed to `log_write`, last one first.

The free blocks of a state, in the order in which `balloc` finds them, say all
that callers need about the bitmap: `balloc` takes the first one.
-/

namespace Xv6Simplesh.Fs

open Library Function

/-! ## Layout -/

abbrev bsize : Nat := 512
abbrev ndirect : Nat := 11
abbrev nindirect : Nat := bsize / 4
abbrev maxFile : Nat := ndirect + nindirect + nindirect * nindirect

/-- Inodes per block: `BSIZE / sizeof(struct dinode)`. -/
abbrev ipb : Nat := 8

/-- Bitmap bits per block. -/
abbrev bpb : Nat := bsize * 8

structure Superblock where
  size : Nat
  nblocks : Nat
  ninodes : Nat
  nlog : Nat
  logstart : Nat
  inodestart : Nat
  bmapstart : Nat
deriving DecidableEq, Repr

/-- The fields of `struct inode` that are copied to and from the disk. -/
structure Inode where
  type : Int
  major : Int
  minor : Int
  nlink : Int
  size : Nat
  addrs : Nat → Nat

structure State where
  sb : Superblock
  disk : Nat → Bytes
  inodes : Nat → Inode
  logged : List Nat

inductive Panic where
  | outOfBlocks
  | freeingFreeBlock
  | outOfRange
deriving DecidableEq, Repr

variable {b count : Nat} {sb : Superblock} {s : State} {rest : List Nat}

namespace Superblock

/-- `IBLOCK(i, sb)`. -/
def iblock (sb : Superblock) (inum : Nat) : Nat := inum / ipb + sb.inodestart

/-- `BBLOCK(b, sb)`. -/
def bblock (sb : Superblock) (b : Nat) : Nat := b / bpb + sb.bmapstart

/-- The number of blocks before the data area, as `mkfs` computes it. -/
def nmeta (sb : Superblock) : Nat := sb.bmapstart + (sb.size / bpb + 1)

/-- What `mkfs` puts in a super block: the areas follow each other, and every
block number is a nonnegative `int` with room for the loop of `balloc`. -/
structure Layout (sb : Superblock) : Prop where
  afterSuperblock : 2 ≤ sb.inodestart
  inodeBlocks : sb.inodestart + (sb.ninodes / ipb + 1) ≤ sb.bmapstart
  sizeInt : sb.size + bpb < 2 ^ 31

theorem Layout.iblock_lt (layout : sb.Layout) {inum : Nat}
    (bound : inum < sb.ninodes) : 1 < sb.iblock inum ∧ sb.iblock inum < sb.bmapstart := by
  have start := layout.afterSuperblock
  have blocks := layout.inodeBlocks
  dsimp only [iblock, ipb] at blocks ⊢
  omega

theorem Layout.bblock_bounds (layout : sb.Layout) (bound : b < sb.size) :
    1 < sb.bblock b ∧ sb.bmapstart ≤ sb.bblock b ∧ sb.bblock b < sb.nmeta := by
  have start := layout.afterSuperblock
  have blocks := layout.inodeBlocks
  dsimp only [bblock, nmeta, ipb, bpb, bsize] at blocks ⊢
  omega

theorem bmapstart_lt_nmeta (sb : Superblock) : sb.bmapstart < sb.nmeta :=
  Nat.lt_add_of_pos_right (Nat.succ_pos _)

theorem Layout.one_lt_bmapstart (layout : sb.Layout) : 1 < sb.bmapstart := by
  have start := layout.afterSuperblock
  have blocks := layout.inodeBlocks
  dsimp only [ipb] at blocks
  omega

theorem Layout.one_lt_nmeta (layout : sb.Layout) : 1 < sb.nmeta := by
  have start := layout.afterSuperblock
  have blocks := layout.inodeBlocks
  dsimp only [nmeta, ipb, bpb, bsize] at blocks ⊢
  omega

end Superblock

/-! ## Buffers -/

/-- `readsb`: the super block is the first seven words of block 1. -/
def readsb (data : Bytes) : Superblock :=
  ⟨data.word 0, data.word 1, data.word 2, data.word 3, data.word 4, data.word 5, data.word 6⟩

namespace State

/-- Change a buffer and pass it to `log_write`. -/
def logWrite (s : State) (block : Nat) (data : Bytes) : State :=
  { s with disk := update s.disk block data, logged := block :: s.logged }

/-- The bit of block `b` in the bitmap. -/
def used (s : State) (b : Nat) : Bool := (s.disk (s.sb.bblock b)).bit (b % bpb)

end State

/-- `bzero`. -/
def bzero (s : State) (block : Nat) : State := s.logWrite block (Bytes.fill 0)

/-! ## Allocation -/

/-- The inner loop of `balloc` over the bits of one bitmap block. -/
def scanBits (data : Bytes) (b size : Nat) : Nat → Nat → Option Nat
  | 0, _ => none
  | count + 1, bi =>
    if b + bi < size then
      if data.bit bi then scanBits data b size count (bi + 1) else some bi
    else none

/-- The outer loop of `balloc` over the bitmap blocks. -/
def scanBlocks (s : State) : Nat → Nat → Option (Nat × Nat)
  | 0, _ => none
  | count + 1, b =>
    if b < s.sb.size then
      match scanBits (s.disk (s.sb.bblock b)) b s.sb.size bpb 0 with
      | some bi => some (b, bi)
      | none => scanBlocks s count (b + bpb)
    else none

def balloc (s : State) : Except Panic (Nat × State) :=
  match scanBlocks s (s.sb.size / bpb + 1) 0 with
  | some (b, bi) =>
    let block := s.sb.bblock b
    let s := s.logWrite block ((s.disk block).setBit bi)
    .ok (b + bi, bzero s (b + bi))
  | none => .error .outOfBlocks

def bfree (s : State) (b : Nat) : Except Panic State :=
  let s := { s with sb := readsb (s.disk 1) }
  let block := s.sb.bblock b
  let bi := b % bpb
  if (s.disk block).bit bi then .ok (s.logWrite block ((s.disk block).clearBit bi))
  else .error .freeingFreeBlock

/-! ## What `balloc` finds -/

theorem scanBits_eq_some {data : Bytes} {size : Nat} : ∀ {bi found : Nat},
    scanBits data b size count bi = some found →
      bi ≤ found ∧ found < bi + count ∧ b + found < size ∧ data.bit found = false ∧
      ∀ i, bi ≤ i → i < found → data.bit i = true := by
  induction count with
  | zero =>
    intro bi found scanned
    cases scanned
  | succ count ih =>
    intro bi found scanned
    rw [scanBits] at scanned
    split at scanned
    next inside =>
      split at scanned
      next set =>
        obtain ⟨after, before, bound, clear, skipped⟩ := ih scanned
        refine ⟨by omega, by omega, bound, clear, fun i low high => ?_⟩
        rcases Nat.eq_or_lt_of_le low with rfl | low
        · exact set
        · exact skipped i low high
      next clear =>
        cases scanned
        exact ⟨Nat.le_refl _, by omega, inside, by simpa using clear, fun i low high => by omega⟩
    next => cases scanned

theorem scanBits_eq_none {data : Bytes} {size : Nat} : ∀ {bi : Nat}, scanBits data b size count bi = none →
      ∀ i, bi ≤ i → i < bi + count → b + i < size → data.bit i = true := by
  induction count with
  | zero =>
    intro bi scanned i low high
    omega
  | succ count ih =>
    intro bi scanned i low high inside
    rw [scanBits] at scanned
    split at scanned
    next =>
      split at scanned
      next set =>
        rcases Nat.eq_or_lt_of_le low with rfl | low
        · exact set
        · exact ih scanned i low (by omega) inside
      next => cases scanned
    next outside => omega

/-- The bit of a block in the row of the bitmap that starts at `b`. -/
theorem State.used_add (s : State) {bi : Nat} (row : b % bpb = 0) (inside : bi < bpb) :
    s.used (b + bi) = (s.disk (s.sb.bblock b)).bit bi := by
  have same : s.sb.bblock (b + bi) = s.sb.bblock b := by
    dsimp only [Superblock.bblock, bpb, bsize] at row inside ⊢
    omega
  have column : (b + bi) % bpb = bi := by
    dsimp only [bpb, bsize] at row inside ⊢
    omega
  rw [State.used, same, column]

theorem scanBlocks_eq_some : ∀ {b row bi : Nat}, b % bpb = 0 → scanBlocks s count b = some (row, bi) →
      row % bpb = 0 ∧ bi < bpb ∧ row + bi < s.sb.size ∧ s.used (row + bi) = false ∧
      ∀ x, b ≤ x → x < row + bi → s.used x = true := by
  induction count with
  | zero =>
    intro b row bi aligned scanned
    cases scanned
  | succ count ih =>
    intro b row bi aligned scanned
    rw [scanBlocks] at scanned
    split at scanned
    next =>
      split at scanned
      next found scannedBits =>
        cases scanned
        obtain ⟨-, inside, bound, clear, skipped⟩ := scanBits_eq_some scannedBits
        rw [Nat.zero_add] at inside
        refine ⟨aligned, inside, bound, by rwa [s.used_add aligned inside], fun x low high => ?_⟩
        have skippedBit := skipped (x - b) (Nat.zero_le _) (by omega)
        rw [← s.used_add aligned (by omega)] at skippedBit
        rwa [show b + (x - b) = x by omega] at skippedBit
      next scannedBits =>
        obtain ⟨aligned', inside, bound, clear, skipped⟩ := ih
          ((Nat.add_mod_right b bpb).trans aligned) scanned
        refine ⟨aligned', inside, bound, clear, fun x low high => ?_⟩
        by_cases later : b + bpb ≤ x
        · exact skipped x later high
        · have skippedBit := scanBits_eq_none scannedBits (x - b) (Nat.zero_le _) (by omega) (by omega)
          rw [← s.used_add aligned (by omega)] at skippedBit
          rwa [show b + (x - b) = x by omega] at skippedBit
    next => cases scanned

theorem scanBlocks_eq_none : ∀ {b : Nat}, b % bpb = 0 →
    scanBlocks s count b = none → ∀ x, b ≤ x → x < b + count * bpb → x < s.sb.size → s.used x = true := by
  induction count with
  | zero =>
    intro b aligned scanned x low high
    omega
  | succ count ih =>
    intro b aligned scanned x low high inside
    rw [scanBlocks] at scanned
    split at scanned
    next =>
      split at scanned
      next => cases scanned
      next scannedBits =>
        by_cases later : b + bpb ≤ x
        · rw [Nat.succ_mul] at high
          exact ih ((Nat.add_mod_right b bpb).trans aligned) scanned x later
            (by omega) inside
        · have skippedBit := scanBits_eq_none scannedBits (x - b) (Nat.zero_le _) (by omega) (by omega)
          rw [← s.used_add aligned (by omega)] at skippedBit
          rwa [show b + (x - b) = x by omega] at skippedBit
    next outside => omega

/-! ## Specifications -/

/-- The blocks that are free in the bitmap, in the order of `balloc`'s scan. -/
def State.freeBlocks (s : State) : List Nat := (List.range s.sb.size).filter fun b => !s.used b

theorem State.mem_freeBlocks : b ∈ s.freeBlocks ↔ b < s.sb.size ∧ s.used b = false := by
  simp [freeBlocks]

theorem State.freeBlocks_congr (s : State) {s' : State}
    (used : ∀ b < s.sb.size, s'.used b = s.used b) (sb : s'.sb = s.sb) : s'.freeBlocks = s.freeBlocks := by
  unfold freeBlocks
  rw [sb]
  exact List.filter_congr fun b mem => by rw [used b (List.mem_range.mp mem)]

/-- The state after `balloc` has taken block `b`. -/
def State.take (s : State) (b : Nat) : State :=
  bzero (s.logWrite (s.sb.bblock b) ((s.disk (s.sb.bblock b)).setBit (b % bpb))) b

theorem State.freeBlocks_least (free : s.freeBlocks = b :: rest) :
    b < s.sb.size ∧ s.used b = false ∧ ∀ x, x < b → s.used x = true := by
  obtain ⟨bound, unused⟩ := mem_freeBlocks.mp (free ▸ List.mem_cons_self : b ∈ s.freeBlocks)
  refine ⟨bound, unused, fun x lower => ?_⟩
  have sorted : s.freeBlocks.Pairwise (· < ·) := List.pairwise_lt_range.filter _
  rw [free, List.pairwise_cons] at sorted
  by_contra clear
  have mem : x ∈ s.freeBlocks := mem_freeBlocks.mpr ⟨by omega, by simpa using clear⟩
  rw [free, List.mem_cons] at mem
  rcases mem with rfl | mem
  · omega
  · have := sorted.1 x mem
    omega

theorem balloc_of_cons (free : s.freeBlocks = b :: rest) : balloc s = .ok (b, s.take b) := by
  obtain ⟨bound, unused, least⟩ := State.freeBlocks_least free
  unfold balloc
  split
  next row bi scanned =>
    obtain ⟨aligned, inside, -, clear, skipped⟩ := scanBlocks_eq_some (by decide) scanned
    have same : row + bi = b := by
      by_contra ne
      rcases Nat.lt_or_gt_of_ne ne with lower | higher
      · rw [least _ lower] at clear
        cases clear
      · rw [skipped b (Nat.zero_le _) higher] at unused
        cases unused
    have block : s.sb.bblock row = s.sb.bblock b := by
      dsimp only [Superblock.bblock, bpb, bsize] at aligned inside ⊢
      omega
    have column : bi = b % bpb := by
      dsimp only [bpb, bsize] at aligned inside ⊢
      omega
    rw [same, block, column]
    rfl
  next scanned =>
    have rows : b < 0 + (s.sb.size / bpb + 1) * bpb := by
      dsimp only [bpb, bsize]
      omega
    have full := scanBlocks_eq_none (by decide) scanned b (Nat.zero_le _) rows bound
    rw [full] at unused
    cases unused

theorem balloc_of_nil (full : s.freeBlocks = []) : balloc s = .error .outOfBlocks := by
  unfold balloc
  split
  next row bi scanned =>
    obtain ⟨-, -, bound, clear, -⟩ := scanBlocks_eq_some (by decide) scanned
    have mem := State.mem_freeBlocks.mpr ⟨bound, clear⟩
    rw [full] at mem
    cases mem
  next => rfl

/-! ## How the bitmap changes -/

namespace State

theorem used_logWrite_of_ne (s : State) {block : Nat} (data : Bytes)
    (outside : s.sb.bblock b ≠ block) : (s.logWrite block data).used b = s.used b := by
  simp only [used, logWrite]
  rw [update_of_ne outside]

theorem used_logWrite_bitmap (s : State) (change : Bytes → Bytes) (b other : Nat) :
    (s.logWrite (s.sb.bblock b) (change (s.disk (s.sb.bblock b)))).used other =
      if s.sb.bblock other = s.sb.bblock b then (change (s.disk (s.sb.bblock b))).bit (other % bpb)
      else s.used other := by
  simp only [used, logWrite, update_apply]
  split <;> rfl

theorem bblock_mod_inj {other : Nat} (row : sb.bblock other = sb.bblock b) : other % bpb = b % bpb ↔ other = b := by
  dsimp only [Superblock.bblock, bpb, bsize] at row ⊢
  omega

theorem used_take (layout : s.sb.Layout) {other : Nat} (data : s.sb.nmeta ≤ b)
    (inside : other < s.sb.size) : (s.take b).used other = (s.used other || other = b) := by
  have outside : s.sb.bblock other ≠ b := by
    have := layout.bblock_bounds inside
    omega
  have zeroed : (s.take b).used other = (s.logWrite (s.sb.bblock b)
      ((s.disk (s.sb.bblock b)).setBit (b % bpb))).used other :=
    used_logWrite_of_ne (s.logWrite _ _) (Bytes.fill 0) outside
  rw [zeroed, used_logWrite_bitmap s (fun data => data.setBit (b % bpb))]
  split
  next row =>
    have column := bblock_mod_inj row
    simp only [Bytes.bit_setBit, ← row, column]
    rfl
  next row =>
    have ne : other ≠ b := fun same => row (same ▸ rfl)
    simp [ne]

theorem freeBlocks_take (layout : s.sb.Layout)
    (free : s.freeBlocks = b :: rest) (data : s.sb.nmeta ≤ b) : (s.take b).freeBlocks = rest := by
  have filtered : (s.take b).freeBlocks = s.freeBlocks.filter (fun x => x ≠ b) := by
    simp only [freeBlocks, List.filter_filter]
    apply List.filter_congr
    intro x mem
    rw [used_take layout data (List.mem_range.mp mem)]
    simp [Bool.and_comm]
  have nodup : s.freeBlocks.Nodup := List.nodup_range.filter _
  rw [free, List.nodup_cons] at nodup
  rw [filtered, free, List.filter_cons_of_neg (by simp)]
  apply List.filter_eq_self.mpr
  intro x mem
  simpa using fun same : x = b => nodup.1 (same ▸ mem)

end State

/-- `bfree` of a block whose bit is set clears that bit and nothing else. -/
theorem bfree_of_used (superblock : readsb (s.disk 1) = s.sb) (set : s.used b = true) :
    bfree s b = .ok (s.logWrite (s.sb.bblock b) ((s.disk (s.sb.bblock b)).clearBit (b % bpb))) := by
  simp only [bfree, superblock]
  exact if_pos set

theorem State.used_bfree (s : State) (b other : Nat) :
    (s.logWrite (s.sb.bblock b) ((s.disk (s.sb.bblock b)).clearBit (b % bpb))).used other =
      (s.used other && other ≠ b) := by
  rw [used_logWrite_bitmap s (fun data => data.clearBit (b % bpb))]
  split
  next row =>
    have column := bblock_mod_inj row
    simp only [Bytes.bit_clearBit, ← row, ne_eq, column]
    rfl
  next row =>
    have ne : other ≠ b := fun same => row (same ▸ rfl)
    simp [ne]

end Xv6Simplesh.Fs
