import Xv6Simplesh.Fs.Image
import Xv6Simplesh.Fs.WriteCost

/-! # The transactions of `filewrite`

`filewrite` cuts a long write into pieces, each in its own `begin_op`/`end_op`
section, so that no section logs more than `MAXOPBLOCKS` blocks.  What a section
logs is `transactionCost` of the state before it.  The size of the pieces leaves room
for one indirect block and one bitmap block; a piece that begins in the middle of
a block, needs the doubly indirect block and takes its blocks from several bitmap
blocks logs more.
-/

namespace Xv6Simplesh.Fs

open Library

/-! ## `filewrite` -/

inductive FileType where
  | none
  | pipe
  | inode
deriving DecidableEq, Repr

/-- The fields of `struct file` that `filewrite` uses. -/
structure File where
  type : FileType
  writable : Bool
  inum : Nat
  off : UInt32
deriving DecidableEq, Repr

inductive FilePanic where
  | fs (panic : Panic)
  | shortFilewrite
  | filewrite
deriving DecidableEq, Repr

/-- One `begin_op`/`end_op` section: `writei` of `n1` bytes at `off`. -/
structure Transaction where
  before : State
  off : UInt32
  n1 : Nat
  after : State

/-- `int max = ((MAXOPBLOCKS-1-1-2) / 2) * 512;` -/
abbrev filewriteMax : Nat := ((maxOpBlocks - 1 - 1 - 2) / 2) * 512

/-- The loop of `filewrite` with `i` bytes written: its sections, and `i`, the file
system and the offset at its end. -/
def filewriteLoop (devsw : Devsw) (s : State) (inum : Nat) (off : UInt32) (addr : Nat → UInt8) (n i : Nat) :
    List Transaction × Except FilePanic (Nat × State × UInt32) :=
  if i < n then
    let n1 := min (n - i) filewriteMax
    -- the transaction starts with nothing logged
    let before := { s with logged := [] }
    match writei devsw before inum (fun j => addr (i + j)) off.toNat n1 with
    | .error panic => ([], .error (.fs panic))
    | .ok (r, after) =>
      let transaction := ⟨before, off, n1, after⟩
      let off := if r > 0 then off + UInt32.ofInt r else off
      if r < 0 then ([transaction], .ok (i, after, off))
      else if r ≠ n1 then ([transaction], .error .shortFilewrite)
      else
        let (sections, outcome) := filewriteLoop devsw after inum off addr n (i + n1)
        (transaction :: sections, outcome)
  else ([], .ok (i, s, off))
termination_by n - i
decreasing_by
  dsimp only [filewriteMax, maxOpBlocks]
  omega

/-- `filewrite`: its sections, and the value returned with the file system and the
file afterwards.  Writing to a pipe does not touch the file system. -/
def filewrite (devsw : Devsw) (pipewrite : (Nat → UInt8) → Int → Int) (s : State) (f : File)
    (addr : Nat → UInt8) (n : Int) : List Transaction × Except FilePanic (Int × State × File) :=
  if !f.writable then ([], .ok (-1, s, f))
  else
    match f.type with
    | .pipe => ([], .ok (pipewrite addr n, s, f))
    | .inode =>
      let (sections, outcome) := filewriteLoop devsw s f.inum f.off addr n.toNat 0
      (sections, outcome.map fun (i, s, off) => (if i = n then n else -1, s, { f with off := off }))
    | .none => ([], .error .filewrite)

/-! ## What a section logs -/

/-- The blocks of a file that `n` bytes from `off` on lie in. -/
def blockList (off n : Nat) : List (Fin maxFile) :=
  (List.range' (off / bsize) (blockCount off n)).filterMap fun bn =>
    if inside : bn < maxFile then some ⟨bn, inside⟩ else none

variable {inum n off : Nat} {devsw : Devsw} {addr : Nat → UInt8}

theorem blockList_eq {bns : List (Fin maxFile)}
    (blocks : bns.map Fin.val = List.range' (off / bsize) (blockCount off n)) : blockList off n = bns := by
  rw [blockList, ← blocks, List.filterMap_map]
  have identity : ((fun bn => if inside : bn < maxFile then some (⟨bn, inside⟩ : Fin maxFile) else none) ∘
      Fin.val) = some := by
    funext bn
    exact dif_pos bn.isLt
  rw [identity, List.filterMap_some]

/-- The number of distinct blocks that `writei` of `n` bytes at `off` logs: none if
it writes to a device or refuses, else the blocks written, the indirect blocks that
grow, the bitmap blocks of the blocks taken, and the inode block if the file grows. -/
def State.transactionCost (s : State) (inum off n : Nat) : Nat :=
  if (s.inodes inum).type = tDev ∨ off > (s.inodes inum).size ∨ off + n > maxFile * bsize then 0
  else s.writeCost inum (blockList off n) + if n > 0 ∧ off + n > (s.inodes inum).size then 1 else 0

variable {s : State}

theorem card_logged_writei {after : State} {src : Nat → UInt8} {r : Int}
    (owned : Owned s) (bound : inum < s.sb.ninodes) (empty : s.logged = []) (offUint : off < 2 ^ 32)
    (nUint : n < 2 ^ 32) (wrote : writei devsw s inum src off n = .ok (r, after)) :
    after.logged.toFinset.card = s.transactionCost inum off n := by
  unfold writei at wrote
  simp only at wrote
  unfold State.transactionCost
  split at wrote
  next device =>
    rw [if_pos (.inl device)]
    have same : after = s := by
      split at wrote
      · cases wrote; rfl
      · split at wrote <;> cases wrote <;> rfl
    rw [same, empty]
    rfl
  next file =>
  split at wrote
  next refused =>
    cases wrote
    rw [if_pos (.inr (by dsimp only [maxFile, bsize, ndirect, nindirect]; omega)), empty]
    rfl
  next inSize =>
  split at wrote
  next refused =>
    cases wrote
    rw [if_pos (.inr (.inr (by dsimp only [maxFile, bsize, ndirect, nindirect] at *; omega))), empty]
    rfl
  next inFile =>
  have noWrap : off + n < 2 ^ 32 := by omega
  rw [Nat.mod_eq_of_lt noWrap] at inSize inFile
  have accepted : ¬ ((s.inodes inum).type = tDev ∨ off > (s.inodes inum).size ∨ off + n > maxFile * bsize) := by
    rintro (device | beyond | large)
    · exact file device
    · exact inSize (.inl beyond)
    · exact inFile large
  rw [if_neg accepted]
  rcases writeLoop_writes src owned bound (by omega : off + (n - 0) ≤ maxFile * bsize) with
    ⟨s', bns, looped, writes, blocks⟩ | ⟨failed, -⟩
  · rw [Nat.sub_zero] at blocks
    have bound' : inum < s'.sb.ninodes := writes.sb ▸ bound
    have owned' := writes.owned bound owned
    have progress := (Progress.initial empty).writes writes bound owned
    rw [Finset.empty_union, Finset.empty_union] at progress
    have distinct : bns.Nodup := by
      refine List.Nodup.of_map Fin.val ?_
      rw [blocks]
      exact List.nodup_range'
    have counted := card_logged progress owned' bound' distinct
    rw [looped] at wrote
    simp only [bind, Except.bind, progress.size] at wrote
    rw [blockList_eq blocks]
    split at wrote
    next grows =>
      cases wrote
      rw [if_pos grows, ← counted]
      have inodeBlock : s'.sb.iblock inum ∉ s'.logged.toFinset := iblock_notMem_logged progress owned' bound'
      exact (congrArg Finset.card List.toFinset_cons).trans (Finset.card_insert_of_notMem inodeBlock)
    next same =>
      cases wrote
      rw [if_neg same, counted, Nat.add_zero]
  · rw [failed] at wrote
    cases wrote

/-! ## The sections of `filewrite` -/

/-- What holds of a section: it is a `writei` of some bytes, on a state with block
ownership and nothing logged. -/
structure Transaction.Valid (devsw : Devsw) (inum : Nat) (t : Transaction) : Prop where
  owned : Owned t.before
  bound : inum < t.before.sb.ninodes
  empty : t.before.logged = []
  piece : t.n1 ≤ filewriteMax
  wrote : ∃ src r, writei devsw t.before inum src t.off.toNat t.n1 = .ok (r, t.after)

theorem Transaction.Valid.card_logged {t : Transaction} (valid : t.Valid devsw inum) :
    t.after.logged.toFinset.card = t.before.transactionCost inum t.off.toNat t.n1 := by
  obtain ⟨src, r, wrote⟩ := valid.wrote
  have piece : t.n1 < 2 ^ 32 := Nat.lt_of_le_of_lt valid.piece (by decide)
  exact card_logged_writei valid.owned valid.bound valid.empty t.off.toNat_lt piece wrote

theorem Owned.clearLog (owned : Owned s) : Owned { s with logged := [] } :=
  owned.congr rfl rfl (fun _ _ => rfl) fun _ _ r => State.node_congr (fun _ _ => rfl) (fun _ _ _ _ _ => rfl) r

theorem filewriteLoop_valid {off : UInt32} {i : Nat} (owned : Owned s) (bound : inum < s.sb.ninodes) :
    ∀ t ∈ (filewriteLoop devsw s inum off addr n i).1, t.Valid devsw inum := by
  induction left : n - i using Nat.strong_induction_on generalizing s off i with
  | _ left ih =>
  subst left
  rw [filewriteLoop]
  split
  next more =>
    have piece : min (n - i) filewriteMax ≤ filewriteMax := Nat.min_le_right _ _
    have progresses : n - (i + min (n - i) filewriteMax) < n - i := by
      dsimp only [filewriteMax, maxOpBlocks]
      omega
    have res := writei_owned devsw owned.clearLog bound (fun j => addr (i + j)) off
      (UInt32.ofNat (min (n - i) filewriteMax))
    rw [UInt32.toNat_ofNat_of_lt' (Nat.lt_of_le_of_lt piece (by decide))] at res
    rcases res with ⟨r, after, wrote, sb, owned'⟩ | failed
    · have first : Transaction.Valid devsw inum
          ⟨{ s with logged := [] }, off, min (n - i) filewriteMax, after⟩ :=
        ⟨owned.clearLog, bound, rfl, piece, _, r, wrote⟩
      have rest : ∀ t ∈ (filewriteLoop devsw after inum (if r > 0 then off + UInt32.ofInt r else off) addr n
          (i + min (n - i) filewriteMax)).1, t.Valid devsw inum :=
        ih _ progresses owned' (sb ▸ bound) rfl
      simp only [wrote]
      split
      · exact List.forall_mem_singleton.mpr first
      · split
        · exact List.forall_mem_singleton.mpr first
        · exact List.forall_mem_cons.mpr ⟨first, rest⟩
    · simp only [failed]
      exact fun t mem => nomatch mem
  next => exact fun t mem => nomatch mem

theorem filewrite_valid {pipewrite : (Nat → UInt8) → Int → Int} {f : File} {n : Int} (owned : Owned s) (bound : f.inum < s.sb.ninodes) :
    ∀ t ∈ (filewrite devsw pipewrite s f addr n).1, t.Valid devsw f.inum := by
  unfold filewrite
  split
  · exact fun t mem => nomatch mem
  · split
    · exact fun t mem => nomatch mem
    · exact filewriteLoop_valid owned bound
    · exact fun t mem => nomatch mem

/-- `writei` of a piece that fits in the file succeeds if there are enough free blocks. -/
theorem writei_succeeds (devsw : Devsw) (src : Nat → UInt8) (owned : Owned s)
    (bound : inum < s.sb.ninodes) (file : (s.inodes inum).type ≠ tDev) (inSize : off ≤ (s.inodes inum).size)
    (inFile : off + n ≤ maxFile * bsize) (enough : 3 * blockCount off n ≤ s.freeBlocks.length) :
    ∃ after, writei devsw s inum src off n = .ok (n, after) := by
  have wrap : (off + n) % 2 ^ 32 = off + n := by
    refine Nat.mod_eq_of_lt ?_
    dsimp only [maxFile, ndirect, nindirect, bsize] at inFile
    omega
  unfold writei
  simp only [if_neg file, wrap]
  rw [if_neg (by omega), if_neg (by omega)]
  rcases writeLoop_writes src owned bound (by omega : off + (n - 0) ≤ maxFile * bsize) with
    ⟨s', bns, looped, -, -⟩ | ⟨-, full⟩
  · simp only [looped, bind, Except.bind]
    split <;> exact ⟨_, rfl⟩
  · rw [Nat.sub_zero] at full
    omega

theorem filewrite_piece (pipewrite : (Nat → UInt8) → Int → Int) {after : State}
    {off : UInt32} (pos : 0 < n) (piece : n ≤ filewriteMax)
    (wrote : writei devsw { s with logged := [] } inum addr off.toNat n = .ok (n, after)) :
    filewrite devsw pipewrite s ⟨.inode, true, inum, off⟩ addr n =
      ([⟨{ s with logged := [] }, off, n, after⟩],
        .ok (n, after, ⟨.inode, true, inum, off + UInt32.ofInt n⟩)) := by
  have whole : min n filewriteMax = n := Nat.min_eq_left piece
  have ended : filewriteLoop devsw after inum (off + UInt32.ofInt n) addr n n =
      ([], .ok (n, after, off + UInt32.ofInt n)) := by
    rw [filewriteLoop, if_neg (Nat.lt_irrefl n)]
  have loop : filewriteLoop devsw s inum off addr n 0 =
      ([⟨{ s with logged := [] }, off, n, after⟩], .ok (n, after, off + UInt32.ofInt n)) := by
    rw [filewriteLoop, if_pos pos]
    simp only [Nat.sub_zero, whole, wrote, Nat.zero_add]
    have grows : (n : Int) > 0 := by omega
    rw [if_neg (by omega), if_neg (by simp), if_pos grows, ended]
  simp [filewrite, loop, Except.map]

theorem enough_crowdedImage {count : Nat} (few : count ≤ 11671) : count ≤ crowdedImage.freeBlocks.length := by
  rw [freeBlocks_crowdedImage, List.length_cons, List.length_cons, List.length_range']
  exact few

/-- A section of `filewrite` logs at most `MAXOPBLOCKS` distinct blocks exactly if the blocks
it writes, the indirect blocks it makes grow, the bitmap blocks of the blocks it takes and the
inode block it updates are together at most as many. -/
theorem filewrite_logged_iff (devsw : Devsw) (pipewrite : (Nat → UInt8) → Int → Int) (s : State) (f : File)
    (addr : Nat → UInt8) (n : Int) (owned : Owned s) (bound : f.inum < s.sb.ninodes) :
    ∀ t ∈ (filewrite devsw pipewrite s f addr n).1,
      t.after.logged.toFinset.card ≤ maxOpBlocks ↔
        t.before.transactionCost f.inum t.off.toNat t.n1 ≤ maxOpBlocks := by
  intro t mem
  rw [(filewrite_valid owned bound t mem).card_logged]

/-- One byte written in place, in file 2 of the crowded image. -/
theorem filewrite_logged_iff_crowdedImage : ∃ after,
    (filewrite (fun _ => none) (fun _ _ => 0) crowdedImage ⟨.inode, true, 2, 0⟩ (fun _ => 7) 1).1 =
      [⟨crowdedImage, 0, 1, after⟩] ∧
    (after.logged.toFinset.card ≤ maxOpBlocks ↔ crowdedImage.transactionCost 2 0 1 ≤ maxOpBlocks) := by
  obtain ⟨after, wrote⟩ : ∃ after, writei (fun _ => none) crowdedImage 2 (fun _ => 7) 0 1 = .ok ((1 : Nat), after) :=
    writei_succeeds _ _ crowdedImage_owned (by decide) (by decide) (by decide) (by decide)
      (enough_crowdedImage (by decide))
  have sections := congrArg Prod.fst (filewrite_piece (fun _ _ => 0) (by decide) (by decide) wrote :
    filewrite _ _ crowdedImage ⟨.inode, true, 2, 0⟩ _ 1 = _)
  refine ⟨after, sections, ?_⟩
  exact filewrite_logged_iff (fun _ => none) (fun _ _ => 0) crowdedImage ⟨.inode, true, 2, 0⟩ (fun _ => 7) 1
    crowdedImage_owned (by decide) ⟨crowdedImage, 0, 1, after⟩ (sections ▸ List.mem_singleton_self _)

/-! ## A section of eleven blocks -/

theorem blockList_crowdedFile : blockList 70244 1536 = [137, 138, 139, 140] :=
  blockList_eq (by decide)

theorem missing_crowdedFile : crowdedImage.missing 2 (pathRoles [137, 138, 139, 140]) =
    {.indirectEntry ⟨127, by decide⟩, .double, .table ⟨0, by decide⟩, .tableEntry ⟨0, by decide⟩ ⟨0, by decide⟩,
      .tableEntry ⟨0, by decide⟩ ⟨1, by decide⟩} := by
  unfold State.missing
  simp only [node_crowdedImage]
  decide

/-- The section writes four blocks, makes three indirect blocks grow, takes blocks of
three bitmap blocks and updates the inode. -/
theorem transactionCost_crowdedFile : crowdedImage.transactionCost 2 70244 1536 = 11 := by
  have tables : (crowdedImage.grownTables 2 [137, 138, 139, 140]).card = 3 := by
    rw [State.grownTables, missing_crowdedFile]
    decide
  have bitmaps : (crowdedImage.bitmapBlocks 2 [137, 138, 139, 140]).card = 3 := by
    have taken : crowdedImage.freeBlocks.take 5 = [65, 8191, 8331, 8332, 8333] := by
      rw [freeBlocks_crowdedImage]
      rfl
    have five : (crowdedImage.missing 2 (pathRoles [137, 138, 139, 140])).card = 5 := by
      rw [missing_crowdedFile]
      decide
    rw [State.bitmapBlocks, five, taken]
    decide
  unfold State.transactionCost
  rw [if_neg (by decide), if_pos (by decide), blockList_crowdedFile, State.writeCost, tables, bitmaps]
  rfl

/-- Three blocks' worth of bytes appended to file 2 of the crowded image, from the middle of
a block on: one section, and it logs eleven distinct blocks. -/
theorem filewrite_logged_eleven : Owned crowdedImage ∧ crowdedImage.sb.size = fsSize ∧ ∃ after,
    filewrite (fun _ => none) (fun _ _ => 0) crowdedImage ⟨.inode, true, 2, 70244⟩ (fun _ => 0) 1536 =
      ([⟨crowdedImage, 70244, 1536, after⟩], .ok (1536, after, ⟨.inode, true, 2, 71780⟩)) ∧
    after.logged.toFinset.card = 11 ∧ ¬ 11 ≤ maxOpBlocks := by
  obtain ⟨after, wrote⟩ : ∃ after, writei (fun _ => none) crowdedImage 2 (fun _ => 0) 70244 1536 =
      .ok ((1536 : Nat), after) :=
    writei_succeeds _ _ crowdedImage_owned (by decide) (by decide) (by decide) (by decide)
      (enough_crowdedImage (by decide))
  refine ⟨crowdedImage_owned, rfl, after, ?_, ?_, by decide⟩
  · exact filewrite_piece _ (by decide) (by decide) wrote
  · rw [card_logged_writei crowdedImage_owned (by decide) rfl (by decide) (by decide) wrote,
      transactionCost_crowdedFile]

end Xv6Simplesh.Fs
