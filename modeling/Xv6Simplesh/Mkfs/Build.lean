import Mathlib.Data.List.Induction
import Xv6Simplesh.Mkfs.Append

/-! # What `mkfs` builds

The image after any number of input files: the root directory holds an entry for
each of them, their inodes follow each other from inode 2 on, and the blocks are
handed out in the order in which they were needed.  `Finished` says the same of the
disk that `mkfs` leaves, where the size of the root directory has been rounded up and
the bitmap marks the blocks that were handed out.
-/

namespace Xv6Simplesh.Mkfs

open Library Fs Function

/-! ## The files of the image -/

/-- The entries of the root directory. -/
def rootData (files : List HostFile) : List UInt8 :=
  dirent rootIno dot ++ dirent rootIno dotdot ++ (files.mapIdx fun i file => dirent (i + 2) file.target).flatten

/-- The contents of every inode. -/
def contentsOf (files : List HostFile) : Nat → List UInt8
  | 0 => []
  | 1 => rootData files
  | i + 2 => (files[i]?.map HostFile.contents).getD []

/-- The type of every inode. -/
def kindOf (files : List HostFile) (inum : Nat) : Int :=
  if inum = rootIno then tDir else if 2 ≤ inum ∧ inum < files.length + 2 then tFile else 0

/-- The number of blocks for the contents of a file. -/
def HostFile.cost (file : HostFile) : Nat := need file.contents.length

/-- The number of blocks for the root directory, with `count` files. -/
def rootCost (count : Nat) : Nat := need (16 * (count + 2))

theorem rootCost_mono {count count' : Nat} (more : count ≤ count') : rootCost count ≤ rootCost count' :=
  need_mono (by omega)

@[simp] theorem length_strncpy (name : List UInt8) (count : Nat) : (strncpy name count).length = count := by
  rw [strncpy, List.length_append, List.length_take, List.length_replicate]
  omega

@[simp] theorem length_dirent (inum : Nat) (name : List UInt8) : (dirent inum name).length = 16 := by
  simp [dirent]

theorem rootData_concat (files : List HostFile) (file : HostFile) :
    rootData (files ++ [file]) = rootData files ++ dirent (files.length + 2) file.target := by
  simp only [rootData, List.mapIdx_concat, List.flatten_append, List.flatten_singleton, List.append_assoc]

theorem length_rootData (files : List HostFile) : (rootData files).length = 16 * (files.length + 2) := by
  induction files using List.reverseRecOn with
  | nil => simp [rootData]
  | append_singleton files file ih =>
    rw [rootData_concat, List.length_append, ih, length_dirent, List.length_append,
      List.length_singleton]
    omega

/-- One more file: its entry in the root directory and its own contents. -/
theorem contentsOf_concat (files : List HostFile) (file : HostFile) :
    contentsOf (files ++ [file]) =
      update (update (contentsOf files) rootIno
        (contentsOf files rootIno ++ dirent (files.length + 2) file.target)) (files.length + 2) file.contents := by
  funext i
  match i with
  | 0 => rfl
  | 1 =>
    rw [update_of_ne (by omega), update_self]
    exact rootData_concat files file
  | i + 2 =>
    rw [update_apply, update_of_ne (show i + 2 ≠ 1 by omega)]
    simp only [contentsOf]
    by_cases last : i = files.length
    · rw [if_pos (by omega), last, List.getElem?_concat_length]
      rfl
    · rw [if_neg (by omega)]
      by_cases before : i < files.length
      · rw [List.getElem?_append_left before]
      · rw [List.getElem?_eq_none (by rw [List.length_append, List.length_singleton]; omega),
          List.getElem?_eq_none (by omega)]

theorem kindOf_concat (files : List HostFile) (file : HostFile) :
    kindOf (files ++ [file]) = update (kindOf files) (files.length + 2) tFile := by
  funext i
  simp only [kindOf, update_apply, List.length_append, List.length_singleton, rootIno]
  split_ifs <;> first | rfl | omega

/-! ## The blank image -/

theorem disk_blank {b : Nat} (other : b ≠ 1) : blank.disk b = Bytes.fill 0 := by
  simp only [blank]
  rw [update_of_ne other]

theorem readInode_blank {i : Nat} (inside : i < wideSb.ninodes) :
    readInode sb blank.disk i = ⟨0, 0, 0, 0, 0, fun _ => 0⟩ := by
  have block : sb.iblock i ≠ 1 := by
    have := (iblock_bounds inside).1
    have start : sb.inodestart = 32 := rfl
    omega
  rw [readInode, disk_blank block, loadDinode]
  simp only [Bytes.word_fill_zero, ite_self]
  rfl

theorem span_zero : span 0 = 0 := rfl

theorem built_blank : Built blank (fun _ => []) (fun _ => 0) := by
  have inode := fun i (inside : i < wideSb.ninodes) => readInode_blank inside
  have nodes : ∀ i < wideSb.ninodes, ∀ r, (view blank.disk).node i r = 0 := by
    intro i inside
    refine State.node_eq (fun _ => 0) (fun r slot loc => ?_) (fun r p index loc => rfl)
    simp only [view]
    rw [inode i inside]
  have none : ∀ slot, (view blank.disk).holder slot = none := by
    rintro ⟨i, r⟩
    by_cases inside : i < wideSb.ninodes
    · simp [State.holder, nodes i inside]
    · exact if_neg fun both => inside both.1
  have fits : Inode.Fits ⟨0, 0, 0, 0, 0, fun _ => 0⟩ := by
    constructor <;> simp
  constructor
  · constructor
    · exact Nat.le_refl _
    · intro b
      constructor
      · rintro ⟨slot, holds⟩
        rw [none] at holds
        cases holds
      · rintro ⟨low, high⟩
        exact absurd high (Nat.not_lt.mpr low)
    · intro slot slot' b holds
      rw [none] at holds
      cases holds
    · intro i inside r
      rw [nodes i inside, List.length_nil, span_zero]
      simp
    · intro i inside
      exact Nat.zero_le _
    · intro b high
      refine disk_blank ?_
      have : 1 < blank.freeblock := by decide
      omega
    · intro i inside
      exact Nat.zero_le _
    · intro i inside
      exact Nat.le_refl _
    · intro i inside idx before
      cases before
  · intro i inside
    rw [inode i inside]
    rfl
  · intro i inside
    rw [inode i inside]
  · intro i inside
    rw [inode i inside]
    exact fits
  · decide
  · simp only [blank]
    rw [update_self]
  · intro b low high
    refine disk_blank ?_
    have : sb.bmapstart = 58 := rfl
    omega

/-! ## Adding the files -/

variable {files : List HostFile}

section Build

variable {img : Image} {inum : Nat} {data : Nat → List UInt8} {kind : Nat → Int}

theorem newInode_fits {type : Int} (small : -2 ^ 15 ≤ type ∧ type < 2 ^ 15) : (newInode type).Fits := by
  refine ⟨small, ?_, ?_, ?_, ?_, ?_, ?_⟩ <;> simp [newInode]

theorem ialloc_spec (built : Built img data kind) (bound : img.freeinode < wideSb.ninodes)
    (empty : data img.freeinode = []) {type : Int} (small : -2 ^ 15 ≤ type ∧ type < 2 ^ 15) :
    ∃ img', ialloc img type = .ok (img.freeinode, img') ∧
      Built img' data (update kind img.freeinode type) ∧ img'.freeinode = img.freeinode + 1 ∧
      img'.freeblock = img.freeblock := by
  refine ⟨⟨putInode img.disk img.freeinode (newInode type), img.freeinode + 1, img.freeblock⟩, ?_, ?_, rfl, rfl⟩
  · rw [ialloc, winode_eq _ bound]
    rfl
  · have holding : Holding (viewWith img.disk img.freeinode (newInode type)) img.freeblock
        (fun i => span (data i).length) data := by
      refine built.holding.congr rfl ?_ fun b high => rfl
      intro i inside slot slots
      simp only [viewWith, view, State.setInode, update_apply]
      split
      next same =>
        -- the inode has no contents, so its slots are empty already
        obtain ⟨r, loc⟩ := exists_role slots
        have absent := (built.holding.present i inside r).not.mpr (by rw [same, empty]; exact Nat.not_lt_zero _)
        rw [not_not, State.node_inode _ _ loc] at absent
        exact absent.symm
      next => rfl
    have size : (newInode type).size = (data img.freeinode).length := by
      rw [empty]
      rfl
    have typed : (newInode type).type = update kind img.freeinode type img.freeinode := by
      rw [update_self]
      rfl
    exact @built_putInode ⟨img.disk, img.freeinode + 1, img.freeblock⟩ img img.freeinode data kind _ _ data _ built bound
      holding rfl (fun b low => rfl) built.blocks (newInode_fits small) size typed
      fun i ne => ⟨rfl, update_of_ne ne _ _⟩

theorem chunks_spec (bound : inum < wideSb.ninodes) (chunks : List (List UInt8)) :
    ∀ {img : Image} {data : Nat → List UInt8}, Built img data kind →
      Yields (chunks.foldlM (fun img chunk => iappend img inum chunk) img)
        ((data inum).length + chunks.flatten.length ≤ singleLimit)
        (img.freeblock + need ((data inum).length + chunks.flatten.length) ≤ fsSize + need (data inum).length) fun img' =>
          Built img' (update data inum (data inum ++ chunks.flatten)) kind ∧ img'.freeinode = img.freeinode ∧
            img'.freeblock + need (data inum).length =
              img.freeblock + need ((data inum).length + chunks.flatten.length) := by
  induction chunks with
  | nil =>
    intro img data built
    have limit := built.holding.limit inum bound
    refine .inl ⟨limit, img, rfl, ?_, rfl, rfl⟩
    rw [List.flatten_nil, List.append_nil, update_eq_self]
    exact built
  | cons chunk chunks ih =>
    intro img data built
    rw [List.foldlM_cons, List.flatten_cons, List.length_append, ← Nat.add_assoc]
    have more := need_mono (Nat.le_add_right ((data inum).length + chunk.length) chunks.flatten.length)
    refine (iappend_spec built bound chunk).bind (by omega) (by omega) ?_
    rintro img₁ - ⟨built₁, inodes₁, taken₁⟩
    have rest := ih built₁
    rw [update_self, update_idem, List.append_assoc, List.length_append] at rest
    refine rest.mono Iff.rfl (by omega) ?_
    rintro img' ⟨built', inodes', taken'⟩
    exact ⟨built', inodes'.trans inodes₁, by omega⟩

theorem addFile_spec (built : Built img (contentsOf files) (kindOf files))
    (next : img.freeinode = files.length + 2) (bound : files.length + 2 < wideSb.ninodes) (file : HostFile) :
    Yields (addFile rootIno img file) (file.contents.length ≤ singleLimit)
      (47 ∉ file.name ∧ img.freeblock + rootCost (files.length + 1) + file.cost ≤ fsSize + rootCost files.length)
      fun img' => Built img' (contentsOf (files ++ [file])) (kindOf (files ++ [file])) ∧
        img'.freeinode = files.length + 3 ∧
        img'.freeblock + rootCost files.length = img.freeblock + rootCost (files.length + 1) + file.cost := by
  unfold addFile
  split
  next slash => exact Yields.lacking rfl (by simp) fun enough => enough.1 slash
  next =>
    have empty : contentsOf files img.freeinode = [] := by
      rw [next]
      simp only [contentsOf, List.getElem?_eq_none (Nat.le_refl files.length)]
      rfl
    have type : -2 ^ 15 ≤ tFile ∧ tFile < 2 ^ 15 := by decide
    obtain ⟨img₁, ran, built₁, inodes₁, blocks₁⟩ := ialloc_spec built (next ▸ bound) empty type
    have root : rootIno < wideSb.ninodes := by decide
    have entries : (contentsOf files rootIno).length = 16 * (files.length + 2) := length_rootData files
    have length : 16 * (files.length + 2) + 16 ≤ singleLimit := by
      have room : wideSb.ninodes = 208 := rfl
      dsimp only [singleLimit, ndirect, nindirect, bsize]
      omega
    rw [ran, ok_bind]
    dsimp only
    rw [next] at built₁ inodes₁ ⊢
    have entry := iappend_spec built₁ root (dirent (files.length + 2) file.target)
    rw [length_dirent, entries] at entry
    have start : rootCost files.length = need (16 * (files.length + 2)) := rfl
    have after : rootCost (files.length + 1) = need (16 * (files.length + 2) + 16) := rfl
    refine entry.bind (fun _ => length) (by omega) ?_
    rintro img₂ - ⟨built₂, inodes₂, taken₂⟩
    have other : files.length + 2 ≠ rootIno := by
      dsimp only [rootIno]
      omega
    have cost : file.cost = need file.chunks.flatten.length := rfl
    have none : need 0 = 0 := rfl
    have rest := chunks_spec bound file.chunks built₂
    rw [update_of_ne other, ← next, empty, next, List.length_nil, Nat.zero_add, List.nil_append] at rest
    refine rest.mono Iff.rfl (by omega) ?_
    rintro img' ⟨built', inodes', taken'⟩
    refine ⟨?_, by omega, by omega⟩
    rw [contentsOf_concat, kindOf_concat]
    exact built'

theorem files_spec : ∀ (rest : List HostFile) {img : Image} {files : List HostFile},
    Built img (contentsOf files) (kindOf files) → img.freeinode = files.length + 2 →
    files.length + rest.length + 2 ≤ wideSb.ninodes →
    Yields (rest.foldlM (addFile rootIno) img) (∀ file ∈ rest, file.contents.length ≤ singleLimit)
      ((∀ file ∈ rest, 47 ∉ file.name) ∧ img.freeblock + rootCost (files.length + rest.length) +
        (rest.map HostFile.cost).sum ≤ fsSize + rootCost files.length)
      fun img' => Built img' (contentsOf (files ++ rest)) (kindOf (files ++ rest)) ∧
        img'.freeblock + rootCost files.length =
          img.freeblock + rootCost (files.length + rest.length) + (rest.map HostFile.cost).sum := by
  intro rest
  induction rest with
  | nil =>
    intro img files built next bound
    refine .inl ⟨by simp, img, rfl, ?_, rfl⟩
    rw [List.append_nil]
    exact built
  | cons file rest ih =>
    intro img files built next bound
    have more : rootCost (files.length + 1) ≤ rootCost (files.length + 1 + rest.length) := rootCost_mono (by omega)
    have length : (files ++ [file]).length = files.length + 1 := List.length_append
    have count : files.length + (rest.length + 1) = files.length + 1 + rest.length := by omega
    rw [List.length_cons] at bound ⊢
    rw [List.foldlM_cons, List.map_cons, List.sum_cons, count]
    refine (addFile_spec built next (by omega) file).bind (fun small => small file (.head _))
      (fun enough => ⟨enough.1 file (.head _), by omega⟩) ?_
    rintro img₁ small ⟨built₁, inodes₁, taken₁⟩
    have later := ih built₁ (by omega) (by omega)
    rw [length, List.append_assoc, List.singleton_append] at later
    refine later.mono ?_ ?_ ?_
    · simp only [List.mem_cons, forall_eq_or_imp]
      exact and_iff_right small
    · rintro ⟨names, enough⟩
      exact ⟨fun file mem => names file (.tail _ mem), by omega⟩
    · rintro img' ⟨built', taken'⟩
      exact ⟨built', by omega⟩

end Build

/-! ## The finished disk -/

theorem bit_bitmapOf (used index : Nat) : (bitmapOf used).bit index = decide (index < used) := by
  unfold bitmapOf
  induction used with
  | zero => simp [Bytes.bit, Bytes.fill]
  | succ used ih =>
    rw [List.range_succ, List.foldl_append, List.foldl_cons, List.foldl_nil, Bytes.bit_setBit, ih,
      ← Bool.decide_or, decide_eq_decide]
    omega

/-- The size of the root directory, rounded as `mkfs` rounds it. -/
def rootSize (files : List HostFile) : Nat := ((rootData files).length / bsize + 1) * bsize

/-- The disk that `mkfs` leaves; the blocks before `next` have been handed out. -/
structure Finished (disk : Nat → Bytes) (files : List HostFile) (next : Nat) : Prop where
  holding : Holding (view disk) next (fun i => span (contentsOf files i).length) (contentsOf files)
  size : ∀ i < wideSb.ninodes, (readInode sb disk i).size =
    if i = rootIno then rootSize files else (contentsOf files i).length
  kinds : ∀ i < wideSb.ninodes, (readInode sb disk i).type = kindOf files i
  blocks : next ≤ fsSize
  superblock : disk 1 = Bytes.ofWords (superblockWords sb)
  bitmap : ∀ b < fsSize, (view disk).used b = decide (b < next)

/-- The end of `main`: the size of the root directory and the bitmap. -/
theorem finish_spec {img : Image} (built : Built img (contentsOf files) (kindOf files)) : Yields (do
      let img ← fixRoot img rootIno
      let img ← balloc img img.freeblock
      .ok img.disk) True (img.freeblock < bsize * 8) fun disk => Finished disk files img.freeblock := by
  have root : rootIno < wideSb.ninodes := by decide
  have start : sb.bmapstart = 58 := rfl
  have data : nmeta = 63 := rfl
  generalize old : readInode sb img.disk rootIno = ip
  generalize moved : putInode img.disk rootIno { ip with size := (ip.size / bsize + 1) * bsize } = disk
  have size := built.size rootIno root
  have fitted := built.fits rootIno root
  rw [old] at size fitted
  have fits : Inode.Fits { ip with size := (ip.size / bsize + 1) * bsize } := by
    refine fitted.grow ?_ fitted.addrs fitted.unused
    have limit := built.holding.limit rootIno root
    rw [← size] at limit
    dsimp only [singleLimit, ndirect, nindirect, bsize] at limit ⊢
    omega
  have inode : ∀ i, readInode sb disk i =
      if i = rootIno then { ip with size := (ip.size / bsize + 1) * bsize } else readInode sb img.disk i := by
    intro i
    rw [← moved, readInode_putInode _ _ _ fits]
  have same : ∀ i < wideSb.ninodes,
      readInode sb (update disk sb.bmapstart (bitmapOf img.freeblock)) i = readInode sb disk i := by
    intro i inside
    rw [readInode, readInode, update_of_ne (Nat.ne_of_lt (iblock_bounds inside).2)]
  have outside : ∀ b, b < sb.inodestart ∨ sb.bmapstart ≤ b → disk b = img.disk b := by
    intro b away
    have block := iblock_bounds root
    rw [← moved, putInode_of_ne _ _ (by omega)]
  rw [fixRoot, rinode_eq img root, ok_bind, winode_eq img root, old, ok_bind, moved, balloc]
  by_cases few : img.freeblock < bsize * 8
  case neg =>
    rw [if_neg few]
    exact Yields.lacking rfl (by simp) few
  rw [if_pos few, ok_bind, wsect_of_lt _ (by decide)]
  refine .inl ⟨trivial, update disk sb.bmapstart (bitmapOf img.freeblock), rfl, ?_, ?_, ?_, built.blocks, ?_, ?_⟩
  · refine built.holding.congr rfl ?_ ?_
    · intro i inside slot slots
      simp only [view]
      rw [same i inside, inode i]
      split
      next equal => rw [equal, old]
      next => rfl
    · intro b high
      simp only [view]
      rw [update_of_ne (by omega), outside b (by omega)]
  · intro i inside
    rw [same i inside, inode i]
    split
    next equal =>
      dsimp only
      rw [size]
      rfl
    next => exact built.size i inside
  · intro i inside
    rw [same i inside, inode i]
    split
    next equal =>
      rw [equal, ← built.kinds rootIno root, old]
    next => exact built.kinds i inside
  · rw [update_of_ne (by decide), outside 1 (.inl (by decide)), built.superblock]
  · intro b inside
    have row : wideSb.bblock b = b / bpb + 58 := rfl
    simp only [State.used, view, row]
    by_cases first : b < bpb
    · rw [Nat.div_eq_of_lt first, Nat.zero_add, ← start, update_self, bit_bitmapOf, Nat.mod_eq_of_lt first]
    · have later : b / bpb + 58 ≠ sb.bmapstart ∧ b / bpb + 58 < nmeta := by
        dsimp only [fsSize, bpb, bsize] at inside first ⊢
        omega
      have past : ¬ b < img.freeblock := by
        dsimp only [bpb] at first
        omega
      have above : sb.bmapstart ≤ b / bpb + 58 := start ▸ Nat.le_add_left 58 _
      rw [update_of_ne later.1, outside _ (.inr above), built.bitmap _ above later.2]
      simp [Bytes.bit, Bytes.fill, past]

/-- A run of `mkfs` on files that the inode blocks have room for. -/
theorem mkfs_spec (room : files.length + 2 ≤ wideSb.ninodes) :
    Yields (mkfs files) (∀ file ∈ files, file.contents.length ≤ singleLimit)
      ((∀ file ∈ files, 47 ∉ file.name) ∧
        nmeta + rootCost files.length + (files.map HostFile.cost).sum < bsize * 8)
      fun disk => ∃ next, Finished disk files next := by
  have root : rootIno < wideSb.ninodes := by decide
  have type : -2 ^ 15 ≤ tDir ∧ tDir < 2 ^ 15 := by decide
  have limit : bsize * 8 ≤ fsSize := by decide
  have initial : need 0 = 0 ∧ need (0 + 16) = 1 ∧ need 16 = 1 ∧ need (16 + 16) = 1 ∧ rootCost 0 = 1 :=
    ⟨rfl, rfl, rfl, rfl, rfl⟩
  have more : rootCost 0 ≤ rootCost files.length := rootCost_mono (Nat.zero_le _)
  obtain ⟨img, ran, built, inodes, blocks⟩ := ialloc_spec built_blank root rfl type
  have first : img.freeblock = nmeta := blocks
  have next : img.freeinode = 2 := inodes
  rw [mkfs, ran, ok_bind]
  dsimp only
  rw [show blank.freeinode = rootIno from rfl, if_pos rfl]
  have entry := iappend_spec built root (dirent rootIno dot)
  rw [length_dirent, List.length_nil] at entry
  refine entry.bind (fun _ => by decide) (fun enough => by omega) ?_
  rintro img₁ - ⟨built₁, inodes₁, taken₁⟩
  have entry₁ := iappend_spec built₁ root (dirent rootIno dotdot)
  rw [update_self, length_dirent, List.nil_append, length_dirent] at entry₁
  refine entry₁.bind (fun _ => by decide) (fun enough => by omega) ?_
  rintro img₂ - ⟨built₂, inodes₂, taken₂⟩
  have contents : update (update (fun _ => []) rootIno (dirent rootIno dot)) rootIno
      (dirent rootIno dot ++ dirent rootIno dotdot) = contentsOf [] := by
    funext i
    match i with
    | 0 => rfl
    | 1 => rfl
    | i + 2 => rfl
  have kinds : update (fun _ => 0) blank.freeinode tDir = kindOf [] := by
    funext i
    simp only [kindOf, update_apply, List.length_nil]
    split
    next same => exact (if_pos same).symm
    next ne => exact ((if_neg ne).trans (if_neg (by omega))).symm
  rw [contents, kinds] at built₂
  have loop := files_spec files built₂ (by rw [inodes₂, inodes₁, next]; rfl) (by rw [List.length_nil]; omega)
  rw [List.length_nil, Nat.zero_add, List.nil_append] at loop
  refine loop.bind id (fun enough => ⟨enough.1, by omega⟩) ?_
  rintro img₃ small ⟨built₃, taken₃⟩
  exact (finish_spec built₃).mono (iff_true_intro small) (by omega) fun disk ended => ⟨_, ended⟩

end Xv6Simplesh.Mkfs
