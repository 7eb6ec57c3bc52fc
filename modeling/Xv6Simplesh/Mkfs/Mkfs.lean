import Xv6Simplesh.Fs.Image
import Xv6Simplesh.Fs.Reads

/-! # `mkfs`

The program that builds the file system image on the host.  It hands out inodes and
blocks by counting, appends to files through `iappend`, and writes the bitmap when
everything else is in place.

The image is the function from sectors to their bytes.  `mkfs` stops early when an
assertion fails or when a sector cannot be read.  `iappend` also indexes an array of
`NINDIRECT` words on its stack without a check; an index past the end is undefined
behaviour, and `Leaves` says that nothing is known about the image in that case.
-/

namespace Xv6Simplesh.Mkfs

open Library Fs Function

/-! ## Layout -/

/-- `T_FILE`. -/
abbrev tFile : Int := 2

def nbitmap : Nat := fsSize / (bsize * 8) + 1
def ninodeblocks : Nat := ninodes / ipb + 1
def nlog : Nat := logSize

/-- The number of blocks for the boot block, the super block, the log, the inodes and the bitmap. -/
def nmeta : Nat := 2 + nlog + ninodeblocks + nbitmap

def sb : Superblock where
  size := fsSize
  nblocks := fsSize - nmeta
  ninodes := ninodes
  nlog := nlog
  logstart := 2
  inodestart := 2 + nlog
  bmapstart := 2 + nlog + ninodeblocks

/-! ## Sectors -/

inductive Assertion where
  /-- `assert(rootino == ROOTINO)` -/
  | rootino
  /-- `assert(idx(argv[i], '/') == 0)` -/
  | slash
  /-- `assert(fbn < MAXFILE)` -/
  | fbn
  /-- `assert(used < BSIZE*8)` -/
  | used
deriving DecidableEq, Repr

/-- Why `mkfs` does not get to `exit(0)`. -/
inductive Stop where
  | assertion (failed : Assertion)
  /-- `perror("read"); exit(1);` in `rsect` -/
  | read
  /-- An access past the end of `indirect`. -/
  | outOfBounds
deriving DecidableEq, Repr

/-- The file `fsfd` and the counters. -/
structure Image where
  disk : Nat → Bytes
  freeinode : Nat
  freeblock : Nat

/-- The sector at the offset `sec * BSIZE`, which is a `uint`. -/
def sector (sec : Nat) : Nat := sec * bsize % 2 ^ 32 / bsize

/-- `rsect`: a read at or past the end of the file returns fewer than `BSIZE` bytes.  The
file keeps its size, since `mkfs` reads every sector before it writes it again. -/
def rsect (img : Image) (sec : Nat) : Except Stop Bytes :=
  if sector sec < fsSize then .ok (img.disk (sector sec)) else .error .read

def wsect (img : Image) (sec : Nat) (buf : Bytes) : Image :=
  { img with disk := update img.disk (sector sec) buf }

/-! ## Inodes -/

def winode (img : Image) (inum : Nat) (ip : Inode) : Except Stop Image := do
  let bn := sb.iblock inum
  let buf ← rsect img bn
  .ok (wsect img bn (storeDinode buf (dinodeBase inum) ip))

def rinode (img : Image) (inum : Nat) : Except Stop Inode := do
  let buf ← rsect img (sb.iblock inum)
  .ok (loadDinode buf (dinodeBase inum))

/-- The inode of `ialloc`, with one link and no contents. -/
def newInode (type : Int) : Inode where
  type := type
  major := 0
  minor := 0
  nlink := 1
  size := 0
  addrs := fun _ => 0

def ialloc (img : Image) (type : Int) : Except Stop (Nat × Image) := do
  let inum := img.freeinode
  let img ← winode { img with freeinode := inum + 1 } inum (newInode type)
  .ok (inum, img)

/-! ## `iappend` -/

/-- `if(xint(din.addrs[slot]) == 0) din.addrs[slot] = xint(freeblock++);` and the value of the slot. -/
def allocAddr (img : Image) (din : Inode) (slot : Nat) : Nat × Inode × Image :=
  if din.addrs slot = 0 then
    (img.freeblock, { din with addrs := update din.addrs slot img.freeblock },
      { img with freeblock := img.freeblock + 1 })
  else (din.addrs slot, din, img)

/-- `if(indirect[idx] == 0){ indirect[idx] = xint(freeblock++); wsect(addr, indirect); }` and
the value of the entry. -/
def allocEntry (img : Image) (addr : Nat) (indirect : Bytes) (idx : Nat) : Nat × Image :=
  if indirect.word idx = 0 then
    (img.freeblock, wsect { img with freeblock := img.freeblock + 1 } addr (indirect.setWord idx img.freeblock))
  else (indirect.word idx, img)

/-- The part of the loop of `iappend` that finds the block `x` of `fbn`. -/
def locate (img : Image) (din : Inode) (fbn : Nat) : Except Stop (Nat × Inode × Image) :=
  if fbn < ndirect then .ok (allocAddr img din fbn)
  else do
    let (addr, din, img) := allocAddr img din ndirect
    let indirect ← rsect img addr
    -- the array has `NINDIRECT` words, and `fbn` is only known to be below `MAXFILE`
    if fbn - ndirect < nindirect then
      let (x, img) := allocEntry img addr indirect (fbn - ndirect)
      .ok (x, din, img)
    else .error .outOfBounds

/-- `n1`: what of `n` bytes goes to the block at `off`. -/
def portion (off n : Nat) : Nat := min n ((off / bsize + 1) * bsize - off)

/-- The loop of `iappend`, over the bytes that are left. -/
def appendLoop (img : Image) (din : Inode) (off : Nat) (p : List UInt8) : Except Stop (Image × Inode × Nat) :=
  if 0 < p.length then
    let fbn := off / bsize
    if fbn < maxFile then do
      let (x, din, img) ← locate img din fbn
      let n1 := portion off p.length
      let buf ← rsect img x
      let img := wsect img x (buf.copy (off - fbn * bsize) (fun i => p.getD i 0) n1)
      appendLoop img din (off + n1) (p.drop n1)
    else .error (.assertion .fbn)
  else .ok (img, din, off)
termination_by p.length
decreasing_by
  simp only [List.length_drop]
  dsimp only [portion, bsize]
  omega

def iappend (img : Image) (inum : Nat) (p : List UInt8) : Except Stop Image := do
  let din ← rinode img inum
  let (img, din, off) ← appendLoop img din din.size p
  winode img inum { din with size := off }

/-! ## Directory entries -/

/-- `strncpy` into a field of `count` bytes. -/
def strncpy (name : List UInt8) (count : Nat) : List UInt8 :=
  name.take count ++ List.replicate (count - name.length) 0

/-- `struct dirent`, with `inum` in Intel byte order. -/
def dirent (inum : Nat) (name : List UInt8) : List UInt8 :=
  UInt8.ofNat inum :: UInt8.ofNat (inum / 256) :: strncpy name dirsiz

/-! ## `main` -/

/-- An input file: its name in `argv`, and the pieces in which `read` delivers it. -/
structure HostFile where
  name : List UInt8
  terminated : 0 ∉ name
  chunks : List (List UInt8)
  sized : ∀ chunk ∈ chunks, 0 < chunk.length ∧ chunk.length ≤ bsize

def HostFile.contents (file : HostFile) : List UInt8 := file.chunks.flatten

/-- The name in the file system: a leading `_` is skipped. -/
def HostFile.target (file : HostFile) : List UInt8 :=
  if file.name.head? = some 95 then file.name.tail else file.name

/-- The body of the loop of `main` over the input files. -/
def addFile (rootino : Nat) (img : Image) (file : HostFile) : Except Stop Image :=
  if 47 ∈ file.name then .error (.assertion .slash)
  else do
    let (inum, img) ← ialloc img tFile
    let img ← iappend img rootino (dirent inum file.target)
    file.chunks.foldlM (fun img chunk => iappend img inum chunk) img

/-- `fix size of root inode dir` -/
def fixRoot (img : Image) (rootino : Nat) : Except Stop Image := do
  let din ← rinode img rootino
  winode img rootino { din with size := (din.size / bsize + 1) * bsize }

/-- The buffer of `balloc`. -/
def bitmapOf (used : Nat) : Bytes := (List.range used).foldl Bytes.setBit (Bytes.fill 0)

def balloc (img : Image) (used : Nat) : Except Stop Image :=
  if used < bsize * 8 then .ok (wsect img sb.bmapstart (bitmapOf used))
  else .error (.assertion .used)

/-- The image with nothing but the super block. -/
def blank : Image where
  disk := update (fun _ => Bytes.fill 0) 1 (Bytes.ofWords (superblockWords sb))
  freeinode := 1
  freeblock := nmeta

def mkfs (files : List HostFile) : Except Stop (Nat → Bytes) := do
  let (rootino, img) ← ialloc blank tDir
  if rootino = rootIno then
    let img ← iappend img rootino (dirent rootino dot)
    let img ← iappend img rootino (dirent rootino dotdot)
    let img ← files.foldlM (addFile rootino) img
    let img ← fixRoot img rootino
    let img ← balloc img img.freeblock
    .ok img.disk
  else .error (.assertion .rootino)

/-- The images with which a run of `mkfs` may end, if it runs to completion: the one
that it writes, and any at all once the behaviour is undefined. -/
def Leaves (result : Except Stop (Nat → Bytes)) (disk : Nat → Bytes) : Prop :=
  result = .ok disk ∨ result = .error .outOfBounds

end Xv6Simplesh.Mkfs
