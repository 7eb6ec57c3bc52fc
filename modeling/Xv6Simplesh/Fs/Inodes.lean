import Xv6Simplesh.Fs.Blocks

/-! # The contents of inodes: `bmap`, `itrunc`, `writei`

`bmap` finds the block of a file and allocates what is missing on the way: a
block number in the inode, or an entry of an indirect block.  `itrunc` frees all
of it.  The buffers that the code keeps while it works are the blocks of `disk`.
-/

namespace Xv6Simplesh.Fs

open Library

/-- `T_DEV`. -/
abbrev tDev : Int := 3

/-- `NDEV`. -/
abbrev ndev : Int := 10

namespace State

/-- Assign to fields of the inode in memory. -/
def setInode (s : State) (inum : Nat) (ip : Inode) : State :=
  { s with inodes := Function.update s.inodes inum ip }

def setAddr (s : State) (inum slot addr : Nat) : State :=
  let ip := s.inodes inum
  s.setInode inum { ip with addrs := Function.update ip.addrs slot addr }

def setSize (s : State) (inum size : Nat) : State :=
  s.setInode inum { s.inodes inum with size := size }

end State

/-! ## `iupdate` -/

/-- Two `short` fields that share a word of `struct dinode`. -/
def shorts (low high : Int) : Nat := (low % 2 ^ 16).toNat + 2 ^ 16 * (high % 2 ^ 16).toNat

/-- Store an inode as `struct dinode`, from word `base` of its block on. -/
def storeDinode (data : Bytes) (base : Nat) (ip : Inode) : Bytes :=
  let data := data.setWord base (shorts ip.type ip.major)
  let data := data.setWord (base + 1) (shorts ip.minor ip.nlink)
  let data := data.setWord (base + 2) ip.size
  (List.range (ndirect + 2)).foldl (fun data i => data.setWord (base + 3 + i) (ip.addrs i)) data

def iupdate (s : State) (inum : Nat) : State :=
  let block := s.sb.iblock inum
  s.logWrite block (storeDinode (s.disk block) (inum % ipb * (bsize / 4 / ipb)) (s.inodes inum))

/-! ## `bmap` -/

/-- `if((addr = ip->addrs[slot]) == 0) ip->addrs[slot] = addr = balloc(ip->dev);` -/
def loadAddr (s : State) (inum slot : Nat) : Except Panic (Nat × State) :=
  if (s.inodes inum).addrs slot = 0 then do
    let (addr, s) ← balloc s
    .ok (addr, s.setAddr inum slot addr)
  else .ok ((s.inodes inum).addrs slot, s)

/-- `if((addr = a[idx]) == 0){ a[idx] = addr = balloc(ip->dev); log_write(bp); }`
where `a` is the buffer of `block`. -/
def loadEntry (s : State) (block idx : Nat) : Except Panic (Nat × State) :=
  if (s.disk block).word idx = 0 then do
    let (addr, s) ← balloc s
    .ok (addr, s.logWrite block ((s.disk block).setWord idx addr))
  else .ok ((s.disk block).word idx, s)

def bmap (s : State) (inum bn : Nat) : Except Panic (Nat × State) :=
  if bn < ndirect then loadAddr s inum bn
  else
    let bn := bn - ndirect
    if bn < nindirect then do
      let (addr, s) ← loadAddr s inum ndirect
      loadEntry s addr bn
    else
      let bn := bn - nindirect
      if bn < nindirect * nindirect then do
        let (addr, s) ← loadAddr s inum (ndirect + 1)
        let (addr, s) ← loadEntry s addr (bn / nindirect)
        loadEntry s addr (bn % nindirect)
      else .error .outOfRange

/-! ## `itrunc` -/

/-- `if(a[idx]) bfree(ip->dev, a[idx]);` -/
def freeEntry (block : Nat) (s : State) (idx : Nat) : Except Panic State :=
  if (s.disk block).word idx = 0 then .ok s else bfree s ((s.disk block).word idx)

/-- The loop over the entries of an indirect block. -/
def freeEntries (s : State) (block : Nat) : Except Panic State :=
  (List.range nindirect).foldlM (freeEntry block) s

/-- The loop body for the entries of the doubly indirect block. -/
def freeTable (block : Nat) (s : State) (idx : Nat) : Except Panic State :=
  if (s.disk block).word idx = 0 then .ok s
  else do
    let s ← freeEntries s ((s.disk block).word idx)
    bfree s ((s.disk block).word idx)

/-- The loop body for the blocks in the inode. -/
def freeDirect (inum : Nat) (s : State) (slot : Nat) : Except Panic State :=
  if (s.inodes inum).addrs slot = 0 then .ok s
  else do
    let s ← bfree s ((s.inodes inum).addrs slot)
    .ok (s.setAddr inum slot 0)

/-- The part of `itrunc` for `addrs[NDIRECT]`. -/
def freeIndirect (s : State) (inum : Nat) : Except Panic State :=
  if (s.inodes inum).addrs ndirect = 0 then .ok s
  else do
    let s ← freeEntries s ((s.inodes inum).addrs ndirect)
    let s ← bfree s ((s.inodes inum).addrs ndirect)
    .ok (s.setAddr inum ndirect 0)

/-- The part of `itrunc` for `addrs[NDIRECT+1]`. -/
def freeDouble (s : State) (inum : Nat) : Except Panic State :=
  if (s.inodes inum).addrs (ndirect + 1) = 0 then .ok s
  else do
    let s ← (List.range nindirect).foldlM (freeTable ((s.inodes inum).addrs (ndirect + 1))) s
    let s ← bfree s ((s.inodes inum).addrs (ndirect + 1))
    .ok (s.setAddr inum (ndirect + 1) 0)

def itrunc (s : State) (inum : Nat) : Except Panic State := do
  let s ← (List.range ndirect).foldlM (freeDirect inum) s
  let s ← freeIndirect s inum
  let s ← freeDouble s inum
  .ok (iupdate (s.setSize inum 0) inum)

/-! ## `writei` -/

/-- The bytes that one iteration of the loop of `writei` moves. -/
def chunk (off n tot : Nat) : Nat := min (n - tot) (bsize - off % bsize)

/-- The loop of `writei`; `off` has moved on by `tot`. -/
def writeLoop (s : State) (inum : Nat) (src : Nat → UInt8) (off n tot : Nat) : Except Panic State :=
  if tot < n then do
    let (block, s) ← bmap s inum (off / bsize)
    let m := chunk off n tot
    let s := s.logWrite block ((s.disk block).copy (off % bsize) (fun i => src (tot + i)) m)
    writeLoop s inum src (off + m) n (tot + m)
  else .ok s
termination_by n - tot
decreasing_by
  dsimp only [chunk, bsize]
  omega

/-- The table of device drivers: the `write` of a major number, if it has one. -/
abbrev Devsw := Int → Option ((Nat → UInt8) → Nat → Int)

/-- `writei`, with the arithmetic on `uint` written out. -/
def writei (devsw : Devsw) (s : State) (inum : Nat) (src : Nat → UInt8) (off n : Nat) : Except Panic (Int × State) :=
  let ip := s.inodes inum
  if ip.type = tDev then
    if ip.major < 0 ∨ ip.major ≥ ndev then .ok (-1, s)
    else
      match devsw ip.major with
      | none => .ok (-1, s)
      | some write => .ok (write src n, s)
  else if off > ip.size ∨ (off + n) % 2 ^ 32 < off then .ok (-1, s)
  else if (off + n) % 2 ^ 32 > maxFile * bsize then .ok (-1, s)
  else do
    let s ← writeLoop s inum src off n 0
    if n > 0 ∧ off + n > (s.inodes inum).size then
      .ok (n, iupdate (s.setSize inum (off + n)) inum)
    else .ok (n, s)

end Xv6Simplesh.Fs
