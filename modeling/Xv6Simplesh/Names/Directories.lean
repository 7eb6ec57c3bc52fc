import Mathlib.Data.List.DropRight
import Xv6Simplesh.Library.Commands
import Xv6Simplesh.Fs.Blocks

/-! # Inodes, directories and path names

The part of `fs.c` that the system calls on names are made of: the table of inodes in
memory with its references, directories, and the walk along a path.  The calls run one
after the other, each to its end.  A directory is the list of its slots, and the in-memory
copy of an inode is the one on disk, because every change to a copy is followed by
`iupdate` before anything else looks at it; what a copy adds is that it can be `valid` or
not.
-/

namespace Xv6Simplesh.Names

open Library Function
open Fs (bsize maxFile)

/-- The length of `icache.inode`. -/
abbrev ninode : Nat := 50

abbrev slash : UInt8 := 47

/-- The name of a directory entry, without the zeros that fill it up to `DIRSIZ`. -/
abbrev Name := List UInt8

structure Dirent where
  /-- Zero in a slot that is not in use. -/
  inum : Nat
  name : Name
deriving DecidableEq, Repr

/-- The `type` of an inode; `free` is zero. -/
inductive Kind where
  | free
  | dir
  | file
  | dev
deriving DecidableEq, Repr

/-- `n` as a `short` holds it. -/
def short (n : Int) : Int := n.bmod 65536

structure Inode where
  type : Kind
  major : Int
  minor : Int
  nlink : Int
  /-- The content of a directory. -/
  slots : List Dirent
deriving DecidableEq, Repr

/-- What `memset` leaves of a `struct dinode`. -/
def Inode.blank : Inode := ⟨.free, 0, 0, 0, []⟩

/-- A process; each of its open files is of type `FD_INODE` and belongs to one descriptor,
since no call here duplicates one. -/
structure Proc where
  /-- `none` once it has exited. -/
  cwd : Option Nat
  ofile : Fin nofile → Option Nat

structure State (Pid : Type) where
  inodes : Nat → Inode
  /-- The references to the inode in memory; an inode without any is not in `icache`. -/
  ref : Nat → Nat
  valid : Nat → Bool
  /-- The sleep lock, which the running call holds. -/
  locked : Nat → Bool
  procs : Pid → Proc

/-- How a call can fail to return. -/
inductive Stop where
  | ilock
  /-- `panic("ilock: no type")`. -/
  | ilockNoType
  | iunlock
  | igetNoInodes
  | iallocNoInodes
  | dirlookupNotDir
  | dirlink
  | unlinkNlink
  | createDots
  | createDirlink
  /-- The call sleeps on a lock that it holds itself. -/
  | asleep
deriving DecidableEq, Repr

abbrev Kernel (Pid : Type) := Command (State Pid) Stop

variable {Pid : Type}

/-! ## The inodes in memory -/

/-- How many inodes are in `icache`. -/
def State.cached (s : State Pid) : Nat := ((List.range ninodes).filter fun i => 0 < s.ref i).length

/-- Change an inode and write it to disk with `iupdate`. -/
def State.setInode (s : State Pid) (ip : Nat) (node : Inode) : State Pid :=
  { s with inodes := update s.inodes ip node }

def updateInode (ip : Nat) (change : Inode → Inode) : Kernel Pid PUnit :=
  modify fun s => s.setInode ip (change (s.inodes ip))

def iget (inum : Nat) : Kernel Pid PUnit := do
  let s ← get
  if 0 < s.ref inum then set { s with ref := update s.ref inum (s.ref inum + 1) }
  else if ninode ≤ s.cached then throw .igetNoInodes
  else
    set { s with ref := update s.ref inum 1, valid := update s.valid inum false }

def idup (ip : Nat) : Kernel Pid PUnit :=
  modify fun s => { s with ref := update s.ref ip (s.ref ip + 1) }

def acquiresleep (ip : Nat) : Kernel Pid PUnit := do
  let s ← get
  if s.locked ip then throw .asleep
  else set { s with locked := update s.locked ip true }

def releasesleep (ip : Nat) : Kernel Pid PUnit :=
  modify fun s => { s with locked := update s.locked ip false }

/-- `if(ip->valid == 0)` of `ilock`. -/
def load (ip : Nat) : Kernel Pid Inode := do
  let s ← get
  if s.valid ip then pure (s.inodes ip)
  else if (s.inodes ip).type = .free then throw .ilockNoType
  else do
    set { s with valid := update s.valid ip true }
    pure (s.inodes ip)

/-- Returns the inode, whose fields may be read from now on. -/
def ilock (ip : Nat) : Kernel Pid Inode := do
  let s ← get
  if s.ref ip < 1 then throw .ilock
  else do
    acquiresleep ip
    load ip

def iunlock (ip : Nat) : Kernel Pid PUnit := do
  let s ← get
  if s.locked ip = false ∨ s.ref ip < 1 then throw .iunlock
  else releasesleep ip

/-- The part of `iput` that truncates and frees the inode, when this is the last reference
and there are no links. -/
def State.reclaim (s : State Pid) (ip : Nat) : State Pid :=
  if s.valid ip ∧ (s.inodes ip).nlink = 0 ∧ s.ref ip = 1 then
    { s.setInode ip { s.inodes ip with type := .free, slots := [] } with valid := update s.valid ip false }
  else s

def iput (ip : Nat) : Kernel Pid PUnit := do
  acquiresleep ip
  modify fun s => s.reclaim ip
  releasesleep ip
  modify fun s => { s with ref := update s.ref ip (s.ref ip - 1) }

def iunlockput (ip : Nat) : Kernel Pid PUnit := do
  iunlock ip
  iput ip

def ialloc (type : Kind) : Kernel Pid Nat := do
  let s ← get
  match (List.range' 1 (ninodes - 1)).find? fun inum => (s.inodes inum).type = .free with
  | none => throw .iallocNoInodes
  | some inum => do
    set (s.setInode inum { Inode.blank with type })
    iget inum
    pure inum

/-! ## Directories -/

/-- The loop of `dirlookup`: the number of the slot and the inode it names. -/
def scan (name : Name) : List Dirent → Nat → Option (Nat × Nat)
  | [], _ => none
  | de :: slots, off =>
    if de.inum ≠ 0 ∧ de.name = name then some (off, de.inum) else scan name slots (off + 1)

def dirlookup (dp : Nat) (name : Name) : Kernel Pid (Option (Nat × Nat)) := do
  let s ← get
  if (s.inodes dp).type ≠ .dir then throw .dirlookupNotDir
  else
    match scan name (s.inodes dp).slots 0 with
    | none => pure none
    | some (off, inum) => do
      iget inum
      pure (some (off, inum))

/-- `writei` of one entry, at the end of the directory or before it. -/
def writeSlot (slots : List Dirent) (off : Nat) (de : Dirent) : List Dirent :=
  if off < slots.length then slots.set off de else slots ++ [de]

def dirlink (dp : Nat) (name : Name) (inum : Nat) : Kernel Pid Int := do
  match ← dirlookup dp name with
  | some (_, ip) => do
    iput ip
    pure (-1)
  | none => do
    let s ← get
    let slots := (s.inodes dp).slots
    -- the loop leaves `off` at the end if no slot is empty
    let off := slots.findIdx fun de => de.inum = 0
    if maxFile * bsize < (off + 1) * direntSize then throw .dirlink
    else do
      updateInode dp fun node => { node with slots := writeSlot node.slots off ⟨inum % 65536, name⟩ }
      pure 0

/-- `.` and `..` are the first two slots. -/
def isdirempty (node : Inode) : Bool := (node.slots.drop 2).all fun de => de.inum = 0

/-! ## Paths -/

/-- The bytes of a path, up to a zero or the end of the list. -/
abbrev Path := List UInt8

/-- The next element of the path and the rest after it, without leading slashes. -/
def skipelem (path : Path) : Option (Name × Path) :=
  let path := path.dropWhile (· = slash)
  if path.headD 0 = 0 then none
  else
    let inside : UInt8 → Bool := fun c => c ≠ slash ∧ c ≠ 0
    some ((path.takeWhile inside).take dirsiz, (path.dropWhile inside).dropWhile (· = slash))

def elementsWithin : Nat → Path → List Name
  | 0, _ => []
  | fuel + 1, path =>
    match skipelem path with
    | none => []
    | some (name, rest) => name :: elementsWithin fuel rest

/-- The elements that `skipelem` takes from the path one after the other. -/
def elements (path : Path) : List Name := elementsWithin path.length path

/-- The loop of `namex`. -/
def walk (nameiparent : Bool) : List Name → Nat → Kernel Pid (Option (Nat × Name))
  | [], ip =>
    if nameiparent then do
      iput ip
      pure none
    else pure (some (ip, []))
  | name :: path, ip => do
    let node ← ilock ip
    if node.type ≠ .dir then do
      iunlockput ip
      pure none
    else if nameiparent ∧ path = [] then do
      -- stop one level early
      iunlock ip
      pure (some (ip, name))
    else
      match ← dirlookup ip name with
      | none => do
        iunlockput ip
        pure none
      | some (_, next) => do
        iunlockput ip
        walk nameiparent path next

/-- Where the path starts. -/
def origin (cwd : Nat) (path : Path) : Nat := if path.headD 0 = slash then rootIno else cwd

/-- The reference that `namex` starts with. -/
def start (cwd : Nat) (path : Path) : Kernel Pid PUnit :=
  if path.headD 0 = slash then iget rootIno else idup cwd

def namex (cwd : Nat) (path : Path) (nameiparent : Bool) : Kernel Pid (Option (Nat × Name)) := do
  start cwd path
  walk nameiparent (elements path) (origin cwd path)

def namei (cwd : Nat) (path : Path) : Kernel Pid (Option (Nat × Name)) := namex cwd path false

def nameiparent (cwd : Nat) (path : Path) : Kernel Pid (Option (Nat × Name)) := namex cwd path true

/-! ## `skipelem` runs out of path -/

theorem skipelem_shorter {path rest : Path} {name : Name} (next : skipelem path = some (name, rest)) :
    rest.length < path.length := by
  unfold skipelem at next
  dsimp only at next
  split at next
  · cases next
  next present =>
    simp only [Option.some.injEq, Prod.mk.injEq] at next
    obtain ⟨-, rfl⟩ := next
    have trimmed : (path.dropWhile (· = slash)).length ≤ path.length := (List.dropWhile_suffix _).length_le
    cases tail : path.dropWhile (· = slash) with
    | nil => exact absurd (by rw [tail]; rfl) present
    | cons c cs =>
      -- the first byte is neither a slash nor the end, so it is part of the element
      have notSlash : c ≠ slash := by
        have head := List.head_dropWhile_not (fun c : UInt8 => decide (c = slash)) (l := path) (by simp [tail])
        simpa [tail] using head
      have notEnd : c ≠ 0 := by simpa [tail] using present
      rw [List.dropWhile_cons_of_pos (by simp [notSlash, notEnd])]
      have first : ((cs.dropWhile fun c => decide (c ≠ slash ∧ c ≠ 0)).dropWhile (· = slash)).length ≤ cs.length :=
        ((List.dropWhile_suffix _).trans (List.dropWhile_suffix _)).length_le
      rw [tail, List.length_cons] at trimmed
      exact Nat.lt_of_le_of_lt first (Nat.lt_of_succ_le trimmed)

theorem elementsWithin_enough {fuel fuel' : Nat} {path : Path} (enough : path.length ≤ fuel)
    (enough' : path.length ≤ fuel') : elementsWithin fuel path = elementsWithin fuel' path := by
  induction fuel generalizing fuel' path with
  | zero =>
    have empty : path = [] := List.length_eq_zero_iff.mp (Nat.le_zero.mp enough)
    subst empty
    cases fuel' <;> rfl
  | succ fuel ih =>
    cases fuel' with
    | zero =>
      have empty : path = [] := List.length_eq_zero_iff.mp (Nat.le_zero.mp enough')
      subst empty
      rfl
    | succ fuel' =>
      simp only [elementsWithin]
      cases next : skipelem path with
      | none => rfl
      | some res =>
        have shorter := skipelem_shorter next
        exact congrArg _ (ih (by omega) (by omega))

/-- The list is what calling `skipelem` until it returns zero gives. -/
theorem elements_eq (path : Path) :
    elements path =
      match skipelem path with
      | none => []
      | some (name, rest) => name :: elements rest := by
  cases path with
  | nil => rfl
  | cons c cs =>
    rw [elements, List.length_cons, elementsWithin]
    cases next : skipelem (c :: cs) with
    | none => rfl
    | some res =>
      have shorter := skipelem_shorter next
      rw [List.length_cons] at shorter
      dsimp only
      rw [elements, elementsWithin_enough (by omega) (le_refl res.2.length)]

/-- `skipelem` has left no slashes at the start, so there is no further element exactly when
the rest is empty: the test `*path == '\0'` of `namex`. -/
theorem elements_eq_nil_iff {path rest : Path} {name : Name} (next : skipelem path = some (name, rest)) :
    elements rest = [] ↔ rest.headD 0 = 0 := by
  have bare : rest.dropWhile (· = slash) = rest := by
    unfold skipelem at next
    dsimp only at next
    split at next
    · cases next
    · simp only [Option.some.injEq, Prod.mk.injEq] at next
      rw [← next.2]
      exact List.dropWhile_idempotent _ _
  rw [elements_eq]
  constructor
  · intro none
    by_contra present
    have more : ∃ res, skipelem rest = some res := by
      unfold skipelem
      dsimp only
      rw [bare, if_neg present]
      exact ⟨_, rfl⟩
    obtain ⟨res, found⟩ := more
    rw [found] at none
    cases none
  · intro ended
    have finished : skipelem rest = none := by
      unfold skipelem
      dsimp only
      rw [bare, if_pos ended]
    rw [finished]

end Xv6Simplesh.Names
