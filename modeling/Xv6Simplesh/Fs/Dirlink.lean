import Xv6Simplesh.Fs.Steady

/-! # Runs of file calls

`dirlink` reads a directory with `readi` and writes one entry with `writei`; where the name
is there already it only drops the reference that `dirlookup` took.  From a state without
holes and with all inodes on the disk, any run of `writei`, `itrunc`, `dirlink` and `readi`
keeps it so, provided that no block belongs to two files: `crossLinked` shows a file
whose indirect block is another file's data.
-/

namespace Xv6Simplesh.Fs

open Library Mkfs

/-! ## `dirlink` -/

inductive DirPanic where
  | fs (panic : Panic)
  | dirlookupNotDir
  | dirlookupRead
  | dirlinkRead
  | dirlink
deriving DecidableEq, Repr

/-- `strncmp` of two strings; a string goes on with 0 after its bytes. -/
def strncmp : Nat → List UInt8 → List UInt8 → Int
  | 0, _, _ => 0
  | n + 1, p, q =>
    if p.headD 0 ≠ 0 ∧ p.headD 0 = q.headD 0 then strncmp n p.tail q.tail
    else (p.headD 0).toNat - (q.headD 0).toNat

def namecmp (s t : List UInt8) : Int := strncmp dirsiz s t

/-- `readi` of the entry at `off`, with the panic if it is not whole. -/
def readEntry (devsw : DevswRead) (panic : DirPanic) (s : State) (dp off : Nat) :
    Except DirPanic (List UInt8 × State) :=
  match readi devsw s dp off direntSize with
  | .error failed => .error (.fs failed)
  | .ok (r, de, s) => if r = direntSize then .ok (de, s) else .error panic

/-- The loop of `dirlookup`: the inode number of the entry and its offset. -/
def dirlookupLoop (devsw : DevswRead) (dp : Nat) (name : List UInt8) :
    Nat → State → Nat → Except DirPanic (Option (Nat × Nat) × State)
  | 0, s, _ => .ok (none, s)
  | count + 1, s, off =>
    if off < (s.inodes dp).size then do
      let (de, s) ← readEntry devsw .dirlookupRead s dp off
      if direntInum de = 0 then dirlookupLoop devsw dp name count s (off + direntSize)
      else if namecmp name (de.drop 2) = 0 then .ok (some (direntInum de, off), s)
      else dirlookupLoop devsw dp name count s (off + direntSize)
    else .ok (none, s)

/-- The number of entries in a directory. -/
def State.entryCount (s : State) (dp : Nat) : Nat := ((s.inodes dp).size + (direntSize - 1)) / direntSize

def dirlookup (devsw : DevswRead) (s : State) (dp : Nat) (name : List UInt8) :
    Except DirPanic (Option (Nat × Nat) × State) :=
  if (s.inodes dp).type ≠ tDir then .error .dirlookupNotDir
  else dirlookupLoop devsw dp name (s.entryCount dp) s 0

/-- The loop of `dirlink` that looks for an empty entry. -/
def emptyLoop (devsw : DevswRead) (dp : Nat) : Nat → State → Nat → Except DirPanic (Nat × State)
  | 0, s, off => .ok (off, s)
  | count + 1, s, off =>
    if off < (s.inodes dp).size then do
      let (de, s) ← readEntry devsw .dirlinkRead s dp off
      if direntInum de = 0 then .ok (off, s) else emptyLoop devsw dp count s (off + direntSize)
    else .ok (off, s)

/-- `iput`; `last` says that the inode in memory is valid and this its only reference. -/
def iput (s : State) (inum : Nat) (last : Bool) : Except Panic State :=
  if last ∧ (s.inodes inum).nlink = 0 then do
    let s ← itrunc s inum
    .ok (iupdate (s.setInode inum { s.inodes inum with type := 0 }) inum)
  else .ok s

/-- `dirlink` of `name` to inode `inum`; `last` are the inodes that the cache has with one
reference only. -/
def dirlink (devsw : DevswRead × Devsw) (s : State) (dp : Nat) (name : List UInt8) (inum : Nat) (last : Nat → Bool) :
    Except DirPanic (Int × State) := do
  let (found, s) ← dirlookup devsw.1 s dp name
  match found with
  | some (ip, _) =>
    match iput s ip (last ip) with
    | .error failed => .error (.fs failed)
    | .ok s => .ok (-1, s)
  | none =>
    let (off, s) ← emptyLoop devsw.1 dp (s.entryCount dp) s 0
    match writei devsw.2 s dp (fun i => (dirent inum name).getD i 0) off direntSize with
    | .error failed => .error (.fs failed)
    | .ok (r, s) => if r = direntSize then .ok (0, s) else .error .dirlink

/-! ## What `dirlink` keeps -/

namespace Steady

variable {s s' : State} {dp : Nat} {devsw : DevswRead}

section

variable (steady : Steady s) (bound : dp < s.sb.ninodes) (file : (s.inodes dp).type ≠ tDev)

include steady bound file

theorem readEntry {off : Nat} (inside : off < (s.inodes dp).size) {panic : DirPanic} {de : List UInt8}
    (read : Fs.readEntry devsw panic s dp off = .ok (de, s')) : s' = s := by
  have size := (steady.solid dp bound).size_le
  have offUint : off < 2 ^ 32 := by
    dsimp only [maxFile, ndirect, nindirect, bsize] at size
    omega
  obtain ⟨r, dst, same⟩ := steady.readi bound file devsw offUint (by decide : direntSize < 2 ^ 32)
  unfold Fs.readEntry at read
  rw [same] at read
  simp only at read
  split at read
  · cases read
    rfl
  · cases read

theorem dirlookupLoop {name : List UInt8} {count off : Nat} {found : Option (Nat × Nat)}
    (looked : Fs.dirlookupLoop devsw dp name count s off = .ok (found, s')) : s' = s := by
  induction count generalizing off with
  | zero =>
    cases looked
    rfl
  | succ count ih =>
    rw [Fs.dirlookupLoop] at looked
    split at looked
    next inside =>
      obtain ⟨⟨de, s₁⟩, read, rest⟩ := ok_of_bind looked
      obtain rfl := steady.readEntry bound file inside read
      dsimp only at rest
      split at rest
      · exact ih rest
      · split at rest
        · cases rest
          rfl
        · exact ih rest
    next =>
      cases looked
      rfl

theorem emptyLoop {count off off' : Nat} (start : off < (s.inodes dp).size + direntSize)
    (looked : Fs.emptyLoop devsw dp count s off = .ok (off', s')) :
    s' = s ∧ off' < (s.inodes dp).size + direntSize := by
  induction count generalizing off with
  | zero =>
    cases looked
    exact ⟨rfl, start⟩
  | succ count ih =>
    rw [Fs.emptyLoop] at looked
    split at looked
    next inside =>
      obtain ⟨⟨de, s₁⟩, read, rest⟩ := ok_of_bind looked
      obtain rfl := steady.readEntry bound file inside read
      dsimp only at rest
      split at rest
      · cases rest
        exact ⟨rfl, start⟩
      · exact ih (by omega) rest
    next =>
      cases looked
      exact ⟨rfl, start⟩

end

theorem iput (steady : Steady s) {inum : Nat} {last : Bool} (bound : last = true → inum < s.sb.ninodes)
    (put : Fs.iput s inum last = .ok s') : s'.sb = s.sb ∧ Steady s' := by
  unfold Fs.iput at put
  split at put
  next drops =>
    obtain ⟨mid, truncated, ended⟩ := ok_of_bind put
    obtain ⟨sb, steady', empty, -⟩ := steady.itrunc (bound drops.1) truncated
    cases ended
    have inside : inum < mid.sb.ninodes := sb ▸ bound drops.1
    have owned := steady'.owned.setInode { mid.inodes inum with type := 0 } rfl
    have fits := steady'.synced.fits inside
    refine ⟨sb, iupdate_empty owned inside (fun i inside other => ?_) (fun i inside other => ?_) ?_ ?_⟩
    · exact (keeps_setInode mid other _).solid (steady'.solid i inside)
    · rw [(keeps_setInode mid other _).inode]
      exact steady'.synced i inside
    · simp only [State.setInode, Function.update_self]
      exact empty
    · simp only [State.setInode, Function.update_self]
      exact ⟨(by decide : -2 ^ 15 ≤ (0 : Int) ∧ (0 : Int) < 2 ^ 15), fits.major, fits.minor, fits.nlink, fits.size, fits.addrs, fits.unused⟩
  next =>
    cases put
    exact ⟨rfl, steady⟩

theorem dirlink (steady : Steady s) (bound : dp < s.sb.ninodes) (file : (s.inodes dp).type ≠ tDev)
    {devsw : DevswRead × Devsw} {name : List UInt8} {inum : Nat} {last : Nat → Bool}
    (cached : ∀ i, last i = true → i < s.sb.ninodes) {r : Int}
    (linked : Fs.dirlink devsw s dp name inum last = .ok (r, s')) : s'.sb = s.sb ∧ Steady s' := by
  obtain ⟨⟨found, s₁⟩, looked, rest⟩ := ok_of_bind linked
  -- looking for the name changes nothing
  obtain rfl : s₁ = s := by
    unfold dirlookup at looked
    split at looked
    · cases looked
    · exact steady.dirlookupLoop bound file looked
  cases found with
  | some entry =>
    dsimp only at rest
    split at rest
    · cases rest
    next put =>
      cases rest
      exact steady.iput (cached _) put
  | none =>
    obtain ⟨⟨off, s₂⟩, scanned, wrote⟩ := ok_of_bind rest
    obtain ⟨rfl, near⟩ := steady.emptyLoop bound file (Nat.add_pos_right _ (by decide)) scanned
    dsimp only at wrote
    split at wrote
    · cases wrote
    next res s₃ written =>
      have size := (steady.solid dp bound).size_le
      have offUint : off < 2 ^ 32 := by
        dsimp only [maxFile, ndirect, nindirect, bsize, direntSize, dirsiz] at size near
        omega
      have kept := steady.writei bound file offUint (by decide) written
      split at wrote
      · cases wrote
        exact kept
      · cases wrote

end Steady

/-! ## Runs -/

inductive FileCall where
  | readi (inum : Nat) (off n : UInt32)
  | writei (inum : Nat) (src : Nat → UInt8) (off n : UInt32)
  | itrunc (inum : Nat)
  | dirlink (dp : Nat) (name : List UInt8) (inum : Nat) (last : Nat → Bool)

/-- The inode that a call works on. -/
def FileCall.inode : FileCall → Nat
  | .readi inum _ _ => inum
  | .writei inum _ _ _ => inum
  | .itrunc inum => inum
  | .dirlink dp _ _ _ => dp

/-- The call is on an inode of the file system that is not a device, and so are the
inodes in memory. -/
def FileCall.Valid (s : State) (call : FileCall) : Prop :=
  call.inode < s.sb.ninodes ∧ (s.inodes call.inode).type ≠ tDev ∧
    ∀ dp name inum last, call = .dirlink dp name inum last → ∀ i, last i = true → i < s.sb.ninodes

/-- The state after a call that returns. -/
def FileCall.perform (devsw : DevswRead × Devsw) (s : State) : FileCall → Option State
  | .readi inum off n => (Fs.readi devsw.1 s inum off.toNat n.toNat).toOption.map fun res => res.2.2
  | .writei inum src off n => (Fs.writei devsw.2 s inum src off.toNat n.toNat).toOption.map Prod.snd
  | .itrunc inum => (Fs.itrunc s inum).toOption
  | .dirlink dp name inum last => (Fs.dirlink devsw s dp name inum last).toOption.map Prod.snd

/-- The runs of file calls from a state. -/
def files (devsw : DevswRead × Devsw) (start : State) : System State FileCall where
  initial s := s = start
  step := FileCall.perform devsw

theorem toOption_eq_some {Error Value : Type} {res : Except Error Value} {val : Value}
    (returned : res.toOption = some val) : res = .ok val := by
  cases res with
  | error => cases returned
  | ok => cases returned; rfl

theorem Steady.perform {devsw : DevswRead × Devsw} {s s' : State} (steady : Steady s) {call : FileCall}
    (valid : call.Valid s) (performed : call.perform devsw s = some s') : Steady s' := by
  obtain ⟨bound, file, cached⟩ := valid
  cases call with
  | readi inum off n =>
    obtain ⟨r, dst, read⟩ := steady.readi bound file devsw.1 off.toNat_lt n.toNat_lt
    have read' : Fs.readi devsw.1 s inum off.toNat n.toNat = .ok (r, dst, s) := read
    simp only [FileCall.perform, read'] at performed
    cases performed
    exact steady
  | writei inum src off n =>
    obtain ⟨⟨r, s'⟩, wrote, rfl⟩ := Option.map_eq_some_iff.mp performed
    exact (steady.writei bound file off.toNat_lt n.toNat_lt (toOption_eq_some wrote)).2
  | itrunc inum => exact (steady.itrunc bound (toOption_eq_some performed)).2.1
  | dirlink dp name inum last =>
    obtain ⟨⟨r, s'⟩, linked, rfl⟩ := Option.map_eq_some_iff.mp performed
    exact (steady.dirlink bound file (cached _ _ _ _ rfl) (toOption_eq_some linked)).2

theorem steady_of_reachable {devsw : DevswRead × Devsw} {start s : State} (steady : Steady start)
    (reach : (files devsw start).Reachable FileCall.Valid s) : Steady s := by
  refine reach.invariant Steady ?_ ?_
  · rintro _ rfl
    exact steady
  · intro s call next _ steady valid performed
    exact steady.perform valid performed

/-- Where no block belongs to two files, reading never allocates: every run keeps all files
without holes and all inodes in memory equal to those on the disk, and `readi` returns
in the state that it was called in. -/
theorem reading_never_allocates (devsw : DevswRead × Devsw) (start s : State) (owned : Owned start)
    (solid : ∀ i < start.sb.ninodes, start.Solid i) (synced : Synced start)
    (reach : (files devsw start).Reachable FileCall.Valid s) :
    (∀ i < s.sb.ninodes, s.Solid i) ∧ Synced s ∧
      ∀ inum < s.sb.ninodes, (s.inodes inum).type ≠ tDev → ∀ off n : UInt32,
        ∃ r dst, readi devsw.1 s inum off.toNat n.toNat = .ok (r, dst, s) := by
  have steady := steady_of_reachable ⟨owned, solid, synced⟩ reach
  refine ⟨steady.solid, steady.synced, fun inum bound file off n => ?_⟩
  exact steady.readi bound file devsw.1 off.toNat_lt n.toNat_lt

/-- On the image that `mkfs` makes of one file, after a write to its first byte. -/
theorem reading_never_allocates_readme : ∃ disk s, mkfs [readmeFile] = .ok disk ∧
    writei (fun _ => none) (State.ofDisk disk) 2 (fun _ => 74) 0 1 = .ok (1, s) ∧ Synced s ∧
    readi (fun _ => none) s 2 0 100 = .ok (6, [74, 101, 108, 108, 111, 10], s) := by
  have small : ∀ file ∈ [readmeFile], file.contents.length ≤ singleLimit := by decide
  obtain ⟨disk, next, ran, ended⟩ := mkfs_completes (by decide) small (by decide) (by decide)
  have owned := ended.owned (by decide)
  have solid : ∀ i < (State.ofDisk disk).sb.ninodes, (State.ofDisk disk).Solid i :=
    (ended.complete_iff (by decide)).mpr (by decide)
  obtain ⟨⟨sb, type⟩, size, agrees⟩ := ended.agrees (by decide) (i := 0) rfl
  have inside : 2 < (State.ofDisk disk).sb.ninodes := by
    rw [sb]
    decide
  have file : ((State.ofDisk disk).inodes 2).type ≠ tDev := by
    rw [type]
    decide
  have accepts : ¬ (State.ofDisk disk).Refuses 2 0 1 := by
    rw [State.Refuses, size]
    decide
  -- the block is there
  have none : (State.ofDisk disk).missing 2 (pathRoles (blockList 0 1)) = ∅ := by
    have blocks : blockList 0 1 = [0] := blockList_eq (by decide)
    have roles : pathRoles [0] = {Role.leaf 0} := by decide
    have there := solid 2 inside 0 (by rw [size]; decide)
    rw [blocks, roles]
    exact Finset.filter_singleton _ _ |>.trans (if_neg there)
  obtain ⟨s, wrote⟩ := writei_completes (fun _ => Option.none) (fun _ => 74) owned inside file accepts
    (by rw [none]; exact Nat.zero_le _)
  obtain ⟨-, written⟩ := writei_overwritten _ owned inside solid file accepts wrote
  have reach : (files (fun _ => Option.none, fun _ => Option.none) (State.ofDisk disk)).Reachable FileCall.Valid s := by
    refine .step (.writei 2 (fun _ => 74) 0 1) (.initial rfl) ⟨inside, file, fun _ _ _ _ same => ?_⟩ ?_
    · cases same
    · simp only [files, FileCall.perform, UInt32.toNat_zero, UInt32.toNat_one, wrote]
      rfl
  obtain ⟨-, synced, reads⟩ := reading_never_allocates (fun _ => Option.none, fun _ => Option.none)
    (State.ofDisk disk) s owned solid (fun _ _ => rfl) reach
  have file' : (s.inodes 2).type ≠ tDev := by
    rw [written.type]
    exact file
  have text : (State.ofDisk disk).contents 2 = readmeFile.contents := by
    have short : ((State.ofDisk disk).contents 2).length ≤ 100 := by
      rw [State.contents_eq, List.length_map, List.length_range, size]
      decide
    have same := (readi_contents (fun _ => Option.none) (solid 2 inside) file (Nat.zero_le _)
      (by decide : 0 + 100 < 2 ^ 32)).symm.trans (agrees _ 100 (by decide) (by decide))
    rw [List.drop_zero, List.take_of_length_le short] at same
    exact congrArg (fun res => res.2.1) (Except.ok.inj same)
  obtain ⟨r, dst, read⟩ := reads 2 (written.sb ▸ inside) file' 0 100
  have bytes := read.symm.trans (readi_contents (fun _ => Option.none) (written.solid 2 inside) file' (Nat.zero_le _)
    (by decide : 0 + 100 < 2 ^ 32))
  rw [written.size, written.contents, text, size] at bytes
  exact ⟨disk, s, ran, wrote, synced, read.trans bytes⟩

/-! ## Files that share a block -/

/-- A small file system: file 2 has one block, which is the indirect block of file 3 as well. -/
def crossLinked : State := State.ofDisk fun b =>
  Bytes.ofWords fun idx =>
    if b = 1 then superblockWords ⟨50, 15, 4, 30, 2, 32, 34⟩ idx
    else if b = 32 then
      -- file 2 is 512 bytes long, file 3 has one block more than direct ones
      match idx / 16, idx % 16 with
      | 1, 0 => 1
      | 2, 0 => 2
      | 2, 1 => 2 ^ 16
      | 2, 2 => 512
      | 2, 3 => 35
      | 3, 0 => 2
      | 3, 1 => 2 ^ 16
      | 3, 2 => 12 * 512
      | 3, 14 => 35
      | 3, column => if 3 ≤ column ∧ column < 14 then column + 33 else 0
      | _, _ => 0
    else if b = 34 then if idx = 0 then 2 ^ 32 - 1 else if idx = 1 then 2 ^ 16 - 1 else 0
    else if b = 35 then if idx = 0 then 47 else 0
    else 0

/-- Four zero bytes written to file 2 are a hole in file 3, and reading file 3 there takes a
free block and logs it. -/
theorem crossLinked_read_allocates : (∀ i < crossLinked.sb.ninodes, crossLinked.Solid i) ∧ Synced crossLinked ∧
      ∃ s s', (files (fun _ => none, fun _ => none) crossLinked).Reachable FileCall.Valid s ∧ ¬ s.Solid 3 ∧
        readi (fun _ => none) s 3 5632 1 = .ok (1, [0], s') ∧ s.logged = [35] ∧ s'.logged = [35, 48, 34, 35] := by
  have solid : ∀ i < crossLinked.sb.ninodes, ∀ bn < ((crossLinked.inodes i).size + (bsize - 1)) / bsize,
      crossLinked.block i bn ≠ 0 := by
    decide +kernel
  have valid : FileCall.Valid crossLinked (.writei 2 (fun _ => 0) 0 4) :=
    ⟨by decide +kernel, by decide +kernel, fun _ _ _ _ same => by cases same⟩
  have evaluated : ((FileCall.perform (fun _ => none, fun _ => none) crossLinked (.writei 2 (fun _ => 0) 0 4)).any
      fun s => decide ((s.inodes 3).size = 6144 ∧ s.block 3 11 = 0 ∧ s.logged = [35]) &&
        (readi (fun _ => none) s 3 5632 1).toOption.any fun (r, dst, s') =>
          decide (r = 1 ∧ dst = [0] ∧ s'.logged = [35, 48, 34, 35])) = true := by
    decide +kernel
  obtain ⟨s, performed, found⟩ := (Option.any_eq_true _ _).mp evaluated
  obtain ⟨before, after⟩ := Bool.and_eq_true_iff.mp found
  obtain ⟨size, hole, logged⟩ := of_decide_eq_true before
  obtain ⟨⟨r, dst, s'⟩, read, res⟩ := (Option.any_eq_true _ _).mp after
  obtain ⟨rfl, rfl, logged'⟩ := of_decide_eq_true res
  refine ⟨solid, fun _ _ => rfl, s, s', .step _ (.initial rfl) valid performed, fun whole => ?_,
    toOption_eq_some read, logged, logged'⟩
  refine whole 11 ?_ hole
  rw [size]
  decide

end Xv6Simplesh.Fs
