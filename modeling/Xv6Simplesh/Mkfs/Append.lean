import Xv6Simplesh.Mkfs.Placement

/-! # `iappend` appends

The loop of `iappend` works on a copy of the inode, so the state that it works on is
the disk with that copy in place of the inode.  One iteration finds or hands out the
block at the end of the file and writes to it.  As long as the file stays within the
singly indirect blocks, `iappend` fails only when the image has no block left; past
them it does not return at all.
-/

namespace Xv6Simplesh.Mkfs

open Library Fs Function

/-! ## Sectors and inodes as the kernel sees them -/

/-- The super block with as many inodes as the inode blocks have room for. -/
def wideSb : Superblock := { sb with ninodes := ninodeblocks * ipb }

/-- The file system on a disk, over all inodes that the inode blocks have room for. -/
def view (disk : Nat → Bytes) : State where
  sb := wideSb
  disk := disk
  inodes := readInode sb disk
  logged := []

/-- The file system while `din` is a copy of an inode that is being worked on. -/
def viewWith (disk : Nat → Bytes) (inum : Nat) (din : Inode) : State := (view disk).setInode inum din

variable {inum sec : Nat} {img' : Image} {din' : Inode}

theorem sector_of_lt (small : sec < 2 ^ 23) : sector sec = sec := by
  dsimp only [sector, bsize]
  omega

theorem rsect_of_lt (img : Image) (inside : sec < fsSize) : rsect img sec = .ok (img.disk sec) := by
  have small : sector sec = sec := sector_of_lt (Nat.lt_trans inside (by decide))
  rw [rsect, small, if_pos inside]

theorem rsect_cases (img : Image) (small : sec < 2 ^ 23) :
    (sec < fsSize ∧ rsect img sec = .ok (img.disk sec)) ∨ (fsSize ≤ sec ∧ rsect img sec = .error .read) := by
  by_cases inside : sec < fsSize
  · exact .inl ⟨inside, rsect_of_lt img inside⟩
  · refine .inr ⟨by omega, ?_⟩
    rw [rsect, sector_of_lt small, if_neg inside]

theorem wsect_of_lt (img : Image) (small : sec < 2 ^ 23) (buf : Bytes) :
    wsect img sec buf = { img with disk := update img.disk sec buf } := by
  rw [wsect, sector_of_lt small]

theorem iblock_bounds (inside : inum < wideSb.ninodes) :
    sb.inodestart ≤ sb.iblock inum ∧ sb.iblock inum < sb.bmapstart := by
  have room : inum < 208 := inside
  have start : sb.inodestart = 32 := rfl
  have limit : sb.bmapstart = 58 := rfl
  dsimp only [Superblock.iblock, ipb]
  omega

theorem readInode_congr {disk disk' : Nat → Bytes} (inside : inum < wideSb.ninodes)
    (low : ∀ b < nmeta, disk' b = disk b) : readInode sb disk' inum = readInode sb disk inum := by
  have block : sb.iblock inum < nmeta := Nat.lt_trans (iblock_bounds inside).2 (by decide)
  rw [readInode, readInode, low _ block]

theorem rinode_eq (img : Image) (inside : inum < wideSb.ninodes) :
    rinode img inum = .ok (readInode sb img.disk inum) := by
  have block : sb.iblock inum < fsSize := Nat.lt_trans (iblock_bounds inside).2 (by decide)
  rw [rinode, rsect_of_lt img block]
  rfl

/-- The disk after `winode`. -/
def putInode (disk : Nat → Bytes) (inum : Nat) (ip : Inode) : Nat → Bytes :=
  update disk (sb.iblock inum) (storeDinode (disk (sb.iblock inum)) (dinodeBase inum) ip)

theorem winode_eq (img : Image) (inside : inum < wideSb.ninodes) (ip : Inode) :
    winode img inum ip = .ok { img with disk := putInode img.disk inum ip } := by
  have block : sb.iblock inum < fsSize := Nat.lt_trans (iblock_bounds inside).2 (by decide)
  rw [winode, rsect_of_lt img block]
  exact congrArg Except.ok (wsect_of_lt img (Nat.lt_trans block (by decide)) _)

theorem readInode_putInode (disk : Nat → Bytes) (inum other : Nat) {ip : Inode} (fits : ip.Fits) :
    readInode sb (putInode disk inum ip) other = if other = inum then ip else readInode sb disk other :=
  readInode_storeDinode sb disk fits

theorem putInode_of_ne (disk : Nat → Bytes) {b : Nat} (ip : Inode) (other : b ≠ sb.iblock inum) :
    putInode disk inum ip b = disk b := update_of_ne other _ _

/-! ## Finding the block -/

/-- What an iteration of the loop leaves alone. -/
structure Kept (img img' : Image) (din din' : Inode) : Prop where
  freeinode : img'.freeinode = img.freeinode
  low : ∀ b < nmeta, img'.disk b = img.disk b
  fields : din' = { din with addrs := din'.addrs }
  unused : (∀ slot, ndirect + 2 ≤ slot → din.addrs slot = 0) → ∀ slot, ndirect + 2 ≤ slot → din'.addrs slot = 0

theorem Kept.refl (img : Image) (din : Inode) : Kept img img din din :=
  ⟨rfl, fun _ _ => rfl, rfl, fun unused => unused⟩

theorem Kept.trans {img img'' : Image} {din din'' : Inode} (first : Kept img img' din din')
    (snd : Kept img' img'' din' din'') : Kept img img'' din din'' := by
  constructor
  · rw [snd.freeinode, first.freeinode]
  · intro b low
    rw [snd.low b low, first.low b low]
  · have outer := snd.fields
    rw [first.fields] at outer
    exact outer
  · exact fun unused => snd.unused (first.unused unused)

theorem Kept.wsect (img : Image) (din : Inode) (data : nmeta ≤ sec) (small : sec < 2 ^ 23) (buf : Bytes) :
    Kept img (wsect img sec buf) din din := by
  rw [wsect_of_lt img small]
  refine ⟨rfl, fun b low => ?_, rfl, fun unused => unused⟩
  exact update_of_ne (by omega) _ _

section Steps

variable {img : Image} {inum : Nat} {din : Inode} {count : Nat → Nat} {data : Nat → List UInt8}

theorem inodes_viewWith_congr {disk disk' : Nat → Bytes} (low : ∀ b < nmeta, disk' b = disk b)
    {i : Nat} (inside : i < wideSb.ninodes) :
    (viewWith disk' inum din').inodes i = if i = inum then din' else (viewWith disk inum din).inodes i := by
  simp only [viewWith, view, State.setInode, update_apply]
  split
  · rfl
  · exact readInode_congr inside low

/-- How a role gets its block: it has one, or it takes the next. -/
def Gets (img img' : Image) (count : Nat) (r : Role) (x : Nat) : Prop :=
  (order r < count ∧ img' = img) ∨ (order r = count ∧ x = img.freeblock ∧ img'.freeblock = x + 1)

variable {x : Nat} {enough small : Prop}

section

variable (holding : Holding (viewWith img.disk inum din) img.freeblock count data) (bound : inum < wideSb.ninodes)

include holding bound

theorem allocAddr_spec {r : Role} {slot : Nat} (loc : r.loc = .inode slot)
    (single : order r < ndirect + 1 + nindirect) (turn : order r ≤ count inum)
    (ran : allocAddr img din slot = (x, din', img')) :
    Holding (viewWith img'.disk inum din') img'.freeblock
        (update count inum (max (count inum) (order r + 1))) data ∧
      (viewWith img'.disk inum din').node inum r = x ∧ Kept img img' din din' ∧ Gets img img' (count inum) r x := by
  have node : (viewWith img.disk inum din).node inum r = din.addrs slot := by
    rw [State.node_inode _ _ loc]
    simp only [viewWith, State.setInode, update_self]
  unfold allocAddr at ran
  split at ran
  next empty =>
    obtain ⟨rfl, rfl, rfl⟩ : _ ∧ _ ∧ _ := by simpa only [Prod.mk.injEq] using ran
    have first : order r = count inum := by
      have absent : ¬ order r < count inum := by
        rw [← holding.present inum bound r, node, empty]
        exact fun differ => differ rfl
      omega
    have filled : Holding (viewWith img.disk inum { din with addrs := update din.addrs slot img.freeblock })
        (img.freeblock + 1) (update count inum (count inum + 1)) data ∧
        (viewWith img.disk inum { din with addrs := update din.addrs slot img.freeblock }).node inum r =
          img.freeblock := by
      refine holding.fill bound first single rfl ?_ ?_ fun b area apart => rfl
      · intro i inside q slot' loc'
        have same := Role.eq_iff_slot loc' loc
        simp only [viewWith, State.setInode, update_apply, same]
        split <;> simp_all [update_apply]
      · intro i inside q p index loc' present
        rw [if_neg fun here => Role.entry_ne_inode loc' loc here.2]
        rfl
    rw [first, Nat.max_eq_right (Nat.le_succ _)]
    refine ⟨filled.1, filled.2, ⟨rfl, fun b low => rfl, rfl, fun unused other high => ?_⟩, .inr ⟨first, rfl, rfl⟩⟩
    have inner := Role.slot_lt loc
    exact (update_of_ne (by omega) _ _).trans (unused other high)
  next taken =>
    obtain ⟨rfl, rfl, rfl⟩ : _ ∧ _ ∧ _ := by simpa only [Prod.mk.injEq] using ran
    have before : order r < count inum := by
      rw [← holding.present inum bound r, node]
      exact taken
    rw [Nat.max_eq_left before, update_eq_self]
    exact ⟨holding, node, Kept.refl _ _, .inl ⟨before, rfl⟩⟩

/-- Finding or taking the block for an entry of the indirect block. -/
theorem allocEntry_spec {r p : Role} {index : Nat} (loc : r.loc = .entry p index)
    (single : order r < ndirect + 1 + nindirect) (turn : order r ≤ count inum)
    (inside : (viewWith img.disk inum din).node inum p < fsSize) (blocks : img.freeblock ≤ fsSize + 1)
    (ran : allocEntry img ((viewWith img.disk inum din).node inum p)
      (img.disk ((viewWith img.disk inum din).node inum p)) index = (x, img')) :
    Holding (viewWith img'.disk inum din) img'.freeblock
        (update count inum (max (count inum) (order r + 1))) data ∧
      (viewWith img'.disk inum din).node inum r = x ∧ Kept img img' din din ∧ Gets img img' (count inum) r x := by
  have before : order p < count inum := Nat.lt_of_lt_of_le (order_table loc single) turn
  have table := (holding.present inum bound p).mpr before
  have area := holding.node_bounds bound table
  have node : (viewWith img.disk inum din).node inum r =
      (img.disk ((viewWith img.disk inum din).node inum p)).word index := by
    rw [State.node_entry _ _ loc, State.entry, if_neg table]
    rfl
  unfold allocEntry at ran
  rw [← node] at ran
  split at ran
  next empty =>
    rw [wsect_of_lt _ (Nat.lt_trans inside (by decide))] at ran
    obtain ⟨rfl, rfl⟩ : _ ∧ _ := by simpa only [Prod.mk.injEq] using ran
    have first : order r = count inum := by
      have absent : ¬ order r < count inum := by
        rw [← holding.present inum bound r, empty]
        exact fun differ => differ rfl
      omega
    have low : ∀ b < nmeta, update img.disk ((viewWith img.disk inum din).node inum p)
        ((img.disk ((viewWith img.disk inum din).node inum p)).setWord index img.freeblock) b = img.disk b :=
      fun b low => update_of_ne (by omega) _ _
    have word : img.freeblock < 2 ^ 32 := Nat.lt_of_le_of_lt blocks (by decide)
    generalize entry : (viewWith img.disk inum din).node inum p = addr at *
    have filled : Holding (viewWith (update img.disk addr ((img.disk addr).setWord index img.freeblock))
        inum din) (img.freeblock + 1) (update count inum (count inum + 1)) data ∧
        (viewWith (update img.disk addr ((img.disk addr).setWord index img.freeblock)) inum din).node inum r =
          img.freeblock := by
      refine holding.fill bound first single rfl ?_ ?_ ?_
      · intro i inside q slot loc'
        rw [if_neg, inodes_viewWith_congr low inside]
        · split
          next same => rw [same]; simp only [viewWith, State.setInode, update_self]
          next => rfl
        · rintro ⟨-, rfl⟩
          rw [loc] at loc'
          cases loc'
      · intro i inside q p' index' loc' present
        simp only [viewWith, view, State.setInode] at present ⊢
        rw [update_apply]
        split
        next same =>
          obtain ⟨rfl, rfl⟩ := holding.node_injective inside bound present (same.trans entry.symm)
          by_cases here : index' = index
          · have role : q = r := Role.location_injective (loc'.trans (here ▸ loc.symm))
            rw [here, Bytes.word_setWord_of_lt _ _ word, if_pos ⟨rfl, role⟩]
          · rw [Bytes.word_setWord_ne _ _ (Ne.symm here), if_neg, same]
            rintro ⟨-, rfl⟩
            rw [loc] at loc'
            cases loc'
            exact here rfl
        next ne =>
          rw [if_neg]
          rintro ⟨rfl, rfl⟩
          rw [loc] at loc'
          cases loc'
          exact ne entry
      · intro b area' apart
        exact update_of_ne (fun same => apart p index loc (same.trans entry.symm)) _ _
    rw [first, Nat.max_eq_right (Nat.le_succ _)]
    exact ⟨filled.1, filled.2, ⟨rfl, low, rfl, fun unused => unused⟩, .inr ⟨first, rfl, rfl⟩⟩
  next taken =>
    obtain ⟨rfl, rfl⟩ : _ ∧ _ := by simpa only [Prod.mk.injEq] using ran
    have present := (holding.present inum bound r).mp taken
    rw [Nat.max_eq_left present, update_eq_self]
    exact ⟨holding, rfl, Kept.refl _ _, .inl ⟨present, rfl⟩⟩

end

/-- What `locate` leaves: the block of `fbn` is there, and it is the last one handed out if any was. -/
structure Located (img img' : Image) (inum : Nat) (din din' : Inode) (count : Nat → Nat) (data : Nat → List UInt8)
    (fbn x : Nat) : Prop where
  holding : Holding (viewWith img'.disk inum din') img'.freeblock
    (update count inum (rolesFor (fbn + 1))) data
  kept : Kept img img' din din'
  block : (viewWith img'.disk inum din').block inum fbn = x
  last : img'.freeblock = img.freeblock ∨ img'.freeblock = x + 1
  taken : img'.freeblock + count inum = img.freeblock + rolesFor (fbn + 1)

section

variable (holding : Holding (viewWith img.disk inum din) img.freeblock count data) (bound : inum < wideSb.ninodes)
  {fbn : Nat}

include holding bound

theorem locate_spec (single : fbn < ndirect + nindirect)
    (turn : rolesFor fbn ≤ count inum ∧ count inum ≤ rolesFor (fbn + 1)) (blocks : img.freeblock ≤ fsSize) :
    (∃ x din' img', locate img din fbn = .ok (x, din', img') ∧ Located img img' inum din din' count data fbn x) ∨
      (locate img din fbn = .error .read ∧ fsSize + count inum < img.freeblock + rolesFor (fbn + 1)) := by
  have file : fbn < maxFile := Nat.lt_of_lt_of_le single (Nat.le_add_right _ _)
  simp only [rolesFor] at turn
  unfold locate
  by_cases direct : fbn < ndirect
  · rw [if_pos direct]
    obtain ⟨x, din', img', ran⟩ : ∃ x din' img', allocAddr img din fbn = (x, din', img') := ⟨_, _, _, rfl⟩
    have place : order (.direct ⟨fbn, direct⟩) = fbn := rfl
    rw [if_pos (by omega), if_pos (by omega)] at turn
    obtain ⟨filled, node, kept, gets⟩ := allocAddr_spec holding bound (r := .direct ⟨fbn, direct⟩) rfl
      (by omega) (by omega) ran
    rw [Gets, place] at gets
    rw [rolesFor, if_pos (show fbn + 1 ≤ ndirect by omega)]
    refine .inl ⟨x, din', img', congrArg _ ran, ?_, kept, ?_, ?_, ?_⟩
    · rw [place, Nat.max_eq_right turn.2] at filled
      rw [rolesFor, if_pos (by omega)]
      exact filled
    · rw [State.block, dif_pos file, Role.leaf, dif_pos direct]
      exact node
    · rcases gets with ⟨-, rfl⟩ | ⟨-, -, next⟩
      · exact .inl rfl
      · exact .inr next
    · rw [rolesFor, if_pos (by omega)]
      rcases gets with ⟨ahead, rfl⟩ | ⟨equal, rfl, next⟩ <;> omega
  · rw [if_neg direct]
    have indirect : fbn - ndirect < nindirect := by omega
    obtain ⟨addr, din₁, img₁, ran⟩ : ∃ addr din₁ img₁, allocAddr img din ndirect = (addr, din₁, img₁) := ⟨_, _, _, rfl⟩
    have place : order .indirect = ndirect := rfl
    rw [if_neg (show ¬ fbn + 1 ≤ ndirect by omega)] at turn
    have reached : ndirect ≤ count inum := by
      split at turn <;> omega
    obtain ⟨filled, node, kept, gets⟩ := allocAddr_spec holding bound (r := .indirect) rfl (by omega) (by omega) ran
    rw [ran]
    rw [Gets, place] at gets
    rw [rolesFor, if_neg (show ¬ fbn + 1 ≤ ndirect by omega)]
    -- the number of the indirect block is the first thing that may lie past the end of the disk
    have early : addr < img₁.freeblock ∧ img₁.freeblock ≤ img.freeblock + 1 := by
      have held : (viewWith img₁.disk inum din₁).node inum .indirect ≠ 0 := by
        rw [filled.present inum bound, update_self, place]
        omega
      have bounds := filled.node_bounds bound held
      rw [node] at bounds
      refine ⟨bounds.2, ?_⟩
      rcases gets with ⟨-, rfl⟩ | ⟨-, rfl, next⟩ <;> omega
    have small : addr < 2 ^ 23 := by
      have : fsSize + 1 < 2 ^ 23 := by decide
      omega
    rcases rsect_cases img₁ small with ⟨inside, read⟩ | ⟨outside, read⟩
    · obtain ⟨x, img', ran'⟩ : ∃ x img', allocEntry img₁ addr (img₁.disk addr) (fbn - ndirect) = (x, img') :=
        ⟨_, _, rfl⟩
      have place' : order (.indirectEntry ⟨fbn - ndirect, indirect⟩) = fbn + 1 := by
        simp only [order]
        omega
      rw [← node] at ran' inside
      obtain ⟨filled', node', kept', gets'⟩ := allocEntry_spec filled bound
        (r := .indirectEntry ⟨fbn - ndirect, indirect⟩) (p := .indirect) rfl (by omega)
        (by rw [update_self]; split at turn <;> omega) inside (by omega) ran'
      rw [node] at ran'
      rw [place', update_self, update_idem, place,
        Nat.max_eq_right (by omega : max (count inum) (ndirect + 1) ≤ fbn + 1 + 1)] at filled'
      rw [Gets, place', update_self, place] at gets'
      refine .inl ⟨x, din₁, img', ?_, ?_, kept.trans kept', ?_, ?_, ?_⟩
      · simp only [read, ran', bind, Except.bind, if_pos indirect]
      · rw [rolesFor, if_neg (by omega)]
        exact filled'
      · rw [State.block, dif_pos file, Role.leaf, dif_neg direct, dif_pos indirect]
        exact node'
      · rcases gets' with ⟨ahead, rfl⟩ | ⟨-, -, next⟩
        · rcases gets with ⟨-, rfl⟩ | ⟨equal, -⟩
          · exact .inl rfl
          · omega
        · exact .inr next
      · rw [rolesFor, if_neg (by omega)]
        rcases gets' with ⟨ahead', rfl⟩ | ⟨equal', rfl, next'⟩ <;>
          rcases gets with ⟨ahead, rfl⟩ | ⟨equal, rfl, next⟩ <;> omega
    · refine .inr ⟨?_, ?_⟩
      · simp only [read, bind, Except.bind]
      · rcases gets with ⟨ahead, rfl⟩ | ⟨equal, rfl, next⟩
        · omega
        · split at turn <;> omega

/-- Past the singly indirect blocks, the index is past the end of the array. -/
theorem locate_past (past : ndirect + nindirect ≤ fbn)
    (full : ndirect < count inum) (blocks : img.freeblock ≤ fsSize) : locate img din fbn = .error .outOfBounds := by
  have node : (viewWith img.disk inum din).node inum .indirect = din.addrs ndirect := by
    rw [State.node_inode _ _ (show Role.indirect.loc = .inode ndirect from rfl)]
    simp only [viewWith, State.setInode, update_self]
  have present : din.addrs ndirect ≠ 0 := by
    rw [← node, holding.present inum bound]
    exact full
  have area := holding.node_bounds bound (node ▸ present)
  rw [node] at area
  have outside : ¬ fbn - ndirect < nindirect := by omega
  rw [locate, if_neg (by omega), allocAddr, if_neg present]
  simp only
  rw [rsect_of_lt img (by omega), ok_bind, if_neg outside]

end

/-! ## The loop -/

/-- The outcome of a step of `mkfs`.  If it comes to its end then no file goes past the singly
indirect blocks.  If none does then its behaviour is defined; and with `enough` blocks on the
disk there is no other reason for it to stop. -/
def Yields {Result : Type} (res : Except Stop Result) (small enough : Prop) (post : Result → Prop) : Prop :=
  (small ∧ ∃ val, res = .ok val ∧ post val) ∨
    ∃ e, res = .error e ∧ (small → e ≠ .outOfBounds) ∧ (enough → e = .outOfBounds)

theorem Yields.bind {First Second : Type} {res : Except Stop First} {next : First → Except Stop Second}
    {small' enough' : Prop} {post : First → Prop} {post' : Second → Prop}
    (first : Yields res small enough post) (weaker : small' → small) (less : enough' → enough)
    (snd : ∀ val, small → post val → Yields (next val) small' enough' post') :
    Yields (res >>= next) small' enough' post' := by
  rcases first with ⟨fits, val, rfl, holds⟩ | ⟨e, rfl, defined, ample⟩
  · exact snd val fits holds
  · exact .inr ⟨e, rfl, fun fits => defined (weaker fits), fun most => ample (less most)⟩

theorem Yields.mono {Result : Type} {res : Except Stop Result} {small' enough' : Prop}
    {post post' : Result → Prop} (yields : Yields res small enough post) (same : small' ↔ small)
    (less : enough' → enough) (weaker : ∀ val, post val → post' val) : Yields res small' enough' post' := by
  rcases yields with ⟨fits, val, ran, holds⟩ | ⟨e, ran, defined, ample⟩
  · exact .inl ⟨same.mpr fits, val, ran, weaker val holds⟩
  · exact .inr ⟨e, ran, fun fits => defined (same.mp fits), fun most => ample (less most)⟩

theorem Yields.lacking {Result : Type} {res : Except Stop Result} {post : Result → Prop}
    {e : Stop} (ran : res = .error e) (other : e ≠ .outOfBounds) (lack : ¬ enough) :
    Yields res small enough post := .inr ⟨e, ran, fun _ => other, fun most => absurd most lack⟩

/-- The state after `p` has been appended, with the inode still in memory. -/
structure Appended (img img' : Image) (inum : Nat) (din din' : Inode) (count : Nat → Nat)
    (data : Nat → List UInt8) (p : List UInt8) : Prop where
  holding : Holding (viewWith img'.disk inum din') img'.freeblock
    (update count inum (span ((data inum).length + p.length))) (update data inum (data inum ++ p))
  kept : Kept img img' din din'
  blocks : img'.freeblock ≤ fsSize
  taken : img'.freeblock + span (data inum).length = img.freeblock + span ((data inum).length + p.length)

theorem portion_spec (off : Nat) {n : Nat} (pos : 0 < n) :
    0 < portion off n ∧ portion off n ≤ n ∧ off % bsize + portion off n ≤ bsize ∧
      span (off + portion off n) = rolesFor (off / bsize + 1) := by
  have blocks : (off + portion off n + (bsize - 1)) / bsize = off / bsize + 1 := by
    dsimp only [portion, bsize]
    omega
  rw [span, blocks]
  dsimp only [portion, bsize]
  omega

section

variable {img₁ : Image} {din₁ : Inode} {fbn x : Nat} (located : Located img img₁ inum din din₁ count data fbn x)
  (bound : inum < wideSb.ninodes) (fits : fbn < ndirect + nindirect)

include located bound fits

theorem Located.present : (viewWith img₁.disk inum din₁).block inum fbn ≠ 0 := by
  have file : fbn < maxFile := Nat.lt_of_lt_of_le fits (Nat.le_add_right _ _)
  rw [State.block, dif_pos file, located.holding.present inum bound, update_self, order_leaf file fits,
    rolesFor]
  split <;> split <;> omega

theorem Located.bounds : nmeta ≤ x ∧ x < img₁.freeblock := by
  have area := located.holding.block_bounds bound (located.present bound fits)
  rw [located.block] at area
  exact area

end

/-- One iteration: the bytes go to the block at the end of the file. -/
theorem Located.write {img₁ : Image} {din₁ : Inode} {p : List UInt8}
    (located : Located img img₁ inum din din₁ count data ((data inum).length / bsize) x)
    (bound : inum < wideSb.ninodes) (inside : x < fsSize) (blocks : img.freeblock ≤ fsSize)
    (pos : 0 < p.length) (fits : (data inum).length / bsize < ndirect + nindirect)
    (exact : count inum = span (data inum).length) :
    Appended img (wsect img₁ x ((img₁.disk x).copy ((data inum).length - (data inum).length / bsize * bsize)
      (fun i => p.getD i 0) (portion (data inum).length p.length))) inum din din₁ count data
      (p.take (portion (data inum).length p.length)) := by
  obtain ⟨some, most, room, roles⟩ := portion_spec (data inum).length pos
  generalize moved : portion (data inum).length p.length = n1 at *
  generalize old : (data inum).length = off at *
  have column : off - off / bsize * bsize = off % bsize := by
    dsimp only [bsize]
    omega
  have length : (p.take n1).length = n1 := List.length_take_of_le most
  have present := located.present bound fits
  have area := located.bounds bound fits
  have small : x < 2 ^ 23 := Nat.lt_trans inside (by decide)
  have kept := Kept.wsect img₁ din₁ area.1 small
    ((img₁.disk x).copy (off - off / bsize * bsize) (fun i => p.getD i 0) n1)
  refine ⟨?_, located.kept.trans kept, ?_, ?_⟩
  · rw [old, length, roles, wsect_of_lt _ small, column]
    rw [wsect_of_lt _ small, column] at kept
    refine located.holding.write bound present ?_ ?_ ?_ ?_ ?_ ?_ ?_
    · rfl
    · intro i within slot slots
      rw [inodes_viewWith_congr kept.low within]
      split
      next same => rw [same]; simp only [viewWith, State.setInode, update_self]
      next => rfl
    · intro b high other
      rw [located.block] at other
      exact update_of_ne other _ _
    · rw [List.length_append, old, length]
      dsimp only [singleLimit, ndirect, nindirect, bsize] at fits room ⊢
      omega
    · rw [List.length_append, old, length, update_self, roles]
    · intro idx before block
      rw [List.length_append, old, length] at before
      rw [located.block]
      simp only [viewWith, view, State.setInode, update_self, Bytes.copy]
      split
      next new =>
        have later : off ≤ idx := by
          dsimp only [bsize] at *
          omega
        have index : idx % bsize - off % bsize = idx - off := by
          dsimp only [bsize] at *
          omega
        rw [index, List.getD_append_right _ _ _ _ (old ▸ later), old, List.getD_eq_getElem?_getD,
          List.getD_eq_getElem?_getD, List.getElem?_take_of_lt (by omega)]
      next =>
        have earlier : idx < off := by
          dsimp only [bsize] at *
          omega
        have byte := located.holding.bytes inum bound idx (old ▸ earlier)
        rw [State.byteAt, block, located.block] at byte
        rw [List.getD_append _ _ _ _ (old ▸ earlier)]
        exact byte
    · intro idx before block
      rw [List.length_append, old, length] at before
      have earlier : idx < off := by
        dsimp only [bsize] at *
        omega
      exact ⟨old ▸ earlier, List.getD_append _ _ _ _ (old ▸ earlier)⟩
  · rw [wsect_of_lt _ small]
    rcases located.last with same | next <;> dsimp only <;> omega
  · rw [wsect_of_lt _ small, old, length, roles, ← exact]
    exact located.taken

theorem Appended.trans {img₁ img₂ : Image} {din₁ din₂ : Inode} {p q : List UInt8}
    (first : Appended img img₁ inum din din₁ count data p)
    (snd : Appended img₁ img₂ inum din₁ din₂ (update count inum (span ((data inum).length + p.length)))
      (update data inum (data inum ++ p)) q) :
    Appended img img₂ inum din din₂ count data (p ++ q) := by
  obtain ⟨holding, kept, blocks, taken⟩ := snd
  rw [update_self, update_idem, update_idem, List.append_assoc, List.length_append,
    Nat.add_assoc, ← List.length_append] at holding
  refine ⟨holding, first.kept.trans kept, blocks, ?_⟩
  have early := first.taken
  rw [update_self, List.length_append] at taken
  rw [List.length_append, ← Nat.add_assoc]
  omega

theorem appendLoop_spec (bound : inum < wideSb.ninodes) (p : List UInt8) {off : Nat}
    (holding : Holding (viewWith img.disk inum din) img.freeblock count data) (length : (data inum).length = off)
    (exact : count inum = span off) (blocks : img.freeblock ≤ fsSize) :
    Yields (appendLoop img din off p) (off + p.length ≤ singleLimit)
      (img.freeblock + need (off + p.length) ≤ fsSize + span off)
      fun (img', din', off') => off' = off + p.length ∧ Appended img img' inum din din' count data p := by
  -- the bytes that are left get fewer with every iteration
  induction left : p.length using Nat.strong_induction_on generalizing img din count data off p with
  | _ n ih =>
    subst left
    have limit := holding.limit inum bound
    rw [length] at limit
    unfold appendLoop
    by_cases pos : 0 < p.length
    · have file : off / bsize < maxFile := by
        dsimp only [singleLimit, maxFile, ndirect, nindirect, bsize] at limit ⊢
        omega
      simp only [if_pos pos, if_pos file]
      by_cases fits : off / bsize < ndirect + nindirect
      · have turn : rolesFor (off / bsize) ≤ count inum ∧ count inum ≤ rolesFor (off / bsize + 1) := by
          rw [exact]
          dsimp only [span, rolesFor, ndirect, bsize]
          split <;> split <;> split <;> omega
        have needed := rolesFor_le_need fits (show off < off + p.length by omega)
        rcases locate_spec holding bound fits turn blocks with ⟨x, din₁, img₁, ran, located⟩ | ⟨ran, short⟩
        · have taken := located.taken
          have area := located.bounds bound fits
          have last := located.last
          have small : x < 2 ^ 23 := by
            have : fsSize + 2 < 2 ^ 23 := by decide
            have : rolesFor (off / bsize + 1) ≤ rolesFor (off / bsize) + 2 := by
              dsimp only [rolesFor]
              split <;> split <;> omega
            omega
          subst length
          rcases rsect_cases img₁ small with ⟨inside, read⟩ | ⟨outside, read⟩
          · have appended := located.write bound inside blocks pos fits exact
            obtain ⟨some, most, -, -⟩ := portion_spec (data inum).length pos
            simp only [ran, read, bind, Except.bind]
            generalize wsect img₁ x _ = img₂ at appended ⊢
            generalize portion (data inum).length p.length = n1 at *
            have grown : (update data inum (data inum ++ p.take n1) inum).length =
                (data inum).length + n1 := by
              rw [update_self, List.length_append, List.length_take_of_le most]
            have rest := ih (p.drop n1).length (by rw [List.length_drop]; omega) (p.drop n1)
              appended.holding grown (by rw [update_self, List.length_take_of_le most]) appended.blocks rfl
            have early := appended.taken
            have all : (data inum).length + n1 + (p.length - n1) = (data inum).length + p.length := by omega
            rw [List.length_take_of_le most] at early
            rw [List.length_drop, all] at rest
            refine rest.mono (by omega) (by omega) ?_
            rintro ⟨img', din', off'⟩ ⟨rfl, later⟩
            have whole := appended.trans later
            rw [List.take_append_drop] at whole
            exact ⟨rfl, whole⟩
          · refine Yields.lacking (by simp only [ran, read, bind, Except.bind]; rfl) (by simp) ?_
            omega
        · refine Yields.lacking (by simp only [ran, bind, Except.bind]; rfl) (by simp) ?_
          omega
      · have full : ndirect < count inum := by
          rw [exact]
          dsimp only [span, rolesFor, ndirect, nindirect, bsize] at fits ⊢
          split <;> omega
        have ran := locate_past holding bound (show ndirect + nindirect ≤ off / bsize by omega) full blocks
        refine .inr ⟨.outOfBounds, by simp only [ran, bind, Except.bind], fun small => ?_, fun _ => rfl⟩
        dsimp only [singleLimit, ndirect, nindirect, bsize] at fits small
        omega
    · have empty : p = [] := List.length_eq_zero_iff.mp (by omega)
      subst empty
      rw [if_neg pos]
      refine .inl ⟨limit, _, rfl, rfl, ?_, Kept.refl _ _, blocks, rfl⟩
      rw [List.length_nil, Nat.add_zero, length, ← exact, update_eq_self, List.append_nil,
        update_eq_self]
      exact holding

end Steps

/-! ## `iappend` -/

/-- Between two calls: every inode is on the disk, and the files hold `data`. -/
structure Built (img : Image) (data : Nat → List UInt8) (kind : Nat → Int) : Prop where
  holding : Holding (view img.disk) img.freeblock (fun i => span (data i).length) data
  size : ∀ i < wideSb.ninodes, (readInode sb img.disk i).size = (data i).length
  kinds : ∀ i < wideSb.ninodes, (readInode sb img.disk i).type = kind i
  fits : ∀ i < wideSb.ninodes, (readInode sb img.disk i).Fits
  blocks : img.freeblock ≤ fsSize
  superblock : img.disk 1 = Bytes.ofWords (superblockWords sb)
  bitmap : ∀ b, sb.bmapstart ≤ b → b < nmeta → img.disk b = Bytes.fill 0

section Built

variable {img : Image} {inum : Nat} {data : Nat → List UInt8} {kind : Nat → Int}

/-- Putting an inode back: the files are those that the copy in memory describes. -/
theorem built_putInode {ip : Inode} {count : Nat → Nat} {data' : Nat → List UInt8} {kind' : Nat → Int}
    (built : Built img data kind) (bound : inum < wideSb.ninodes)
    (holding : Holding (viewWith img'.disk inum ip) img'.freeblock count data')
    (counts : count = fun i => span (data' i).length)
    (low : ∀ b < nmeta, img'.disk b = img.disk b) (blocks : img'.freeblock ≤ fsSize) (fits : ip.Fits)
    (size : ip.size = (data' inum).length) (type : ip.type = kind' inum)
    (others : ∀ i, i ≠ inum → (data' i).length = (data i).length ∧ kind' i = kind i) :
    Built { img' with disk := putInode img'.disk inum ip } data' kind' := by
  have block := iblock_bounds bound
  have start : sb.inodestart = 32 := rfl
  have map : sb.bmapstart < nmeta := by decide
  have inode : ∀ i < wideSb.ninodes, readInode sb (putInode img'.disk inum ip) i =
      if i = inum then ip else readInode sb img.disk i := by
    intro i inside
    rw [readInode_putInode _ _ _ fits, readInode_congr inside low]
  constructor
  · subst counts
    refine holding.congr (by rfl) ?_ ?_
    · intro i inside slot slots
      simp only [view, viewWith, State.setInode, update_apply]
      rw [inode i inside, readInode_congr inside low]
    · intro b data
      exact putInode_of_ne _ _ (by omega)
  · intro i inside
    dsimp only
    rw [inode i inside]
    split
    next same => rw [same, size]
    next ne => rw [built.size i inside, (others i ne).1]
  · intro i inside
    dsimp only
    rw [inode i inside]
    split
    next same => rw [same, type]
    next ne => rw [built.kinds i inside, (others i ne).2]
  · intro i inside
    dsimp only
    rw [inode i inside]
    split
    · exact fits
    · exact built.fits i inside
  · exact blocks
  · dsimp only
    rw [putInode_of_ne _ _ (by omega), low 1 (by decide), built.superblock]
  · intro b above below
    dsimp only
    rw [putInode_of_ne _ _ (by omega), low b below, built.bitmap b above below]

theorem exists_role {slot : Nat} (inside : slot < ndirect + 2) : ∃ r : Role, r.loc = .inode slot := by
  by_cases direct : slot < ndirect
  · exact ⟨.direct ⟨slot, direct⟩, rfl⟩
  · by_cases indirect : slot = ndirect
    · exact ⟨.indirect, by rw [indirect]; rfl⟩
    · exact ⟨.double, by rw [show slot = ndirect + 1 by omega]; rfl⟩

theorem addrs_lt {s : State} {next : Nat} {count : Nat → Nat} (holding : Holding s next count data)
    (bound : inum < s.sb.ninodes) (blocks : next ≤ fsSize)
    (unused : ∀ slot, ndirect + 2 ≤ slot → (s.inodes inum).addrs slot = 0) (slot : Nat) :
    (s.inodes inum).addrs slot < 2 ^ 32 := by
  have large : fsSize < 2 ^ 32 := by decide
  by_cases inside : slot < ndirect + 2
  · obtain ⟨r, loc⟩ := exists_role inside
    rw [← s.node_inode inum loc]
    by_cases present : s.node inum r = 0
    · omega
    · have bounds := holding.node_bounds bound present
      omega
  · rw [unused slot (by omega)]
    decide

theorem iappend_spec (built : Built img data kind) (bound : inum < wideSb.ninodes) (p : List UInt8) :
    Yields (iappend img inum p) ((data inum).length + p.length ≤ singleLimit)
      (img.freeblock + need ((data inum).length + p.length) ≤ fsSize + need (data inum).length) fun img' =>
        Built img' (update data inum (data inum ++ p)) kind ∧ img'.freeinode = img.freeinode ∧
          img'.freeblock + need (data inum).length = img.freeblock + need ((data inum).length + p.length) := by
  have copy : viewWith img.disk inum (readInode sb img.disk inum) = view img.disk := by
    simp only [viewWith, State.setInode, view, update_eq_self]
  have start := built.holding
  rw [← copy] at start
  have loop := appendLoop_spec bound p start rfl rfl built.blocks
  rw [iappend, rinode_eq img bound, ok_bind, built.size inum bound]
  rw [need_of_le (built.holding.limit inum bound)]
  refine loop.bind id id ?_
  rintro ⟨img', din', off⟩ fits ⟨rfl, appended⟩
  dsimp only
  rw [winode_eq img' bound]
  rw [need_of_le fits]
  refine .inl ⟨fits, _, rfl, ?_, appended.kept.freeinode, appended.taken⟩
  have inode := appended.kept.fields
  have unused := appended.kept.unused (built.fits inum bound).unused
  have fitted := built.fits inum bound
  have typed := built.kinds inum bound
  generalize readInode sb img.disk inum = ip at inode fitted typed
  refine built_putInode built bound (appended.holding.congr rfl ?_ fun b data => rfl) ?_ appended.kept.low
    appended.blocks ?_ ?_ ?_ ?_
  · intro i inside slot slots
    simp only [viewWith, State.setInode, update_apply]
    split <;> rfl
  · funext i
    rw [update_apply, update_apply]
    split
    · rw [List.length_append]
    · rfl
  · rw [inode]
    refine fitted.grow ?_ ?_ unused
    · dsimp only [singleLimit, ndirect, nindirect, bsize] at fits ⊢
      omega
    · intro slot
      have slots : ∀ slot, ndirect + 2 ≤ slot → ((viewWith img'.disk inum din').inodes inum).addrs slot = 0 := by
        simpa only [viewWith, State.setInode, update_self] using unused
      have small := addrs_lt appended.holding bound appended.blocks slots slot
      simpa only [viewWith, State.setInode, update_self] using small
  · rw [update_self, List.length_append]
  · rw [inode]
    exact typed
  · intro i ne
    rw [update_of_ne ne]
    exact ⟨rfl, rfl⟩

end Built

end Xv6Simplesh.Mkfs
