import Xv6Simplesh.Fs.Inodes
import Xv6Simplesh.Library.Ownership

/-! # The blocks of an inode and who owns them

The nodes of an inode are the blocks it refers to, directly or through its
indirect blocks.  Each has a role, and the role says where its number is stored:
in the inode or in an entry of the block in another role.  Ownership is the
exclusive holding of blocks by the roles of inodes, and the bitmap has to agree
with it.
-/

namespace Xv6Simplesh.Fs

open Library Function

/-! ## Roles -/

inductive Role where
  | direct (i : Fin ndirect)
  | indirect
  | indirectEntry (i : Fin nindirect)
  | double
  | table (k : Fin nindirect)
  | tableEntry (k l : Fin nindirect)
deriving DecidableEq

/-- Where a block number is stored. -/
inductive Location where
  | inode (slot : Nat)
  | entry (table : Role) (idx : Nat)

def Role.loc : Role → Location
  | .direct i => .inode i
  | .indirect => .inode ndirect
  | .indirectEntry i => .entry .indirect i
  | .double => .inode (ndirect + 1)
  | .table k => .entry .double k
  | .tableEntry k l => .entry (.table k) l

variable {p r : Role} {idx slot : Nat}

theorem Role.location_injective {r' : Role} (same : r.loc = r'.loc) : r = r' := by
  cases r <;> cases r' <;> simp_all [loc, Fin.ext_iff] <;> omega

theorem Role.eq_iff_slot {q : Role} {slot' : Nat} (loc' : q.loc = .inode slot')
    (loc : r.loc = .inode slot) : q = r ↔ slot' = slot := by
  constructor
  · rintro rfl
    rw [loc] at loc'
    cases loc'
    rfl
  · rintro rfl
    exact Role.location_injective (loc'.trans loc.symm)

theorem Role.entry_ne_inode {q : Role} (entry : q.loc = .entry p idx) (inode : r.loc = .inode slot) : q ≠ r := by
  rintro rfl
  rw [inode] at entry
  cases entry

theorem Role.slot_lt (loc : r.loc = .inode slot) : slot < ndirect + 2 := by
  cases r <;> cases loc <;> omega

theorem Role.index_lt (loc : r.loc = .entry p idx) : idx < nindirect := by
  cases r <;> cases loc <;> omega

theorem Role.location_ne_entry_self (r : Role) (idx : Nat) : r.loc ≠ .entry r idx := by
  cases r <;> simp [loc]

theorem Role.chain {motive : Role → Prop} (inode : ∀ r slot, r.loc = .inode slot → motive r)
    (entry : ∀ r p idx, r.loc = .entry p idx → motive p → motive r) (r : Role) : motive r := by
  have table : ∀ k, motive (.table k) := fun k => entry _ _ _ rfl (inode .double _ rfl)
  cases r with
  | direct i => exact inode _ _ rfl
  | indirect => exact inode _ _ rfl
  | indirectEntry i => exact entry _ _ _ rfl (inode .indirect _ rfl)
  | double => exact inode _ _ rfl
  | table k => exact table k
  | tableEntry k l => exact entry _ _ _ rfl (table k)

/-! ## Nodes -/

namespace State

/-- The entry of an indirect block, 0 if there is no such block. -/
def entry (s : State) (block idx : Nat) : Nat := if block = 0 then 0 else (s.disk block).word idx

/-- The number of the block in a role of inode `inum`, 0 if there is none. -/
def node (s : State) (inum : Nat) : Role → Nat
  | .direct i => (s.inodes inum).addrs i
  | .indirect => (s.inodes inum).addrs ndirect
  | .indirectEntry i => s.entry ((s.inodes inum).addrs ndirect) i
  | .double => (s.inodes inum).addrs (ndirect + 1)
  | .table k => s.entry ((s.inodes inum).addrs (ndirect + 1)) k
  | .tableEntry k l => s.entry (s.entry ((s.inodes inum).addrs (ndirect + 1)) k) l

theorem node_inode (s : State) (inum : Nat) (loc : r.loc = .inode slot) :
    s.node inum r = (s.inodes inum).addrs slot := by
  cases r <;> cases loc <;> rfl

theorem node_entry (s : State) (inum : Nat)
    (loc : r.loc = .entry p idx) : s.node inum r = s.entry (s.node inum p) idx := by
  cases r <;> cases loc <;> rfl

variable {s s' : State} {inum : Nat}

/-- The nodes are the only solution of the equations for the locations. -/
theorem node_eq (nodes : Role → Nat) (inode : ∀ r slot, r.loc = .inode slot → nodes r = (s.inodes inum).addrs slot)
    (entry : ∀ r p idx, r.loc = .entry p idx → nodes r = s.entry (nodes p) idx) (r : Role) :
    s.node inum r = nodes r := by
  induction r using Role.chain with
  | inode r slot loc => rw [s.node_inode inum loc, inode r slot loc]
  | entry r p idx loc parent => rw [s.node_entry inum loc, parent, entry r p idx loc]

/-- The nodes of an inode depend on its addresses and on its indirect blocks. -/
theorem node_congr (addrs : ∀ slot < ndirect + 2, (s'.inodes inum).addrs slot = (s.inodes inum).addrs slot)
    (tables : ∀ (r p : Role) (idx : Nat), r.loc = .entry p idx → s.node inum p ≠ 0 →
      (s'.disk (s.node inum p)).word idx = (s.disk (s.node inum p)).word idx) (r : Role) :
    s'.node inum r = s.node inum r := by
  refine node_eq (s.node inum) (fun r slot loc => ?_) (fun r p idx loc => ?_) r
  · rw [s.node_inode inum loc, addrs slot (Role.slot_lt loc)]
  · rw [s.node_entry inum loc, entry, entry]
    split
    · rfl
    next present => exact (tables r p idx loc present).symm

/-- Who holds which block. -/
def holder (s : State) (slot : Nat × Role) : Option Nat :=
  if slot.1 < s.sb.ninodes ∧ s.node slot.1 slot.2 ≠ 0 then some (s.node slot.1 slot.2) else none

theorem holder_congr (sb : s'.sb = s.sb)
    (nodes : ∀ i < s.sb.ninodes, ∀ r, s'.node i r = s.node i r) : s'.holder = s.holder := by
  funext slot
  by_cases inside : slot.1 < s.sb.ninodes
  · simp only [holder, sb, nodes slot.1 inside]
  · simp [holder, sb, inside]

theorem holder_fill {b : Nat} (sb : s'.sb = s.sb)
    (nodes : ∀ i < s.sb.ninodes, ∀ q, s'.node i q = if i = inum ∧ q = r then b else s.node i q)
    (bound : inum < s.sb.ninodes) (pos : b ≠ 0) : s'.holder = update s.holder (inum, r) (some b) := by
  funext slot
  obtain ⟨i, q⟩ := slot
  by_cases inside : i < s.sb.ninodes
  · simp only [holder, sb, inside, true_and, nodes i inside, update_apply, Prod.mk.injEq]
    split <;> simp_all
  · have other : (i, q) ≠ (inum, r) := by
      rintro ⟨⟩
      exact inside bound
    rw [update_of_ne other]
    simp [holder, sb, inside]

theorem holder_eq_some {b : Nat} : s.holder (inum, r) = some b ↔ inum < s.sb.ninodes ∧ s.node inum r = b ∧ b ≠ 0 := by
  unfold holder
  split
  next present =>
    constructor
    · intro same
      cases same
      exact ⟨present.1, rfl, present.2⟩
    · rintro ⟨-, rfl, -⟩
      rfl
  next absent =>
    constructor
    · intro same
      cases same
    · rintro ⟨bound, rfl, present⟩
      exact absurd ⟨bound, present⟩ absent

end State

/-- The block ownership invariant. -/
structure Owned (s : State) : Prop where
  layout : s.sb.Layout
  superblock : readsb (s.disk 1) = s.sb
  /-- Nodes lie in the data area. -/
  area : ∀ b, Held s.holder b → s.sb.nmeta ≤ b ∧ b < s.sb.size
  /-- Nodes are pairwise distinct, over all inodes. -/
  exclusive : Exclusive s.holder
  /-- A bit is set exactly for metadata and for nodes. -/
  bitmap : ∀ b, b < s.sb.size → (s.used b = true ↔ b < s.sb.nmeta ∨ Held s.holder b)

end Xv6Simplesh.Fs
