import Xv6Simplesh.Fs.Ownership
import Xv6Simplesh.Mkfs.Mkfs

/-! # Where `mkfs` puts the blocks of files

The roles of an inode are filled in a fixed order: the direct blocks, the indirect
block and its entries.  So a number for each inode says which of its roles have a
block, and the counter `freeblock` says which blocks have been handed out.  `Holding`
is that description of a state, together with the bytes that the blocks hold; the
rules say how filling the next role and writing to a data block change it.
-/

namespace Xv6Simplesh.Mkfs

open Library Fs Function

/-! ## The order of the roles -/

/-- The position of a role in the order in which `iappend` fills them; it never fills the last. -/
def order : Role → Nat
  | .direct i => i
  | .indirect => ndirect
  | .indirectEntry i => ndirect + 1 + i
  | .double | .table _ | .tableEntry _ _ => ndirect + 1 + nindirect

/-- The bytes for which the direct and the singly indirect blocks suffice. -/
abbrev singleLimit : Nat := (ndirect + nindirect) * bsize

/-- How many roles `bn` data blocks take. -/
def rolesFor (bn : Nat) : Nat := if bn ≤ ndirect then bn else bn + 1

/-- How many roles a file of `length` bytes takes. -/
def span (length : Nat) : Nat := rolesFor ((length + (bsize - 1)) / bsize)

/-- How many roles are filled for a file of `length` bytes before `iappend` goes past them. -/
def need (length : Nat) : Nat := span (min length singleLimit)

variable {bn length : Nat} {r : Role}

theorem need_of_le (small : length ≤ singleLimit) : need length = span length := by
  rw [need, Nat.min_eq_left small]

theorem need_mono {length' : Nat} (longer : length ≤ length') : need length ≤ need length' := by
  dsimp only [need, span, rolesFor, singleLimit, ndirect, nindirect, bsize]
  split <;> split <;> omega

theorem rolesFor_le_need {off : Nat} (single : off / bsize < ndirect + nindirect) (before : off < length) :
    rolesFor (off / bsize + 1) ≤ need length := by
  dsimp only [need, span, rolesFor, singleLimit, ndirect, nindirect, bsize] at *
  split <;> split <;> omega

theorem order_leaf (inside : bn < maxFile) (single : bn < ndirect + nindirect) :
    order (Role.leaf ⟨bn, inside⟩) = if bn < ndirect then bn else bn + 1 := by
  unfold Role.leaf
  by_cases direct : bn < ndirect
  · simp only [direct, dite_true, if_true, order]
  · have indirect : bn - ndirect < nindirect := by omega
    simp only [direct, indirect, dite_true, dite_false, if_false, order]
    omega

theorem order_leaf_lt_span {idx : Nat} (before : idx < length) (single : length ≤ singleLimit)
    (inside : idx / bsize < maxFile) : order (Role.leaf ⟨idx / bsize, inside⟩) < span length := by
  have indirect : idx / bsize < ndirect + nindirect := by
    dsimp only [singleLimit, ndirect, nindirect, bsize] at *
    omega
  rw [order_leaf inside indirect, span, rolesFor]
  dsimp only [ndirect, bsize] at *
  split <;> split <;> omega

theorem order_injective {q : Role} (same : order r = order q) (single : order r < ndirect + 1 + nindirect) :
    r = q := by
  cases r <;> cases q <;> simp only [order] at same single <;>
    first
    | rfl
    | omega
    | (simp only [Role.direct.injEq, Role.indirectEntry.injEq, Fin.ext_iff]; omega)

theorem order_table {p : Role} {index : Nat} (loc : r.loc = .entry p index)
    (single : order r < ndirect + 1 + nindirect) : order p < order r := by
  cases r with
  | indirectEntry i =>
    cases loc
    simp only [order]
    omega
  | table k =>
    simp only [order] at single
    omega
  | tableEntry k l =>
    simp only [order] at single
    omega
  | direct i => cases loc
  | indirect => cases loc
  | double => cases loc

/-! ## States in which `mkfs` has handed out blocks -/

/-- Blocks up to `next` are handed out, `count` says which roles have one, and `data`
is in the data blocks. -/
structure Holding (s : State) (next : Nat) (count : Nat → Nat) (data : Nat → List UInt8) : Prop where
  start : nmeta ≤ next
  held : ∀ b, Held s.holder b ↔ nmeta ≤ b ∧ b < next
  exclusive : Exclusive s.holder
  present : ∀ i < s.sb.ninodes, ∀ r, s.node i r ≠ 0 ↔ order r < count i
  single : ∀ i < s.sb.ninodes, count i ≤ ndirect + 1 + nindirect
  fresh : ∀ b, next ≤ b → s.disk b = Bytes.fill 0
  limit : ∀ i < s.sb.ninodes, (data i).length ≤ singleLimit
  covered : ∀ i < s.sb.ninodes, span (data i).length ≤ count i
  bytes : ∀ i < s.sb.ninodes, ∀ idx, (data i).length > idx →
    s.byteAt i idx = (data i).getD idx 0

namespace Holding

variable {s s' : State} {next : Nat} {count : Nat → Nat} {data : Nat → List UInt8}

section

variable (holding : Holding s next count data)

include holding

variable {i inum : Nat}

theorem node_bounds (inside : i < s.sb.ninodes) (present : s.node i r ≠ 0) : nmeta ≤ s.node i r ∧ s.node i r < next :=
  (holding.held _).mp ⟨(i, r), State.holder_eq_some.mpr ⟨inside, rfl, present⟩⟩

theorem node_injective {j : Nat} (inside : i < s.sb.ninodes)
    (inside' : j < s.sb.ninodes) {q : Role} (present : s.node i r ≠ 0) (same : s.node i r = s.node j q) :
    i = j ∧ r = q := by
  have slots := holding.exclusive (State.holder_eq_some.mpr ⟨inside, rfl, present⟩)
    (State.holder_eq_some.mpr ⟨inside', same.symm, present⟩)
  exact ⟨congrArg Prod.fst slots, congrArg Prod.snd slots⟩

theorem block_bounds (inside : i < s.sb.ninodes)
    (present : s.block i bn ≠ 0) : nmeta ≤ s.block i bn ∧ s.block i bn < next := by
  have file := State.lt_of_block present
  rw [State.block, dif_pos file] at present ⊢
  exact holding.node_bounds inside present

theorem block_present (inside : i < s.sb.ninodes) {idx : Nat}
    (before : idx < (data i).length) : s.block i (idx / bsize) ≠ 0 := by
  have limit := holding.limit i inside
  have file : idx / bsize < maxFile := by
    dsimp only [singleLimit, maxFile, ndirect, nindirect, bsize] at limit ⊢
    omega
  rw [State.block, dif_pos file, holding.present i inside]
  exact Nat.lt_of_lt_of_le (order_leaf_lt_span before limit file) (holding.covered i inside)

/-- The description speaks of the addresses in the inodes and of the blocks after the metadata. -/
theorem congr (sb : s'.sb = s.sb)
    (addrs : ∀ i < s.sb.ninodes, ∀ slot < ndirect + 2, (s'.inodes i).addrs slot = (s.inodes i).addrs slot)
    (disk : ∀ b, nmeta ≤ b → s'.disk b = s.disk b) : Holding s' next count data := by
  have nodes : ∀ i < s.sb.ninodes, ∀ r, s'.node i r = s.node i r := by
    intro i inside
    refine State.node_congr (addrs i inside) fun r p index loc table => ?_
    rw [disk _ (holding.node_bounds inside table).1]
  have holder := State.holder_congr sb nodes
  constructor
  · exact holding.start
  · rw [holder]
    exact holding.held
  · rw [holder]
    exact holding.exclusive
  · intro i inside r
    rw [sb] at inside
    rw [nodes i inside, holding.present i inside]
  · rw [sb]
    exact holding.single
  · intro b later
    rw [disk b (Nat.le_trans holding.start later), holding.fresh b later]
  · rw [sb]
    exact holding.limit
  · rw [sb]
    exact holding.covered
  · intro i inside idx before
    rw [sb] at inside
    have block : s'.block i (idx / bsize) = s.block i (idx / bsize) := by
      simp only [State.block, nodes i inside]
    have area := holding.block_bounds inside (holding.block_present inside before)
    rw [State.byteAt, block, disk _ area.1]
    exact holding.bytes i inside idx before

theorem empty_of_turn (bound : inum < s.sb.ninodes) (turn : order r = count inum) : s.node inum r = 0 := by
  have absent := mt (holding.present inum bound r).mp (by omega)
  exact not_not.mp absent

/-- Filling the next role of an inode with the next block. -/
theorem fill (bound : inum < s.sb.ninodes)
    (turn : order r = count inum) (single : order r < ndirect + 1 + nindirect) (sb : s'.sb = s.sb)
    (addrs : ∀ i < s.sb.ninodes, ∀ (q : Role) slot, q.loc = .inode slot →
      (s'.inodes i).addrs slot = if i = inum ∧ q = r then next else (s.inodes i).addrs slot)
    (tables : ∀ i < s.sb.ninodes, ∀ (q p : Role) index, q.loc = .entry p index → s.node i p ≠ 0 →
      (s'.disk (s.node i p)).word index = if i = inum ∧ q = r then next else (s.disk (s.node i p)).word index)
    (disk : ∀ b, nmeta ≤ b → (∀ p index, r.loc = .entry p index → b ≠ s.node inum p) →
      s'.disk b = s.disk b) :
    Holding s' (next + 1) (update count inum (count inum + 1)) data ∧ s'.node inum r = next := by
  have empty := holding.empty_of_turn bound turn
  have pos : next ≠ 0 := Nat.ne_of_gt (Nat.lt_of_lt_of_le (by decide) holding.start)
  have parent : ∀ p index, r.loc = .entry p index → s.node inum p ≠ 0 := fun p index loc =>
    (holding.present inum bound p).mpr (turn ▸ order_table loc single)
  have later : ∀ b, next ≤ b → s'.disk b = s.disk b := by
    intro b high
    refine disk b (Nat.le_trans holding.start high) fun p index loc => ?_
    have low := (holding.node_bounds bound (parent p index loc)).2
    omega
  -- one node changes, since the block that is taken has no entries
  have nodes : ∀ i < s.sb.ninodes, ∀ q, s'.node i q = if i = inum ∧ q = r then next else s.node i q := by
    intro i inside q
    refine node_fill pos empty parent addrs tables (fun index => ?_) inside q
    rw [later next (Nat.le_refl _), holding.fresh next (Nat.le_refl _)]
    rfl
  have holder := State.holder_fill sb nodes bound pos
  have vacant : s.holder (inum, r) = none := by
    simp [State.holder, empty]
  refine ⟨?_, by rw [nodes inum bound, if_pos ⟨rfl, rfl⟩]⟩
  constructor
  · exact Nat.le_succ_of_le holding.start
  · intro b
    have start := holding.start
    rw [holder, held_take vacant, holding.held b]
    omega
  · rw [holder]
    refine holding.exclusive.take (fun held => ?_) _
    have := ((holding.held next).mp held).2
    omega
  · intro i inside q
    rw [sb] at inside
    rw [nodes i inside, update_apply]
    by_cases same : i = inum
    · subst same
      rw [if_pos rfl]
      by_cases here : q = r
      · rw [if_pos ⟨rfl, here⟩, here]
        omega
      · have other : order q ≠ count i := fun equal => here (order_injective (turn.trans equal.symm) single).symm
        rw [if_neg (fun both => here both.2), holding.present i inside]
        omega
    · rw [if_neg (fun both => same both.1), if_neg same, holding.present i inside]
  · intro i inside
    rw [sb] at inside
    rw [update_apply]
    split
    · omega
    · exact holding.single i inside
  · intro b high
    rw [later b (by omega), holding.fresh b (by omega)]
  · rw [sb]
    exact holding.limit
  · intro i inside
    rw [sb] at inside
    have covered := holding.covered i inside
    rw [update_apply]
    split
    next same =>
      subst same
      omega
    next => exact covered
  · intro i inside idx before
    rw [sb] at inside
    have present := holding.block_present inside before
    have area := holding.block_bounds inside present
    have file := State.lt_of_block present
    rw [State.block, dif_pos file] at present area
    have block : s'.block i (idx / bsize) = s.node i (Role.leaf ⟨idx / bsize, file⟩) := by
      rw [State.block, dif_pos file, nodes i inside, if_neg]
      rintro ⟨rfl, here⟩
      rw [here] at present
      exact present empty
    have same : s'.disk (s.node i (Role.leaf ⟨idx / bsize, file⟩)) =
        s.disk (s.node i (Role.leaf ⟨idx / bsize, file⟩)) := by
      refine disk _ area.1 fun p index loc equal => ?_
      obtain ⟨-, rfl⟩ := holding.node_injective inside bound present equal
      exact Role.leaf_isData _ r index loc
    rw [State.byteAt, block, same, ← holding.bytes i inside idx before, State.byteAt, State.block, dif_pos file]

theorem write (bound : inum < s.sb.ninodes) (target : s.block inum bn ≠ 0) (sb : s'.sb = s.sb)
    (addrs : ∀ i < s.sb.ninodes, ∀ slot < ndirect + 2, (s'.inodes i).addrs slot = (s.inodes i).addrs slot)
    (disk : ∀ b, nmeta ≤ b → b ≠ s.block inum bn → s'.disk b = s.disk b) {contents : List UInt8}
    (limit : contents.length ≤ singleLimit) (covered : span contents.length ≤ count inum)
    (written : ∀ idx < contents.length, idx / bsize = bn →
      s'.disk (s.block inum bn) (idx % bsize) = contents.getD idx 0)
    (kept : ∀ idx < contents.length, idx / bsize ≠ bn →
      idx < (data inum).length ∧ contents.getD idx 0 = (data inum).getD idx 0) :
    Holding s' next count (update data inum contents) := by
  have file := State.lt_of_block target
  have leaf : s.block inum bn = s.node inum (Role.leaf ⟨bn, file⟩) := dif_pos file
  have area := holding.block_bounds bound target
  have nodes : ∀ i < s.sb.ninodes, ∀ r, s'.node i r = s.node i r := by
    intro i inside
    refine State.node_congr (addrs i inside) fun r p index loc table => ?_
    rw [disk _ (holding.node_bounds inside table).1]
    intro same
    rw [leaf] at same
    obtain ⟨-, rfl⟩ := holding.node_injective inside bound table same
    exact Role.leaf_isData _ r index loc
  have holder := State.holder_congr sb nodes
  constructor
  · exact holding.start
  · rw [holder]
    exact holding.held
  · rw [holder]
    exact holding.exclusive
  · intro i inside r
    rw [sb] at inside
    rw [nodes i inside, holding.present i inside]
  · rw [sb]
    exact holding.single
  · intro b later
    rw [disk b (Nat.le_trans holding.start later) (by omega), holding.fresh b later]
  · intro i inside
    rw [sb] at inside
    rw [update_apply]
    split
    · exact limit
    · exact holding.limit i inside
  · intro i inside
    rw [sb] at inside
    rw [update_apply]
    split
    next same => exact same ▸ covered
    next => exact holding.covered i inside
  · intro i inside idx before
    rw [sb] at inside
    have block : s'.block i (idx / bsize) = s.block i (idx / bsize) := by
      simp only [State.block, nodes i inside]
    rw [update_apply] at before ⊢
    rw [State.byteAt, block]
    by_cases here : i = inum ∧ idx / bsize = bn
    · obtain ⟨rfl, rfl⟩ := here
      rw [if_pos rfl] at before ⊢
      exact written idx before rfl
    · have old : idx < (data i).length ∧
          (if i = inum then contents else data i).getD idx 0 = (data i).getD idx 0 := by
        split at before
        next same =>
          subst same
          rw [if_pos rfl]
          exact kept idx before fun equal => here ⟨rfl, equal⟩
        next ne =>
          rw [if_neg ne]
          exact ⟨before, rfl⟩
      have present := holding.block_present inside old.1
      have other : s.block i (idx / bsize) ≠ s.block inum bn := by
        intro same
        have inner := State.lt_of_block present
        rw [leaf, State.block, dif_pos inner] at same
        rw [State.block, dif_pos inner] at present
        obtain ⟨rfl, role⟩ := holding.node_injective inside bound present same
        exact here ⟨rfl, congrArg Fin.val (Role.leaf_injective role)⟩
      rw [old.2, disk _ (holding.block_bounds inside present).1 other]
      exact holding.bytes i inside idx old.1

end

end Holding

end Xv6Simplesh.Mkfs
