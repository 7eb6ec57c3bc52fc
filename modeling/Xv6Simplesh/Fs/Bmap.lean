import Xv6Simplesh.Fs.Nodes

/-! # `bmap` fills empty roles

`bmap` walks from the inode to the data block and stops at each role on the way:
a role that has a block is left alone, and an empty one gets the first free block.
`Filled` says everything that changes when a role is filled, and ownership is kept
because of it alone.
-/

namespace Xv6Simplesh.Fs

open Library Function

variable {r : Role} {i idx slot : Nat}

namespace Owned

variable {s : State} {inum : Nat}

theorem node_bounds (owned : Owned s) (bound : inum < s.sb.ninodes)
    (present : s.node inum r ≠ 0) : s.sb.nmeta ≤ s.node inum r ∧ s.node inum r < s.sb.size :=
  owned.area _ ⟨(inum, r), State.holder_eq_some.mpr ⟨bound, rfl, present⟩⟩

theorem node_injective (owned : Owned s) {inum' : Nat} (bound : inum < s.sb.ninodes)
    (bound' : inum' < s.sb.ninodes) {r' : Role} (present : s.node inum r ≠ 0)
    (same : s.node inum r = s.node inum' r') : inum = inum' ∧ r = r' := by
  have slots := owned.exclusive (State.holder_eq_some.mpr ⟨bound, rfl, present⟩)
    (State.holder_eq_some.mpr ⟨bound', same.symm, present⟩)
  exact ⟨congrArg Prod.fst slots, congrArg Prod.snd slots⟩

section

variable (owned : Owned s) {b : Nat} (free : b ∈ s.freeBlocks)

include owned free

theorem free_bounds : s.sb.nmeta ≤ b ∧ b < s.sb.size ∧ ¬ Held s.holder b := by
  obtain ⟨bound, unused⟩ := State.mem_freeBlocks.mp free
  have clear : ¬ (b < s.sb.nmeta ∨ Held s.holder b) := by
    rw [← owned.bitmap b bound, unused]
    exact Bool.false_ne_true
  rw [not_or] at clear
  exact ⟨by omega, bound, clear.2⟩

theorem free_pos : b ≠ 0 := by
  have low := (owned.free_bounds free).1
  have pos := owned.layout.one_lt_nmeta
  omega

theorem node_ne_free (bound : inum < s.sb.ninodes) (r : Role) : s.node inum r ≠ b := by
  intro same
  exact (owned.free_bounds free).2.2
    ⟨(inum, r), State.holder_eq_some.mpr ⟨bound, same, owned.free_pos free⟩⟩

end

end Owned

/-- The indirect block that holds the number of the block in role `r`. -/
def State.tables (s : State) (inum : Nat) (r : Role) : List Nat :=
  match r.loc with
  | .inode _ => []
  | .entry p _ => [s.node inum p]

/-- What filling role `r` of inode `inum` with block `b` changes. -/
structure Filled (s s' : State) (inum : Nat) (r : Role) (b : Nat) : Prop where
  sb : s'.sb = s.sb
  logged : s'.logged = s.tables inum r ++ b :: s.sb.bblock b :: s.logged
  kept : ∀ i, { s'.inodes i with addrs := (s.inodes i).addrs } = s.inodes i
  others : ∀ i, i ≠ inum → s'.inodes i = s.inodes i
  spare : ∀ slot, ndirect + 2 ≤ slot → (s'.inodes inum).addrs slot = (s.inodes inum).addrs slot
  superblock : s'.disk 1 = s.disk 1
  disk : ∀ x, x ∉ s.tables inum r → x ≠ b → x ≠ s.sb.bblock b → s'.disk x = s.disk x
  empty : s.node inum r = 0
  free : s.freeBlocks = b :: s'.freeBlocks
  used : ∀ x, x < s.sb.size → s'.used x = (s.used x || x = b)
  nodes : ∀ i, i < s.sb.ninodes → ∀ q,
    s'.node i q = if i = inum ∧ q = r then b else s.node i q

section

variable {s s' : State} {inum b : Nat} {r : Role} (filled : Filled s s' inum r b) (bound : inum < s.sb.ninodes)

include filled bound

theorem Filled.holder (pos : b ≠ 0) : s'.holder = update s.holder (inum, r) (some b) :=
  State.holder_fill filled.sb filled.nodes bound pos

theorem Filled.owned (owned : Owned s) : Owned s' := by
  have free : b ∈ s.freeBlocks := filled.free ▸ List.mem_cons_self
  obtain ⟨low, high, unheld⟩ := owned.free_bounds free
  have empty : s.holder (inum, r) = none := by
    simp [State.holder, filled.empty]
  have holder := filled.holder bound (owned.free_pos free)
  refine ⟨filled.sb ▸ owned.layout, ?_, fun x => ?_, ?_, fun x inside => ?_⟩
  · rw [filled.superblock, filled.sb, owned.superblock]
  · rw [holder, held_take empty, filled.sb]
    rintro (rfl | held)
    · exact ⟨low, high⟩
    · exact owned.area x held
  · rw [holder]
    exact owned.exclusive.take unheld (inum, r)
  · rw [filled.sb] at inside
    rw [filled.used x inside, filled.sb, holder, held_take empty, Bool.or_eq_true, owned.bitmap x inside,
      decide_eq_true_eq]
    tauto

end

/-! ## Filling a role in the inode and in an indirect block -/

variable {p q : Role}

section Fill

variable {s : State} {inum b : Nat} {rest : List Nat} {r : Role}

theorem disk_take_of_ne {block : Nat} (notBitmap : block ≠ s.sb.bblock b) (notTaken : block ≠ b) :
    (s.take b).disk block = s.disk block := by
  simp only [State.take, bzero, State.logWrite]
  rw [update_of_ne notTaken, update_of_ne notBitmap]

theorem disk_take_self (s : State) (b : Nat) : (s.take b).disk b = Bytes.fill 0 :=
  update_self ..

theorem disk_take_node (owned : Owned s) (free : s.freeBlocks = b :: rest)
    (inside : i < s.sb.ninodes) (present : s.node i q ≠ 0) : (s.take b).disk (s.node i q) = s.disk (s.node i q) := by
  have mem : b ∈ s.freeBlocks := free ▸ List.mem_cons_self
  have data := (owned.node_bounds inside present).1
  have map := (owned.layout.bblock_bounds (owned.free_bounds mem).2.1).2.2
  exact disk_take_of_ne (by omega) (owned.node_ne_free mem inside q)

/-- One location changes and the new block is empty, so one node changes. -/
theorem node_fill {s' : State} (pos : b ≠ 0) (empty : s.node inum r = 0)
    (parent : ∀ p idx, r.loc = .entry p idx → s.node inum p ≠ 0)
    (addrs : ∀ i < s.sb.ninodes, ∀ (q : Role) slot, q.loc = .inode slot →
      (s'.inodes i).addrs slot = if i = inum ∧ q = r then b else (s.inodes i).addrs slot)
    (tables : ∀ i < s.sb.ninodes, ∀ (q p : Role) idx, q.loc = .entry p idx → s.node i p ≠ 0 →
      (s'.disk (s.node i p)).word idx =
        if i = inum ∧ q = r then b else (s.disk (s.node i p)).word idx)
    (fresh : ∀ idx, (s'.disk b).word idx = 0) (inside : i < s.sb.ninodes) (q : Role) :
    s'.node i q = if i = inum ∧ q = r then b else s.node i q := by
  refine State.node_eq (fun q => if i = inum ∧ q = r then b else s.node i q) ?_ ?_ q
  · intro q slot loc
    rw [addrs i inside q slot loc, s.node_inode i loc]
  · intro q p idx loc
    by_cases child : i = inum ∧ p = r
    · obtain ⟨rfl, rfl⟩ := child
      have other : q ≠ p := by
        rintro rfl
        exact q.location_ne_entry_self idx loc
      simp only [other, and_false, if_false, and_self, if_true]
      rw [s.node_entry i loc, empty, State.entry, State.entry, if_pos rfl, if_neg pos, fresh]
    · simp only [if_neg child]
      by_cases missing : s.node i p = 0
      · have other : ¬ (i = inum ∧ q = r) := by
          rintro ⟨rfl, rfl⟩
          exact parent p idx loc missing
        rw [if_neg other, s.node_entry i loc, missing, State.entry, State.entry, if_pos rfl, if_pos rfl]
      · rw [State.entry, if_neg missing, tables i inside q p idx loc missing, s.node_entry i loc,
          State.entry, if_neg missing]

theorem filled_setAddr (owned : Owned s) (free : s.freeBlocks = b :: rest)
    (loc : r.loc = .inode slot) (empty : s.node inum r = 0) : Filled s ((s.take b).setAddr inum slot b) inum r b := by
  have mem : b ∈ s.freeBlocks := free ▸ List.mem_cons_self
  obtain ⟨low, high, -⟩ := owned.free_bounds mem
  have map := owned.layout.bblock_bounds high
  have data := owned.layout.one_lt_nmeta
  refine ⟨rfl, ?_, fun i => ?_, fun i other => update_of_ne other _ _, fun other outside => ?_,
    disk_take_of_ne (by omega) (by omega), fun x _ notTaken notBitmap => disk_take_of_ne notBitmap notTaken, empty, ?_, fun x inside => ?_,
    fun i inside q => ?_⟩
  · rw [State.tables, loc]
    rfl
  · simp only [State.setAddr, State.setInode, update_apply]
    split
    next same => rw [same]; rfl
    next => rfl
  · have inside := Role.slot_lt loc
    simp only [State.setAddr, State.setInode, update_self]
    rw [update_of_ne (by omega)]
    rfl
  · rw [free]
    exact congrArg _ (State.freeBlocks_take owned.layout free low).symm
  · exact State.used_take owned.layout low inside
  · refine node_fill (owned.free_pos mem) empty ?_ ?_ ?_ ?_ inside q
    · intro p idx other
      rw [loc] at other
      cases other
    · intro i inside q slot' loc'
      have same := Role.eq_iff_slot loc' loc
      simp only [State.setAddr, State.setInode, State.take, bzero, State.logWrite, update_apply, same]
      split <;> simp_all [update_apply]
    · intro i inside q p idx loc' present
      rw [if_neg fun here => Role.entry_ne_inode loc' loc here.2]
      exact congrArg (Bytes.word · idx) (disk_take_node owned free inside present)
    · intro idx
      exact congrArg (Bytes.word · idx) (disk_take_self s b)

theorem filled_setEntry (owned : Owned s) (bound : inum < s.sb.ninodes) (free : s.freeBlocks = b :: rest) (loc : r.loc = .entry p idx) (present : s.node inum p ≠ 0)
    (empty : s.node inum r = 0) :
    Filled s ((s.take b).logWrite (s.node inum p)
      (((s.take b).disk (s.node inum p)).setWord idx b)) inum r b := by
  have mem : b ∈ s.freeBlocks := free ▸ List.mem_cons_self
  obtain ⟨low, high, -⟩ := owned.free_bounds mem
  have map := owned.layout.bblock_bounds high
  have data := owned.layout.one_lt_nmeta
  have table := owned.node_bounds bound present
  have word : b < 2 ^ 32 := by
    have := owned.layout.sizeInt
    omega
  have used : ∀ x < s.sb.size, ((s.take b).logWrite (s.node inum p)
      (((s.take b).disk (s.node inum p)).setWord idx b)).used x = (s.take b).used x := by
    intro x inside
    have outside := (owned.layout.bblock_bounds inside).2.2
    exact State.used_logWrite_of_ne _ _ (show s.sb.bblock x ≠ s.node inum p by omega)
  refine ⟨rfl, ?_, fun i => rfl, fun i _ => rfl, fun slot _ => rfl, ?_, fun x notTable notTaken notBitmap => ?_, empty, ?_, fun x inside => ?_,
    fun i inside q => ?_⟩
  · rw [State.tables, loc]
    rfl
  · simp only [State.logWrite]
    rw [update_of_ne (by omega)]
    exact disk_take_of_ne (by omega) (by omega)
  · rw [State.tables, loc, List.mem_singleton] at notTable
    simp only [State.logWrite]
    rw [update_of_ne notTable]
    exact disk_take_of_ne notBitmap notTaken
  · rw [State.freeBlocks_congr (s.take b) used rfl, State.freeBlocks_take owned.layout free low, free]
  · rw [used x inside]
    exact State.used_take owned.layout low inside
  · refine node_fill (owned.free_pos mem) empty ?_ ?_ ?_ ?_ inside q
    · intro p' idx' loc'
      rw [loc] at loc'
      cases loc'
      exact present
    · intro i inside q slot loc'
      rw [if_neg fun here => Role.entry_ne_inode loc loc' here.2.symm]
      rfl
    · intro i inside q p' idx' loc' present'
      simp only [State.logWrite, update_apply]
      split
      next same =>
        obtain ⟨rfl, rfl⟩ := owned.node_injective inside bound present' same
        by_cases here : idx' = idx
        · have role : q = r := Role.location_injective (loc'.trans (here ▸ loc.symm))
          rw [here, Bytes.word_setWord_of_lt _ _ word, if_pos ⟨rfl, role⟩]
        · have other : ¬ (i = i ∧ q = r) := by
            rintro ⟨-, rfl⟩
            rw [loc] at loc'
            cases loc'
            exact here rfl
          rw [Bytes.word_setWord_ne _ _ (Ne.symm here), if_neg other,
            disk_take_node owned free inside present']
      next ne =>
        have other : ¬ (i = inum ∧ q = r) := by
          rintro ⟨rfl, rfl⟩
          rw [loc] at loc'
          cases loc'
          exact ne rfl
        rw [if_neg other, disk_take_node owned free inside present']
    · intro idx'
      have other : b ≠ s.node inum p := (owned.node_ne_free mem bound p).symm
      simp only [State.logWrite]
      rw [update_of_ne other, disk_take_self]
      rfl

end Fill

/-! ## Stopping at a role -/

/-- What stopping at role `r` does: nothing if it has a block, else it is filled. -/
def Loads (inum : Nat) (s : State) (r : Role) (b : Nat) (s' : State) : Prop :=
  (s' = s ∧ s.node inum r = b ∧ b ≠ 0) ∨ Filled s s' inum r b

section Loads

variable {s s' : State} {inum b : Nat} {r : Role}

section

variable (loads : Loads inum s r b s')

include loads

theorem Loads.owned (bound : inum < s.sb.ninodes) (owned : Owned s) : Owned s' := by
  rcases loads with ⟨rfl, -⟩ | filled
  · exact owned
  · exact filled.owned bound owned

theorem Loads.sb : s'.sb = s.sb := by
  rcases loads with ⟨rfl, -⟩ | filled
  · rfl
  · exact filled.sb

theorem Loads.node (bound : inum < s.sb.ninodes) (owned : Owned s) : s'.node inum r = b ∧ b ≠ 0 := by
  rcases loads with ⟨rfl, node, present⟩ | filled
  · exact ⟨node, present⟩
  · refine ⟨?_, owned.free_pos (filled.free ▸ List.mem_cons_self)⟩
    rw [filled.nodes inum bound, if_pos ⟨rfl, rfl⟩]

theorem Loads.keeps (inside : i < s.sb.ninodes) (present : s.node i q ≠ 0) : s'.node i q = s.node i q := by
  rcases loads with ⟨rfl, -⟩ | filled
  · rfl
  · rw [filled.nodes i inside, if_neg]
    rintro ⟨rfl, rfl⟩
    exact present filled.empty

end

theorem loadAddr_loads (owned : Owned s) (loc : r.loc = .inode slot) :
    (∃ b s', loadAddr s inum slot = .ok (b, s') ∧ Loads inum s r b s') ∨
      loadAddr s inum slot = .error .outOfBlocks ∧ s.freeBlocks = [] := by
  unfold loadAddr
  rw [← s.node_inode inum loc]
  split
  next empty =>
    cases free : s.freeBlocks with
    | nil =>
      rw [balloc_of_nil free]
      exact .inr ⟨rfl, rfl⟩
    | cons b rest =>
      rw [balloc_of_cons free]
      exact .inl ⟨b, _, rfl, .inr (filled_setAddr owned free loc empty)⟩
  next present => exact .inl ⟨_, s, rfl, .inl ⟨rfl, rfl, present⟩⟩

theorem loadEntry_loads (owned : Owned s) (bound : inum < s.sb.ninodes)
    (loc : r.loc = .entry p idx) (table : s.node inum p = b) (present : b ≠ 0) :
    (∃ b' s', loadEntry s b idx = .ok (b', s') ∧ Loads inum s r b' s') ∨
      loadEntry s b idx = .error .outOfBlocks ∧ s.freeBlocks = [] := by
  have node : (s.disk b).word idx = s.node inum r := by
    rw [s.node_entry inum loc, table, State.entry, if_neg present]
  unfold loadEntry
  rw [node]
  split
  next empty =>
    cases free : s.freeBlocks with
    | nil =>
      rw [balloc_of_nil free]
      exact .inr ⟨rfl, rfl⟩
    | cons b' rest =>
      rw [balloc_of_cons free]
      subst table
      exact .inl ⟨b', _, rfl, .inr (filled_setEntry owned bound free loc present empty)⟩
  next present => exact .inl ⟨_, s, rfl, .inl ⟨rfl, rfl, present⟩⟩

end Loads

/-! ## `bmap` -/

/-- The role of data block `bn` of a file. -/
def Role.leaf (bn : Fin maxFile) : Role :=
  if direct : bn < ndirect then .direct ⟨bn, direct⟩
  else if indirect : bn - ndirect < nindirect then .indirectEntry ⟨bn - ndirect, indirect⟩
  else .tableEntry ⟨(bn - ndirect - nindirect) / nindirect, Nat.div_lt_of_lt_mul (by
      have := bn.isLt
      dsimp only [maxFile, ndirect, nindirect, bsize] at *
      omega)⟩
    ⟨(bn - ndirect - nindirect) % nindirect, Nat.mod_lt _ (by decide)⟩

theorem Role.leaf_injective {bn bn' : Fin maxFile} (same : leaf bn = leaf bn') : bn = bn' := by
  unfold leaf at same
  have low := bn.isLt
  have low' := bn'.isLt
  apply Fin.ext
  split at same <;> split at same <;> (try split at same) <;> (try split at same) <;>
    simp only [direct.injEq, indirectEntry.injEq, tableEntry.injEq, Fin.mk.injEq, reduceCtorEq] at same <;>
    dsimp only [maxFile, ndirect, nindirect, bsize] at * <;> omega

/-- The roles on the way from the inode. -/
def Role.path : Role → List Role
  | .indirectEntry i => [.indirect, .indirectEntry i]
  | .table k => [.double, .table k]
  | .tableEntry k l => [.double, .table k, .tableEntry k l]
  | r => [r]

/-- Stopping at several roles one after the other. -/
inductive LoadsAll (inum : Nat) : State → List Role → State → Prop where
  | nil {s : State} : LoadsAll inum s [] s
  | cons {s s' s'' : State} {r : Role} {rs : List Role} {b : Nat} (first : Loads inum s r b s')
      (rest : LoadsAll inum s' rs s'') : LoadsAll inum s (r :: rs) s''

namespace LoadsAll

variable {s s' : State} {inum : Nat} {rs : List Role}

section

variable (loads : LoadsAll inum s rs s')

include loads

theorem sb : s'.sb = s.sb := by
  induction loads with
  | nil => rfl
  | cons first rest ih => rw [ih, first.sb]

theorem owned (bound : inum < s.sb.ninodes) (owned : Owned s) : Owned s' := by
  induction loads with
  | nil => exact owned
  | cons first rest ih =>
    exact ih (first.sb ▸ bound) (first.owned bound owned)

theorem keeps (inside : i < s.sb.ninodes) (present : s.node i q ≠ 0) : s'.node i q = s.node i q := by
  induction loads with
  | nil => rfl
  | cons first rest ih =>
    have kept := first.keeps inside present
    rw [ih (first.sb ▸ inside) (kept ▸ present), kept]

theorem length_freeBlocks_le : s.freeBlocks.length ≤ s'.freeBlocks.length + rs.length := by
  induction loads with
  | nil => exact Nat.le_refl _
  | cons first rest ih =>
    rw [List.length_cons]
    rcases first with ⟨rfl, -⟩ | filled
    · omega
    · rw [filled.free, List.length_cons]
      omega

end

theorem snoc {s'' : State} {b : Nat} (loads : LoadsAll inum s rs s')
    (last : Loads inum s' r b s'') : LoadsAll inum s (rs ++ [r]) s'' := by
  induction loads with
  | nil => exact .cons last .nil
  | cons first rest ih => exact .cons first (ih last)

end LoadsAll

/-- The outcome of walking over the roles `rs` and then to `r`: the block there,
unless the free blocks do not suffice. -/
def Walks (inum : Nat) (s : State) (rs : List Role) (r : Role) (res : Except Panic (Nat × State)) : Prop :=
  (∃ b s', res = .ok (b, s') ∧ LoadsAll inum s (rs ++ [r]) s' ∧ s'.node inum r = b ∧ b ≠ 0) ∨
    res = .error .outOfBlocks ∧ s.freeBlocks.length ≤ rs.length

section Walks

variable {s : State} {inum : Nat}

theorem walks_loadAddr (owned : Owned s) (bound : inum < s.sb.ninodes)
    (loc : r.loc = .inode slot) : Walks inum s [] r (loadAddr s inum slot) := by
  rcases loadAddr_loads owned loc with ⟨b, s', loaded, loads⟩ | ⟨failed, full⟩
  · exact .inl ⟨b, s', loaded, .cons loads .nil, loads.node bound owned⟩
  · exact .inr ⟨failed, by rw [full]; exact Nat.le_refl _⟩

theorem Walks.loadEntry {rs : List Role}
    {res : Except Panic (Nat × State)} (walks : Walks inum s rs p res) (owned : Owned s)
    (bound : inum < s.sb.ninodes) (loc : r.loc = .entry p idx) :
    Walks inum s (rs ++ [p]) r (res >>= fun (addr, s) => loadEntry s addr idx) := by
  rcases walks with ⟨b, s₁, rfl, loads, node, present⟩ | ⟨rfl, few⟩
  · have bound₁ : inum < s₁.sb.ninodes := loads.sb ▸ bound
    have owned₁ := loads.owned bound owned
    rcases loadEntry_loads owned₁ bound₁ loc node present with ⟨b', s₂, loaded, last⟩ | ⟨failed, full⟩
    · exact .inl ⟨b', s₂, loaded, loads.snoc last, last.node bound₁ owned₁⟩
    · have taken := loads.length_freeBlocks_le
      rw [full, List.length_nil, Nat.zero_add] at taken
      exact .inr ⟨failed, taken⟩
  · refine .inr ⟨rfl, ?_⟩
    rw [List.length_append]
    omega

theorem bmap_walks (owned : Owned s) (bound : inum < s.sb.ninodes) (bn : Fin maxFile) :
    Walks inum s (Role.leaf bn).path.dropLast (Role.leaf bn) (bmap s inum bn) := by
  unfold bmap Role.leaf
  split
  next direct => exact walks_loadAddr owned bound rfl
  next =>
    simp only
    split
    next indirect =>
      exact (walks_loadAddr owned bound (r := .indirect) rfl).loadEntry owned bound rfl
    next =>
      have inside : (bn : Nat) - ndirect - nindirect < nindirect * nindirect := by
        have := bn.isLt
        dsimp only [maxFile, ndirect, nindirect, bsize] at *
        omega
      rw [if_pos inside]
      have walks := ((walks_loadAddr owned bound (r := .double) rfl).loadEntry owned bound
        (r := .table ⟨_, Nat.div_lt_of_lt_mul inside⟩) rfl).loadEntry owned bound
        (r := .tableEntry ⟨_, Nat.div_lt_of_lt_mul inside⟩
          ⟨(bn - ndirect - nindirect) % nindirect, Nat.mod_lt _ (by decide)⟩) rfl
      rw [bind_assoc] at walks
      exact walks

end Walks

end Xv6Simplesh.Fs
