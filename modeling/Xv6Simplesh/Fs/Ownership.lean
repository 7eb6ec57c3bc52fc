import Xv6Simplesh.Fs.Bmap
import Xv6Simplesh.Library.Loops
import Xv6Simplesh.Library.Runs

/-! # Block ownership is kept by `bmap`, `writei` and `itrunc`

`writei` adds to `bmap` writes to data blocks and to the inode block, which are
not part of any table.  `itrunc` gives up the nodes of one inode one by one; while
it does, the freed blocks are still referred to, and the invariant of its loops
says which roles have been freed so far.
-/

namespace Xv6Simplesh.Fs

open Library Function

/-! ## Writes that do not touch the tables -/

variable {s : State} {inum n off tot : Nat}

/-- Ownership depends on the nodes, the bitmap and the super block. -/
theorem Owned.congr {s' : State} (owned : Owned s) (sb : s'.sb = s.sb) (superblock : s'.disk 1 = s.disk 1)
    (used : ∀ b < s.sb.size, s'.used b = s.used b)
    (nodes : ∀ i < s.sb.ninodes, ∀ r, s'.node i r = s.node i r) : Owned s' := by
  have holder := State.holder_congr sb nodes
  refine ⟨sb ▸ owned.layout, by rw [superblock, sb, owned.superblock], ?_, ?_, ?_⟩
  · rw [holder, sb]
    exact owned.area
  · rw [holder]
    exact owned.exclusive
  · intro b inside
    rw [sb] at inside
    rw [holder, used b inside, sb]
    exact owned.bitmap b inside

/-- A role that no other role's location refers to. -/
def Role.IsData (r : Role) : Prop := ∀ (q : Role) (idx : Nat), q.loc ≠ .entry r idx

theorem Role.leaf_isData (bn : Fin maxFile) : (Role.leaf bn).IsData := by
  intro q idx loc
  unfold leaf at loc
  split at loc
  · cases q <;> simp [Role.loc] at loc
  · split at loc <;> cases q <;> simp [Role.loc] at loc

section

variable {s : State} (owned : Owned s) {inum : Nat} (bound : inum < s.sb.ninodes) {r : Role}

include owned bound

theorem node_logWrite_data
    (data : r.IsData) (present : s.node inum r ≠ 0) (bytes : Bytes) {i : Nat} (inside : i < s.sb.ninodes)
    (q : Role) : (s.logWrite (s.node inum r) bytes).node i q = s.node i q := by
  refine State.node_congr ?_ ?_ q
  · intro slot _
    rfl
  intro q p idx loc table
  have other : s.node i p ≠ s.node inum r := by
    intro same
    obtain ⟨-, rfl⟩ := owned.node_injective inside bound table same
    exact data q idx loc
  simp only [State.logWrite]
  rw [update_of_ne other]

theorem Owned.used_logWrite_node (present : s.node inum r ≠ 0) (bytes : Bytes) {b : Nat} (inside : b < s.sb.size) :
    (s.logWrite (s.node inum r) bytes).used b = s.used b := by
  have block := owned.node_bounds bound present
  have map := (owned.layout.bblock_bounds inside).2.2
  exact State.used_logWrite_of_ne _ _ (by omega)

theorem Owned.freeBlocks_logWrite_node (present : s.node inum r ≠ 0) (bytes : Bytes) :
    (s.logWrite (s.node inum r) bytes).freeBlocks = s.freeBlocks :=
  s.freeBlocks_congr (fun _ inside => owned.used_logWrite_node bound present bytes inside) rfl

theorem Owned.logWrite_data (data : r.IsData) (present : s.node inum r ≠ 0) (bytes : Bytes) :
    Owned (s.logWrite (s.node inum r) bytes) := by
  have block := owned.node_bounds bound present
  have first := owned.layout.one_lt_nmeta
  refine owned.congr rfl ?_ (fun b inside => owned.used_logWrite_node bound present bytes inside)
    fun i inside q => node_logWrite_data owned bound data present bytes inside q
  simp only [State.logWrite]
  rw [update_of_ne (by omega)]

end

theorem Owned.setSize (owned : Owned s) (inum size : Nat) : Owned (s.setSize inum size) := by
  refine owned.congr rfl rfl (fun b inside => rfl) fun i inside r => ?_
  refine State.node_congr ?_ ?_ r
  · intro slot _
    simp only [State.setSize, State.setInode, update_apply]
    split
    next same => rw [same]
    next => rfl
  · intro q p idx loc table
    rfl

theorem Owned.iupdate (owned : Owned s) (bound : inum < s.sb.ninodes) : Owned (iupdate s inum) := by
  have block := owned.layout.iblock_lt bound
  refine owned.congr rfl ?_ ?_ fun i inside r => ?_
  · simp only [Fs.iupdate, State.logWrite]
    rw [update_of_ne (by omega)]
  · intro b inside
    have map := (owned.layout.bblock_bounds inside).2.1
    exact State.used_logWrite_of_ne _ _ (by omega)
  · refine State.node_congr ?_ ?_ r
    · intro slot _
      rfl
    intro q p idx loc table
    have data := (owned.node_bounds inside table).1
    have inodes := s.sb.bmapstart_lt_nmeta
    simp only [Fs.iupdate, State.logWrite]
    rw [update_of_ne (by omega)]

/-! ## `writei` -/

/-- Walking to the blocks `bns` of a file in turn and writing to each. -/
inductive Writes (inum : Nat) : State → List (Fin maxFile) → State → Prop where
  | nil {s : State} : Writes inum s [] s
  | cons {s s₁ s₂ : State} {bn : Fin maxFile} {bns : List (Fin maxFile)} (bytes : Bytes)
      (loads : LoadsAll inum s (Role.leaf bn).path s₁) (present : s₁.node inum (Role.leaf bn) ≠ 0)
      (rest : Writes inum (s₁.logWrite (s₁.node inum (Role.leaf bn)) bytes) bns s₂) :
      Writes inum s (bn :: bns) s₂

namespace Writes

variable {s s' : State} {inum : Nat} {bns : List (Fin maxFile)}

theorem sb (writes : Writes inum s bns s') : s'.sb = s.sb := by
  induction writes with
  | nil => rfl
  | cons bytes loads present rest ih => exact ih.trans loads.sb

theorem owned (writes : Writes inum s bns s') (bound : inum < s.sb.ninodes) (owned : Owned s) : Owned s' := by
  induction writes with
  | nil => exact owned
  | @cons s s₁ s₂ bn bns bytes loads present rest ih =>
    have bound₁ : inum < s₁.sb.ninodes := loads.sb ▸ bound
    exact ih bound₁
      ((loads.owned bound owned).logWrite_data bound₁ (Role.leaf_isData bn) present bytes)

end Writes

/-- The number of blocks that `n` bytes from `off` on lie in. -/
def blockCount (off n : Nat) : Nat := if n = 0 then 0 else (off + n - 1) / bsize - off / bsize + 1

/-- One iteration of the loop of `writei` is done with one block. -/
theorem blockCount_chunk (more : tot < n) :
    blockCount off (n - tot) = blockCount (off + chunk off n tot) (n - (tot + chunk off n tot)) + 1 := by
  dsimp only [blockCount, chunk, bsize]
  split <;> split <;> omega

theorem next_block (more : tot < n) (last : chunk off n tot ≠ n - tot) :
    (off + chunk off n tot) / bsize = off / bsize + 1 := by
  dsimp only [chunk, bsize] at last ⊢
  omega

theorem Role.dropLast_path (r : Role) : r.path.dropLast ++ [r] = r.path := by
  cases r <;> rfl

theorem Role.length_path_le (r : Role) : r.path.length ≤ 3 := by
  cases r <;> simp [path]

theorem writeLoop_writes (src : Nat → UInt8) (owned : Owned s)
    (bound : inum < s.sb.ninodes) (fits : off + (n - tot) ≤ maxFile * bsize) :
    (∃ s' bns, writeLoop s inum src off n tot = .ok s' ∧ Writes inum s bns s' ∧
        bns.map Fin.val = List.range' (off / bsize) (blockCount off (n - tot))) ∨
      writeLoop s inum src off n tot = .error .outOfBlocks ∧
        s.freeBlocks.length < 3 * blockCount off (n - tot) := by
  induction left : n - tot using Nat.strong_induction_on generalizing s off tot with
  | _ left ih =>
  subst left
  rw [writeLoop]
  split
  next more =>
    have inside : off / bsize < maxFile := by
      dsimp only [maxFile, ndirect, nindirect, bsize] at *
      omega
    rcases bmap_walks owned bound ⟨off / bsize, inside⟩ with
      ⟨b, s₁, mapped, loads, node, present⟩ | ⟨failed, few⟩
    · rw [Role.dropLast_path] at loads
      rw [show bmap s inum (off / bsize) = .ok (b, s₁) from mapped]
      subst node
      have bound₁ : inum < s₁.sb.ninodes := loads.sb ▸ bound
      have owned₀ := loads.owned bound owned
      have owned₁ := owned₀.logWrite_data bound₁ (Role.leaf_isData _) present
        ((s₁.disk (s₁.node inum (Role.leaf ⟨off / bsize, inside⟩))).copy (off % bsize)
          (fun i => src (tot + i)) (chunk off n tot))
      have shorter : n - (tot + chunk off n tot) < n - tot := by
        dsimp only [chunk, bsize]
        omega
      have fits₁ : off + chunk off n tot + (n - (tot + chunk off n tot)) ≤ maxFile * bsize := by
        have := Nat.min_le_left (n - tot) (bsize - off % bsize)
        dsimp only [chunk]
        omega
      rcases ih _ shorter owned₁ bound₁ fits₁ rfl with
        ⟨s₂, bns, looped, writes, blocks⟩ | ⟨failed, few⟩
      · refine .inl ⟨s₂, ⟨off / bsize, inside⟩ :: bns, looped, .cons _ loads present writes, ?_⟩
        rw [List.map_cons, blocks, blockCount_chunk more, List.range'_succ]
        by_cases last : chunk off n tot = n - tot
        · rw [show n - (tot + chunk off n tot) = 0 by omega]
          rfl
        · rw [next_block more last]
      · refine .inr ⟨failed, ?_⟩
        have taken := loads.length_freeBlocks_le
        have short := Role.length_path_le (Role.leaf ⟨off / bsize, inside⟩)
        rw [owned₀.freeBlocks_logWrite_node bound₁ present] at few
        rw [blockCount_chunk more]
        omega
    · rw [show bmap s inum (off / bsize) = .error .outOfBlocks from failed]
      refine .inr ⟨rfl, ?_⟩
      have short := Role.length_path_le (Role.leaf ⟨off / bsize, inside⟩)
      rw [List.length_dropLast] at few
      rw [blockCount_chunk more]
      omega
  next done =>
    refine .inl ⟨s, [], rfl, .nil, ?_⟩
    rw [show n - tot = 0 by omega]
    rfl

theorem writei_owned (devsw : Devsw) (owned : Owned s) (bound : inum < s.sb.ninodes)
    (src : Nat → UInt8) (off n : UInt32) :
    (∃ res s', writei devsw s inum src off.toNat n.toNat = .ok (res, s') ∧ s'.sb = s.sb ∧ Owned s') ∨
      writei devsw s inum src off.toNat n.toNat = .error .outOfBlocks := by
  have unchanged : ∀ res : Int, ∃ res' s', (.ok (res, s) : Except Panic (Int × State)) = .ok (res', s') ∧
      s'.sb = s.sb ∧ Owned s' := fun res => ⟨res, s, rfl, rfl, owned⟩
  unfold writei
  simp only
  split
  · split
    · exact .inl (unchanged _)
    · split <;> exact .inl (unchanged _)
  split
  · exact .inl (unchanged _)
  next inSize =>
  split
  · exact .inl (unchanged _)
  next inFile =>
  have wrap : off.toNat + n.toNat < 2 ^ 32 := by
    have := off.toNat_lt
    have := n.toNat_lt
    omega
  have fits : off.toNat + (n.toNat - 0) ≤ maxFile * bsize := by
    rw [Nat.mod_eq_of_lt wrap] at inFile
    omega
  rcases writeLoop_writes src owned bound fits with ⟨s', bns, looped, writes, -⟩ | ⟨failed, -⟩
  · have owned' := writes.owned bound owned
    rw [looped]
    simp only [bind, Except.bind]
    split
    · exact .inl ⟨_, _, rfl, writes.sb, (owned'.setSize inum _).iupdate (writes.sb ▸ bound)⟩
    · exact .inl ⟨_, _, rfl, writes.sb, owned'⟩
  · rw [failed]
    exact .inr rfl

/-! ## `itrunc` -/

/-- The roles that hang from entry `k` of the doubly indirect block. -/
def Role.inTable (k : Nat) : Role → Prop
  | .table k' => k' = k
  | .tableEntry k' _ => k' = k
  | _ => False

/-- The slot of the inode that a role hangs from. -/
def Role.root : Role → Nat
  | .direct i => i
  | .indirect => ndirect
  | .indirectEntry _ => ndirect
  | _ => ndirect + 1

variable {r : Role}

theorem State.node_of_root_empty (empty : (s.inodes inum).addrs r.root = 0) : s.node inum r = 0 := by
  cases r <;> simp_all [Role.root, node, entry]

theorem lt_or_eq_eq_lt_succ (k : Nat) : (fun t => t < k ∨ t = k) = (· < k + 1) := by
  funext t
  exact propext Nat.lt_succ_iff_lt_or_eq.symm

/-- The state in the middle of `itrunc`: the blocks in the roles `freed` of inode
`inum` have been given to `bfree`, and the slots `cleared` of the inode are 0. -/
structure Truncating (inum : Nat) (start : State) (freed : Role → Prop) (cleared : Nat → Prop)
    (s : State) : Prop where
  sb : s.sb = start.sb
  disk : ∀ block, block < start.sb.bmapstart ∨ start.sb.nmeta ≤ block → s.disk block = start.disk block
  used : ∀ b < start.sb.size, (s.used b = true ↔
    start.used b = true ∧ ∀ r, freed r → start.holder (inum, r) ≠ some b)
  others : ∀ i, i ≠ inum → s.inodes i = start.inodes i
  kept : { s.inodes inum with addrs := (start.inodes inum).addrs } = start.inodes inum
  clear : ∀ slot, cleared slot → (s.inodes inum).addrs slot = 0
  intact : ∀ slot, ¬ cleared slot → (s.inodes inum).addrs slot = (start.inodes inum).addrs slot

namespace Truncating

variable {inum : Nat} {start s : State} {freed : Role → Prop} {cleared : Nat → Prop}

theorem bfree (now : Truncating inum start freed cleared s) (owned : Owned start)
    (bound : inum < start.sb.ninodes) (unfreed : ¬ freed r) (present : start.node inum r ≠ 0) :
    ∃ s', Fs.bfree s (start.node inum r) = .ok s' ∧
      Truncating inum start (fun q => freed q ∨ q = r) cleared s' := by
  have holds : start.holder (inum, r) = some (start.node inum r) :=
    State.holder_eq_some.mpr ⟨bound, rfl, present⟩
  have block := owned.node_bounds bound present
  have set : s.used (start.node inum r) = true := by
    rw [now.used _ block.2]
    refine ⟨(owned.bitmap _ block.2).mpr (.inr ⟨_, holds⟩), fun q gone same => unfreed ?_⟩
    have slot := owned.exclusive holds same
    rw [Prod.mk.injEq] at slot
    exact slot.2 ▸ gone
  have superblock : readsb (s.disk 1) = s.sb := by
    rw [now.disk 1 (.inl owned.layout.one_lt_bmapstart), now.sb, owned.superblock]
  have map := owned.layout.bblock_bounds block.2
  have first := owned.layout.one_lt_nmeta
  refine ⟨_, bfree_of_used superblock set, now.sb, fun other place => ?_, fun b inside => ?_, now.others,
    now.kept, now.clear, now.intact⟩
  · rw [← now.disk other place]
    refine update_of_ne ?_ _ _
    rw [now.sb]
    omega
  · rw [State.used_bfree, Bool.and_eq_true, now.used b inside, decide_eq_true_eq]
    constructor
    · rintro ⟨⟨used, kept⟩, other⟩
      refine ⟨used, fun q gone => ?_⟩
      rcases gone with gone | rfl
      · exact kept q gone
      · rw [holds]
        exact fun same => other (Option.some.inj same).symm
    · rintro ⟨used, kept⟩
      refine ⟨⟨used, fun q gone => kept q (.inl gone)⟩, fun same => kept r (.inr rfl) ?_⟩
      rw [holds, same]

theorem congr {freed' : Role → Prop} (now : Truncating inum start freed cleared s)
    (same : ∀ r, start.node inum r ≠ 0 → (freed r ↔ freed' r)) : Truncating inum start freed' cleared s := by
  have transfer : ∀ r b, start.holder (inum, r) = some b → (freed r ↔ freed' r) := by
    intro r b holds
    obtain ⟨-, rfl, present⟩ := State.holder_eq_some.mp holds
    exact same r present
  refine ⟨now.sb, now.disk, fun b inside => ?_, now.others, now.kept, now.clear, now.intact⟩
  rw [now.used b inside]
  refine and_congr_right fun _ => forall_congr' fun r => ?_
  constructor <;> intro kept gone holds
  · exact kept ((transfer r b holds).mpr gone) holds
  · exact kept ((transfer r b holds).mp gone) holds

section

variable (now : Truncating inum start freed cleared s) (owned : Owned start) (bound : inum < start.sb.ninodes)

include now owned bound

variable {p : Role}

theorem word {idx : Nat} (loc : r.loc = .entry p idx)
    (present : start.node inum p ≠ 0) : (s.disk (start.node inum p)).word idx = start.node inum r := by
  rw [now.disk _ (.inr (owned.node_bounds bound present).1), start.node_entry inum loc, State.entry,
    if_neg present]

theorem freeEntry {idx : Nat} (loc : r.loc = .entry p idx) (table : start.node inum p ≠ 0) (unfreed : ¬ freed r) :
    ∃ s', Fs.freeEntry (start.node inum p) s idx = .ok s' ∧
      Truncating inum start (fun q => freed q ∨ q = r) cleared s' := by
  rw [Fs.freeEntry, now.word owned bound loc table]
  split
  next empty =>
    refine ⟨s, rfl, now.congr fun q present => ⟨.inl, ?_⟩⟩
    rintro (gone | rfl)
    · exact gone
    · exact absurd empty present
  next present => exact now.bfree owned bound unfreed present

theorem freeEntries (table : start.node inum p ≠ 0) (children : ∀ i < nindirect, ∃ r : Role, r.loc = .entry p i)
    (unfreed : ∀ (r : Role) idx, r.loc = .entry p idx → ¬ freed r) :
    ∃ s', Fs.freeEntries s (start.node inum p) = .ok s' ∧
      Truncating inum start (fun q => freed q ∨ ∃ idx < nindirect, q.loc = .entry p idx)
        cleared s' := by
  refine foldlM_range_invariant (fun i s => Truncating inum start
    (fun q => freed q ∨ ∃ idx < i, q.loc = .entry p idx) cleared s) ?_ ?_
  · exact now.congr fun r _ => ⟨.inl, by rintro (gone | ⟨_, bound, _⟩); exacts [gone, by omega]⟩
  · intro i s inside now
    obtain ⟨r, loc⟩ := children i inside
    have fresh : ¬ (freed r ∨ ∃ idx < i, r.loc = .entry p idx) := by
      rintro (gone | ⟨idx, earlier, same⟩)
      · exact unfreed r i loc gone
      · rw [loc] at same
        cases same
        omega
    obtain ⟨s', ran, now⟩ := now.freeEntry owned bound loc table fresh
    refine ⟨s', ran, now.congr fun q _ => ?_⟩
    have here : q = r ↔ q.loc = .entry p i :=
      ⟨fun same => same ▸ loc, fun same => Role.location_injective (same.trans loc.symm)⟩
    rw [or_assoc, here, Nat.exists_lt_succ_right]

/-- The block that a table hangs from, as one iteration over the doubly indirect
block frees it: first its entries and then the table itself. -/
theorem freeTable (double : start.node inum .double ≠ 0) (k : Fin nindirect)
    (unfreed : ∀ r : Role, r.inTable k → ¬ freed r) :
    ∃ s', Fs.freeTable (start.node inum .double) s k = .ok s' ∧
      Truncating inum start (fun q => freed q ∨ q.inTable k) cleared s' := by
  have loc : (Role.table k).loc = .entry .double k := rfl
  rw [Fs.freeTable, now.word owned bound loc double]
  split
  next empty =>
    refine ⟨s, rfl, now.congr fun q present => ⟨.inl, ?_⟩⟩
    rintro (gone | inside)
    · exact gone
    · refine absurd ?_ present
      cases q with
      | table k' => rw [Fin.ext inside, empty]
      | tableEntry k' l =>
        have parent : (Role.tableEntry k' l).loc = .entry (.table k') l := rfl
        rw [start.node_entry inum parent, Fin.ext inside, empty]
        rfl
      | _ => exact inside.elim
  next present =>
    obtain ⟨s₁, ran, now₁⟩ := now.freeEntries owned bound present
      (fun i inside => ⟨.tableEntry k ⟨i, inside⟩, rfl⟩) (fun r idx entry => unfreed r (by
        cases r <;> simp_all [Role.loc, Role.inTable]))
    have fresh : ¬ (freed (.table k) ∨ ∃ idx < nindirect, (Role.table k).loc = .entry (.table k) idx) := by
      rintro (gone | ⟨idx, -, entry⟩)
      · exact unfreed (.table k) rfl gone
      · exact Role.location_ne_entry_self _ idx entry
    obtain ⟨s₂, ran₂, now₂⟩ := now₁.bfree owned bound fresh present
    refine ⟨s₂, ?_, now₂.congr fun q _ => ?_⟩
    · rw [ran]
      show Fs.bfree s₁ _ = _
      rw [now₁.word owned bound loc double, ran₂]
    · rw [or_assoc]
      refine or_congr_right ?_
      cases q with
      | table k' => simp [Role.loc, Role.inTable, Fin.ext_iff]
      | tableEntry k' l =>
        simp only [Role.loc, Role.inTable, Location.entry.injEq, Role.table.injEq, reduceCtorEq, or_false,
          Fin.ext_iff]
        constructor
        · rintro ⟨idx, -, same, -⟩
          exact same
        · exact fun same => ⟨l, l.isLt, same, rfl⟩
      | _ => simp [Role.loc, Role.inTable]

end

theorem setAddr (now : Truncating inum start freed cleared s) (slot : Nat) :
    Truncating inum start freed (fun t => cleared t ∨ t = slot) (s.setAddr inum slot 0) := by
  refine ⟨now.sb, now.disk, now.used, fun i other => ?_, ?_, fun t gone => ?_, fun t kept => ?_⟩
  · rw [← now.others i other]
    exact update_of_ne other _ _
  · rw [← now.kept]
    simp only [State.setAddr, State.setInode, update_self]
  · simp only [State.setAddr, State.setInode, update_self, update_apply]
    split
    · rfl
    next other => exact now.clear t (gone.resolve_right other)
  · rw [not_or] at kept
    simp only [State.setAddr, State.setInode, update_self]
    rw [update_of_ne kept.2]
    exact now.intact t kept.1

/-- A slot that is empty to begin with counts as cleared. -/
theorem skip {slot : Nat} (now : Truncating inum start freed cleared s)
    (empty : (start.inodes inum).addrs slot = 0) (uncleared : ¬ cleared slot) :
    Truncating inum start freed (fun t => cleared t ∨ t = slot) s := by
  refine ⟨now.sb, now.disk, now.used, now.others, now.kept, fun t gone => ?_, fun t kept => ?_⟩
  · rcases gone with gone | rfl
    · exact now.clear t gone
    · rw [now.intact t uncleared, empty]
  · exact now.intact t fun gone => kept (.inl gone)

theorem freeDirect (now : Truncating inum start freed cleared s) (owned : Owned start)
    (bound : inum < start.sb.ninodes) (i : Fin ndirect) (unfreed : ¬ freed (.direct i)) (uncleared : ¬ cleared i) :
    ∃ s', Fs.freeDirect inum s i = .ok s' ∧
      Truncating inum start (fun q => freed q ∨ q = .direct i) (fun t => cleared t ∨ t = i) s' := by
  have addr : (s.inodes inum).addrs i = start.node inum (.direct i) := now.intact i uncleared
  rw [Fs.freeDirect, addr]
  split
  next empty =>
    refine ⟨s, rfl, (now.congr fun q present => ⟨.inl, ?_⟩).skip empty uncleared⟩
    rintro (gone | rfl)
    · exact gone
    · exact absurd empty present
  next present =>
    obtain ⟨s₁, ran, now⟩ := now.bfree owned bound unfreed present
    refine ⟨_, ?_, now.setAddr i⟩
    rw [ran]
    rfl

theorem freeDirects (owned : Owned start) (bound : inum < start.sb.ninodes) :
    ∃ s, (List.range ndirect).foldlM (Fs.freeDirect inum) start = .ok s ∧
      Truncating inum start (fun q => q.root < ndirect) (· < ndirect) s := by
  refine foldlM_range_invariant (fun i s => Truncating inum start (fun q => q.root < i) (· < i) s) ?_ ?_
  · refine ⟨rfl, fun _ _ => rfl, fun b inside => ?_, fun _ _ => rfl, rfl, fun t gone => by omega, fun _ _ => rfl⟩
    exact ⟨fun used => ⟨used, fun r gone => by omega⟩, And.left⟩
  · intro i s inside now
    obtain ⟨s', ran, now⟩ := now.freeDirect owned bound ⟨i, inside⟩ (Nat.lt_irrefl i) (Nat.lt_irrefl i)
    rw [lt_or_eq_eq_lt_succ] at now
    refine ⟨s', ran, now.congr fun q _ => ?_⟩
    rw [Nat.lt_succ_iff_lt_or_eq]
    refine or_congr_right ?_
    cases q <;> simp [Role.root, Fin.ext_iff] <;> omega

theorem freeIndirect (now : Truncating inum start (fun q => q.root < ndirect) (· < ndirect) s)
    (owned : Owned start) (bound : inum < start.sb.ninodes) :
    ∃ s', Fs.freeIndirect s inum = .ok s' ∧
      Truncating inum start (fun q => q.root < ndirect + 1) (· < ndirect + 1) s' := by
  have addr : (s.inodes inum).addrs ndirect = start.node inum .indirect :=
    now.intact ndirect (Nat.lt_irrefl ndirect)
  rw [← lt_or_eq_eq_lt_succ, Fs.freeIndirect, addr]
  split
  next empty =>
    refine ⟨s, rfl, (now.congr fun q present => ?_).skip empty (Nat.lt_irrefl ndirect)⟩
    have elsewhere : q.root ≠ ndirect := fun same => present (State.node_of_root_empty (same ▸ empty))
    omega
  next present =>
    obtain ⟨s₁, ran₁, now₁⟩ := now.freeEntries owned bound present
      (fun i inside => ⟨.indirectEntry ⟨i, inside⟩, rfl⟩) (fun r idx entry => by
        cases r <;> simp_all [Role.loc, Role.root])
    have addr₁ : (s₁.inodes inum).addrs ndirect = start.node inum .indirect :=
      now₁.intact ndirect (Nat.lt_irrefl ndirect)
    obtain ⟨s₂, ran₂, now₂⟩ := now₁.bfree owned bound (r := .indirect) (by
      simp [Role.loc, Role.root]) present
    refine ⟨s₂.setAddr inum ndirect 0, ?_, (now₂.congr fun q _ => ?_).setAddr ndirect⟩
    · rw [ran₁]
      simp only [bind, Except.bind, addr₁, ran₂]
    · cases q with
      | direct i => exact iff_of_true (.inl (.inl i.isLt)) (Nat.lt_succ_of_lt i.isLt)
      | _ => simp [Role.loc, Role.root]

theorem freeTables (now : Truncating inum start (fun q => q.root < ndirect + 1) cleared s)
    (owned : Owned start) (bound : inum < start.sb.ninodes) (double : start.node inum .double ≠ 0) :
    ∃ s', (List.range nindirect).foldlM (Fs.freeTable (start.node inum .double)) s = .ok s' ∧
      Truncating inum start (fun q => q ≠ .double) cleared s' := by
  have loop : ∃ s', (List.range nindirect).foldlM (Fs.freeTable (start.node inum .double)) s = .ok s' ∧
      Truncating inum start (fun q => q.root < ndirect + 1 ∨ ∃ k' < nindirect, q.inTable k') cleared s' := by
    refine foldlM_range_invariant (fun k s => Truncating inum start
      (fun q => q.root < ndirect + 1 ∨ ∃ k' < k, q.inTable k') cleared s) ?_ ?_
    · exact now.congr fun r _ => ⟨.inl, by rintro (gone | ⟨_, none, _⟩); exacts [gone, by omega]⟩
    · intro k s inside now
      obtain ⟨s', ran, now⟩ := now.freeTable owned bound double ⟨k, inside⟩ (by
        intro r under
        cases r <;> simp_all [Role.root, Role.inTable])
      refine ⟨s', ran, now.congr fun q _ => ?_⟩
      rw [or_assoc, Nat.exists_lt_succ_right]
  obtain ⟨s', ran, now⟩ := loop
  refine ⟨s', ran, now.congr fun q _ => ?_⟩
  cases q with
  | direct i => exact iff_of_true (.inl (Nat.lt_succ_of_lt i.isLt)) (by simp)
  | _ => simp [Role.root, Role.inTable]

theorem freeDouble (now : Truncating inum start (fun q => q.root < ndirect + 1) (· < ndirect + 1) s)
    (owned : Owned start) (bound : inum < start.sb.ninodes) :
    ∃ s', Fs.freeDouble s inum = .ok s' ∧
      Truncating inum start (fun _ => True) (· < ndirect + 2) s' := by
  have addr : (s.inodes inum).addrs (ndirect + 1) = start.node inum .double :=
    now.intact (ndirect + 1) (Nat.lt_irrefl _)
  rw [← lt_or_eq_eq_lt_succ, Fs.freeDouble, addr]
  split
  next empty =>
    refine ⟨s, rfl, (now.congr fun q present => ?_).skip empty (Nat.lt_irrefl _)⟩
    have elsewhere : q.root ≠ ndirect + 1 := fun same => present (State.node_of_root_empty (same ▸ empty))
    have bounded : q.root < ndirect + 2 := by
      cases q <;> simp only [Role.root] <;> omega
    simp only [iff_true]
    omega
  next present =>
    obtain ⟨s₁, ran₁, now₁⟩ := now.freeTables owned bound present
    have addr₁ : (s₁.inodes inum).addrs (ndirect + 1) = start.node inum .double :=
      now₁.intact (ndirect + 1) (Nat.lt_irrefl _)
    obtain ⟨s₂, ran₂, now₂⟩ := now₁.bfree owned bound (r := .double) (by simp) present
    refine ⟨s₂.setAddr inum (ndirect + 1) 0, ?_, (now₂.congr fun q _ => ?_).setAddr (ndirect + 1)⟩
    · rw [ran₁]
      simp only [bind, Except.bind, addr₁, ran₂]
    · simp [ne_or_eq]

end Truncating

theorem Owned.truncated {start : State} (owned : Owned start)
    (final : Truncating inum start (fun _ => True) (· < ndirect + 2) s) : Owned s := by
  have first := owned.layout.one_lt_nmeta
  have empty : ∀ r, s.node inum r = 0 := by
    refine State.node_eq (fun _ => 0) (fun r slot loc => ?_) (fun r p idx loc => rfl)
    exact (final.clear slot (Role.slot_lt loc)).symm
  have others : ∀ i < start.sb.ninodes, i ≠ inum → ∀ r, s.node i r = start.node i r := by
    intro i inside other
    refine State.node_congr (fun slot _ => by rw [final.others i other]) fun r p idx loc table => ?_
    rw [final.disk _ (.inr (owned.node_bounds inside table).1)]
  have holder : s.holder = fun slot => if slot.1 = inum then none else start.holder slot := by
    funext ⟨i, r⟩
    by_cases inside : i < start.sb.ninodes
    · by_cases same : i = inum
      · simp [State.holder, same, empty]
      · simp [State.holder, same, final.sb, others i inside same]
    · simp [State.holder, final.sb, inside]
  refine ⟨final.sb ▸ owned.layout, ?_, fun b => ?_, ?_, fun b inside => ?_⟩
  · rw [final.disk 1 (.inl owned.layout.one_lt_bmapstart), final.sb, owned.superblock]
  · rw [holder, held_release owned.exclusive, final.sb]
    exact fun held => owned.area b held.1
  · rw [holder]
    exact owned.exclusive.release
  · rw [final.sb] at inside
    rw [final.used b inside, final.sb, holder, held_release owned.exclusive, owned.bitmap b inside]
    constructor
    · rintro ⟨data | held, kept⟩
      · exact .inl data
      · refine .inr ⟨held, ?_⟩
        rintro ⟨i, r⟩ rfl
        exact kept r trivial
    · rintro (data | ⟨held, kept⟩)
      · refine ⟨.inl data, fun r _ holds => ?_⟩
        have := (owned.area b ⟨_, holds⟩).1
        omega
      · exact ⟨.inr held, fun r _ => kept (inum, r) rfl⟩

theorem itrunc_truncates (owned : Owned s) (bound : inum < s.sb.ninodes) :
    ∃ mid, itrunc s inum = .ok (iupdate (mid.setSize inum 0) inum) ∧
      Truncating inum s (fun _ => True) (· < ndirect + 2) mid := by
  obtain ⟨s₁, ran₁, now₁⟩ := Truncating.freeDirects owned bound
  obtain ⟨s₂, ran₂, now₂⟩ := now₁.freeIndirect owned bound
  obtain ⟨s₃, ran₃, now₃⟩ := now₂.freeDouble owned bound
  refine ⟨s₃, ?_, now₃⟩
  simp only [itrunc, ran₁, ran₂, ran₃, bind, Except.bind]

/-- `itrunc` never reaches a panic, and leaves an inode without nodes. -/
theorem itrunc_owned (owned : Owned s) (bound : inum < s.sb.ninodes) :
    ∃ s', itrunc s inum = .ok s' ∧ s'.sb = s.sb ∧ Owned s' := by
  obtain ⟨mid, ran, final⟩ := itrunc_truncates owned bound
  exact ⟨_, ran, final.sb, ((owned.truncated final).setSize inum 0).iupdate (final.sb ▸ bound)⟩

end Xv6Simplesh.Fs
