import Xv6Simplesh.Fs.FileWrite
import Xv6Simplesh.Fs.Reads

/-! # Files are byte arrays

A file without holes is the list of its bytes up to its size.  `writei` overwrites a
part of that list and may make it longer, `readi` takes a part out of it, and the lists
of the other files stay as they are.  `Stores` says what a stretch of the loop of `writei`
does to the bytes of all files; an iteration is such a stretch, and stretches that
follow each other are one.
-/

namespace Xv6Simplesh.Fs

open Library Function

/-! ## Room for the blocks of a write -/

/-- There is a free block for each of the roles that have no block. -/
def State.Room (s : State) (inum : Nat) (roles : Finset Role) : Prop :=
  (s.missing inum roles).card ≤ s.freeBlocks.length

section Room

variable {s s' : State} {inum b : Nat} {roles : Finset Role} {r : Role}

theorem State.Room.loads (room : s.Room inum roles) (mem : r ∈ roles) (bound : inum < s.sb.ninodes)
    (owned : Owned s) (loads : Loads inum s r b s') : s'.Room inum roles := by
  have pos := (loads.node bound owned).2
  cases loads with
  | inl same =>
    rw [same.1]
    exact room
  | inr filled =>
    have erased : s'.missing inum roles = (s.missing inum roles).erase r := by
      ext q
      simp only [mem_missing, Finset.mem_erase, filled.nodes inum bound, true_and]
      by_cases same : q = r <;> simp [same, pos]
    have needed : r ∈ s.missing inum roles := mem_missing.mpr ⟨mem, filled.empty⟩
    unfold State.Room at room ⊢
    rw [filled.free, List.length_cons, ← Finset.card_erase_add_one needed] at room
    rw [erased]
    omega

theorem State.Room.present (room : s.Room inum roles) (mem : r ∈ roles) (full : s.freeBlocks = []) :
    s.node inum r ≠ 0 := by
  intro empty
  unfold State.Room at room
  rw [full, List.length_nil, Nat.le_zero, Finset.card_eq_zero] at room
  exact Finset.notMem_empty r (room ▸ mem_missing.mpr ⟨mem, empty⟩)

/-- The outcome of a walk for which there is room. -/
def Arrives (inum : Nat) (s : State) (roles : Finset Role) (r : Role) (res : Except Panic (Nat × State)) : Prop :=
  ∃ b s', res = .ok (b, s') ∧ s'.sb = s.sb ∧ Owned s' ∧ s'.Room inum roles ∧ s'.node inum r = b ∧ b ≠ 0

theorem arrives_loadAddr (owned : Owned s) (bound : inum < s.sb.ninodes) {slot : Nat}
    (loc : r.loc = .inode slot) (room : s.Room inum roles) (mem : r ∈ roles) :
    Arrives inum s roles r (loadAddr s inum slot) := by
  rcases loadAddr_loads owned loc with ⟨b, s', loaded, loads⟩ | ⟨failed, full⟩
  · exact ⟨b, s', loaded, loads.sb, loads.owned bound owned, room.loads mem bound owned loads,
      loads.node bound owned⟩
  · have present := room.present mem full
    rw [s.node_inode inum loc] at present
    rw [loadAddr_present present] at failed
    cases failed

theorem Arrives.loadEntry {p : Role} {index : Nat} {res : Except Panic (Nat × State)}
    (arrives : Arrives inum s roles p res) (bound : inum < s.sb.ninodes)
    (loc : r.loc = .entry p index) (mem : r ∈ roles) :
    Arrives inum s roles r (res >>= fun (addr, s) => loadEntry s addr index) := by
  obtain ⟨b, s₁, rfl, sb, owned, room, node, present⟩ := arrives
  have bound₁ : inum < s₁.sb.ninodes := sb ▸ bound
  change Arrives inum s roles r (Fs.loadEntry s₁ b index)
  rcases loadEntry_loads owned bound₁ loc node present with ⟨b', s₂, loaded, loads⟩ | ⟨failed, full⟩
  · exact ⟨b', s₂, loaded, loads.sb.trans sb, loads.owned bound₁ owned, room.loads mem bound₁ owned loads,
      loads.node bound₁ owned⟩
  · have there := room.present mem full
    rw [s₁.node_entry inum loc, node] at there
    rw [loadEntry_present there] at failed
    cases failed

/-- `bmap` succeeds where there is room for the roles on its way. -/
theorem bmap_arrives (owned : Owned s) (bound : inum < s.sb.ninodes) (bn : Fin maxFile)
    (room : s.Room inum roles) (path : ∀ r ∈ (Role.leaf bn).path, r ∈ roles) :
    Arrives inum s roles (Role.leaf bn) (bmap s inum bn) := by
  unfold bmap
  unfold Role.leaf at path ⊢
  split at path
  next direct =>
    rw [dif_pos direct, if_pos direct]
    exact arrives_loadAddr owned bound rfl room (path _ (List.mem_singleton_self _))
  next notDirect =>
    rw [dif_neg notDirect, if_neg notDirect]
    simp only
    split at path
    next indirect =>
      rw [dif_pos indirect, if_pos indirect]
      simp only [Role.path, List.forall_mem_cons] at path
      exact (arrives_loadAddr owned bound rfl room path.1).loadEntry bound rfl path.2.1
    next notIndirect =>
      have inside : (bn : Nat) - ndirect - nindirect < nindirect * nindirect := by
        have := bn.isLt
        dsimp only [maxFile, ndirect, nindirect, bsize] at *
        omega
      rw [dif_neg notIndirect, if_neg notIndirect, if_pos inside]
      simp only [Role.path, List.forall_mem_cons] at path
      have arrives := ((arrives_loadAddr owned bound rfl room path.1).loadEntry bound rfl path.2.1).loadEntry
        bound rfl path.2.2.1
      rw [bind_assoc] at arrives
      exact arrives

end Room

/-! ## What `bmap` leaves alone -/

/-- Inode `inum` may have got new blocks; the bytes and the inodes that were there are
still there. -/
structure Extends (inum : Nat) (s s' : State) : Prop where
  sb : s'.sb = s.sb
  kept : ∀ i, { s'.inodes i with addrs := (s.inodes i).addrs } = s.inodes i
  others : ∀ i, i ≠ inum → s'.inodes i = s.inodes i
  spare : ∀ slot, ndirect + 2 ≤ slot → (s'.inodes inum).addrs slot = (s.inodes inum).addrs slot
  before : ∀ block < s.sb.bmapstart, s'.disk block = s.disk block
  nodes : ∀ i < s.sb.ninodes, ∀ r, s.node i r ≠ 0 → s'.node i r = s.node i r
  data : ∀ i < s.sb.ninodes, ∀ r : Role, r.IsData → s.node i r ≠ 0 → s'.disk (s.node i r) = s.disk (s.node i r)

namespace Extends

variable {s s' s'' : State} {inum : Nat}

theorem refl (inum : Nat) (s : State) : Extends inum s s :=
  ⟨rfl, fun _ => rfl, fun _ _ => rfl, fun _ _ => rfl, fun _ _ => rfl, fun _ _ _ _ => rfl, fun _ _ _ _ _ => rfl⟩

theorem trans (first : Extends inum s s') (second : Extends inum s' s'') : Extends inum s s'' := by
  refine ⟨second.sb.trans first.sb, fun i => ?_, fun i other => ?_, fun slot outside => ?_, fun block early => ?_,
    fun i inside r present => ?_, fun i inside r data present => ?_⟩
  · have kept := second.kept i
    rw [← first.kept i, ← kept]
  · rw [second.others i other, first.others i other]
  · rw [second.spare slot outside, first.spare slot outside]
  · rw [second.before block (first.sb ▸ early), first.before block early]
  · have node := first.nodes i inside r present
    rw [second.nodes i (first.sb ▸ inside) r (node ▸ present), node]
  · have node := first.nodes i inside r present
    have later := second.data i (first.sb ▸ inside) r data (node ▸ present)
    rw [node] at later
    rw [later, first.data i inside r data present]

end Extends

variable {i idx inum n : Nat} {s s' : State}

section Extends

variable {s s' : State} {inum b : Nat} {r : Role}

/-- The indirect block in which a role is filled is there. -/
theorem Filled.parent (filled : Filled s s' inum r b) (bound : inum < s.sb.ninodes) (pos : b ≠ 0) {p : Role}
    {index : Nat} (loc : r.loc = .entry p index) : s.node inum p ≠ 0 := by
  intro missing
  have other : p ≠ r := by
    intro same
    rw [same] at loc
    exact r.location_ne_entry_self index loc
  have below : s'.node inum r = b := by
    rw [filled.nodes inum bound, if_pos ⟨rfl, rfl⟩]
  rw [s'.node_entry inum loc, filled.nodes inum bound, if_neg (fun same => other same.2), missing] at below
  exact pos below.symm

theorem Filled.extends (filled : Filled s s' inum r b) (bound : inum < s.sb.ninodes) (owned : Owned s) :
    Extends inum s s' := by
  have free : b ∈ s.freeBlocks := filled.free ▸ List.mem_cons_self
  obtain ⟨low, high, -⟩ := owned.free_bounds free
  have map := owned.layout.bblock_bounds high
  -- a table that gets a new entry is in the data area, as the new block is
  have tables : ∀ x ∈ s.tables inum r, ∃ p index, r.loc = .entry p index ∧ x = s.node inum p := by
    intro x mem
    unfold State.tables at mem
    split at mem
    next => cases mem
    next p index loc => exact ⟨p, index, loc, List.mem_singleton.mp mem⟩
  refine ⟨filled.sb, filled.kept, filled.others, filled.spare, fun block early => ?_, fun i inside q present => ?_,
    fun i inside q data present => ?_⟩
  · have area := s.sb.bmapstart_lt_nmeta
    refine filled.disk block (fun mem => ?_) (by omega) (by omega)
    obtain ⟨p, index, loc, rfl⟩ := tables block mem
    have node := owned.node_bounds bound (filled.parent bound (owned.free_pos free) loc)
    omega
  · rw [filled.nodes i inside, if_neg]
    rintro ⟨rfl, rfl⟩
    exact present filled.empty
  · have node := owned.node_bounds inside present
    refine filled.disk _ (fun mem => ?_) (owned.node_ne_free free inside q) (by omega)
    obtain ⟨p, index, loc, same⟩ := tables _ mem
    obtain ⟨-, rfl⟩ := owned.node_injective inside bound present same
    exact data r index loc

theorem LoadsAll.extends {rs : List Role} (loads : LoadsAll inum s rs s') (bound : inum < s.sb.ninodes)
    (owned : Owned s) : Extends inum s s' := by
  induction loads with
  | nil => exact .refl inum _
  | @cons s s₁ s₂ r rs b first rest ih =>
    have later := ih (first.sb ▸ bound) (first.owned bound owned)
    cases first with
    | inl same => exact same.1 ▸ later
    | inr filled => exact (filled.extends bound owned).trans later

theorem Extends.block (extended : Extends inum s s') (inside : i < s.sb.ninodes) {bn : Nat}
    (present : s.block i bn ≠ 0) : s'.block i bn = s.block i bn := by
  have bound := State.lt_of_block present
  simp only [State.block, dif_pos bound] at present ⊢
  exact extended.nodes i inside _ present

theorem Extends.byteAt (extended : Extends inum s s') (inside : i < s.sb.ninodes)
    (present : s.block i (idx / bsize) ≠ 0) : s'.byteAt i idx = s.byteAt i idx := by
  have block := extended.block inside present
  have bound := State.lt_of_block present
  unfold State.byteAt
  rw [block]
  simp only [State.block, dif_pos bound] at present ⊢
  rw [extended.data i inside _ (Role.leaf_isData _) present]

end Extends

/-! ## Stretches of the loop of `writei` -/

/-- What storing `count` bytes of `source` from position `off` on does: the bytes are there
afterwards, in blocks that are there, and all other bytes are as they were. -/
structure Stores (inum off count : Nat) (source : Nat → UInt8) (s s' : State) : Prop where
  sb : s'.sb = s.sb
  kept : ∀ i, { s'.inodes i with addrs := (s.inodes i).addrs } = s.inodes i
  others : ∀ i, i ≠ inum → s'.inodes i = s.inodes i
  spare : ∀ slot, ndirect + 2 ≤ slot → (s'.inodes inum).addrs slot = (s.inodes inum).addrs slot
  /-- No inode changes where all the blocks are there. -/
  inPlace : (∀ idx, off ≤ idx → idx < off + count → s.block inum (idx / bsize) ≠ 0) →
    s'.inodes = s.inodes
  before : ∀ block < s.sb.bmapstart, s'.disk block = s.disk block
  block : ∀ i < s.sb.ninodes, ∀ bn, s.block i bn ≠ 0 → s'.block i bn = s.block i bn
  present : ∀ idx, off ≤ idx → idx < off + count → s'.block inum (idx / bsize) ≠ 0
  stored : ∀ idx, off ≤ idx → idx < off + count →
    s'.byteAt inum idx = source (idx - off)
  unstored : ∀ i < s.sb.ninodes, ∀ idx, ¬ (i = inum ∧ off ≤ idx ∧ idx < off + count) →
    s.block i (idx / bsize) ≠ 0 → s'.byteAt i idx = s.byteAt i idx

namespace Stores

variable {s s' s'' : State} {inum off count : Nat} {source : Nat → UInt8}

theorem nothing (inum off : Nat) (source : Nat → UInt8) (s : State) : Stores inum off 0 source s s :=
  ⟨rfl, fun _ => rfl, fun _ _ => rfl, fun _ _ => rfl, fun _ => rfl, fun _ _ => rfl, fun _ _ _ _ => rfl,
    fun _ low high => by omega, fun _ low high => by omega, fun _ _ _ _ _ => rfl⟩

theorem size_eq (stores : Stores inum off count source s s') (i : Nat) : (s'.inodes i).size = (s.inodes i).size := by
  have same := congrArg Inode.size (stores.kept i)
  exact same

theorem type_eq (stores : Stores inum off count source s s') (i : Nat) : (s'.inodes i).type = (s.inodes i).type := by
  have same := congrArg Inode.type (stores.kept i)
  exact same

theorem append {more : Nat} (first : Stores inum off count source s s')
    (second : Stores inum (off + count) more (fun i => source (count + i)) s' s'') (bound : inum < s.sb.ninodes) :
    Stores inum off (count + more) source s s'' := by
  refine ⟨second.sb.trans first.sb, fun i => ?_, fun i other => ?_, fun slot outside => ?_, fun there => ?_,
    fun block early => ?_, fun i inside bn there => ?_, fun idx low high => ?_, fun idx low high => ?_,
    fun i inside idx away there => ?_⟩
  · rw [← first.kept i, ← second.kept i]
  · rw [second.others i other, first.others i other]
  · rw [second.spare slot outside, first.spare slot outside]
  · have same := first.inPlace fun idx low high => there idx low (by omega)
    rw [second.inPlace fun idx low high => ?_, same]
    have old := there idx (by omega) (by omega)
    rwa [first.block inum bound _ old]
  · rw [second.before block (first.sb ▸ early), first.before block early]
  · have kept := first.block i inside bn there
    rw [second.block i (first.sb ▸ inside) bn (kept ▸ there), kept]
  · by_cases early : idx < off + count
    · have old := first.present idx low early
      rwa [second.block inum (first.sb ▸ bound) _ old]
    · exact second.present idx (by omega) (by omega)
  · by_cases early : idx < off + count
    · rw [second.unstored inum (first.sb ▸ bound) idx (by omega) (first.present idx low early),
        first.stored idx low early]
    · rw [second.stored idx (by omega) (by omega)]
      congr 1
      omega
  · have kept := first.block i inside _ there
    rw [second.unstored i (first.sb ▸ inside) idx (by omega) (kept ▸ there),
      first.unstored i inside idx (by omega) there]

end Stores

section Iteration

variable {s s₁ : State} {inum off count : Nat}

section

variable (owned : Owned s) (bound : inum < s.sb.ninodes) {bn : Nat} (present : s.block inum bn ≠ 0) (bytes : Bytes)
  {i : Nat} (inside : i < s.sb.ninodes)

include owned bound present bytes inside

theorem block_logWrite_data (bn' : Nat) : (s.logWrite (s.block inum bn) bytes).block i bn' = s.block i bn' := by
  have limit := State.lt_of_block present
  simp only [State.block, dif_pos limit] at present ⊢
  split
  · exact node_logWrite_data owned bound (Role.leaf_isData _) present bytes inside _
  · rfl

/-- Writing to a data block changes the bytes of that block only. -/
theorem byteAt_logWrite_data (there : s.block i (idx / bsize) ≠ 0) :
    (s.logWrite (s.block inum bn) bytes).byteAt i idx =
      if i = inum ∧ idx / bsize = bn then bytes (idx % bsize) else s.byteAt i idx := by
  unfold State.byteAt
  rw [block_logWrite_data owned bound present bytes inside]
  simp only [State.logWrite, update_apply]
  by_cases here : i = inum ∧ idx / bsize = bn
  · rw [if_pos here, here.1, here.2, if_pos rfl]
  · have apart : s.block i (idx / bsize) ≠ s.block inum bn := by
      intro same
      have limit := State.lt_of_block present
      have limit' := State.lt_of_block there
      simp only [State.block, dif_pos limit, dif_pos limit'] at there same
      obtain ⟨rfl, leaf⟩ := owned.node_injective inside bound there same
      exact here ⟨rfl, congrArg Fin.val (Role.leaf_injective leaf)⟩
    rw [if_neg here, if_neg apart]

end

/-- One iteration: the walk to a block, and `count` bytes written to it from `off` on. -/
theorem stores_iteration (extended : Extends inum s s₁) (unmoved : s.block inum (off / bsize) ≠ 0 → s₁ = s)
    (owned : Owned s₁) (bound : inum < s.sb.ninodes) (present : s₁.block inum (off / bsize) ≠ 0)
    (source : Nat → UInt8) (pos : 0 < count) (fits : off % bsize + count ≤ bsize) :
    Stores inum off count source s (s₁.logWrite (s₁.block inum (off / bsize))
      ((s₁.disk (s₁.block inum (off / bsize))).copy (off % bsize) source count)) := by
  have bound₁ : inum < s₁.sb.ninodes := extended.sb ▸ bound
  have sameBlock : ∀ i < s.sb.ninodes, ∀ bn, _ = s₁.block i bn := fun i inside bn =>
    block_logWrite_data owned bound₁ present
      ((s₁.disk (s₁.block inum (off / bsize))).copy (off % bsize) source count) (extended.sb ▸ inside) bn
  -- the range lies in one block
  have inRange : ∀ idx, off ≤ idx → idx < off + count → idx / bsize = off / bsize := by
    intro idx low high
    dsimp only [bsize] at *
    omega
  refine ⟨extended.sb, extended.kept, extended.others, extended.spare, fun there => ?_, fun block early => ?_,
    fun i inside bn there => ?_, fun idx low high => ?_, fun idx low high => ?_,
    fun i inside idx away there => ?_⟩
  · rw [unmoved (there off (Nat.le_refl _) (by omega))]
    rfl
  · have area := s.sb.bmapstart_lt_nmeta
    have limit := State.lt_of_block present
    have data : s₁.sb.nmeta ≤ s₁.block inum (off / bsize) := by
      simp only [State.block, dif_pos limit] at present ⊢
      exact (owned.node_bounds bound₁ present).1
    rw [extended.sb] at data
    simp only [State.logWrite]
    rw [update_of_ne (by omega), extended.before block early]
  · rw [sameBlock i inside, extended.block inside there]
  · rw [sameBlock inum bound, inRange idx low high]
    exact present
  · have block := inRange idx low high
    rw [byteAt_logWrite_data owned bound₁ present _ bound₁ (block ▸ present), if_pos ⟨rfl, block⟩, Bytes.copy,
      if_pos (by dsimp only [bsize] at *; omega)]
    congr 1
    dsimp only [bsize] at *
    omega
  · have kept := extended.block inside there
    rw [byteAt_logWrite_data owned bound₁ present _ (extended.sb ▸ inside) (kept ▸ there)]
    split
    next here =>
      -- the same block, in front of the range or behind it
      obtain ⟨rfl, block⟩ := here
      rw [Bytes.copy, if_neg (by dsimp only [bsize] at *; omega), ← extended.byteAt inside there, State.byteAt, block]
    next => exact extended.byteAt inside there

/-- Each iteration stores its part, so the loop stores all of it. -/
theorem writeLoop_stores {tot : Nat} {src : Nat → UInt8} (owned : Owned s)
    (bound : inum < s.sb.ninodes) (fits : off + (n - tot) ≤ maxFile * bsize)
    (looped : writeLoop s inum src off n tot = .ok s') :
    Owned s' ∧ Stores inum off (n - tot) (fun i => src (tot + i)) s s' := by
  induction left : n - tot using Nat.strong_induction_on generalizing s off tot with
  | _ left ih =>
  subst left
  rw [writeLoop] at looped
  split at looped
  next more =>
    have moved : 0 < chunk off n tot ∧ chunk off n tot ≤ n - tot ∧ off % bsize + chunk off n tot ≤ bsize := by
      dsimp only [chunk, bsize]
      omega
    have inside : off / bsize < maxFile := by
      dsimp only [maxFile, ndirect, nindirect, bsize] at *
      omega
    rcases bmap_walks owned bound ⟨off / bsize, inside⟩ with ⟨b, s₁, mapped, loads, node, present⟩ | ⟨failed, -⟩
    · rw [Role.dropLast_path] at loads
      have block : s₁.block inum (off / bsize) = b := by
        rw [State.block, dif_pos inside, node]
      subst block
      have mapped' : bmap s inum (off / bsize) = .ok (s₁.block inum (off / bsize), s₁) := mapped
      rw [mapped'] at looped
      have unmoved : s.block inum (off / bsize) ≠ 0 → s₁ = s := by
        intro there
        rw [bmap_present there] at mapped'
        exact (congrArg Prod.snd (Except.ok.inj mapped')).symm
      have owned₁ := loads.owned bound owned
      have bound₁ : inum < s₁.sb.ninodes := loads.sb ▸ bound
      have first := stores_iteration (loads.extends bound owned) unmoved owned₁ bound present
        (fun i => src (tot + i)) moved.1 moved.2.2
      have owned₂ := owned₁.logWrite_data bound₁ (Role.leaf_isData ⟨off / bsize, inside⟩) (node ▸ present)
        ((s₁.disk (s₁.block inum (off / bsize))).copy (off % bsize) (fun i => src (tot + i)) (chunk off n tot))
      rw [node] at owned₂
      obtain ⟨owned', rest⟩ := ih _ (by omega) owned₂ (first.sb ▸ bound) (by omega) looped rfl
      have whole : chunk off n tot + (n - (tot + chunk off n tot)) = n - tot := by omega
      refine ⟨owned', whole ▸ first.append ?_ bound⟩
      simp only [← Nat.add_assoc]
      exact rest
    · rw [show bmap s inum (off / bsize) = .error .outOfBlocks from failed] at looped
      cases looped
  next done =>
    cases looped
    rw [show n - tot = 0 by omega]
    exact ⟨owned, .nothing inum off _ _⟩

theorem mem_blockList {bn : Fin maxFile} :
    bn ∈ blockList off n ↔ off / bsize ≤ bn ∧ bn < off / bsize + blockCount off n := by
  simp only [blockList, List.mem_filterMap, List.mem_range'_1]
  constructor
  · rintro ⟨k, range, same⟩
    split at same
    · cases same
      exact range
    · cases same
  · intro range
    exact ⟨bn, range, dif_pos bn.isLt⟩

theorem pathRoles_subset {bns bns' : List (Fin maxFile)} (fewer : ∀ bn ∈ bns, bn ∈ bns') :
    pathRoles bns ⊆ pathRoles bns' := by
  intro r mem
  simp only [pathRoles, List.mem_toFinset, List.mem_flatMap] at mem ⊢
  obtain ⟨bn, listed, onPath⟩ := mem
  exact ⟨bn, fewer bn listed, onPath⟩

/-- The loop ends where there is room for all the roles that it visits. -/
theorem writeLoop_ends {tot : Nat} (src : Nat → UInt8) {roles : Finset Role} (owned : Owned s)
    (bound : inum < s.sb.ninodes) (fits : off + (n - tot) ≤ maxFile * bsize) (room : s.Room inum roles)
    (paths : pathRoles (blockList off (n - tot)) ⊆ roles) : ∃ s', writeLoop s inum src off n tot = .ok s' := by
  induction left : n - tot using Nat.strong_induction_on generalizing s off tot with
  | _ left ih =>
  subst left
  rw [writeLoop]
  split
  next more =>
    have moved : 0 < chunk off n tot ∧ chunk off n tot ≤ n - tot := by
      dsimp only [chunk, bsize]
      omega
    have inside : off / bsize < maxFile := by
      dsimp only [maxFile, ndirect, nindirect, bsize] at *
      omega
    have listed : ⟨off / bsize, inside⟩ ∈ blockList off (n - tot) := by
      rw [mem_blockList, blockCount_chunk more]
      exact ⟨Nat.le_refl _, by dsimp only; omega⟩
    have onPath : ∀ r ∈ (Role.leaf ⟨off / bsize, inside⟩).path, r ∈ roles := by
      intro r mem
      refine paths ?_
      simp only [pathRoles, List.mem_toFinset, List.mem_flatMap]
      exact ⟨_, listed, mem⟩
    obtain ⟨b, s₁, mapped, sb, owned₁, room₁, node, present⟩ :=
      bmap_arrives owned bound ⟨off / bsize, inside⟩ room onPath
    rw [show bmap s inum (off / bsize) = .ok (b, s₁) from mapped]
    subst node
    have bound₁ : inum < s₁.sb.ninodes := sb ▸ bound
    have isData := Role.leaf_isData ⟨off / bsize, inside⟩
    -- what is written changes neither the nodes nor the bitmap
    have room₂ : ∀ bytes, (s₁.logWrite (s₁.node inum (Role.leaf ⟨off / bsize, inside⟩)) bytes).Room inum roles := by
      intro bytes
      unfold State.Room State.missing
      simp only [owned₁.freeBlocks_logWrite_node bound₁ present,
        node_logWrite_data owned₁ bound₁ isData present bytes bound₁]
      exact room₁
    have rest : pathRoles (blockList (off + chunk off n tot) (n - (tot + chunk off n tot))) ⊆ roles := by
      refine (pathRoles_subset fun bn mem => ?_).trans paths
      rw [mem_blockList] at mem ⊢
      rw [blockCount_chunk more]
      by_cases last : chunk off n tot = n - tot
      · have none : n - (tot + chunk off n tot) = 0 := by omega
        rw [none, blockCount, if_pos rfl] at mem
        omega
      · have next := next_block more last
        omega
    exact ih _ (by omega) (owned₁.logWrite_data bound₁ isData present _) bound₁ (by omega)
      (room₂ _) rest rfl
  next done => exact ⟨s, rfl⟩

end Iteration

/-! ## Files without holes -/

namespace State

/-- The blocks of a file up to its size are there. -/
def Solid (s : State) (inum : Nat) : Prop :=
  ∀ bn < ((s.inodes inum).size + (bsize - 1)) / bsize, s.block inum bn ≠ 0

theorem solid_iff : s.Solid inum ↔ ∀ idx < (s.inodes inum).size, s.block inum (idx / bsize) ≠ 0 := by
  constructor
  · intro solid idx inside
    refine solid _ ?_
    dsimp only [bsize]
    omega
  · intro there bn below
    have first : bn * bsize < (s.inodes inum).size := by
      dsimp only [bsize] at *
      omega
    have block := there _ first
    rwa [Nat.mul_div_cancel _ (by decide)] at block

/-- The bytes of a file. -/
def contents (s : State) (inum : Nat) : List UInt8 := s.bytes inum 0 (s.inodes inum).size

theorem contents_eq (s : State) (inum : Nat) :
    s.contents inum = (List.range (s.inodes inum).size).map (s.byteAt inum) := by
  simp only [contents, bytes, Nat.zero_add]

theorem bytes_eq_contents (s : State) (inum off n : Nat) :
    s.bytes inum off (min n ((s.inodes inum).size - off)) = ((s.contents inum).drop off).take n := by
  apply List.ext_getElem
  · simp [bytes, contents]
  · intro i low high
    simp [bytes, contents]

end State

section Finish

variable {s : State} {inum : Nat}

theorem block_setSize (s : State) (inum size i bn : Nat) : (s.setSize inum size).block i bn = s.block i bn := by
  have nodes : ∀ r, (s.setSize inum size).node i r = s.node i r := by
    refine State.node_congr (fun slot _ => ?_) fun _ _ _ _ _ => rfl
    simp only [State.setSize, State.setInode, update_apply]
    split
    next same => rw [same]
    next => rfl
  simp only [State.block, nodes]

theorem block_iupdate (owned : Owned s) (bound : inum < s.sb.ninodes) (inside : i < s.sb.ninodes)
    (bn : Nat) : (iupdate s inum).block i bn = s.block i bn := by
  have inodeBlock := owned.layout.iblock_lt bound
  have area := s.sb.bmapstart_lt_nmeta
  have nodes : ∀ r, (iupdate s inum).node i r = s.node i r := by
    refine State.node_congr (fun slot _ => rfl) fun r p index loc table => ?_
    have data := (owned.node_bounds inside table).1
    simp only [iupdate, State.logWrite]
    rw [update_of_ne (by omega)]
  simp only [State.block, nodes]

theorem byteAt_iupdate (owned : Owned s) (bound : inum < s.sb.ninodes) (inside : i < s.sb.ninodes) (there : s.block i (idx / bsize) ≠ 0) :
    (iupdate s inum).byteAt i idx = s.byteAt i idx := by
  have inodeBlock := owned.layout.iblock_lt bound
  have area := s.sb.bmapstart_lt_nmeta
  have limit := State.lt_of_block there
  have data : s.sb.nmeta ≤ s.block i (idx / bsize) := by
    simp only [State.block, dif_pos limit] at there ⊢
    exact (owned.node_bounds inside there).1
  unfold State.byteAt
  rw [block_iupdate owned bound inside]
  simp only [iupdate, State.logWrite]
  rw [update_of_ne (by omega)]

end Finish

/-! ## `writei` overwrites -/

/-- The checks of `writei`: the position is past the end of the file, or the end of the
range does not fit in a `uint` or in a file. -/
def State.Refuses (s : State) (inum off n : Nat) : Prop :=
  off > (s.inodes inum).size ∨ off + n ≥ 2 ^ 32 ∨ off + n > maxFile * bsize

section Writei

variable (devsw : Devsw) {s : State} {inum off n : Nat} {src : Nat → UInt8}

theorem writei_refused (file : (s.inodes inum).type ≠ tDev) (offUint : off < 2 ^ 32) (nUint : n < 2 ^ 32)
    (refuses : s.Refuses inum off n) : writei devsw s inum src off n = .ok (-1, s) := by
  unfold State.Refuses at refuses
  simp only [writei, if_neg file]
  split
  · rfl
  next inSize =>
  split
  · rfl
  next inFile =>
  have noWrap : off + n < 2 ^ 32 := by omega
  rw [Nat.mod_eq_of_lt noWrap] at inSize inFile
  omega

theorem writei_accepted (file : (s.inodes inum).type ≠ tDev) (accepts : ¬ s.Refuses inum off n) :
    writei devsw s inum src off n = writeLoop s inum src off n 0 >>= fun s =>
      if n > 0 ∧ off + n > (s.inodes inum).size then
        .ok ((n : Int), iupdate (s.setSize inum (off + n)) inum)
      else .ok ((n : Int), s) := by
  simp only [State.Refuses, not_or, Nat.not_lt, ge_iff_le, Nat.not_le, gt_iff_lt] at accepts
  simp only [writei, if_neg file, Nat.mod_eq_of_lt accepts.2.1]
  rw [if_neg (by omega), if_neg (by omega)]

/-- What `writei` leaves: the file overwritten, the others as they were. -/
structure Overwritten (inum off n : Nat) (src : Nat → UInt8) (s s' : State) : Prop where
  sb : s'.sb = s.sb
  owned : Owned s'
  solid : ∀ i < s.sb.ninodes, s'.Solid i
  type : ∀ i, (s'.inodes i).type = (s.inodes i).type
  size : (s'.inodes inum).size = max (s.inodes inum).size (off + n)
  contents : s'.contents inum = splice (s.contents inum) off ((List.range n).map src)
  others : ∀ i < s.sb.ninodes, i ≠ inum →
    (s'.inodes i).size = (s.inodes i).size ∧ s'.contents i = s.contents i

/-- Where the loop has stored the bytes and the size is set, the file is overwritten. -/
theorem Stores.overwritten {mid : State} (stores : Stores inum off n src s mid) (bound : inum < s.sb.ninodes)
    (solid : ∀ i < s.sb.ninodes, s.Solid i) (inSize : off ≤ (s.inodes inum).size) (sb : s'.sb = s.sb)
    (owned : Owned s') (blocks : ∀ i < s.sb.ninodes, ∀ bn, s'.block i bn = mid.block i bn)
    (bytes : ∀ i < s.sb.ninodes, ∀ idx, mid.block i (idx / bsize) ≠ 0 →
      s'.byteAt i idx = mid.byteAt i idx)
    (type : ∀ i, (s'.inodes i).type = (s.inodes i).type)
    (size : (s'.inodes inum).size = max (s.inodes inum).size (off + n))
    (sizes : ∀ i, i ≠ inum → (s'.inodes i).size = (s.inodes i).size) : Overwritten inum off n src s s' := by
  -- a byte below the new size is an old one or one that was stored
  have there : ∀ i < s.sb.ninodes, ∀ idx < (s'.inodes i).size, mid.block i (idx / bsize) ≠ 0 := by
    intro i inside idx below
    by_cases old : idx < (s.inodes i).size
    · have present := State.solid_iff.mp (solid i inside) idx old
      rwa [stores.block i inside _ present]
    · by_cases same : i = inum
      · subst same
        exact stores.present idx (by omega) (by omega)
      · rw [sizes i same] at below
        exact absurd below old
  refine ⟨sb, owned, fun i inside => ?_, type, size, ?_, fun i inside other => ⟨sizes i other, ?_⟩⟩
  · rw [State.solid_iff]
    intro idx below
    rw [blocks i inside]
    exact there i inside idx below
  · rw [State.contents_eq, State.contents_eq, splice_map_range _ _ _ inSize, size]
    refine List.map_congr_left fun idx mem => ?_
    have below : idx < (s'.inodes inum).size := by
      rw [size]
      exact List.mem_range.mp mem
    rw [bytes inum bound idx (there inum bound idx below)]
    split
    next range => exact stores.stored idx range.1 range.2
    next away =>
      have old : idx < (s.inodes inum).size := by omega
      exact stores.unstored inum bound idx (fun range => away range.2)
        (State.solid_iff.mp (solid inum bound) idx old)
  · rw [State.contents_eq, State.contents_eq, sizes i other]
    refine List.map_congr_left fun idx mem => ?_
    have below := List.mem_range.mp mem
    rw [bytes i inside idx (there i inside idx (sizes i other ▸ below))]
    exact stores.unstored i inside idx (fun range => other range.1)
      (State.solid_iff.mp (solid i inside) idx below)

theorem writei_stores {r : Int} (owned : Owned s) (bound : inum < s.sb.ninodes)
    (file : (s.inodes inum).type ≠ tDev) (accepts : ¬ s.Refuses inum off n)
    (wrote : writei devsw s inum src off n = .ok (r, s')) :
    r = n ∧ ∃ mid, Owned mid ∧ Stores inum off n src s mid ∧
      s' = if n > 0 ∧ off + n > (s.inodes inum).size then iupdate (mid.setSize inum (off + n)) inum else mid := by
  rw [writei_accepted devsw file accepts] at wrote
  obtain ⟨mid, looped, ended⟩ := ok_of_bind wrote
  have fits : off + (n - 0) ≤ maxFile * bsize := by
    unfold State.Refuses at accepts
    omega
  obtain ⟨owned', stores⟩ := writeLoop_stores owned bound fits looped
  rw [stores.size_eq] at ended
  simp only [Nat.sub_zero, Nat.zero_add] at stores
  split at ended <;> cases ended
  next grows => exact ⟨rfl, mid, owned', stores, (if_pos grows).symm⟩
  next stays => exact ⟨rfl, _, owned', stores, (if_neg stays).symm⟩

theorem writei_overwritten {r : Int} (owned : Owned s) (bound : inum < s.sb.ninodes)
    (solid : ∀ i < s.sb.ninodes, s.Solid i) (file : (s.inodes inum).type ≠ tDev) (accepts : ¬ s.Refuses inum off n)
    (wrote : writei devsw s inum src off n = .ok (r, s')) : r = n ∧ Overwritten inum off n src s s' := by
  obtain ⟨res, mid, owned', stores, rfl⟩ := writei_stores devsw owned bound file accepts wrote
  refine ⟨res, ?_⟩
  have inSize : off ≤ (s.inodes inum).size := by
    unfold State.Refuses at accepts
    omega
  have bound' : inum < mid.sb.ninodes := stores.sb ▸ bound
  split
  next grows =>
    have resized := owned'.setSize inum (off + n)
    refine stores.overwritten bound solid inSize stores.sb (resized.iupdate bound') ?_ ?_ ?_ ?_ ?_
    · intro i inside bn
      rw [block_iupdate resized bound' (stores.sb ▸ inside), block_setSize]
    · intro i inside idx there
      rw [← block_setSize mid inum (off + n)] at there
      rw [byteAt_iupdate resized bound' (stores.sb ▸ inside) there, State.byteAt, block_setSize]
      rfl
    · intro i
      rw [← stores.type_eq i]
      simp only [iupdate, State.logWrite, State.setSize, State.setInode, update_apply]
      split
      next same => rw [same]
      next => rfl
    · have new : ((iupdate (mid.setSize inum (off + n)) inum).inodes inum).size = off + n := by
        simp only [iupdate, State.logWrite, State.setSize, State.setInode, update_self]
      rw [new]
      omega
    · intro i other
      simp only [iupdate, State.logWrite, State.setSize, State.setInode]
      rw [update_of_ne other, stores.size_eq]
  next stays =>
    refine stores.overwritten bound solid inSize stores.sb owned' (fun _ _ _ => rfl) (fun _ _ _ _ => rfl)
      stores.type_eq ?_ fun i _ => stores.size_eq i
    rw [stores.size_eq]
    omega

end Writei

/-! ## `writei` and `readi` -/

/-- `readi` of a file without holes is a part of its bytes. -/
theorem readi_contents (devsw : DevswRead) {off : Nat} (solid : s.Solid inum)
    (file : (s.inodes inum).type ≠ tDev) (inside : off ≤ (s.inodes inum).size) (word : off + n < 2 ^ 32) :
    readi devsw s inum off n =
      .ok (((min n ((s.inodes inum).size - off) : Nat) : Int), ((s.contents inum).drop off).take n, s) := by
  rw [readi_present devsw file inside word, State.bytes_eq_contents]
  intro idx low high
  exact State.solid_iff.mp solid idx (by omega)

theorem writei_completes (devsw : Devsw) (src : Nat → UInt8) {off : Nat} (owned : Owned s)
    (bound : inum < s.sb.ninodes) (file : (s.inodes inum).type ≠ tDev) (accepts : ¬ s.Refuses inum off n)
    (enough : (s.missing inum (pathRoles (blockList off n))).card ≤ s.freeBlocks.length) :
    ∃ s', writei devsw s inum src off n = .ok (n, s') := by
  have fits : off + (n - 0) ≤ maxFile * bsize := by
    unfold State.Refuses at accepts
    omega
  obtain ⟨mid, looped⟩ := writeLoop_ends src owned bound fits enough (Finset.Subset.refl _)
  rw [writei_accepted devsw file accepts, looped]
  simp only [bind, Except.bind]
  split <;> exact ⟨_, rfl⟩

theorem three_le_freeBlocks_emptyImage : 3 ≤ emptyImage.freeBlocks.length := by
  have free : [63, 64, 65] ⊆ emptyImage.freeBlocks := by
    intro b mem
    have data : b = 63 ∨ b = 64 ∨ b = 65 := by simpa using mem
    have inside : b < fsSize := by
      dsimp only [fsSize]
      omega
    have clear : decide (b < 63) = false := decide_eq_false (by omega)
    exact State.mem_freeBlocks.mpr ⟨inside, (used_image inside).trans clear⟩
  exact (List.subperm_of_subset (by decide : [63, 64, 65].Nodup) free).length_le

end Xv6Simplesh.Fs
