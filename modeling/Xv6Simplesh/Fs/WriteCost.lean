import Mathlib.Data.Finset.Card
import Mathlib.Data.Finset.Union
import Xv6Simplesh.Fs.Ownership

/-! # What a write logs

Which blocks `writei` passes to `log_write` is decided by the state before it:
the data blocks that it covers, the indirect blocks that get a new entry, the
bitmap blocks of the blocks that it takes from the free ones, and the inode block
if the file grows.  `Progress` follows the loop of `writei` and says, for the roles
visited so far, which blocks were taken and logged.
-/

namespace Xv6Simplesh.Fs

open Library

/-! ## Roles without a block -/

/-- The roles among `roles` that have no block yet. -/
def State.missing (s : State) (inum : Nat) (roles : Finset Role) : Finset Role :=
  roles.filter fun r => s.node inum r = 0

/-- The role of the indirect block in which a role's block number is stored. -/
def Role.parents : Role → Finset Role
  | .indirectEntry _ => {.indirect}
  | .table _ => {.double}
  | .tableEntry k _ => {.table k}
  | _ => ∅

theorem Role.mem_parents {r p : Role} : p ∈ r.parents ↔ ∃ idx, r.loc = .entry p idx := by
  cases r <;> simp [parents, loc, eq_comm]

theorem State.mem_tables {s : State} {inum : Nat} {r : Role} {x : Nat} :
    x ∈ s.tables inum r ↔ ∃ p ∈ r.parents, x = s.node inum p := by
  cases r <;> simp [State.tables, Role.loc, Role.parents]

section Missing

variable {s : State} {inum : Nat} {roles : Finset Role} {r : Role}

theorem mem_missing : r ∈ s.missing inum roles ↔ r ∈ roles ∧ s.node inum r = 0 := Finset.mem_filter

theorem missing_insert_of_present (present : s.node inum r ≠ 0) :
    s.missing inum (insert r roles) = s.missing inum roles := by
  rw [State.missing, Finset.filter_insert, if_neg present]
  rfl

theorem missing_insert_of_empty (empty : s.node inum r = 0) :
    s.missing inum (insert r roles) = insert r (s.missing inum roles) := by
  rw [State.missing, Finset.filter_insert, if_pos empty]
  rfl

end Missing

/-- The state after the roles `roles` of inode `inum` were visited and the blocks in
the roles `written` were written. -/
structure Progress (inum : Nat) (start s : State) (roles written : Finset Role) : Prop where
  sb : s.sb = start.sb
  size : (s.inodes inum).size = (start.inodes inum).size
  closed : ∀ r ∈ roles, r.parents ⊆ roles
  visited : written ⊆ roles
  present : ∀ r ∈ roles, s.node inum r ≠ 0
  keeps : ∀ r, start.node inum r ≠ 0 → s.node inum r = start.node inum r
  outside : ∀ r, r ∉ roles → s.node inum r = start.node inum r
  free : s.freeBlocks = start.freeBlocks.drop (start.missing inum roles).card
  taken : (start.missing inum roles).image (s.node inum) =
    (start.freeBlocks.take (start.missing inum roles).card).toFinset
  logged : ∀ x, x ∈ s.logged ↔
    (∃ r ∈ start.missing inum roles,
      x = s.node inum r ∨ x = s.sb.bblock (s.node inum r) ∨ ∃ p ∈ r.parents, x = s.node inum p) ∨
    ∃ r ∈ written, x = s.node inum r

namespace Progress

variable {inum : Nat} {start s s' : State} {roles written : Finset Role} {r : Role} {b : Nat}

theorem initial (empty : start.logged = []) : Progress inum start start ∅ ∅ := by
  refine ⟨rfl, rfl, by simp, by simp, by simp, fun _ _ => rfl, fun _ _ => rfl, ?_, ?_, ?_⟩
  · simp [State.missing]
  · simp [State.missing]
  · simp [State.missing, empty]

section

variable (progress : Progress inum start s roles written)

include progress

theorem closed_insert (parent : r.parents ⊆ roles) : ∀ q ∈ insert r roles, q.parents ⊆ insert r roles := by
  intro q inside
  rcases Finset.mem_insert.mp inside with rfl | inside
  · exact parent.trans (Finset.subset_insert _ _)
  · exact (progress.closed q inside).trans (Finset.subset_insert _ _)

theorem visited_insert : written ⊆ insert r roles := progress.visited.trans (Finset.subset_insert _ _)

theorem skip (parent : r.parents ⊆ roles) (present : s.node inum r ≠ 0) :
    Progress inum start s (insert r roles) written := by
  by_cases mem : r ∈ roles
  · rw [Finset.insert_eq_of_mem mem]
    exact progress
  · have same : start.missing inum (insert r roles) = start.missing inum roles :=
      missing_insert_of_present (progress.outside r mem ▸ present)
    refine ⟨progress.sb, progress.size, progress.closed_insert parent, progress.visited_insert, ?_, progress.keeps,
      ?_, ?_, ?_, ?_⟩
    · intro q inside
      rcases Finset.mem_insert.mp inside with rfl | inside
      · exact present
      · exact progress.present q inside
    · exact fun q outside => progress.outside q fun inside => outside (Finset.mem_insert_of_mem inside)
    · rw [same]
      exact progress.free
    · rw [same]
      exact progress.taken
    · rw [same]
      exact progress.logged

theorem fill (bound : inum < s.sb.ninodes)
    (parent : r.parents ⊆ roles) (pos : b ≠ 0) (filled : Filled s s' inum r b) :
    Progress inum start s' (insert r roles) written := by
  have fresh : r ∉ roles := fun mem => progress.present r mem filled.empty
  have empty : start.node inum r = 0 := by rw [← progress.outside r fresh, filled.empty]
  have more : start.missing inum (insert r roles) = insert r (start.missing inum roles) :=
    missing_insert_of_empty empty
  have freshMissing : r ∉ start.missing inum roles := fun mem => fresh (mem_missing.mp mem).1
  have count : (start.missing inum (insert r roles)).card = (start.missing inum roles).card + 1 := by
    rw [more, Finset.card_insert_of_notMem freshMissing]
  have self : s'.node inum r = b := by rw [filled.nodes inum bound, if_pos ⟨rfl, rfl⟩]
  have other : ∀ q, q ≠ r → s'.node inum q = s.node inum q := by
    intro q ne
    rw [filled.nodes inum bound, if_neg fun same => ne same.2]
  have inRoles : ∀ q ∈ roles, s'.node inum q = s.node inum q :=
    fun q inside => other q fun same => fresh (same ▸ inside)
  have ahead : start.freeBlocks.drop (start.missing inum roles).card = b :: s'.freeBlocks := by
    rw [← progress.free, filled.free]
  have kept : ∀ q, start.node inum q ≠ 0 → q ≠ r := by
    rintro q there rfl
    exact there empty
  refine ⟨filled.sb.trans progress.sb, ?_, progress.closed_insert parent, progress.visited_insert, ?_, ?_, ?_, ?_, ?_, ?_⟩
  · have size := congrArg Inode.size (filled.kept inum)
    exact Eq.trans size progress.size
  · intro q inside
    rcases Finset.mem_insert.mp inside with rfl | inside
    · rw [self]
      exact pos
    · rw [inRoles q inside]
      exact progress.present q inside
  · intro q there
    rw [other q (kept q there), progress.keeps q there]
  · intro q away
    rw [Finset.mem_insert, not_or] at away
    rw [other q away.1, progress.outside q away.2]
  · rw [count, ← List.drop_drop, ahead, List.drop_one, List.tail_cons]
  · have images : (start.missing inum roles).image (s'.node inum) = (start.missing inum roles).image (s.node inum) :=
      Finset.image_congr fun q mem => inRoles q (mem_missing.mp mem).1
    rw [count, more, Finset.image_insert, images, progress.taken, self, List.take_add_one,
      ← List.head?_drop, ahead]
    ext x
    simp
  · intro x
    have tables : x ∈ s.tables inum r ↔ ∃ p ∈ r.parents, x = s'.node inum p := by
      rw [State.mem_tables]
      exact exists_congr fun p => and_congr_right fun mem => by rw [inRoles p (parent mem)]
    have earlier : (∃ q ∈ start.missing inum roles, x = s'.node inum q ∨
        x = s.sb.bblock (s'.node inum q) ∨ ∃ p ∈ q.parents, x = s'.node inum p) ↔
        ∃ q ∈ start.missing inum roles, x = s.node inum q ∨
          x = s.sb.bblock (s.node inum q) ∨ ∃ p ∈ q.parents, x = s.node inum p := by
      refine exists_congr fun q => and_congr_right fun mem => ?_
      have inside := (mem_missing.mp mem).1
      rw [inRoles q inside]
      refine or_congr_right (or_congr_right (exists_congr fun p => and_congr_right fun above => ?_))
      rw [inRoles p (progress.closed q inside above)]
    have data : (∃ q ∈ written, x = s'.node inum q) ↔ ∃ q ∈ written, x = s.node inum q :=
      exists_congr fun q => and_congr_right fun mem => by rw [inRoles q (progress.visited mem)]
    simp only [filled.logged, more, List.mem_append, List.mem_cons, progress.logged, Finset.mem_insert,
      exists_eq_or_imp, self, filled.sb, tables, earlier, data]
    simp only [or_assoc, or_left_comm]

theorem loads (bound : inum < s.sb.ninodes) (owned : Owned s)
    (parent : r.parents ⊆ roles) (loads : Loads inum s r b s') : Progress inum start s' (insert r roles) written := by
  have pos := (loads.node bound owned).2
  rcases loads with ⟨rfl, rfl, -⟩ | filled
  · exact progress.skip parent pos
  · exact progress.fill bound parent pos filled

theorem write (bound : inum < s.sb.ninodes) (owned : Owned s) (data : r.IsData) (mem : r ∈ roles) (bytes : Bytes) :
    Progress inum start (s.logWrite (s.node inum r) bytes) roles (insert r written) := by
  have present := progress.present r mem
  have nodes : ∀ q, (s.logWrite (s.node inum r) bytes).node inum q = s.node inum q :=
    fun q => node_logWrite_data owned bound data present bytes bound q
  refine ⟨progress.sb, progress.size, progress.closed, Finset.insert_subset mem progress.visited, ?_, ?_,
    ?_, ?_, ?_, ?_⟩
  · exact fun q inside => nodes q ▸ progress.present q inside
  · exact fun q there => (nodes q).trans (progress.keeps q there)
  · exact fun q away => (nodes q).trans (progress.outside q away)
  · rw [owned.freeBlocks_logWrite_node bound present]
    exact progress.free
  · rw [← progress.taken]
    exact Finset.image_congr fun q _ => nodes q
  · intro x
    have sb : (s.logWrite (s.node inum r) bytes).sb = s.sb := rfl
    have logged : (s.logWrite (s.node inum r) bytes).logged = s.node inum r :: s.logged := rfl
    simp only [nodes, sb, logged, List.mem_cons, progress.logged, Finset.mem_insert, exists_eq_or_imp]
    exact or_left_comm

end

end Progress

/-! ## Paths -/

/-- Every role of the list comes after the role in whose block it is stored. -/
def Chained : Finset Role → List Role → Prop
  | _, [] => True
  | roles, r :: rs => r.parents ⊆ roles ∧ Chained (insert r roles) rs

theorem chained_path (roles : Finset Role) (r : Role) : Chained roles r.path := by
  cases r <;> simp [Chained, Role.path, Role.parents]

theorem Role.mem_path {r q : Role} (mem : r ∈ q.path) : r = q ∨ ∃ q' ∈ q.path, r ∈ q'.parents := by
  cases q <;> simp_all [path, parents] <;> tauto

theorem Role.self_mem_path (r : Role) : r ∈ r.path := by
  cases r <;> simp [path]

/-- The roles on the paths to the blocks `bns` of a file. -/
def pathRoles (bns : List (Fin maxFile)) : Finset Role :=
  (bns.flatMap fun bn => (Role.leaf bn).path).toFinset

/-- The roles of the blocks `bns` of a file. -/
def leafRoles (bns : List (Fin maxFile)) : Finset Role := (bns.map Role.leaf).toFinset

namespace Progress

variable {inum : Nat} {start s s' : State} {written : Finset Role}

theorem loadsAll {rs : List Role} (loads : LoadsAll inum s rs s') : ∀ {roles : Finset Role},
    Progress inum start s roles written → inum < s.sb.ninodes → Owned s → Chained roles rs →
    Progress inum start s' (roles ∪ rs.toFinset) written := by
  induction loads with
  | nil =>
    intro roles progress _ _ _
    simpa using progress
  | @cons s s₁ s₂ r rs b first rest ih =>
    intro roles progress bound owned chained
    have later := ih (progress.loads bound owned chained.1 first) (first.sb ▸ bound)
      (first.owned bound owned) chained.2
    rwa [List.toFinset_cons, Finset.union_insert, ← Finset.insert_union]

theorem writes {bns : List (Fin maxFile)} (writes : Writes inum s bns s') : ∀ {roles written : Finset Role},
    Progress inum start s roles written → inum < s.sb.ninodes → Owned s →
    Progress inum start s' (roles ∪ pathRoles bns) (written ∪ leafRoles bns) := by
  induction writes with
  | nil =>
    intro roles written progress _ _
    simpa [pathRoles, leafRoles] using progress
  | @cons s s₁ s₂ bn bns bytes loads present rest ih =>
    intro roles written progress bound owned
    have bound₁ : inum < s₁.sb.ninodes := loads.sb ▸ bound
    have owned₁ := loads.owned bound owned
    have walked := progress.loadsAll loads bound owned (chained_path roles (Role.leaf bn))
    have mem : Role.leaf bn ∈ roles ∪ (Role.leaf bn).path.toFinset :=
      Finset.mem_union_right _ (List.mem_toFinset.mpr (Role.self_mem_path _))
    have later := ih (walked.write bound₁ owned₁ (Role.leaf_isData bn) mem bytes) bound₁
      (owned₁.logWrite_data bound₁ (Role.leaf_isData bn) present bytes)
    have roles' : roles ∪ (Role.leaf bn).path.toFinset ∪ pathRoles bns = roles ∪ pathRoles (bn :: bns) := by
      simp [pathRoles, Finset.union_assoc]
    have written' : insert (Role.leaf bn) written ∪ leafRoles bns = written ∪ leafRoles (bn :: bns) := by
      simp [leafRoles, Finset.insert_union]
    rwa [roles', written'] at later

end Progress

/-! ## The number of blocks -/

/-- The indirect blocks that get a new entry. -/
def State.grownTables (s : State) (inum : Nat) (bns : List (Fin maxFile)) : Finset Role :=
  (s.missing inum (pathRoles bns)).biUnion Role.parents

/-- The bitmap blocks of the blocks that are taken: the first free ones, as many as
roles are missing. -/
def State.bitmapBlocks (s : State) (inum : Nat) (bns : List (Fin maxFile)) : Finset Nat :=
  (s.freeBlocks.take (s.missing inum (pathRoles bns)).card).toFinset.image s.sb.bblock

/-- The number of distinct blocks that writing the blocks `bns` of a file logs. -/
def State.writeCost (s : State) (inum : Nat) (bns : List (Fin maxFile)) : Nat :=
  bns.length + (s.grownTables inum bns).card + (s.bitmapBlocks inum bns).card

section Count

variable {inum : Nat} {start s : State} {bns : List (Fin maxFile)}

/-- A missing role is written itself, or leads to another missing one. -/
theorem leaf_or_table {r : Role} (mem : r ∈ start.missing inum (pathRoles bns)) :
    r ∈ leafRoles bns ∨ r ∈ start.grownTables inum bns := by
  obtain ⟨onPath, empty⟩ := mem_missing.mp mem
  simp only [pathRoles, List.mem_toFinset, List.mem_flatMap] at onPath
  obtain ⟨bn, listed, onPath⟩ := onPath
  rcases Role.mem_path onPath with rfl | ⟨q, below, above⟩
  · exact .inl (List.mem_toFinset.mpr (List.mem_map_of_mem listed))
  · refine .inr (Finset.mem_biUnion.mpr ⟨q, mem_missing.mpr ⟨?_, ?_⟩, above⟩)
    · simp only [pathRoles, List.mem_toFinset, List.mem_flatMap]
      exact ⟨bn, listed, below⟩
    · obtain ⟨idx, loc⟩ := Role.mem_parents.mp above
      rw [start.node_entry inum loc, empty]
      rfl

theorem disjoint_leaf_table : Disjoint (leafRoles bns) (start.grownTables inum bns) := by
  rw [Finset.disjoint_left]
  intro r leaf table
  obtain ⟨bn, -, rfl⟩ := List.mem_map.mp (List.mem_toFinset.mp leaf)
  obtain ⟨q, -, above⟩ := Finset.mem_biUnion.mp table
  obtain ⟨idx, loc⟩ := Role.mem_parents.mp above
  exact Role.leaf_isData bn q idx loc

section

variable (progress : Progress inum start s (pathRoles bns) (leafRoles bns))

include progress

theorem logged_eq : s.logged.toFinset = (leafRoles bns ∪ start.grownTables inum bns).image (s.node inum) ∪
      start.bitmapBlocks inum bns := by
  rw [State.bitmapBlocks, ← progress.taken, Finset.image_image, progress.sb.symm]
  ext x
  simp only [List.mem_toFinset, progress.logged, Finset.mem_union, Finset.mem_image, Function.comp_apply]
  constructor
  · rintro (⟨r, mem, rfl | rfl | ⟨p, above, rfl⟩⟩ | ⟨r, leaf, rfl⟩)
    · exact .inl ⟨r, leaf_or_table mem, rfl⟩
    · exact .inr ⟨r, mem, rfl⟩
    · exact .inl ⟨p, .inr (Finset.mem_biUnion.mpr ⟨r, mem, above⟩), rfl⟩
    · exact .inl ⟨r, .inl leaf, rfl⟩
  · rintro (⟨r, leaf | table, rfl⟩ | ⟨r, mem, rfl⟩)
    · exact .inr ⟨r, leaf, rfl⟩
    · obtain ⟨q, mem, above⟩ := Finset.mem_biUnion.mp table
      exact .inl ⟨q, mem, .inr (.inr ⟨r, above, rfl⟩)⟩
    · exact .inl ⟨r, mem, .inr (.inl rfl)⟩

theorem present_of_counted {r : Role}
    (counted : r ∈ leafRoles bns ∪ start.grownTables inum bns) : s.node inum r ≠ 0 := by
  rcases Finset.mem_union.mp counted with leaf | table
  · exact progress.present r (progress.visited leaf)
  · obtain ⟨q, mem, above⟩ := Finset.mem_biUnion.mp table
    exact progress.present r (progress.closed q (mem_missing.mp mem).1 above)

theorem bitmapBlocks_bounds (owned : Owned s) {x : Nat} (mem : x ∈ start.bitmapBlocks inum bns) :
    s.sb.bmapstart ≤ x ∧ x < s.sb.nmeta := by
  obtain ⟨b, taken, rfl⟩ := Finset.mem_image.mp mem
  have free := State.mem_freeBlocks.mp (List.mem_of_mem_take (List.mem_toFinset.mp taken))
  rw [← progress.sb] at free ⊢
  exact (owned.layout.bblock_bounds free.1).2

theorem card_logged (owned : Owned s) (bound : inum < s.sb.ninodes) (distinct : bns.Nodup) :
    s.logged.toFinset.card = start.writeCost inum bns := by
  have injective : Set.InjOn (s.node inum) (leafRoles bns ∪ start.grownTables inum bns : Finset Role) := by
    intro r counted q _ same
    exact (owned.node_injective bound bound (present_of_counted progress counted) same).2
  have apart : Disjoint ((leafRoles bns ∪ start.grownTables inum bns).image (s.node inum))
      (start.bitmapBlocks inum bns) := by
    rw [Finset.disjoint_left]
    intro x node map
    obtain ⟨r, counted, rfl⟩ := Finset.mem_image.mp node
    have data := (owned.node_bounds bound (present_of_counted progress counted)).1
    have bitmap := bitmapBlocks_bounds progress owned map
    omega
  have leaves : (leafRoles bns).card = bns.length := by
    rw [leafRoles, List.toFinset_card_of_nodup (distinct.map fun _ _ => Role.leaf_injective), List.length_map]
  rw [logged_eq progress, Finset.card_union_of_disjoint apart, Finset.card_image_of_injOn injective,
    Finset.card_union_of_disjoint disjoint_leaf_table, leaves, State.writeCost]

/-- The inode block is not among the blocks that the loop logs. -/
theorem iblock_notMem_logged
    (owned : Owned s) (bound : inum < s.sb.ninodes) : s.sb.iblock inum ∉ s.logged.toFinset := by
  have inode := (owned.layout.iblock_lt bound).2
  rw [logged_eq progress, Finset.mem_union, not_or]
  constructor
  · intro node
    obtain ⟨r, counted, same⟩ := Finset.mem_image.mp node
    have data := (owned.node_bounds bound (present_of_counted progress counted)).1
    have map := s.sb.bmapstart_lt_nmeta
    omega
  · intro map
    have bitmap := (bitmapBlocks_bounds progress owned map).1
    omega

end

end Count

end Xv6Simplesh.Fs
