import Xv6Simplesh.Fs.Image
import Xv6Simplesh.Fs.Ownership
import Xv6Simplesh.Fs.Reads

/-! # Runs of `bmap`, `writei` and `itrunc`

From a state with block ownership, calls on any inodes and in any order keep it.
The only panic they can reach is the one of `balloc` on a full disk.
-/

namespace Xv6Simplesh.Fs

open Library

inductive Call where
  | bmap (inum bn : Nat)
  | writei (inum : Nat) (src : Nat → UInt8) (off n : UInt32)
  | itrunc (inum : Nat)

/-- The inode exists and `bmap` is asked for a block that a file can have. -/
def Call.Valid (s : State) : Call → Prop
  | .bmap inum bn => inum < s.sb.ninodes ∧ bn < maxFile
  | .writei inum _ _ _ => inum < s.sb.ninodes
  | .itrunc inum => inum < s.sb.ninodes

def perform (devsw : Devsw) (s : State) : Call → Except Panic State
  | .bmap inum bn => (fun res => res.2) <$> bmap s inum bn
  | .writei inum src off n => (fun res => res.2) <$> writei devsw s inum src off.toNat n.toNat
  | .itrunc inum => itrunc s inum

def system (devsw : Devsw) (start : State) : System State Call where
  initial s := s = start
  step s call := (perform devsw s call).toOption

/-- One call keeps ownership, or `bmap` or `writei` finds the disk full. -/
theorem perform_owned (devsw : Devsw) {s : State} (owned : Owned s) {call : Call} (valid : call.Valid s) :
    (∃ s', perform devsw s call = .ok s' ∧ s'.sb = s.sb ∧ Owned s') ∨
      perform devsw s call = .error .outOfBlocks ∧ ∀ inum, call ≠ .itrunc inum := by
  cases call with
  | bmap inum bn =>
    rcases bmap_walks owned valid.1 ⟨bn, valid.2⟩ with ⟨b, s', mapped, loads, -, -⟩ | ⟨failed, -⟩
    · exact .inl ⟨s', by rw [perform, mapped]; rfl, loads.sb, loads.owned valid.1 owned⟩
    · exact .inr ⟨by rw [perform, failed]; rfl, fun _ => Call.noConfusion⟩
  | writei inum src off n =>
    rcases writei_owned devsw owned valid src off n with ⟨res, s', wrote, sb, owned'⟩ | failed
    · exact .inl ⟨s', by rw [perform, wrote]; rfl, sb, owned'⟩
    · exact .inr ⟨by rw [perform, failed]; rfl, fun _ => Call.noConfusion⟩
  | itrunc inum =>
    obtain ⟨s', truncated, sb, owned'⟩ := itrunc_owned owned valid
    exact .inl ⟨s', truncated, sb, owned'⟩

theorem owned_of_reachable {devsw : Devsw} {start s : State} (owned : Owned start)
    (reach : (system devsw start).Reachable Call.Valid s) : Owned s := by
  refine reach.invariant Owned ?_ ?_
  · rintro _ rfl
    exact owned
  · intro s call next _ owned valid taken
    rcases perform_owned devsw owned valid with ⟨s', performed, -, owned'⟩ | ⟨failed, -⟩
    · simp only [system, performed, Except.toOption, Option.some.injEq] at taken
      exact taken ▸ owned'
    · simp [system, failed, Except.toOption] at taken

/-! ## Mappings -/

/-- The block that holds block `bn` of inode `inum`, 0 if there is none. -/
def State.mapping (s : State) (inum : Nat) (bn : Fin maxFile) : Nat := s.node inum (Role.leaf bn)

theorem bmap_keeps {s : State} (owned : Owned s) {inum : Nat} (bound : inum < s.sb.ninodes)
    {bn : Fin maxFile} {b : Nat} {s' : State} (mapped : bmap s inum bn = .ok (b, s')) :
    s'.sb = s.sb ∧ Owned s' ∧ s'.mapping inum bn = b ∧ b ≠ 0 ∧
      ∀ i < s.sb.ninodes, ∀ bn', s.mapping i bn' ≠ 0 → s'.mapping i bn' = s.mapping i bn' := by
  rcases bmap_walks owned bound bn with ⟨b', s'', mapped', loads, node, present⟩ | ⟨failed, -⟩
  · rw [mapped] at mapped'
    cases mapped'
    exact ⟨loads.sb, loads.owned bound owned, node, present, fun i inside bn' => loads.keeps inside⟩
  · rw [mapped] at failed
    cases failed

/-- Calls of `bmap` one after the other, with their results. -/
def bmaps (s : State) : List (Nat × Fin maxFile) → Except Panic (List Nat × State)
  | [] => .ok ([], s)
  | (inum, bn) :: calls => do
    let (b, s) ← bmap s inum bn
    let (bs, s) ← bmaps s calls
    .ok (b :: bs, s)

theorem bmaps_eq_mapping {calls : List (Nat × Fin maxFile)} : ∀ {s : State} {bs : List Nat} {s' : State},
    Owned s → (∀ c ∈ calls, c.1 < s.sb.ninodes) → bmaps s calls = .ok (bs, s') →
      s'.sb = s.sb ∧ Owned s' ∧ bs = calls.map (fun c => s'.mapping c.1 c.2) ∧
      (∀ b ∈ bs, b ≠ 0) ∧
      ∀ i < s.sb.ninodes, ∀ bn, s.mapping i bn ≠ 0 → s'.mapping i bn = s.mapping i bn := by
  induction calls with
  | nil =>
    intro s bs s' owned _ ran
    cases ran
    exact ⟨rfl, owned, rfl, fun b => List.not_mem_nil.elim, fun _ _ _ _ => rfl⟩
  | cons call calls ih =>
    obtain ⟨inum, bn⟩ := call
    intro s bs s' owned bounds ran
    rw [bmaps] at ran
    cases mapped : bmap s inum bn with
    | error panic =>
      rw [mapped] at ran
      cases ran
    | ok res =>
      obtain ⟨b, s₁⟩ := res
      obtain ⟨sb, owned₁, mapping, present, kept⟩ :=
        bmap_keeps owned (bounds (inum, bn) (.head _)) mapped
      rw [mapped] at ran
      cases rest : bmaps s₁ calls with
      | error panic =>
        simp only [bind, Except.bind, rest] at ran
        cases ran
      | ok res =>
        obtain ⟨bs', s₂⟩ := res
        simp only [bind, Except.bind, rest] at ran
        cases ran
        obtain ⟨sb', owned₂, results, pos, kept'⟩ := ih owned₁
          (fun c mem => sb ▸ bounds c (.tail _ mem)) rest
        refine ⟨sb'.trans sb, owned₂, ?_, ?_, fun i inside bn' before => ?_⟩
        · have later := kept' inum (sb ▸ bounds (inum, bn) (.head _)) bn (mapping ▸ present)
          rw [List.map_cons, ← results, later, mapping]
        · intro x mem
          rcases List.mem_cons.mp mem with rfl | mem
          · exact present
          · exact pos x mem
        · have before₁ := kept i inside bn' before
          rw [kept' i (sb ▸ inside) bn' (before₁ ▸ before), before₁]

/-- In every state that calls reach from one with block ownership, blocks are
owned; the only possible panic is the one of `balloc` on a full disk, and `itrunc`
reaches none; `bmap` keeps the mappings that exist, and different blocks of files
are mapped to different disk blocks. -/
theorem blocks_owned (devsw : Devsw) {start s : State} (owned : Owned start)
    (reach : (system devsw start).Reachable Call.Valid s) :
    Owned s ∧
      (∀ call panic, call.Valid s → perform devsw s call = .error panic → panic = .outOfBlocks) ∧
      (∀ inum < s.sb.ninodes, ∃ s', itrunc s inum = .ok s') ∧
      (∀ inum < s.sb.ninodes, ∀ (bn : Fin maxFile) b s', bmap s inum bn = .ok (b, s') →
        s'.mapping inum bn = b ∧ b ≠ 0 ∧ ∀ i < s.sb.ninodes, ∀ bn', s.mapping i bn' ≠ 0 → s'.mapping i bn' = s.mapping i bn') ∧
      ∀ calls bs s', (∀ c ∈ calls, c.1 < s.sb.ninodes) → bmaps s calls = .ok (bs, s') →
        ∀ x ∈ calls.zip bs, ∀ y ∈ calls.zip bs, x.1 ≠ y.1 → x.2 ≠ y.2 := by
  have owned := owned_of_reachable owned reach
  refine ⟨owned, ?_, ?_, ?_, ?_⟩
  · intro call panic valid stopped
    rcases perform_owned devsw owned valid with ⟨s', performed, -, -⟩ | ⟨failed, -⟩
    · rw [performed] at stopped
      cases stopped
    · rw [failed] at stopped
      cases stopped
      rfl
  · intro inum bound
    obtain ⟨s', truncated, -, -⟩ := itrunc_owned owned bound
    exact ⟨s', truncated⟩
  · intro inum bound bn b s' mapped
    exact (bmap_keeps owned bound mapped).2.2
  · intro calls bs s' bounds ran x memberX y memberY ne same
    obtain ⟨sb, owned', rfl, pos, -⟩ := bmaps_eq_mapping owned bounds ran
    rw [← List.map_prod_left_eq_zip] at memberX memberY
    obtain ⟨c, memberC, rfl⟩ := List.mem_map.mp memberX
    obtain ⟨d, memberD, rfl⟩ := List.mem_map.mp memberY
    have present := pos _ (List.mem_map_of_mem memberC)
    obtain ⟨inum, role⟩ := owned'.node_injective (sb ▸ bounds c memberC) (sb ▸ bounds d memberD) present same
    exact ne (Prod.ext inum (Role.leaf_injective role))

/-- In the crowded image `bmap` gives file 1 the block that it lacks, and `bmap` of file 2 finds
the block that is there; then `itrunc` frees file 1. -/
theorem blocks_owned_crowded : ∃ b s s', bmap crowdedImage 1 139 = .ok (b, s) ∧ itrunc s 1 = .ok s' ∧ Owned s' ∧
    bmaps crowdedImage [(1, 139), (2, 0)] = .ok ([b, 8192], s) ∧ s.mapping 1 139 = b ∧ s.mapping 2 0 = 8192 ∧
    b ≠ 0 ∧ b ≠ 8192 := by
  have file : 1 < crowdedImage.sb.ninodes := by decide
  rcases bmap_walks crowdedImage_owned file (139 : Fin maxFile) with ⟨b, s, mapped, -⟩ | ⟨-, full⟩
  · have start := blocks_owned (fun _ => none) crowdedImage_owned (.initial rfl)
    have there : crowdedImage.mapping 2 0 = 8192 := node_crowdedImage 2 _
    obtain ⟨mapping, present, kept⟩ := start.2.2.2.1 1 file 139 b s mapped
    have found : s.mapping 2 0 = 8192 := (kept 2 (by decide) 0 (by rw [there]; decide)).trans there
    have snd : bmap s 2 (0 : Fin maxFile) = .ok (8192, s) := by
      have block : s.block 2 (0 : Fin maxFile) = 8192 := found
      rw [← block]
      exact bmap_present (by rw [block]; decide)
    have both : bmaps crowdedImage [(1, 139), (2, 0)] = .ok ([b, 8192], s) := by
      simp only [bmaps, mapped, snd, bind, Except.bind]
    have reach : (system (fun _ => none) crowdedImage).Reachable Call.Valid s := by
      refine .step (.bmap 1 (139 : Fin maxFile)) (.initial rfl) ⟨file, by decide⟩ ?_
      simp only [system, perform, mapped, Functor.map, Except.map, Except.toOption]
    obtain ⟨-, -, truncates, -⟩ := blocks_owned (fun _ => none) crowdedImage_owned reach
    have file' : 1 < s.sb.ninodes := (bmap_keeps crowdedImage_owned file mapped).1 ▸ file
    obtain ⟨s', truncated⟩ := truncates 1 file'
    have owned : Owned s' := (blocks_owned (fun _ => none) crowdedImage_owned
      (.step (.itrunc 1) reach file' (by simp [system, perform, truncated, Except.toOption]))).1
    have apart := start.2.2.2.2 _ _ s (by decide) both ((1, 139), b) (by simp) ((2, 0), 8192) (by simp)
      (by simp)
    exact ⟨b, s, s', mapped, truncated, owned, both, mapping, found, present, apart⟩
  · rw [freeBlocks_crowdedImage, List.length_cons, List.length_cons] at full
    have few : (Role.leaf 139).path.dropLast.length = 2 := by decide
    rw [few, List.length_range'] at full
    omega

end Xv6Simplesh.Fs
