import Xv6Simplesh.Library.Bytes
import Xv6Simplesh.Param

/-! # The write-ahead log: `commit` and `recover_from_log`

`log.c` commits a transaction with single-block disk writes issued in a fixed
order: the log blocks, the header, the home blocks, the cleared header.  The
model runs the code on the buffer cache and records every `bwrite` in issue
order, so a crash is a cut of that record and recovery is the same code run on
what the cut left on the disk.
-/

namespace Xv6Simplesh.Log

open Library Function

/-- A disk, by block number. -/
abbrev Disk := Nat → Bytes

/-- `log.start` and `log.size`: the log area, which has at least its header block. -/
structure Geometry where
  start : Nat
  size : Nat
  header : 0 < size

/-- Blocks `start .. start + size - 1` belong to the log. -/
def Geometry.inLog (geom : Geometry) (block : Nat) : Prop :=
  geom.start ≤ block ∧ block < geom.start + geom.size

/-- The data blocks of the log: what is left beside the header, and no more
than `struct logheader` has entries for. -/
def Geometry.dataBlocks (geom : Geometry) : Nat := min logSize (geom.size - 1)

/-- The buffer cache as `bread` sees it, and the disk writes issued so far,
oldest first. -/
structure Machine where
  cache : Disk
  issued : List (Nat × Bytes)

/-- A machine that has just booted from `disk`: every `bread` goes to the disk. -/
def Machine.boot (disk : Disk) : Machine := ⟨disk, []⟩

/-- Change the buffered contents of `block`. -/
def Machine.store (machine : Machine) (block : Nat) (data : Bytes) : Machine :=
  { machine with cache := update machine.cache block data }

/-- `bwrite`: write the buffer of `block` to the disk. -/
def Machine.bwrite (machine : Machine) (block : Nat) : Machine :=
  { machine with issued := machine.issued ++ [(block, machine.cache block)] }

/-- `memmove` one buffer into another and write it out. -/
def Machine.copyOut (machine : Machine) (src target : Nat) : Machine :=
  (machine.store target (machine.cache src)).bwrite target

/-- The value of a C `int` stored in a word. -/
def toInt (word : Nat) : Int := if word < 2 ^ 31 then word else word - 2 ^ 32

/-- `read_head`: the block numbers in the first `n` entries of the header. -/
def readHead (geom : Geometry) (disk : Disk) : List Nat :=
  (List.range (toInt ((disk geom.start).word 0)).toNat).map
    (fun entry => (disk geom.start).word (entry + 1))

/-- The loop of `write_head` that stores the entries from `entry` on. -/
def putEntries : Nat → List Nat → Bytes → Bytes
  | _, [], data => data
  | entry, block :: blocks, data => putEntries (entry + 1) blocks (data.setWord (entry + 1) block)

/-- The header block `write_head` builds over the old contents of the buffer. -/
def putHead (blocks : List Nat) (data : Bytes) : Bytes :=
  putEntries 0 blocks (data.setWord 0 blocks.length)

/-- `write_head`. -/
def writeHead (geom : Geometry) (blocks : List Nat) (machine : Machine) : Machine :=
  (machine.store geom.start (putHead blocks (machine.cache geom.start))).bwrite geom.start

/-- The loop of `write_log`, from `tail` on: copy modified blocks from cache to log. -/
def writeLog (geom : Geometry) : Nat → List Nat → Machine → Machine
  | _, [], machine => machine
  | tail, block :: blocks, machine =>
    writeLog geom (tail + 1) blocks (machine.copyOut block (geom.start + tail + 1))

/-- The loop of `install_trans`, from `tail` on: copy log blocks to their home location. -/
def installTrans (geom : Geometry) : Nat → List Nat → Machine → Machine
  | _, [], machine => machine
  | tail, block :: blocks, machine =>
    installTrans geom (tail + 1) blocks (machine.copyOut (geom.start + tail + 1) block)

/-- `commit`, with `log.lh` holding `blocks`. -/
def commit (geom : Geometry) (blocks : List Nat) (machine : Machine) : Machine :=
  if blocks.length > 0 then
    let machine := writeLog geom 0 blocks machine
    let machine := writeHead geom blocks machine  -- the real commit
    let machine := installTrans geom 0 blocks machine
    writeHead geom [] machine                     -- erase the transaction from the log
  else machine

/-- `recover_from_log`. -/
def recoverFromLog (geom : Geometry) (machine : Machine) : Machine :=
  let blocks := readHead geom machine.cache
  let machine := installTrans geom 0 blocks machine
  writeHead geom [] machine

/-- The disk after the given single-block writes, in order. -/
def applyWrites : List (Nat × Bytes) → Disk → Disk
  | [], disk => disk
  | (block, data) :: writes, disk => applyWrites writes (update disk block data)

/-- The disk found after a power cut that let `count` of the issued writes through. -/
def Machine.crash (machine : Machine) (disk : Disk) (count : Nat) : Disk :=
  applyWrites (machine.issued.take count) disk

/-- Booting from a disk until one run of `recover_from_log` completes: each run
may be cut after any number of its writes and started again. -/
inductive Recovers (geom : Geometry) : Disk → Disk → Prop where
  | complete (disk : Disk) :
      Recovers geom disk
        (applyWrites (recoverFromLog geom (.boot disk)).issued disk)
  | cut (disk : Disk) (count : Nat) {final : Disk}
      (rerun : Recovers geom ((recoverFromLog geom (.boot disk)).crash disk count) final) :
      Recovers geom disk final

/-- A transaction handed to `commit`: distinct home blocks outside the log
area, at most one for each log data block, and their new contents. -/
structure Transaction (geom : Geometry) where
  blocks : List Nat
  contents : Nat → Bytes
  distinct : blocks.Nodup
  home : ∀ block ∈ blocks, ¬ geom.inLog block
  uint : ∀ block ∈ blocks, block < 2 ^ 32
  fits : blocks.length ≤ geom.dataBlocks

namespace Transaction

variable {geom : Geometry}

/-- `disk` with every block of the transaction updated. -/
def updated (txn : Transaction geom) (disk : Disk) : Disk := fun block =>
  if block ∈ txn.blocks then txn.contents block else disk block

/-- The machine that calls `commit`: the cache holds the new contents of the
logged blocks and agrees with the disk elsewhere. -/
def machine (txn : Transaction geom) (disk : Disk) : Machine := ⟨txn.updated disk, []⟩

/-- The writes that `commit` issues for the transaction. -/
def writes (txn : Transaction geom) (disk : Disk) : List (Nat × Bytes) :=
  (commit geom txn.blocks (txn.machine disk)).issued

end Transaction

/-! ## The writes each phase issues

Every phase changes the cache exactly as it changes the disk, so a phase is
determined by the list of writes it emits. -/

theorem applyWrites_append (first snd : List (Nat × Bytes)) (disk : Disk) :
    applyWrites (first ++ snd) disk = applyWrites snd (applyWrites first disk) := by
  induction first generalizing disk with
  | nil => rfl
  | cons write first ih => exact ih _

variable {disk : Disk} {writes : List (Nat × Bytes)} {blocks : List Nat} {contents : Nat → Bytes}

theorem applyWrites_of_notMem {block : Nat}
    (absent : ∀ write ∈ writes, write.1 ≠ block) : applyWrites writes disk block = disk block := by
  induction writes generalizing disk with
  | nil => rfl
  | cons write writes ih =>
    simp only [List.mem_cons, forall_eq_or_imp] at absent
    rw [applyWrites, ih absent.2, update_of_ne (Ne.symm absent.1)]

/-- Writes whose data depends on the block number only leave that data in the
blocks they name, whatever their order. -/
theorem applyWrites_map {block : Nat} (mem : block ∈ blocks) :
    applyWrites (blocks.map fun b => (b, contents b)) disk block = contents block := by
  induction blocks generalizing disk with
  | nil => cases mem
  | cons head blocks ih =>
    rw [List.map_cons, applyWrites]
    by_cases later : block ∈ blocks
    · exact ih later
    · have same : block = head := by simpa [later] using mem
      subst same
      rw [applyWrites_of_notMem, update_self]
      rintro write written rfl
      obtain ⟨b, inBlocks, rfl⟩ := List.mem_map.mp written
      exact later inBlocks

/-- Emit writes: each changes its buffer and goes to the disk. -/
def Machine.emit (machine : Machine) (writes : List (Nat × Bytes)) : Machine :=
  ⟨applyWrites writes machine.cache, machine.issued ++ writes⟩

@[simp] theorem Machine.emit_cache (machine : Machine) (writes : List (Nat × Bytes)) :
    (machine.emit writes).cache = applyWrites writes machine.cache := rfl

@[simp] theorem Machine.emit_issued (machine : Machine) (writes : List (Nat × Bytes)) :
    (machine.emit writes).issued = machine.issued ++ writes := rfl

theorem Machine.emit_emit (machine : Machine) (first snd : List (Nat × Bytes)) :
    (machine.emit first).emit snd = machine.emit (first ++ snd) := by
  simp only [emit, applyWrites_append, List.append_assoc]

theorem Machine.copyOut_eq_emit (machine : Machine) (src target : Nat) :
    machine.copyOut src target = machine.emit [(target, machine.cache src)] := by
  simp [copyOut, store, bwrite, emit, applyWrites]

theorem writeHead_eq_emit (geom : Geometry) (blocks : List Nat) (machine : Machine) :
    writeHead geom blocks machine =
      machine.emit [(geom.start, putHead blocks (machine.cache geom.start))] := by
  simp [writeHead, Machine.store, Machine.bwrite, Machine.emit, applyWrites]

/-- The writes of `write_log` from `tail` on, for blocks that hold `contents`. -/
def logCopies (geom : Geometry) (contents : Nat → Bytes) : Nat → List Nat → List (Nat × Bytes)
  | _, [] => []
  | tail, block :: blocks =>
    (geom.start + tail + 1, contents block) :: logCopies geom contents (tail + 1) blocks

theorem mem_logCopies {geom : Geometry} {tail : Nat} {write : Nat × Bytes} (mem : write ∈ logCopies geom contents tail blocks) :
    geom.start + tail + 1 ≤ write.1 ∧ write.1 < geom.start + tail + 1 + blocks.length := by
  induction blocks generalizing tail with
  | nil => cases mem
  | cons block blocks ih =>
    rw [logCopies, List.mem_cons] at mem
    rw [List.length_cons]
    rcases mem with rfl | later
    · dsimp only
      omega
    · have := ih later
      omega

theorem logCopies_length (geom : Geometry) (contents : Nat → Bytes) (tail : Nat)
    (blocks : List Nat) : (logCopies geom contents tail blocks).length = blocks.length := by
  induction blocks generalizing tail with
  | nil => rfl
  | cons block blocks ih => rw [logCopies, List.length_cons, ih, List.length_cons]

theorem logCopies_congr (geom : Geometry) {contents' : Nat → Bytes} (tail : Nat) (agree : ∀ block ∈ blocks, contents block = contents' block) :
    logCopies geom contents tail blocks = logCopies geom contents' tail blocks := by
  induction blocks generalizing tail with
  | nil => rfl
  | cons block blocks ih =>
    simp only [List.mem_cons, forall_eq_or_imp] at agree
    rw [logCopies, logCopies, agree.1, ih _ agree.2]

/-- After `write_log` the log data blocks hold the logged contents. -/
theorem applyWrites_logCopies (geom : Geometry) (contents : Nat → Bytes) (tail : Nat)
    (blocks : List Nat) (disk : Disk) {entry : Nat} (bound : entry < blocks.length) :
    applyWrites (logCopies geom contents tail blocks) disk (geom.start + tail + 1 + entry) =
      contents blocks[entry] := by
  induction blocks generalizing tail disk entry with
  | nil => cases bound
  | cons block blocks ih =>
    rw [logCopies, applyWrites]
    cases entry with
    | zero =>
      rw [applyWrites_of_notMem, Nat.add_zero, update_self]
      · rfl
      · intro write mem
        have := (mem_logCopies mem).1
        omega
    | succ entry =>
      rw [List.length_cons] at bound
      have shorter : entry < blocks.length := by omega
      have shifted := ih (tail + 1) (update disk (geom.start + tail + 1) (contents block)) shorter
      rw [show geom.start + tail + 1 + (entry + 1) = geom.start + (tail + 1) + 1 + entry by omega,
        shifted]
      rfl

theorem writeLog_eq_emit (geom : Geometry) (tail : Nat) (blocks : List Nat) (machine : Machine)
    (room : tail + blocks.length < geom.size) (home : ∀ block ∈ blocks, ¬ geom.inLog block) :
    writeLog geom tail blocks machine =
      machine.emit (logCopies geom machine.cache tail blocks) := by
  induction blocks generalizing tail machine with
  | nil => simp [writeLog, logCopies, Machine.emit, applyWrites]
  | cons block blocks ih =>
    simp only [List.mem_cons, forall_eq_or_imp] at home
    rw [List.length_cons] at room
    -- the copies made so far went to the log area, so the home buffers still hold their contents
    have unchanged : logCopies geom
          (machine.emit [(geom.start + tail + 1, machine.cache block)]).cache (tail + 1) blocks =
        logCopies geom machine.cache (tail + 1) blocks := by
      have agree : ∀ b ∈ blocks,
          (machine.emit [(geom.start + tail + 1, machine.cache block)]).cache b = machine.cache b := by
        intro b mem
        apply applyWrites_of_notMem
        intro write written same
        simp only [List.mem_singleton] at written
        subst written
        apply home.2 b mem
        rw [← same]
        constructor <;> dsimp only <;> omega
      exact logCopies_congr geom (tail + 1) agree
    rw [writeLog, Machine.copyOut_eq_emit, ih _ _ (by omega) home.2, unchanged, Machine.emit_emit]
    rfl

/-- `install_trans` copies to the home blocks what the log blocks hold, for a log that
holds `contents`. -/
theorem installTrans_eq_emit (geom : Geometry) (contents : Nat → Bytes) (tail : Nat)
    (blocks : List Nat) (machine : Machine) (room : tail + blocks.length < geom.size)
    (home : ∀ block ∈ blocks, ¬ geom.inLog block)
    (logged : ∀ entry (bound : entry < blocks.length),
      machine.cache (geom.start + tail + 1 + entry) = contents blocks[entry]) :
    installTrans geom tail blocks machine =
      machine.emit (blocks.map fun block => (block, contents block)) := by
  induction blocks generalizing tail machine with
  | nil => simp [installTrans, Machine.emit, applyWrites]
  | cons block blocks ih =>
    simp only [List.mem_cons, forall_eq_or_imp] at home
    rw [List.length_cons] at room
    have first : machine.cache (geom.start + tail + 1) = contents block :=
      logged 0 (Nat.succ_pos _)
    rw [installTrans, Machine.copyOut_eq_emit, first, ih _ _ (by omega) home.2, Machine.emit_emit]
    · rfl
    · intro entry bound
      rw [Machine.emit_cache, applyWrites_of_notMem]
      · rw [show geom.start + (tail + 1) + 1 + entry = geom.start + tail + 1 + (entry + 1) by omega]
        exact logged (entry + 1) (by rw [List.length_cons]; omega)
      · intro write written same
        simp only [List.mem_singleton] at written
        subst written
        apply home.1
        dsimp only at same
        subst same
        constructor <;> omega

/-! ## The header block -/

theorem putEntries_word_of_le (blocks : List Nat) (entry : Nat) (data : Bytes) {idx : Nat}
    (below : idx ≤ entry) : (putEntries entry blocks data).word idx = data.word idx := by
  induction blocks generalizing entry data with
  | nil => rfl
  | cons block blocks ih =>
    rw [putEntries, ih _ _ (by omega), Bytes.word_setWord_ne _ _ (by omega)]

theorem putEntries_word (blocks : List Nat) (entry : Nat) (data : Bytes)
    (uint : ∀ block ∈ blocks, block < 2 ^ 32) {idx : Nat} (bound : idx < blocks.length) :
    (putEntries entry blocks data).word (entry + 1 + idx) = blocks[idx] := by
  induction blocks generalizing entry data idx with
  | nil => cases bound
  | cons block blocks ih =>
    simp only [List.mem_cons, forall_eq_or_imp] at uint
    rw [putEntries]
    cases idx with
    | zero =>
      rw [putEntries_word_of_le _ _ _ (by omega)]
      exact Bytes.word_setWord_of_lt _ _ uint.1
    | succ idx =>
      rw [List.length_cons] at bound
      rw [show entry + 1 + (idx + 1) = entry + 1 + 1 + idx by omega,
        ih _ _ uint.2 (by omega)]
      rfl

theorem putHead_word_zero (blocks : List Nat) (data : Bytes) (short : blocks.length ≤ logSize) :
    (putHead blocks data).word 0 = blocks.length := by
  have entries : logSize = 30 := rfl
  rw [putHead, putEntries_word_of_le _ _ _ (Nat.le_refl 0), Bytes.word_setWord_of_lt]
  omega

/-- `read_head` gives back the entries `write_head` stored. -/
theorem readHead_putHead (geom : Geometry) {data : Bytes}
    (header : disk geom.start = putHead blocks data) (short : blocks.length ≤ logSize)
    (uint : ∀ block ∈ blocks, block < 2 ^ 32) : readHead geom disk = blocks := by
  have entries : logSize = 30 := rfl
  have count : (toInt ((disk geom.start).word 0)).toNat = blocks.length := by
    rw [header, putHead_word_zero _ _ short, toInt, if_pos (by omega)]
    rfl
  apply List.ext_getElem
  · rw [readHead, List.length_map, List.length_range, count]
  · intro idx _ bound
    simp only [readHead, List.getElem_map, List.getElem_range]
    rw [header, putHead, Nat.add_comm idx 1]
    have stored := putEntries_word blocks 0 (data.setWord 0 blocks.length) uint bound
    rwa [Nat.zero_add] at stored

theorem readHead_of_word_zero (geom : Geometry) (zero : (disk geom.start).word 0 = 0) : readHead geom disk = [] := by
  rw [readHead, zero]
  rfl

/-! ## What holds of the disk at every cut

Until the header write the disk is `Clean` over the old contents, after it the
transaction is `Committed`, and once the header is cleared the disk is `Clean`
over the updated contents.  A committed disk says nothing about the home blocks
of the transaction: installing them again repairs whatever a cut left there. -/

/-- The log is empty and every block outside it is as in `base`. -/
structure Clean (geom : Geometry) (base disk : Disk) : Prop where
  head : (disk geom.start).word 0 = 0
  same : ∀ block, ¬ geom.inLog block → disk block = base block

/-- The log holds the whole transaction and the blocks it does not touch are as in `base`. -/
structure Committed {geom : Geometry} (txn : Transaction geom) (base disk : Disk) : Prop where
  head : readHead geom disk = txn.blocks
  logged : ∀ entry (bound : entry < txn.blocks.length),
    disk (geom.start + 0 + 1 + entry) = txn.contents txn.blocks[entry]
  same : ∀ block, ¬ geom.inLog block → block ∉ txn.blocks → disk block = base block

section Cuts

variable {geom : Geometry} {txn : Transaction geom} {base disk : Disk}

theorem Geometry.start_inLog (geom : Geometry) : geom.inLog geom.start :=
  ⟨Nat.le_refl _, Nat.lt_add_of_pos_right geom.header⟩

theorem Transaction.room (txn : Transaction geom) : 0 + txn.blocks.length < geom.size := by
  have := txn.fits
  have := geom.header
  simp only [Geometry.dataBlocks] at *
  omega

theorem Transaction.short (txn : Transaction geom) : txn.blocks.length ≤ logSize := by
  have := txn.fits
  simp only [Geometry.dataBlocks] at *
  omega

/-- A write inside the log area, the header apart, keeps the log empty. -/
theorem Clean.write_inLog (clean : Clean geom base disk)
    (inside : ∀ write ∈ writes, geom.inLog write.1 ∧ write.1 ≠ geom.start) :
    Clean geom base (applyWrites writes disk) where
  head := by
    rw [applyWrites_of_notMem (fun write mem => (inside write mem).2)]
    exact clean.head
  same := by
    intro block outside
    rw [applyWrites_of_notMem]
    · exact clean.same block outside
    · rintro write mem rfl
      exact outside (inside write mem).1

/-- Clearing the header leaves a clean disk over whatever the home area holds. -/
theorem clean_of_clear (same : ∀ block, ¬ geom.inLog block → disk block = base block)
    (data : Bytes) : Clean geom base (applyWrites [(geom.start, putHead [] data)] disk) where
  head := by
    rw [applyWrites, applyWrites, update_self]
    exact putHead_word_zero [] data (Nat.zero_le _)
  same := by
    intro block outside
    rw [applyWrites_of_notMem]
    · exact same block outside
    · simp only [List.mem_singleton, forall_eq]
      rintro rfl
      exact outside geom.start_inLog

/-- The header write commits: the log blocks are all there. -/
theorem committed_of_header (txn : Transaction geom) (same : ∀ block, ¬ geom.inLog block → disk block = base block)
    (logged : ∀ entry (bound : entry < txn.blocks.length),
      disk (geom.start + 0 + 1 + entry) = txn.contents txn.blocks[entry]) (data : Bytes) :
    Committed txn base (applyWrites [(geom.start, putHead txn.blocks data)] disk) where
  head := by
    have header : applyWrites [(geom.start, putHead txn.blocks data)] disk geom.start =
        putHead txn.blocks data := by
      rw [applyWrites, applyWrites, update_self]
    exact readHead_putHead geom header txn.short txn.uint
  logged := by
    intro entry bound
    rw [applyWrites_of_notMem]
    · exact logged entry bound
    · simp only [List.mem_singleton, forall_eq]
      omega
  same := by
    intro block outside _
    rw [applyWrites_of_notMem]
    · exact same block outside
    · simp only [List.mem_singleton, forall_eq]
      rintro rfl
      exact outside geom.start_inLog

/-- Any writes to home blocks of the transaction keep it committed. -/
theorem Committed.install (committed : Committed txn base disk)
    (home : ∀ write ∈ writes, write.1 ∈ txn.blocks) : Committed txn base (applyWrites writes disk) := by
  have untouched : ∀ block, geom.inLog block → applyWrites writes disk block = disk block := by
    intro block inside
    apply applyWrites_of_notMem
    rintro write mem rfl
    exact txn.home _ (home write mem) inside
  refine ⟨?_, ?_, ?_⟩
  · rw [← committed.head, readHead, readHead, untouched _ geom.start_inLog]
  · intro entry bound
    rw [untouched, committed.logged entry bound]
    have := txn.room
    constructor <;> omega
  · intro block outside other
    rw [applyWrites_of_notMem, committed.same block outside other]
    rintro write mem rfl
    exact other (home write mem)

/-- Once every home block is installed the home area is the updated one. -/
theorem Committed.installed (committed : Committed txn base disk) :
    ∀ block, ¬ geom.inLog block →
      applyWrites (txn.blocks.map fun b => (b, txn.contents b)) disk block = txn.updated base block := by
  intro block outside
  rw [Transaction.updated]
  by_cases mem : block ∈ txn.blocks
  · rw [if_pos mem, applyWrites_map mem]
  · rw [if_neg mem, applyWrites_of_notMem, committed.same block outside mem]
    rintro write written rfl
    obtain ⟨b, inBlocks, rfl⟩ := List.mem_map.mp written
    exact mem inBlocks

/-- The writes of the install phase and the final header write. -/
def installWrites (txn : Transaction geom) (data : Bytes) : List (Nat × Bytes) :=
  (txn.blocks.map fun b => (b, txn.contents b)) ++ [(geom.start, putHead [] data)]

/-- However many of the install writes get through, the transaction is still in
the log or wholly installed. -/
theorem Committed.cut (committed : Committed txn base disk) (data : Bytes) (count : Nat) :
    Committed txn base (applyWrites ((installWrites txn data).take count) disk) ∨
      Clean geom (txn.updated base) (applyWrites ((installWrites txn data).take count) disk) := by
  rw [installWrites, List.take_append]
  by_cases partway : count ≤ txn.blocks.length
  · left
    rw [List.length_map, Nat.sub_eq_zero_of_le partway, List.take_zero, List.append_nil]
    apply committed.install
    intro write mem
    obtain ⟨b, inBlocks, rfl⟩ := List.mem_map.mp (List.mem_of_mem_take mem)
    exact inBlocks
  · right
    rw [List.take_of_length_le (by rw [List.length_map]; omega),
      List.take_of_length_le (by rw [List.length_map, List.length_singleton]; omega),
      applyWrites_append]
    exact clean_of_clear committed.installed data

theorem Committed.all (committed : Committed txn base disk) (data : Bytes) :
    Clean geom (txn.updated base) (applyWrites (installWrites txn data) disk) := by
  rw [installWrites, applyWrites_append]
  exact clean_of_clear committed.installed data

/-! ## Recovery -/

theorem recover_issued_of_clean (clean : Clean geom base disk) :
    (recoverFromLog geom (.boot disk)).issued = [(geom.start, putHead [] (disk geom.start))] := by
  rw [recoverFromLog, Machine.boot, readHead_of_word_zero geom clean.head, installTrans,
    writeHead_eq_emit]
  rfl

theorem recover_issued_of_committed (committed : Committed txn base disk) :
    ∃ data, (recoverFromLog geom (.boot disk)).issued = installWrites txn data := by
  rw [recoverFromLog, Machine.boot, committed.head,
    installTrans_eq_emit geom txn.contents 0 txn.blocks ⟨disk, []⟩ txn.room txn.home committed.logged,
    writeHead_eq_emit]
  exact ⟨_, rfl⟩

theorem Clean.cut (clean : Clean geom base disk) (data : Bytes) (count : Nat) :
    Clean geom base (applyWrites ([(geom.start, putHead [] data)].take count) disk) := by
  cases count with
  | zero => exact clean
  | succ count =>
    rw [List.take_of_length_le (by rw [List.length_singleton]; omega)]
    exact clean_of_clear clean.same data

/-- Recovering a disk with an empty log changes nothing outside it. -/
theorem Recovers.of_clean {final : Disk} (recovers : Recovers geom disk final)
    (clean : Clean geom base disk) : Clean geom base final := by
  induction recovers with
  | complete disk =>
    rw [recover_issued_of_clean clean]
    exact clean_of_clear clean.same _
  | cut disk count _ ih =>
    apply ih
    rw [Machine.crash, recover_issued_of_clean clean]
    exact clean.cut _ count

/-- Recovering a committed transaction installs all of it, however often recovery is cut. -/
theorem Recovers.of_committed {final : Disk} (recovers : Recovers geom disk final)
    (committed : Committed txn base disk) : Clean geom (txn.updated base) final := by
  induction recovers with
  | complete disk =>
    obtain ⟨data, issued⟩ := recover_issued_of_committed committed
    rw [issued]
    exact committed.all data
  | cut disk count rerun ih =>
    obtain ⟨data, issued⟩ := recover_issued_of_committed committed
    rw [Machine.crash, issued] at ih rerun
    rcases committed.cut data count with still | done
    · exact ih still
    · exact rerun.of_clean done

/-! ## Commit -/

/-- What `commit` issues: the log copies, the header, the install phase. -/
theorem Transaction.writes_eq (txn : Transaction geom) (disk : Disk) (nonempty : txn.blocks ≠ []) :
    ∃ old cleared, txn.writes disk = logCopies geom txn.contents 0 txn.blocks ++
      ((geom.start, putHead txn.blocks old) :: installWrites txn cleared) := by
  have pos : txn.blocks.length > 0 := List.length_pos_iff.mpr nonempty
  have cached : logCopies geom (txn.machine disk).cache 0 txn.blocks =
      logCopies geom txn.contents 0 txn.blocks := by
    apply logCopies_congr
    intro block mem
    exact if_pos mem
  rw [Transaction.writes, commit, if_pos pos, writeLog_eq_emit _ _ _ _ txn.room txn.home, cached]
  dsimp only
  rw [writeHead_eq_emit geom txn.blocks, Machine.emit_emit,
    installTrans_eq_emit geom txn.contents 0 txn.blocks _ txn.room txn.home, Machine.emit_emit,
    writeHead_eq_emit, Machine.emit_emit]
  · simp only [Machine.emit_issued, Transaction.machine, List.nil_append, List.append_assoc,
      installWrites, List.cons_append]
    exact ⟨_, _, rfl⟩
  · -- the header write does not touch the log data blocks
    intro entry bound
    rw [Machine.emit_cache, applyWrites_append, applyWrites_of_notMem,
      applyWrites_logCopies _ _ _ _ _ bound]
    simp only [List.mem_singleton, forall_eq]
    omega

end Cuts

/-- **Crash atomicity of the log.**  Cut `commit` after any number of its writes
and recover, cutting recovery itself as often as one likes: the home area ends
with every block of the transaction updated if the header write was among those
that reached the disk, and as it was before otherwise; the log ends empty. -/
theorem crash_atomic {geom : Geometry} (txn : Transaction geom) (disk : Disk)
    (empty : (disk geom.start).word 0 = 0) (count : Nat) {final : Disk}
    (recovers : Recovers geom
      ((commit geom txn.blocks (txn.machine disk)).crash disk count) final) :
    (if geom.start ∈ ((txn.writes disk).take count).map Prod.fst then
        ∀ block, ¬ geom.inLog block → final block = txn.updated disk block
      else ∀ block, ¬ geom.inLog block → final block = disk block) ∧
      (final geom.start).word 0 = 0 := by
  have before : Clean geom disk disk := ⟨empty, fun _ _ => rfl⟩
  change Recovers geom (applyWrites ((txn.writes disk).take count) disk) final at recovers
  by_cases nonempty : txn.blocks = []
  · -- nothing was logged: `commit` does not write at all
    have nothing : txn.writes disk = [] := by
      rw [Transaction.writes, commit, nonempty]
      rfl
    rw [nothing, List.take_nil] at recovers ⊢
    have after := recovers.of_clean before
    exact ⟨after.same, after.head⟩
  obtain ⟨old, cleared, issued⟩ := txn.writes_eq disk nonempty
  have copies : ∀ write ∈ logCopies geom txn.contents 0 txn.blocks,
      geom.inLog write.1 ∧ write.1 ≠ geom.start := by
    intro write mem
    have := mem_logCopies mem
    have := txn.room
    exact ⟨⟨by omega, by omega⟩, by omega⟩
  rw [issued, List.take_append, logCopies_length] at recovers ⊢
  by_cases reached : count ≤ txn.blocks.length
  · -- only log copies got through
    rw [Nat.sub_eq_zero_of_le reached, List.take_zero, List.append_nil] at recovers ⊢
    have after := recovers.of_clean (before.write_inLog
      (fun write mem => copies write (List.mem_of_mem_take mem)))
    rw [if_neg]
    · exact ⟨after.same, after.head⟩
    · intro mem
      obtain ⟨write, taken, isHeader⟩ := List.mem_map.mp mem
      exact (copies write (List.mem_of_mem_take taken)).2 isHeader
  · -- the header got through, with `rest` of the install writes
    obtain ⟨rest, amount⟩ : ∃ rest, count - txn.blocks.length = rest + 1 :=
      ⟨count - txn.blocks.length - 1, by omega⟩
    rw [amount, List.take_succ_cons, List.take_of_length_le (by rw [logCopies_length]; omega)] at recovers ⊢
    rw [applyWrites_append] at recovers
    have logged := before.write_inLog copies
    have committed := committed_of_header txn logged.same
      (fun entry bound => applyWrites_logCopies _ _ _ _ _ bound) old
    change Recovers geom (applyWrites ((installWrites txn cleared).take rest)
      (applyWrites [(geom.start, putHead txn.blocks old)]
        (applyWrites (logCopies geom txn.contents 0 txn.blocks) disk))) final at recovers
    have after : Clean geom (txn.updated disk) final := by
      rcases committed.cut cleared rest with still | done
      · exact recovers.of_committed still
      · exact recovers.of_clean done
    rw [if_pos (by simp)]
    exact ⟨after.same, after.head⟩

/-- The log of a disk made by `mkfs`: 30 blocks from block 2 on. -/
def mkfsLog : Geometry := ⟨2, 30, by decide⟩

/-- A transaction that fills blocks 100 and 70 with ones. -/
def twoBlocks : Transaction mkfsLog where
  blocks := [100, 70]
  contents := fun _ => .fill 1
  distinct := by decide
  home := by simp [Geometry.inLog, mkfsLog]
  uint := by decide
  fits := by decide

/-- Power lost after the header and one of the two home blocks were written, and
again after one write of the first recovery. -/
theorem crash_atomic_twoBlocks :
    ∃ final : Disk, (final 100 = .fill 1 ∧ final 70 = .fill 1 ∧ final 80 = .fill 0) ∧
      (final mkfsLog.start).word 0 = 0 := by
  let disk : Disk := fun _ => .fill 0
  let crashed := (commit mkfsLog twoBlocks.blocks (twoBlocks.machine disk)).crash disk 4
  have recovered : Recovers mkfsLog crashed _ := .cut crashed 1 (.complete _)
  have atomic := crash_atomic twoBlocks disk rfl 4 recovered
  rw [if_pos (List.mem_of_elem_eq_true rfl)] at atomic
  refine ⟨_, ⟨?_, ?_, ?_⟩, atomic.2⟩
  · exact atomic.1 100 (by simp [Geometry.inLog, mkfsLog])
  · exact atomic.1 70 (by simp [Geometry.inLog, mkfsLog])
  · exact atomic.1 80 (by simp [Geometry.inLog, mkfsLog])

end Xv6Simplesh.Log
