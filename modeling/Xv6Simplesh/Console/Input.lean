import Xv6Simplesh.Library.Ring
import Xv6Simplesh.Param

/-! # Console input

`consoleintr` puts the keys into a ring with three 32-bit counters: up to `w` the input is ready for
`consoleread`, from there to `e` it can still be edited.  The lock of the console makes the work on
one key a step, and what `consoleread` does from its start or from where it slept to its end or to
where it sleeps next.

What the ring stands for is a list of bytes that are ready and a line that is being edited.  The
keys and the readers do to the ring what `Line.key` and `Line.read` say, and the keys are echoed
accordingly, however often the counters wrap.
-/

namespace Xv6Simplesh.Console

open Library Function

abbrev inputBuf : Nat := 128

/-- `C('D')`, the end of the file. -/
abbrev eof : UInt8 := 4

structure Input where
  buf : Nat → UInt8
  /-- Read index. -/
  r : UInt32
  /-- Write index. -/
  w : UInt32
  /-- Edit index. -/
  e : UInt32

/-- What `consputc` is called with. -/
inductive Echo where
  | char (c : UInt8)
  | backspace

/-- The loop for `C('U')`. -/
def killLine : Nat → Input → Input × List Echo
  | 0, input => (input, [])
  | fuel + 1, input =>
    if input.e ≠ input.w ∧ input.buf ((input.e - 1).toNat % inputBuf) ≠ newline then
      let (input, echo) := killLine fuel { input with e := input.e - 1 }
      (input, .backspace :: echo)
    else (input, [])

/-- A key that is not a control key. -/
def store (c : UInt8) (input : Input) : Input × List Echo :=
  if c ≠ 0 ∧ (input.e - input.r).toNat < inputBuf then
    let c := if c = 13 then newline else c
    let input := { input with
      buf := update input.buf (input.e.toNat % inputBuf) c
      e := input.e + 1 }
    (if c = newline ∨ c = eof ∨ input.e = input.r + 128 then { input with w := input.e } else input, [.char c])
  else (input, [])

/-- The loop body of `consoleintr`. -/
def consoleintr (c : UInt8) (input : Input) : Input × List Echo :=
  if c = 16 then (input, [])  -- `C('P')`: `procdump` is called at the end
  else if c = 21 then killLine inputBuf input
  else if c = 8 ∨ c = 127 then
    if input.e ≠ input.w then ({ input with e := input.e - 1 }, [.backspace]) else (input, [])
  else store c input

/-- How a section of `consoleread` ends. -/
inductive Outcome where
  | returns
  /-- The process has been killed. -/
  | fails
  | sleeps (n : Nat)

/-- The loop of `consoleread` with `n` of `target` bytes to go: the bytes that are copied, and how it
ends. -/
def consoleread (killed : Bool) (target : Nat) : Nat → Input → Input × List UInt8 × Outcome
  | 0, input => (input, [], .returns)
  | n + 1, input =>
    if input.r = input.w then (input, [], if killed then .fails else .sleeps (n + 1))
    else
      let c := input.buf (input.r.toNat % inputBuf)
      let next := { input with r := input.r + 1 }
      if c = eof then
        -- kept for the next call, unless nothing has been copied
        (if n + 1 < target then { next with r := next.r - 1 } else next, [], .returns)
      else if c = newline then (next, [c], .returns)
      else
        let (input, bytes, outcome) := consoleread killed target n next
        (input, c :: bytes, outcome)

/-! ## The line discipline -/

structure Line where
  ready : List UInt8
  edit : List UInt8

namespace Line

def store (c : UInt8) (line : Line) : Line × List Echo :=
  if c = 0 ∨ inputBuf ≤ line.ready.length + line.edit.length then (line, [])
  else
    let c := if c = 13 then newline else c
    let edit := line.edit ++ [c]
    (if c = newline ∨ c = eof ∨ line.ready.length + edit.length = inputBuf then ⟨line.ready ++ edit, []⟩
      else ⟨line.ready, edit⟩, [.char c])

def key (c : UInt8) (line : Line) : Line × List Echo :=
  if c = 16 then (line, [])
  else if c = 21 then ({ line with edit := [] }, List.replicate line.edit.length .backspace)
  else if c = 8 ∨ c = 127 then ({ line with edit := line.edit.dropLast }, if line.edit = [] then [] else [.backspace])
  else line.store c

/-- What a reader gets: it stops after a line or before an end of file, which it takes away only if
it has got nothing. -/
def read (killed : Bool) (target : Nat) : Nat → List UInt8 → List UInt8 × List UInt8 × Outcome
  | 0, ready => (ready, [], .returns)
  | n + 1, [] => ([], [], if killed then .fails else .sleeps (n + 1))
  | n + 1, c :: ready =>
    if c = eof then (if n + 1 < target then c :: ready else ready, [], .returns)
    else if c = newline then (ready, [c], .returns)
    else
      let (ready, bytes, outcome) := read killed target n ready
      (ready, c :: bytes, outcome)

end Line

/-! ## The ring holds the line -/

/-- The counters stand for the numbers `R`, `W` and `E`. -/
structure Holds (input : Input) (R W E : Nat) (line : Line) : Prop where
  r : input.r.toNat = R % 2 ^ 32
  w : input.w.toNat = W % 2 ^ 32
  e : input.e.toNat = E % 2 ^ 32
  ordered : R ≤ W ∧ W ≤ E ∧ E ≤ R + inputBuf
  ready : window inputBuf input.buf R W = line.ready
  edit : window inputBuf input.buf W E = line.edit
  /-- A line that can be edited has not ended. -/
  open' : newline ∉ line.edit

namespace Holds

variable {input : Input} {R W E : Nat} {line : Line}

theorem length_ready (holds : Holds input R W E line) : line.ready.length = W - R := by
  simp [← holds.ready, window]

theorem length_edit (holds : Holds input R W E line) : line.edit.length = E - W := by
  simp [← holds.edit, window]

theorem cell {counter : UInt32} {count : Nat} (same : counter.toNat = count % 2 ^ 32) :
    counter.toNat % inputBuf = count % inputBuf := by
  rw [same]
  exact Nat.mod_mod_of_dvd count (by decide)

theorem editing (holds : Holds input R W E line) : input.e = input.w ↔ E = W := by
  obtain ⟨first, snd, room⟩ := holds.ordered
  dsimp only [inputBuf] at room
  rw [← UInt32.toNat_inj, holds.e, holds.w, eq_comm, counter_eq_iff snd (by omega), eq_comm]

theorem reading (holds : Holds input R W E line) : input.r = input.w ↔ R = W := by
  obtain ⟨first, snd, room⟩ := holds.ordered
  dsimp only [inputBuf] at room
  rw [← UInt32.toNat_inj, holds.r, holds.w, counter_eq_iff first (by omega)]

theorem erase (holds : Holds input R W E line) (some' : W < E) :
    Holds { input with e := input.e - 1 } R W (E - 1) ⟨line.ready, line.edit.dropLast⟩ ∧
      line.edit = line.edit.dropLast ++ [input.buf ((input.e - 1).toNat % inputBuf)] := by
  have before : (input.e - 1).toNat = (E - 1) % 2 ^ 32 := by
    rw [UInt32.toNat_sub, holds.e]
    simp only [UInt32.reduceToNat]
    omega
  have last : window inputBuf input.buf W (E - 1 + 1) = _ := window_snoc (Nat.le_sub_one_of_lt some')
  rw [Nat.sub_add_cancel (by omega), holds.edit, ← cell before] at last
  have shorter : line.edit.dropLast = window inputBuf input.buf W (E - 1) := by rw [last, List.dropLast_concat]
  obtain ⟨first, -, room⟩ := holds.ordered
  refine ⟨⟨holds.r, holds.w, before, ⟨first, by omega, by omega⟩, holds.ready, shorter.symm, fun mem => ?_⟩,
    by rw [shorter, ← last]⟩
  exact holds.open' (List.dropLast_subset _ mem)

/-- The loop for `C('U')` stops at the start of the line. -/
theorem killLine (fuel : Nat) (holds : Holds input R W E line) (enough : E - W ≤ fuel) :
    ∃ input', Console.killLine fuel input = (input', List.replicate line.edit.length .backspace) ∧
      Holds input' R W W ⟨line.ready, []⟩ := by
  have nothing : ∀ {input : Input} {line : Line}, Holds input R W W line → line.edit = [] :=
    fun holds => List.length_eq_zero_iff.mp (by rw [holds.length_edit, Nat.sub_self])
  induction fuel generalizing input E line with
  | zero =>
    obtain rfl : E = W := Nat.le_antisymm (by omega) holds.ordered.2.1
    exact ⟨input, by simp [Console.killLine, nothing holds], by rw [← nothing holds]; exact holds⟩
  | succ fuel ih =>
    by_cases same : E = W
    · subst same
      exact ⟨input, by simp [Console.killLine, holds.editing, nothing holds], by rw [← nothing holds]; exact holds⟩
    · obtain ⟨erased, edit⟩ := holds.erase (Nat.lt_of_le_of_ne holds.ordered.2.1 (Ne.symm same))
      -- the test for a newline never stops the loop
      have here : input.buf ((input.e - 1).toNat % inputBuf) ≠ newline := by
        intro ends
        apply holds.open'
        rw [edit, ends]
        simp
      obtain ⟨input', killed, after⟩ := ih erased (by omega)
      refine ⟨input', ?_, after⟩
      rw [edit, List.length_append, List.length_singleton, List.replicate_succ]
      simp [Console.killLine, holds.editing, same, here, killed]

theorem store (c : UInt8) (holds : Holds input R W E line) :
    ∃ W' E', Holds (Console.store c input).1 R W' E' (line.store c).1 ∧ (Console.store c input).2 = (line.store c).2 := by
  obtain ⟨first, snd, room⟩ := holds.ordered
  have used : (input.e - input.r).toNat = E - R := by
    rw [UInt32.toNat_sub, holds.e, holds.r]
    dsimp only [inputBuf] at room
    omega
  have count : line.ready.length + line.edit.length = E - R := by
    rw [holds.length_ready, holds.length_edit]
    omega
  simp only [Console.store, Line.store, used, count]
  by_cases refuse : c = 0 ∨ inputBuf ≤ E - R
  · have refuse' : ¬ (c ≠ 0 ∧ E - R < inputBuf) := by
      rintro ⟨some', space⟩
      exact refuse.elim some' (Nat.not_le.mpr space)
    simp only [if_neg refuse', if_pos refuse]
    exact ⟨W, E, holds, trivial⟩
  · have space : c ≠ 0 ∧ E - R < inputBuf := by simpa [not_or] using refuse
    simp only [if_pos space, if_neg refuse]
    generalize (if c = 13 then newline else c) = c
    have next : (input.e + 1).toNat = (E + 1) % 2 ^ 32 := by
      rw [UInt32.toNat_add, holds.e]
      exact Nat.mod_add_mod ..
    have full : input.e + 1 = input.r + 128 ↔ line.ready.length + (line.edit ++ [c]).length = inputBuf := by
      have limit : (input.r + 128).toNat = (R + 128) % 2 ^ 32 := by
        rw [UInt32.toNat_add, holds.r]
        exact Nat.mod_add_mod ..
      dsimp only [inputBuf] at space ⊢
      rw [← UInt32.toNat_inj, next, limit, counter_eq_iff (by omega) (by omega), List.length_append,
        List.length_singleton]
      omega
    have ready : window inputBuf (update input.buf (E % inputBuf) c) R W = _ := window_update snd (by omega) c
    have edit : window inputBuf (update input.buf (E % inputBuf) c) W (E + 1) = _ :=
      window_store snd (by omega) c
    rw [holds.ready, ← cell holds.e] at ready
    rw [holds.edit, ← cell holds.e] at edit
    simp only [full]
    split
    · refine ⟨E + 1, E + 1, ⟨holds.r, next, next, ⟨by omega, le_rfl, by omega⟩, ?_, window_self, by simp⟩, trivial⟩
      rw [← ready, ← edit]
      exact (window_append first (by omega)).symm
    · next goesOn =>
      refine ⟨W, E + 1, ⟨holds.r, holds.w, next, ⟨first, by omega, by omega⟩, ready, edit, ?_⟩, trivial⟩
      simp only [List.mem_append, List.mem_singleton, not_or]
      exact ⟨holds.open', fun same => goesOn (.inl same.symm)⟩

theorem read (killed : Bool) (target n : Nat) (holds : Holds input R W E line) :
    ∃ R', Holds (consoleread killed target n input).1 R' W E ⟨(Line.read killed target n line.ready).1, line.edit⟩ ∧
      (consoleread killed target n input).2 = (Line.read killed target n line.ready).2 := by
  induction n generalizing input R line with
  | zero => exact ⟨R, holds, rfl⟩
  | succ n ih =>
    obtain ⟨first, snd, room⟩ := holds.ordered
    by_cases same : R = W
    · have none' : line.ready = [] := List.length_eq_zero_iff.mp (by rw [holds.length_ready]; omega)
      simp only [consoleread, holds.reading.mpr same, none', Line.read, if_true]
      exact ⟨R, none' ▸ holds, trivial⟩
    · have front : line.ready = input.buf (input.r.toNat % inputBuf) :: window inputBuf input.buf (R + 1) W := by
        rw [← holds.ready, window_take (Nat.lt_of_le_of_ne first same), cell holds.r]
      have taken : Holds { input with r := input.r + 1 } (R + 1) W E
          ⟨window inputBuf input.buf (R + 1) W, line.edit⟩ := by
        refine ⟨?_, holds.w, holds.e, ⟨by omega, snd, by omega⟩, rfl, holds.edit, holds.open'⟩
        rw [UInt32.toNat_add, holds.r]
        exact Nat.mod_add_mod ..
      rw [front]
      simp only [consoleread, Line.read, holds.reading, same, if_false]
      generalize input.buf (input.r.toNat % inputBuf) = c at front ⊢
      by_cases ends : c = eof
      · simp only [if_pos ends]
        split
        · refine ⟨R, ?_, trivial⟩
          simp only [UInt32.add_sub_cancel, ← front]
          exact holds
        · exact ⟨R + 1, taken, trivial⟩
      · simp only [if_neg ends]
        split
        · exact ⟨R + 1, taken, rfl⟩
        · obtain ⟨R', after, res⟩ := ih taken
          exact ⟨R', after, by simp [res]⟩

theorem consoleintr (c : UInt8) (holds : Holds input R W E line) :
    ∃ W' E', Holds (Console.consoleintr c input).1 R W' E' (line.key c).1 ∧
      (Console.consoleintr c input).2 = (line.key c).2 := by
  simp only [Console.consoleintr, Line.key]
  split
  · exact ⟨W, E, holds, rfl⟩
  · split
    · obtain ⟨first, snd, room⟩ := holds.ordered
      obtain ⟨input', killed, after⟩ := holds.killLine inputBuf (by omega)
      rw [killed]
      exact ⟨W, W, after, rfl⟩
    · split
      · by_cases same : E = W
        · subst same
          have none' : line.edit = [] := List.length_eq_zero_iff.mp (by rw [holds.length_edit, Nat.sub_self])
          simp only [holds.editing.mpr rfl, ne_eq, not_true_eq_false, if_false, none', List.dropLast_nil, if_true]
          exact ⟨E, E, none' ▸ holds, trivial⟩
        · obtain ⟨erased, edit⟩ := holds.erase (Nat.lt_of_le_of_ne holds.ordered.2.1 (Ne.symm same))
          have some' : line.edit ≠ [] := by
            rw [edit]
            simp
          simp only [ne_eq, holds.editing, same, not_false_eq_true, if_true, some', if_false]
          exact ⟨W, E - 1, erased, trivial⟩
      · exact holds.store c

end Holds

/-! ## Runs -/

inductive Event where
  | key (c : UInt8)
  /-- A section of `consoleread`, by a process that has `n` of `target` bytes to go. -/
  | read (killed : Bool) (target n : Nat)

/-- What is seen of the console: what is echoed, and what the readers get. -/
inductive Seen where
  | echo (echo : List Echo)
  | got (bytes : List UInt8) (outcome : Outcome)

def Input.step (input : Input) : Event → Input × Seen
  | .key c => ((consoleintr c input).1, .echo (consoleintr c input).2)
  | .read killed target n =>
    let res := consoleread killed target n input
    (res.1, .got res.2.1 res.2.2)

def Line.step (line : Line) : Event → Line × Seen
  | .key c => ((line.key c).1, .echo (line.key c).2)
  | .read killed target n =>
    let res := Line.read killed target n line.ready
    (⟨res.1, line.edit⟩, .got res.2.1 res.2.2)

/-- What is seen in a run. -/
def seen {State : Type} (step : State → Event → State × Seen) : State → List Event → List Seen
  | _, [] => []
  | state, event :: events => (step state event).2 :: seen step (step state event).1 events

/-- **The console is a line discipline.**  From an empty ring with any contents and any value of the
counters, whatever keys are pressed and whenever and however much is read, all that is seen of the
console is what the line discipline says. -/
theorem console_refines_line (buf : Nat → UInt8) (start : UInt32) (events : List Event) :
    seen Input.step ⟨buf, start, start, start⟩ events = seen Line.step ⟨[], []⟩ events := by
  have run : ∀ (events : List Event) (input : Input) (R W E : Nat) (line : Line), Holds input R W E line →
      seen Input.step input events = seen Line.step line events := by
    intro events
    induction events with
    | nil => exact fun _ _ _ _ _ _ => rfl
    | cons event events ih =>
      intro input R W E line holds
      cases event with
      | key c =>
        obtain ⟨W', E', after, echo⟩ := holds.consoleintr c
        simp only [seen, Input.step, Line.step, echo, ih _ _ _ _ _ after]
      | read killed target n =>
        obtain ⟨R', after, res⟩ := holds.read killed target n
        simp only [seen, Input.step, Line.step, res, ih _ _ _ _ _ after]
  have same : start.toNat = start.toNat % 2 ^ 32 := (Nat.mod_eq_of_lt start.toNat_lt).symm
  exact run events _ start.toNat start.toNat start.toNat _
    ⟨same, same, same, ⟨le_rfl, le_rfl, by omega⟩, window_self, window_self, by simp⟩

end Xv6Simplesh.Console
