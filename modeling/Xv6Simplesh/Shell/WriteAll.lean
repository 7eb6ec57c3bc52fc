import Mathlib.Algebra.BigOperators.Group.Finset.Basic
import Xv6Simplesh.Shell.Hd

/-! # `write_all`

`write_all` calls `write` until `total` reaches `num`, and adds what `write` returns to `total`
whether it is a count or the -1 of a failure.  `total` is an `int` that is compared with a
`size_t` and moves the pointer into the buffer.

A -1 therefore takes the loop back by a byte: the byte is written a second time or, at the
start of the buffer, the range begins before it.  A buffer of `2 ^ 31` bytes or more cannot be
counted in `total` at all.  Otherwise short writes do no harm, in any order, and the loop ends
after at most `num` calls; this is the `writeAll` that `hd` relies on.
-/

namespace Xv6Simplesh.Shell

open Library

/-! ## The loop -/

/-- Conversion to `int`. -/
def toInt (x : Int) : Int := (x + 2 ^ 31) % 2 ^ 32 - 2 ^ 31

/-- Conversion to `size_t`. -/
def toSize (x : Int) : Int := x % 2 ^ 64

/-- A buffer of `num` bytes in the middle of the memory, which is addressed by the distance
from the buffer.  No object is larger than `PTRDIFF_MAX`. -/
structure Buffer where
  memory : Int → UInt8
  num : Nat
  num_lt : num < 2 ^ 63

/-- The `count` bytes at `buf + start`. -/
def Buffer.range (buf : Buffer) (start : Int) (count : Nat) : List UInt8 :=
  (List.range count).map fun i : Nat => buf.memory (start + i)

/-- `buf[0..num)`. -/
def Buffer.bytes (buf : Buffer) : List UInt8 := buf.range 0 buf.num

structure Progress where
  total : Int
  emitted : List UInt8

/-- `total != num`. -/
def Progress.More (buf : Buffer) (s : Progress) : Prop := toSize s.total ≠ buf.num

instance (buf : Buffer) (s : Progress) : Decidable (s.More buf) := inferInstanceAs (Decidable (_ ≠ _))

/-- `num - total`, the length that `write` is called with. -/
def Progress.request (buf : Buffer) (s : Progress) : Int := toSize (buf.num - s.total)

/-- `total += write(fd, buf + total, num - total)` with the result of `write`. -/
def Progress.write (buf : Buffer) (s : Progress) (res : Int) : Progress :=
  ⟨toInt (s.total + res), s.emitted ++ buf.range s.total res.toNat⟩

/-- The loop after `n` calls of `write`, or after its last one. -/
def writeAll (buf : Buffer) (results : Nat → Int) : Nat → Progress
  | 0 => ⟨0, []⟩
  | n + 1 =>
    let s := writeAll buf results n
    if s.More buf then s.write buf (results n) else s

/-- What `write` can return, as long as it is called: -1, or a count up to the length. -/
def Results (buf : Buffer) (results : Nat → Int) : Prop :=
  ∀ n, (writeAll buf results n).More buf →
    results n = -1 ∨ 1 ≤ results n ∧ results n ≤ (writeAll buf results n).request buf

/-- What the callers count on. -/
structure Progress.Exact (buf : Buffer) (s : Progress) : Prop where
  initial : s.emitted <+: buf.bytes
  inside : s.More buf → 0 ≤ s.total ∧ s.total + s.request buf ≤ buf.num
  whole : ¬ s.More buf → s.emitted = buf.bytes

/-! ## Conversions and ranges -/

theorem toInt_bounds (x : Int) : -2 ^ 31 ≤ toInt x ∧ toInt x < 2 ^ 31 := by
  dsimp only [toInt]
  omega

theorem toInt_of_bounds {x : Int} (low : -2 ^ 31 ≤ x) (high : x < 2 ^ 31) : toInt x = x := by
  dsimp only [toInt]
  omega

variable {buf : Buffer} {s : Progress}

theorem Progress.not_more (low : -2 ^ 31 ≤ s.total) (high : s.total < 2 ^ 31) : ¬ s.More buf ↔ s.total = buf.num := by
  have object := buf.num_lt
  simp only [Progress.More, ne_eq, not_not, toSize]
  omega

/-- The request is what is left, if `total` is inside the buffer. -/
theorem Progress.request_eq (low : 0 ≤ s.total) (high : s.total ≤ buf.num) : s.request buf = buf.num - s.total := by
  have object := buf.num_lt
  simp only [Progress.request, toSize]
  omega

namespace Buffer

variable (buf : Buffer)

@[simp] theorem length_range (start : Int) (count : Nat) : (buf.range start count).length = count := by
  simp [Buffer.range]

@[simp] theorem length_bytes : buf.bytes.length = buf.num := buf.length_range 0 buf.num

theorem range_add (n count : Nat) : buf.range 0 (n + count) = buf.range 0 n ++ buf.range n count := by
  simp [Buffer.range, List.range_add, List.map_map, Function.comp_def]

theorem range_initial {n : Nat} (inside : n ≤ buf.num) : buf.range 0 n <+: buf.bytes := by
  obtain ⟨rest, whole⟩ := Nat.exists_eq_add_of_le inside
  rw [Buffer.bytes, whole, buf.range_add]
  exact List.prefix_append ..

end Buffer

section Loop

variable {buf : Buffer} {results : Nat → Int} {n : Nat}

theorem writeAll_succ (more : (writeAll buf results n).More buf) :
    writeAll buf results (n + 1) = (writeAll buf results n).write buf (results n) := if_pos more

theorem writeAll_stop (stop : ¬ (writeAll buf results n).More buf) :
    writeAll buf results (n + 1) = writeAll buf results n := if_neg stop

/-- A loop that has ended makes no more calls. -/
theorem writeAll_ended {m : Nat} (stop : ¬ (writeAll buf results m).More buf) (later : m ≤ n) :
    ¬ (writeAll buf results n).More buf := by
  induction later with
  | refl => exact stop
  | step _ ih => rwa [writeAll_stop ih]

theorem writeAll_total_bounds (buf : Buffer) (results : Nat → Int) (n : Nat) :
    -2 ^ 31 ≤ (writeAll buf results n).total ∧ (writeAll buf results n).total < 2 ^ 31 := by
  induction n with
  | zero => exact ⟨by simp [writeAll], by simp [writeAll]⟩
  | succ n ih =>
    by_cases more : (writeAll buf results n).More buf
    · rw [writeAll_succ more]
      exact toInt_bounds _
    · rw [writeAll_stop more]
      exact ih

theorem writeAll_stop_iff : ¬ (writeAll buf results n).More buf ↔ (writeAll buf results n).total = buf.num :=
  Progress.not_more (writeAll_total_bounds buf results n).1 (writeAll_total_bounds buf results n).2

theorem emitted_length_le (buf : Buffer) (results : Nat → Int) (n : Nat) :
    (writeAll buf results n).emitted.length ≤ ∑ i ∈ Finset.range n, (results i).toNat := by
  induction n with
  | zero => simp [writeAll]
  | succ n ih =>
    rw [Finset.sum_range_succ]
    by_cases more : (writeAll buf results n).More buf
    · simp only [writeAll_succ more, Progress.write, List.length_append, Buffer.length_range]
      omega
    · rw [writeAll_stop more]
      omega

/-! ## Without failures -/

/-- The counts are what `total` says, and `total` is where the loop is in the buffer. -/
structure Steady (buf : Buffer) (results : Nat → Int) (n : Nat) (s : Progress) : Prop where
  emitted : s.emitted = buf.range 0 s.total.toNat
  nonneg : 0 ≤ s.total
  le : s.total ≤ buf.num
  counted : s.More buf → s.total = ∑ i ∈ Finset.range n, (results i).toNat
  advanced : s.More buf → n ≤ s.total

section

variable (small : buf.num < 2 ^ 31) (valid : Results buf results)
  (sound : ∀ n, results n = -1 → buf.num ≤ ∑ i ∈ Finset.range n, (results i).toNat)

include small valid sound

theorem Steady.succ (steady : Steady buf results n (writeAll buf results n)) :
    Steady buf results (n + 1) (writeAll buf results (n + 1)) := by
  by_cases more : (writeAll buf results n).More buf
  · have counted := steady.counted more
    have advanced := steady.advanced more
    have short : (writeAll buf results n).total ≠ buf.num := fun all => writeAll_stop_iff.mpr all more
    have nonneg := steady.nonneg
    have le := steady.le
    -- a failure would come before `num` bytes are out
    have count : 1 ≤ results n ∧ results n ≤ (writeAll buf results n).request buf := by
      cases valid n more with
      | inl failed =>
        have done := sound n failed
        omega
      | inr count => exact count
    rw [Progress.request_eq nonneg le] at count
    have exact' : toInt ((writeAll buf results n).total + results n) = (writeAll buf results n).total + results n :=
      toInt_of_bounds (by omega) (by omega)
    have split : ((writeAll buf results n).total + results n).toNat =
        (writeAll buf results n).total.toNat + (results n).toNat := by omega
    have place : (((writeAll buf results n).total.toNat : Nat) : Int) = (writeAll buf results n).total := by omega
    rw [writeAll_succ more]
    exact {
      emitted := by
        simp only [Progress.write, exact', split, buf.range_add, place, steady.emitted]
      nonneg := by
        simp only [Progress.write, exact']
        omega
      le := by
        simp only [Progress.write, exact']
        omega
      counted := fun _ => by
        simp only [Progress.write, exact', Finset.sum_range_succ]
        omega
      advanced := fun _ => by
        simp only [Progress.write, exact']
        omega }
  · rw [writeAll_stop more]
    exact ⟨steady.emitted, steady.nonneg, steady.le, fun more' => absurd more' more, fun more' => absurd more' more⟩

theorem writeAll_steady (n : Nat) : Steady buf results n (writeAll buf results n) := by
  induction n with
  | zero => exact ⟨by simp [writeAll, Buffer.range], by simp [writeAll], by simp [writeAll], by simp [writeAll],
      by simp [writeAll]⟩
  | succ n ih => exact ih.succ small valid sound

end

theorem Steady.exact (steady : Steady buf results n s) (stop : ¬ s.More buf ↔ s.total = buf.num) : s.Exact buf where
  initial := by
    rw [steady.emitted]
    exact buf.range_initial (by have := steady.le; omega)
  inside _ := by
    rw [Progress.request_eq steady.nonneg steady.le]
    exact ⟨steady.nonneg, by omega⟩
  whole done := by
    rw [steady.emitted, stop.mp done, Int.toNat_natCast]
    rfl

/-- Short writes alone: `write_all` returns after at most `num` calls, with everything emitted. -/
theorem writeAll_returns (small : buf.num < 2 ^ 31) (valid : Results buf results)
    (sound : ∀ n, results n = -1 → buf.num ≤ ∑ i ∈ Finset.range n, (results i).toNat) :
    (writeAll buf results buf.num).total = buf.num ∧ (writeAll buf results buf.num).emitted = buf.bytes := by
  have steady := writeAll_steady small valid sound buf.num
  have stop : ¬ (writeAll buf results buf.num).More buf := by
    intro more
    have advanced := steady.advanced more
    have le := steady.le
    exact writeAll_stop_iff.mpr (by omega) more
  exact ⟨writeAll_stop_iff.mp stop, (steady.exact writeAll_stop_iff).whole stop⟩

/-! ## With failures -/

/-- Every call takes the loop forward in the buffer or back by a byte, so that it cannot go on
for ever. -/
theorem exists_stop (valid : Results buf results) (exact : ∀ n, (writeAll buf results n).Exact buf) :
    ∃ n, ¬ (writeAll buf results n).More buf := by
  by_contra never
  have more : ∀ n, (writeAll buf results n).More buf := fun n => by
    by_contra stop
    exact never ⟨n, stop⟩
  have bounds := writeAll_total_bounds buf results
  have short : ∀ n, (writeAll buf results n).emitted.length ≤ buf.num := fun n => by
    simpa using (exact n).initial.length_le
  -- the bytes that may still be emitted, and within them the place in the buffer
  have down : ∀ n, (buf.num - (writeAll buf results n).emitted.length : Int) * 2 ^ 32 +
      (writeAll buf results n).total + n ≤ buf.num * 2 ^ 32 := by
    intro n
    induction n with
    | zero => simp [writeAll]
    | succ n ih =>
      have here := bounds n
      have there := bounds (n + 1)
      have inside := ((exact n).inside (more n)).1
      rw [writeAll_succ (more n)] at there ⊢
      simp only [Progress.write, List.length_append, Buffer.length_range] at there ⊢
      cases valid n (more n) with
      | inl failed =>
        rw [failed, toInt_of_bounds (by omega) (by omega)]
        simp only [Int.reduceNeg, Int.reduceToNat]
        omega
      | inr count => omega
  have last := down (buf.num * 2 ^ 32 + 1)
  have inside := ((exact (buf.num * 2 ^ 32 + 1)).inside (more _)).1
  have length := short (buf.num * 2 ^ 32 + 1)
  omega

theorem behind (small : buf.num < 2 ^ 31) (valid : Results buf results)
    (exact : ∀ n, (writeAll buf results n).Exact buf) (n : Nat) :
    (writeAll buf results n).total ≤ (writeAll buf results n).emitted.length ∧
      ((writeAll buf results n).total = (writeAll buf results n).emitted.length →
        ∀ i < n, (writeAll buf results i).More buf → results i ≠ -1) := by
  induction n with
  | zero => exact ⟨by simp [writeAll], fun _ i below => absurd below (Nat.not_lt_zero i)⟩
  | succ n ih =>
    obtain ⟨le, clean⟩ := ih
    by_cases more : (writeAll buf results n).More buf
    · have inside := (exact n).inside more
      have requested : (writeAll buf results n).request buf ≥ 0 := by
        dsimp only [Progress.request, toSize]
        omega
      simp only [writeAll_succ more, Progress.write, List.length_append, Buffer.length_range]
      cases valid n more with
      | inl failed =>
        rw [failed, toInt_of_bounds (by omega) (by omega)]
        simp only [Int.reduceNeg, Int.reduceToNat]
        exact ⟨by omega, fun same => by omega⟩
      | inr count =>
        rw [toInt_of_bounds (by omega) (by omega)]
        refine ⟨by omega, fun same i below more' => ?_⟩
        by_cases last : i = n
        · rw [last]
          omega
        · exact clean (by omega) i (by omega) more'
    · rw [writeAll_stop more]
      refine ⟨le, fun same i below more' => ?_⟩
      by_cases last : i = n
      · exact absurd (last ▸ more') more
      · exact clean same i (by omega) more'

/-- `write_all` emits exactly its buffer, at every point of its run, if and only if `num` fits an
`int` and no call of `write` fails before `num` bytes are out. -/
theorem writeAll_exact_iff (buf : Buffer) (results : Nat → Int) (valid : Results buf results) :
    (∀ n, (writeAll buf results n).Exact buf) ↔
      buf.num < 2 ^ 31 ∧ ∀ n, results n = -1 → buf.num ≤ ∑ i ∈ Finset.range n, (results i).toNat := by
  constructor
  · intro exact
    obtain ⟨last, stop⟩ := exists_stop valid exact
    have total := writeAll_stop_iff.mp stop
    have small : buf.num < 2 ^ 31 := by
      have bound := (writeAll_total_bounds buf results last).2
      omega
    have length : (writeAll buf results last).emitted.length = buf.num := by
      rw [(exact last).whole stop, buf.length_bytes]
    have clean := (behind small valid exact last).2 (by rw [total, length])
    refine ⟨small, fun n failed => ?_⟩
    have stop' : ¬ (writeAll buf results n).More buf := by
      intro more
      by_cases before : n < last
      · exact clean n before more failed
      · exact writeAll_ended stop (Nat.le_of_not_lt before) more
    calc buf.num = (writeAll buf results n).emitted.length := by rw [(exact n).whole stop', buf.length_bytes]
      _ ≤ ∑ i ∈ Finset.range n, (results i).toNat := emitted_length_le buf results n
  · intro ⟨small, sound⟩ n
    exact (writeAll_steady small valid sound n).exact writeAll_stop_iff

end Loop

/-- Two bytes, between others. -/
def twoBytes : Buffer := ⟨fun i => if i = 0 then 97 else if i = 1 then 98 else 0, 2, by decide⟩

/-- Up to its last call, the loop may be checked call by call. -/
theorem results_of_stop {results : Nat → Int} {m : Nat} (stop : ¬ (writeAll buf results m).More buf)
    (valid : ∀ n < m, results n = -1 ∨ 1 ≤ results n ∧ results n ≤ (writeAll buf results n).request buf) :
    Results buf results := by
  intro n more
  by_contra invalid
  exact writeAll_ended stop (Nat.le_of_not_lt fun early => invalid (valid n early)) more

/-- The two bytes go out one by one. -/
theorem writeAll_twoBytes : Results twoBytes (fun _ => 1) ∧ ∀ n, (writeAll twoBytes (fun _ => 1) n).Exact twoBytes := by
  have valid : Results twoBytes (fun _ => 1) := results_of_stop (m := 2) (by decide) (by decide)
  exact ⟨valid, (writeAll_exact_iff twoBytes (fun _ => 1) valid).mpr ⟨by decide, fun n failed => by simp at failed⟩⟩

/-- If the first call fails, the next range begins before the buffer.  If the second one fails
after a byte, the byte is emitted again and `write_all` returns with three bytes out. -/
theorem writeAll_failure : Results twoBytes (fun n => [-1].getD n 1) ∧
    (writeAll twoBytes (fun n => [-1].getD n 1) 1).total = -1 ∧
    (writeAll twoBytes (fun n => [-1].getD n 1) 1).request twoBytes = 3 ∧
    ¬ (writeAll twoBytes (fun n => [-1].getD n 1) 1).Exact twoBytes ∧
    Results twoBytes (fun n => [1, -1, 2].getD n 1) ∧ (writeAll twoBytes (fun n => [1, -1, 2].getD n 1) 3).total = 2 ∧
    (writeAll twoBytes (fun n => [1, -1, 2].getD n 1) 3).emitted = [97, 97, 98] ∧
    ¬ (writeAll twoBytes (fun n => [1, -1, 2].getD n 1) 3).Exact twoBytes := by
  have valid : Results twoBytes (fun n => [-1].getD n 1) := results_of_stop (m := 4) (by decide) (by decide)
  have valid' : Results twoBytes (fun n => [1, -1, 2].getD n 1) := results_of_stop (m := 3) (by decide) (by decide)
  refine ⟨valid, by decide, by decide, fun exact => ?_, valid', by decide, by decide, fun exact => ?_⟩
  · have inside := (exact.inside (by decide)).1
    exact absurd inside (by decide)
  · have whole := exact.whole (by decide)
    exact absurd whole (by decide)

/-! ## `hd` -/

/-- Where `write` does not fail, the loop does for a block of `hd` what its model says. -/
theorem Hd.writeAll_eq {bloque num : Int} (data : Bytes) (next : Hd.Result) (buf : Buffer) (results : Nat → Int)
    (limit : bloque ≤ Hd.maxT) (low : 0 ≤ num) (high : num ≤ bloque) (length : buf.num = num.toNat)
    (bytes : ∀ i : Nat, buf.memory i = data i) (valid : Results buf results) (sound : ∀ n, results n ≠ -1) :
    Hd.writeAll bloque data num next = next.after (Shell.writeAll buf results buf.num).emitted := by
  have small : buf.num < 2 ^ 31 := by
    dsimp only [Hd.maxT] at limit
    omega
  rw [Hd.writeAll, if_pos ⟨low, high⟩, (writeAll_returns small valid fun n failed => absurd failed (sound n)).2]
  simp [Buffer.bytes, Buffer.range, Bytes.slice, length, bytes]

end Xv6Simplesh.Shell
