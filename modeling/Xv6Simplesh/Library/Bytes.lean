import Mathlib.Data.Nat.Bitwise

/-! # Raw blocks of bytes

A block of raw storage is the function from offsets to the bytes stored there.
Programs written in C lay 32-bit words over such blocks; `word` and `setWord`
are those accesses in little-endian order, and `copy` is `memmove` into the
block.  Bit maps are laid over blocks too, eight bits a byte.  The lemmas say
which part of a block each access can see or change, so that no proof has to go
back to the bytes.
-/

namespace Xv6Simplesh.Library

open Function

/-- The bytes of a block, by offset. -/
abbrev Bytes := Nat → UInt8

namespace Bytes

/-- A block filled with one byte, as `memset` leaves it. -/
def fill (byte : UInt8) : Bytes := fun _ => byte

/-- The little-endian 32-bit word number `index` of the block. -/
def word (data : Bytes) (index : Nat) : Nat :=
  (data (4 * index)).toNat + 256 * (data (4 * index + 1)).toNat +
    65536 * (data (4 * index + 2)).toNat + 16777216 * (data (4 * index + 3)).toNat

/-- Store `val` in word number `index`. -/
def setWord (data : Bytes) (index val : Nat) : Bytes := fun offset =>
  if offset / 4 = index then UInt8.ofNat (val / 256 ^ (offset % 4)) else data offset

/-- Store `count` bytes of `src` from `offset` on, as `memmove` does. -/
def copy (data : Bytes) (offset : Nat) (src : Nat → UInt8) (count : Nat) : Bytes := fun idx =>
  if offset ≤ idx ∧ idx < offset + count then src (idx - offset)
  else data idx

/-- The `count` bytes of the block from `offset` on, as `memmove` takes them out. -/
def slice (data : Bytes) (offset count : Nat) : List UInt8 := (List.range count).map fun i => data (offset + i)

theorem copy_inside (data : Bytes) (offset : Nat) (src : Nat → UInt8) {count i : Nat} (inside : i < count) :
    data.copy offset src count (offset + i) = src i := by
  rw [copy, if_pos (by omega), Nat.add_sub_cancel_left]

theorem copy_outside (data : Bytes) {offset count idx : Nat} (src : Nat → UInt8)
    (outside : idx < offset ∨ offset + count ≤ idx) : data.copy offset src count idx = data idx := by
  rw [copy, if_neg (by omega)]

/-! ## Words -/

theorem word_lt (data : Bytes) (index : Nat) : data.word index < 2 ^ 32 := by
  have h0 := (data (4 * index)).toNat_lt
  have h1 := (data (4 * index + 1)).toNat_lt
  have h2 := (data (4 * index + 2)).toNat_lt
  have h3 := (data (4 * index + 3)).toNat_lt
  simp only [word]
  omega

@[simp] theorem word_fill_zero (index : Nat) : (fill 0).word index = 0 := rfl

theorem word_congr {data data' : Bytes} {index : Nat}
    (same : ∀ offset, offset / 4 = index → data offset = data' offset) : data.word index = data'.word index := by
  simp only [word]
  rw [same (4 * index) (by omega), same (4 * index + 1) (by omega),
    same (4 * index + 2) (by omega), same (4 * index + 3) (by omega)]

theorem word_setWord_self (data : Bytes) (index val : Nat) : (data.setWord index val).word index = val % 2 ^ 32 := by
  have d0 : 4 * index / 4 = index := by omega
  have d1 : (4 * index + 1) / 4 = index := by omega
  have d2 : (4 * index + 2) / 4 = index := by omega
  have d3 : (4 * index + 3) / 4 = index := by omega
  have m0 : 4 * index % 4 = 0 := by omega
  have m1 : (4 * index + 1) % 4 = 1 := by omega
  have m2 : (4 * index + 2) % 4 = 2 := by omega
  have m3 : (4 * index + 3) % 4 = 3 := by omega
  simp only [word, setWord, d0, d1, d2, d3, m0, m1, m2, m3, if_true, UInt8.toNat_ofNat']
  omega

theorem word_setWord_of_lt (data : Bytes) (index : Nat) {val : Nat} (bound : val < 2 ^ 32) :
    (data.setWord index val).word index = val := by
  rw [word_setWord_self, Nat.mod_eq_of_lt bound]

theorem word_setWord_ne (data : Bytes) {index other : Nat} (val : Nat) (ne : index ≠ other) :
    (data.setWord index val).word other = data.word other := by
  apply word_congr
  intro offset inside
  simp only [setWord]
  rw [if_neg (by omega)]

/-- Words stored one after the other, from word `base` on. -/
theorem word_foldl_setWord (data : Bytes) (base : Nat) (values : Nat → Nat) (count index : Nat) :
    ((List.range count).foldl (fun data i => data.setWord (base + i) (values i)) data).word index =
      if base ≤ index ∧ index < base + count then values (index - base) % 2 ^ 32 else data.word index := by
  induction count with
  | zero => simp only [List.range_zero, List.foldl_nil, if_neg (show ¬ (base ≤ index ∧ index < base + 0) by omega)]
  | succ count ih =>
    rw [List.range_succ, List.foldl_append, List.foldl_cons, List.foldl_nil]
    by_cases last : base + count = index
    · subst last
      rw [word_setWord_self, if_pos (by omega), Nat.add_sub_cancel_left]
    · rw [word_setWord_ne _ _ last, ih]
      by_cases inside : base ≤ index ∧ index < base + count
      · rw [if_pos inside, if_pos (by omega)]
      · rw [if_neg inside, if_neg (by omega)]

/-- The block with the given words. -/
def ofWords (words : Nat → Nat) : Bytes := fun offset =>
  UInt8.ofNat (words (offset / 4) / 256 ^ (offset % 4))

theorem word_ofWords {words : Nat → Nat} {index : Nat} (bound : words index < 2 ^ 32) :
    (ofWords words).word index = words index := by
  have same : (ofWords words).word index = ((fill 0).setWord index (words index)).word index := by
    apply word_congr
    rintro offset rfl
    simp only [ofWords, setWord, if_true]
  rw [same, word_setWord_of_lt _ _ bound]

/-! ## Bits -/

/-- `1 << (index % 8)`. -/
def mask (index : Nat) : UInt8 := 1 <<< UInt8.ofNat (index % 8)

/-- Bit number `index` of the block. -/
def bit (data : Bytes) (index : Nat) : Bool := data (index / 8) &&& mask index ≠ 0

/-- `data[index/8] |= m`. -/
def setBit (data : Bytes) (index : Nat) : Bytes :=
  update data (index / 8) (data (index / 8) ||| mask index)

/-- `data[index/8] &= ~m`. -/
def clearBit (data : Bytes) (index : Nat) : Bytes :=
  update data (index / 8) (data (index / 8) &&& ~~~mask index)

theorem toNat_mask (index : Nat) : (mask index).toNat = 2 ^ (index % 8) := by
  have values : ∀ k < 8, ((1 : UInt8) <<< UInt8.ofNat k).toNat = 2 ^ k := by decide
  exact values _ (Nat.mod_lt _ (by decide))

theorem bit_eq_testBit (data : Bytes) (index : Nat) :
    data.bit index = (data (index / 8)).toNat.testBit (index % 8) := by
  have same : (data (index / 8) &&& mask index = 0) ↔ (data (index / 8)).toNat.testBit (index % 8) = false := by
    rw [← UInt8.toNat_inj, UInt8.toNat_and, toNat_mask, Nat.and_two_pow]
    cases (data (index / 8)).toNat.testBit (index % 8) <;> simp
  simp [bit, same]

theorem bit_setBit (data : Bytes) (index other : Nat) :
    (data.setBit index).bit other = (data.bit other || other = index) := by
  rw [bit_eq_testBit, bit_eq_testBit]
  by_cases byte : other / 8 = index / 8
  · rw [setBit, byte, update_self, UInt8.toNat_or, toNat_mask, Nat.testBit_or, Nat.testBit_two_pow]
    congr 1
    rw [decide_eq_decide]
    omega
  · have ne : other ≠ index := fun same => byte (same ▸ rfl)
    rw [setBit, update_of_ne byte]
    simp [ne]

theorem bit_clearBit (data : Bytes) (index other : Nat) :
    (data.clearBit index).bit other = (data.bit other && other ≠ index) := by
  rw [bit_eq_testBit, bit_eq_testBit]
  by_cases byte : other / 8 = index / 8
  · rw [clearBit, byte, update_self, UInt8.toNat_and, UInt8.toNat_not, toNat_mask, Nat.testBit_and,
      show UInt8.size - 1 - 2 ^ (index % 8) = 2 ^ 8 - (2 ^ (index % 8) + 1) by rw [UInt8.size]; omega,
      Nat.testBit_two_pow_sub_succ (Nat.pow_lt_pow_right (by decide) (Nat.mod_lt _ (by decide)))]
    congr 1
    simp [Nat.testBit_two_pow, Nat.mod_lt]
    omega
  · have ne : other ≠ index := fun same => byte (same ▸ rfl)
    rw [clearBit, update_of_ne byte]
    simp [ne]

/-- The block with the given bits. -/
def ofBits (bits : Nat → Bool) : Bytes := fun offset =>
  UInt8.ofNat (Nat.ofBits fun i : Fin 8 => bits (8 * offset + i))

theorem bit_ofBits (bits : Nat → Bool) (index : Nat) : (ofBits bits).bit index = bits index := by
  have column : index % 8 < 8 := Nat.mod_lt _ (by decide)
  rw [bit_eq_testBit, ofBits, UInt8.toNat_ofNat', Nat.testBit_mod_two_pow, Nat.testBit_ofBits_lt _ _ column]
  simp only [column, decide_true, Bool.true_and]
  congr 1
  omega

end Bytes

/-! ## Overwriting a part of a list -/

/-- The list with the elements from `offset` on overwritten by those of `src`. -/
def splice {α : Type} (contents : List α) (offset : Nat) (src : List α) : List α :=
  contents.take offset ++ src ++ contents.drop (offset + src.length)

/-- Overwriting a tabulated list tabulates the overwritten function. -/
theorem splice_map_range {α : Type} (f g : Nat → α) {size offset : Nat} (count : Nat) (inside : offset ≤ size) :
    splice ((List.range size).map f) offset ((List.range count).map g) =
      (List.range (max size (offset + count))).map fun idx =>
        if offset ≤ idx ∧ idx < offset + count then g (idx - offset) else f idx := by
  have before : ((List.range size).map f).take offset = (List.range offset).map f := by
    rw [← List.map_take, List.take_range, Nat.min_eq_left inside]
  apply List.ext_getElem
  · simp only [splice, before, List.length_append, List.length_map, List.length_range, List.length_drop]
    omega
  intro idx low high
  simp only [splice, before, List.getElem_append, List.length_append, List.length_map, List.length_range,
    List.getElem_map, List.getElem_range, List.getElem_drop]
  -- in front of the source, inside it and behind it
  split
  next front =>
    split
    next early => rw [if_neg (by omega)]
    next late => rw [if_pos (by omega)]
  next behind =>
    rw [if_neg (by omega)]
    congr 1
    omega

end Xv6Simplesh.Library
