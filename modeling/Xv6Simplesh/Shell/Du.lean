import Mathlib.Algebra.BigOperators.Group.List.Basic
import Mathlib.Data.Int.ModEq
import Mathlib.Tactic.Ring

/-! # The builtin `du` of the 2016-17 shell

`run_du` has `nftw` call `recorrer_directorio` for everything below a directory.  The threshold
of `-t` and the sum are in global variables: the callback turns a negative threshold into a
positive one when it sees the first file, and from then on compares the other way.
-/

namespace Xv6Simplesh.Shell.Old.Du

/-- What is printed. -/
inductive Line where
  | directorio (fpath : String)
  | fichero (fpath : String) (val : Int64) (after : String)
  | regular (path : String) (val : Int64)
  | total (path : String) (suma : Int32)
  | usage
deriving DecidableEq, Repr

/-- The global variables, and what has been printed. -/
structure Globals where
  suma : Int32
  tvalor : Int64
  tbandera : Bool
  vflag : Bool
  bflag : Bool
  output : List Line
deriving DecidableEq, Repr

def Globals.printf (g : Globals) (line : Line) : Globals := { g with output := g.output ++ [line] }

/-- `suma += val`, which adds in `long long`. -/
def Globals.add (g : Globals) (val : Int64) : Globals := { g with suma := (g.suma.toInt64 + val).toInt32 }

/-- What `nftw` calls its function for: `FTW_D`, `FTW_F` with `st_size` and `st_blocks`, and the
rest. -/
inductive Visit where
  | dir (fpath : String)
  | file (fpath : String) (size blocks : Int64)
  | other
deriving DecidableEq, Repr

/-- The four lines that count a file, with what is printed for it. -/
def count (fpath : String) (size blocks : Int64) (after : String) (g : Globals) : Globals :=
  let val := if g.bflag then blocks * 8 else size
  let g := if g.vflag then g.printf (.fichero fpath val after) else g
  g.add val

/-- `recorrer_directorio`. -/
def recorrerDirectorio (g : Globals) : Visit → Globals
  | .dir fpath => if g.vflag then g.printf (.directorio fpath) else g
  | .file fpath size blocks =>
    if g.tbandera then
      if g.tvalor < 0 then
        let g := { g with tvalor := g.tvalor - g.tvalor * 2 }
        if size < g.tvalor then count fpath size blocks "\n " g else g
      else if size > g.tvalor then count fpath size blocks (if g.bflag then "\n  " else "\n ") g
      else g
    else
      -- the blocks are printed with and without `-b`
      let val := if g.bflag then blocks * 8 else size
      let g := if g.vflag then g.printf (.fichero fpath (blocks * 8) "\n ") else g
      g.add val
  | .other => g

/-! ## `run_du` -/

/-- What `getopt` returns, with `atol(optarg)`. -/
inductive Opt where
  | h
  | v
  | b
  | t (val : Int64)
  /-- `'?'`. -/
  | unknown
deriving DecidableEq, Repr

/-- The `switch` in the loop over the options, with `hflag`. -/
def setOption : Bool × Globals → Opt → Bool × Globals
  | (_, g), .h => (true, g)
  | (hflag, g), .v => (hflag, { g with vflag := true })
  | (hflag, g), .b => (hflag, { g with bflag := true })
  | (hflag, g), .t val => (hflag, { g with tbandera := true, tvalor := val })
  | (hflag, g), .unknown => (hflag, g)

def initial : Globals := ⟨0, 0, false, false, false, []⟩

/-- What `stat` says about a path, and what `nftw` visits below it. -/
inductive Node where
  | reg (size blocks : Int64)
  | dir (visits : List Visit)
  | other
deriving DecidableEq, Repr

section Run

variable (stat : Option String → Option Node) (argc : Nat)

/-- The path of a round of the loop; `none` is the null pointer behind the last argument. -/
def duPath (g : Globals) (operand : Option String) : Option String :=
  if argc = 1 ∨ argc = 2 ∧ (g.bflag ∨ g.vflag) ∨ argc = 3 ∧ g.tbandera ∨ argc = 4 ∧ g.tbandera ∧ g.bflag ∧ g.vflag
  then some "."
  else operand

/-- What a round does with the path when `stat` has succeeded. -/
def duNode (path : String) (g : Globals) : Node → Globals
  | .reg size blocks => g.printf (.regular path (if g.bflag then blocks else size))
  | .dir visits =>
    let g := visits.foldl recorrerDirectorio g
    { g.printf (.total path g.suma) with suma := 0 }
  | .other => g

/-- The loop over the arguments; `perror` writes to the standard error. -/
def duLoop : List (Option String) → Globals → Globals
  | [], g => g
  | operand :: operands, g =>
    match stat (duPath argc g operand) with
    | none => g
    | some node => duLoop operands (duNode ((duPath argc g operand).getD "(null)") g node)

/-- `run_du` with the options, `argc` and the arguments from `optind` on; the loop is run once
if there are none. -/
def runDu (opts : List Opt) (operands : List String) : List Line :=
  let (hflag, g) := opts.foldl setOption (false, initial)
  if hflag then [.usage]
  else (duLoop stat argc (if operands = [] then [none] else operands.map some) g).output

end Run

/-! ## What the callback adds up -/

/-- The sizes of the files that are visited. -/
def sizes (visits : List Visit) : List Int64 :=
  visits.filterMap fun visit => match visit with
    | .file _ size _ => some size
    | _ => none

/-- The totals that are printed. -/
def totals (output : List Line) : List (String × Int) :=
  output.filterMap fun line => match line with
    | .total path suma => some (path, suma.toInt)
    | _ => none

/-- The sum of the sizes that `keep` selects. -/
def sum (keep : Int → Bool) (sizes : List Int64) : Int :=
  (sizes.map fun size => if keep size.toInt then size.toInt else 0).sum

@[simp] theorem sum_nil (keep : Int → Bool) : sum keep [] = 0 := rfl

@[simp] theorem sum_cons (keep : Int → Bool) (size : Int64) (sizes : List Int64) :
    sum keep (size :: sizes) = (if keep size.toInt then size.toInt else 0) + sum keep sizes := by
  simp [sum]

/-- `tvalor` after the callback has seen files of the given sizes. -/
def threshold (tvalor : Int64) (sizes : List Int64) : Int64 :=
  if sizes = [] ∨ 0 ≤ tvalor then tvalor else -tvalor

/-- What the callback adds for files of the given sizes. -/
def counted : Int64 → List Int64 → Int
  | _, [] => 0
  | tvalor, size :: sizes =>
    (if tvalor < 0 then if size < -tvalor then size.toInt else 0 else if size > tvalor then size.toInt else 0) +
      counted (if tvalor < 0 then -tvalor else tvalor) sizes

/-- Some calls of the callback have added an amount to the sum, and left a threshold; they have
printed no total. -/
structure Adds (g : Globals) (amount : Int) (tvalor : Int64) (g' : Globals) : Prop where
  suma : g'.suma = g.suma + Int32.ofInt amount
  tvalor : g'.tvalor = tvalor
  tbandera : g'.tbandera = g.tbandera
  bflag : g'.bflag = g.bflag
  vflag : g'.vflag = g.vflag
  totals : totals g'.output = totals g.output

theorem Adds.refl (g : Globals) : Adds g 0 g.tvalor g := by
  constructor <;> simp

variable {g : Globals} {tvalor : Int64}

theorem Adds.trans {g' g'' : Globals} {amount amount' : Int} {tvalor' : Int64} (first : Adds g amount tvalor g')
    (snd : Adds g' amount' tvalor' g'') : Adds g (amount + amount') tvalor' g'' where
  suma := by rw [snd.suma, first.suma, Int32.ofInt_add, Int32.add_assoc]
  tvalor := snd.tvalor
  tbandera := snd.tbandera.trans first.tbandera
  bflag := snd.bflag.trans first.bflag
  vflag := snd.vflag.trans first.vflag
  totals := snd.totals.trans first.totals

theorem adds_count (g : Globals) (bytes : g.bflag = false) (fpath : String) (size blocks : Int64) (after : String) :
    Adds g size.toInt g.tvalor (count fpath size blocks after g) := by
  simp only [count, bytes, Bool.false_eq_true, if_false]
  cases verbose : g.vflag <;>
    constructor <;> simp [Globals.add, Globals.printf, Du.totals, verbose, Int32.ofInt_int64ToInt]

theorem negated (tvalor : Int64) : tvalor - tvalor * 2 = -tvalor := by grind

/-- Turning a negative threshold gives a positive one, but for the smallest `long`. -/
theorem toInt_neg (other : tvalor ≠ Int64.minValue) : (-tvalor).toInt = -tvalor.toInt := by
  have low := Int64.le_toInt tvalor
  have high := Int64.toInt_lt tvalor
  have ne : tvalor.toInt ≠ -2 ^ 63 := fun same => other (Int64.toInt_inj.mp (same.trans Int64.toInt_minValue.symm))
  rw [Int64.toInt_neg, Int.bmod_eq_of_le] <;> omega

theorem zero_le_iff {val : Int64} : 0 ≤ val ↔ 0 ≤ val.toInt := Int64.le_iff_toInt_le

theorem adds_recorrerDirectorio (limited : g.tbandera = true) (bytes : g.bflag = false) (visit : Visit) :
    Adds g (counted g.tvalor (sizes [visit])) (threshold g.tvalor (sizes [visit])) (recorrerDirectorio g visit) := by
  cases visit with
  | dir fpath =>
    simp only [recorrerDirectorio]
    split <;> constructor <;> simp [sizes, counted, threshold, Globals.printf, Du.totals]
  | other => exact Adds.refl g
  | file fpath size blocks =>
    rw [recorrerDirectorio, if_pos limited]
    simp only [negated, sizes, List.filterMap_cons, List.filterMap_nil, counted, threshold, reduceCtorEq, false_or,
      Int.add_zero]
    by_cases negative : g.tvalor < 0
    · have turned : ¬ 0 ≤ g.tvalor := Int64.not_le.mpr negative
      have turns : Adds g 0 (-g.tvalor) { g with tvalor := -g.tvalor } := by constructor <;> simp
      simp only [negative, turned, if_true, if_false]
      split
      · have step := turns.trans (adds_count { g with tvalor := -g.tvalor } bytes fpath size blocks "\n ")
        rw [Int.zero_add] at step
        exact step
      · exact turns
    · have kept : 0 ≤ g.tvalor := Int64.not_lt.mp negative
      simp only [negative, kept, if_true, if_false]
      split
      · exact adds_count g bytes fpath size blocks _
      · exact Adds.refl g

theorem threshold_neg (negative : tvalor < 0) (files : List Int64) : threshold (-tvalor) files = -tvalor := by
  rw [threshold]
  split
  · rfl
  next turns =>
    -- the smallest `long` is its own negative
    have least : tvalor = Int64.minValue := by
      by_contra other
      rw [not_or, zero_le_iff, toInt_neg other] at turns
      have below : tvalor.toInt < 0 := Int64.lt_iff_toInt_lt.mp negative
      omega
    rw [least]
    rfl

theorem adds_foldl (limited : g.tbandera = true) (bytes : g.bflag = false) (visits : List Visit) :
    Adds g (counted g.tvalor (sizes visits)) (threshold g.tvalor (sizes visits))
      (visits.foldl recorrerDirectorio g) := by
  induction visits generalizing g with
  | nil => exact Adds.refl g
  | cons visit visits ih =>
    have first := adds_recorrerDirectorio limited bytes visit
    have rest := ih (first.tbandera.trans limited) (first.bflag.trans bytes)
    have both := first.trans rest
    rw [first.tvalor] at both
    cases visit with
    | dir fpath => simpa [sizes, counted, threshold] using both
    | other => simpa [sizes, counted, threshold] using both
    | file fpath size blocks =>
      have split : sizes (.file fpath size blocks :: visits) = size :: sizes visits := rfl
      have single : sizes [.file fpath size blocks] = [size] := rfl
      rw [single] at both
      rw [split, List.foldl_cons]
      by_cases negative : g.tvalor < 0
      · have turned : threshold g.tvalor [size] = -g.tvalor := by
          simp [threshold, Int64.not_le.mpr negative]
        have turned' : threshold g.tvalor (size :: sizes visits) = -g.tvalor := by
          simp [threshold, Int64.not_le.mpr negative]
        rw [turned, threshold_neg negative] at both
        rw [turned']
        simpa [counted, negative] using both
      · have kept : ∀ files, threshold g.tvalor files = g.tvalor := by
          intro files
          simp [threshold, Int64.not_lt.mp negative]
        simp only [kept] at both ⊢
        simpa [counted, negative] using both

/-! ## Closed forms -/

variable {tvalor : Int64} {files : List Int64}

theorem counted_of_nonneg (pos : 0 ≤ tvalor) : counted tvalor files = sum (tvalor.toInt < ·) files := by
  induction files with
  | nil => rfl
  | cons size files ih =>
    simp [counted, Int64.not_lt.mpr pos, ih, Int64.lt_iff_toInt_lt]

/-- The smallest `long` stays negative, and no file is smaller. -/
theorem counted_minValue : counted Int64.minValue files = 0 := by
  induction files with
  | nil => rfl
  | cons size files ih =>
    have same : -Int64.minValue = Int64.minValue := rfl
    have negative : Int64.minValue < 0 := by decide
    have none : ¬ size < Int64.minValue := by
      rw [Int64.lt_iff_toInt_lt, Int64.toInt_minValue]
      have low := Int64.le_toInt size
      omega
    simp [counted, same, negative, none, ih]

theorem counted_of_neg {lead : Int64} (negative : tvalor < 0) (other : tvalor ≠ Int64.minValue) :
    counted tvalor (lead :: files) = sum (· < -tvalor.toInt) [lead] + sum (-tvalor.toInt < ·) files := by
  have below : tvalor.toInt < 0 := Int64.lt_iff_toInt_lt.mp negative
  have pos : 0 ≤ -tvalor := by
    rw [zero_le_iff, toInt_neg other]
    omega
  simp only [counted, negative, if_true, counted_of_nonneg pos, toInt_neg other, Int64.lt_iff_toInt_lt]
  simp

/-! ## What the help text says -/

/-- The sizes that are kept: those not smaller than a positive `SIZE`, and those not larger than
a negative one says. -/
def keeps (size : Int64) (n : Int) : Bool := if size < 0 then n ≤ -size.toInt else size.toInt ≤ n

def expected (size : Int64) (files : List Int64) : Int := sum (keeps size) files

/-- What the sum of a directory must be for its total to be right; `seen` says that the callback
has seen files of other directories. -/
def Exact (size : Int64) (seen : Bool) (files : List Int64) : Prop :=
  expected size files < 2 ^ 31 ∧
    if 0 ≤ size then 0 < size → size ∉ files
    else if size = Int64.minValue then expected size files = 0
    else
      let lead := if seen then [] else files.take 1
      let rest := if seen then files else files.drop 1
      sum (-size.toInt < ·) rest ≡ sum (· ≤ -size.toInt) rest + sum (· = -size.toInt) lead [ZMOD 2 ^ 32]

/-- The threshold when the callback is called for a directory. -/
def current (size : Int64) (seen : Bool) : Int64 := if seen ∧ size < 0 then -size else size

section Sums

variable {keep keep' : Int → Bool} {limit : Int}

theorem sum_nonneg (pos : ∀ file ∈ files, 0 ≤ file.toInt) : 0 ≤ sum keep files := by
  induction files with
  | nil => rfl
  | cons file files ih =>
    rw [sum_cons]
    have first := pos file (.head _)
    have rest := ih fun other mem => pos other (.tail _ mem)
    split <;> omega

/-- The files not smaller than the limit are those that are larger and those that are equal. -/
theorem sum_le (limit : Int) (files : List Int64) :
    sum (limit ≤ ·) files = sum (limit < ·) files + sum (· = limit) files := by
  induction files with
  | nil => rfl
  | cons file files ih =>
    simp only [sum_cons, ih, decide_eq_true_eq]
    split <;> split <;> split <;> omega

theorem sum_ge (limit : Int) (files : List Int64) :
    sum (· ≤ limit) files = sum (· < limit) files + sum (· = limit) files := by
  induction files with
  | nil => rfl
  | cons file files ih =>
    simp only [sum_cons, ih, decide_eq_true_eq]
    split <;> split <;> split <;> omega

theorem sum_append (keep : Int → Bool) (front back : List Int64) :
    sum keep (front ++ back) = sum keep front + sum keep back := by
  simp [sum]

theorem sum_eq (size : Int64) (files : List Int64) :
    sum (· = size.toInt) files = size.toInt * (files.count size : Int) := by
  induction files with
  | nil => simp
  | cons file files ih =>
    rw [sum_cons, ih, List.count_cons]
    by_cases same : file = size
    · subst same
      simp
      ring
    · have ne : file.toInt ≠ size.toInt := fun equal => same (Int64.toInt_inj.mp equal)
      simp [same, ne]

/-- The files of one size add nothing if that size is 0 or there are none. -/
theorem sum_eq_zero_iff {size : Int64} (pos : 0 ≤ size.toInt) :
    sum (· = size.toInt) files = 0 ↔ (0 < size → size ∉ files) := by
  have zero : 0 < size ↔ 0 < size.toInt := Int64.lt_iff_toInt_lt
  rw [sum_eq, Int.mul_eq_zero, zero, Int.natCast_eq_zero, List.count_eq_zero]
  constructor
  · intro either larger
    exact either.resolve_left (by omega)
  · intro absent
    by_cases larger : 0 < size.toInt
    · exact .inr (absent larger)
    · exact .inl (by omega)

/-- A sum is printed right if and only if it is an `int`. -/
theorem toInt_ofInt_iff {val goal : Int} (pos : 0 ≤ goal) :
    (Int32.ofInt val).toInt = goal ↔ goal < 2 ^ 31 ∧ val ≡ goal [ZMOD 2 ^ 32] := by
  rw [Int32.toInt_ofInt, Int32.size, Int.bmod_def, Int.ModEq]
  simp only [Int.reducePow, Nat.cast_ofNat]
  split <;> omega

/-- The sum is right where the sizes larger than the limit are as much as those that are not. -/
theorem modEq_iff (lead rest : List Int64) :
    sum (· < limit) lead + sum (limit < ·) rest ≡ sum (· ≤ limit) (lead ++ rest) [ZMOD 2 ^ 32] ↔
      sum (limit < ·) rest ≡ sum (· ≤ limit) rest + sum (· = limit) lead [ZMOD 2 ^ 32] := by
  rw [sum_append, sum_ge limit lead, Int.ModEq, Int.ModEq]
  omega

end Sums

/-- The total of a directory is right if and only if its sizes add up to what they must. -/
theorem counted_iff (size : Int64) (seen : Bool) (pos : ∀ file ∈ files, 0 ≤ file.toInt) :
    (Int32.ofInt (counted (current size seen) files)).toInt = expected size files ↔ Exact size seen files := by
  have nonneg : 0 ≤ expected size files := sum_nonneg pos
  rw [toInt_ofInt_iff nonneg, Exact]
  apply and_congr_right
  intro small
  by_cases forward : 0 ≤ size
  · have upward : ¬ size < 0 := Int64.not_lt.mpr forward
    have kept : expected size files = sum (size.toInt ≤ ·) files := by
      rw [expected]
      congr 1
      funext n
      rw [keeps, if_neg upward]
    have larger : 0 ≤ sum (size.toInt < ·) files := sum_nonneg pos
    have equal : 0 ≤ sum (· = size.toInt) files := sum_nonneg pos
    rw [if_pos forward, ← sum_eq_zero_iff (zero_le_iff.mp forward), current, if_neg (by simp [upward]),
      counted_of_nonneg forward]
    rw [kept, sum_le] at small ⊢
    rw [Int.ModEq]
    omega
  · have downward : size < 0 := Int64.not_le.mp forward
    rw [if_neg forward]
    have kept : expected size files = sum (· ≤ -size.toInt) files := by
      rw [expected]
      congr 1
      funext n
      rw [keeps, if_pos downward]
    split
    next least =>
      have same : current size seen = Int64.minValue := by
        rw [current, least]
        cases seen <;> rfl
      rw [same, counted_minValue, Int.ModEq]
      omega
    next other =>
      have below : size.toInt < 0 := Int64.lt_iff_toInt_lt.mp downward
      rw [kept]
      cases seen with
      | true =>
        have turned : 0 ≤ -size := by
          rw [zero_le_iff, toInt_neg other]
          omega
        simp only [current, downward, if_true, and_self, counted_of_nonneg turned, toInt_neg other]
        simp
      | false =>
        cases files with
        | nil => simp [counted]
        | cons lead rest =>
          simp only [current, Bool.false_eq_true, false_and, if_false, counted_of_neg downward other, List.take_succ_cons,
            List.take_zero, List.drop_succ_cons, List.drop_zero]
          exact modEq_iff [lead] rest

/-! ## All directories -/

/-- The directories that are visited, with what is visited in them. -/
def directories (stat : Option String → Option Node) : List (Option String) → List (String × List Visit)
  | [] => []
  | path :: paths =>
    match stat path with
    | none => []
    | some (.dir visits) => (path.getD "(null)", visits) :: directories stat paths
    | some _ => directories stat paths

/-- The totals that are printed for some directories. -/
def printed (size : Int64) : Bool → List (String × List Visit) → List (String × Int)
  | _, [] => []
  | seen, (path, visits) :: dirs =>
    (path, (Int32.ofInt (counted (current size seen) (sizes visits))).toInt) ::
      printed size (seen || !(sizes visits).isEmpty) dirs

/-- Every directory adds up to what it must. -/
def AllExact (size : Int64) : Bool → List (String × List Visit) → Prop
  | _, [] => True
  | seen, (_, visits) :: dirs =>
    Exact size seen (sizes visits) ∧ AllExact size (seen || !(sizes visits).isEmpty) dirs

theorem threshold_current (size : Int64) (seen : Bool) (files : List Int64) :
    threshold (current size seen) files = current size (seen || !files.isEmpty) := by
  by_cases negative : size < 0
  · cases seen with
    | true => simp [current, negative, threshold_neg negative]
    | false => cases files <;> simp [current, negative, threshold, Int64.not_le.mpr negative]
  · simp [current, negative, threshold, Int64.not_lt.mp negative]

theorem totals_append (front back : List Line) : totals (front ++ back) = totals front ++ totals back :=
  List.filterMap_append ..

theorem duPath_congr (argc : Nat) (g g' : Globals) (tbandera : g'.tbandera = g.tbandera) (bflag : g'.bflag = g.bflag)
    (vflag : g'.vflag = g.vflag) : duPath argc g' = duPath argc g := by
  funext operand
  simp only [duPath, tbandera, bflag, vflag]

theorem totals_duLoop (stat : Option String → Option Node) (argc : Nat) (size : Int64)
    (operands : List (Option String)) (g : Globals) (seen : Bool) (limited : g.tbandera = true)
    (bytes : g.bflag = false) (zero : g.suma = 0) (val : g.tvalor = current size seen) :
    totals (duLoop stat argc operands g).output =
      totals g.output ++ printed size seen (directories stat (operands.map (duPath argc g))) := by
  induction operands generalizing g seen with
  | nil => simp [duLoop, directories, printed]
  | cons operand operands ih =>
    simp only [duLoop, List.map_cons, directories]
    cases stat (duPath argc g operand) with
    | none => simp [printed]
    | some node =>
      let next := duNode ((duPath argc g operand).getD "(null)") g node
      cases node with
      | reg size' blocks =>
        refine (ih next seen limited bytes zero val).trans ?_
        rw [duPath_congr argc g next rfl rfl rfl]
        simp [next, duNode, Globals.printf, totals]
      | other => exact ih g seen limited bytes zero val
      | dir visits =>
        have adds := adds_foldl limited bytes visits
        have turned : next.tvalor = current size (seen || !(sizes visits).isEmpty) := by
          rw [← threshold_current, ← val]
          exact adds.tvalor
        refine (ih next _ (adds.tbandera.trans limited) (adds.bflag.trans bytes) rfl turned).trans ?_
        rw [duPath_congr argc g next adds.tbandera adds.bflag adds.vflag, printed]
        simp only [next, duNode, Globals.printf, totals_append, adds.totals, adds.suma, zero, val]
        simp [totals]

theorem printed_iff {size : Int64} {seen : Bool} {dirs : List (String × List Visit)}
    (pos : ∀ dir ∈ dirs, ∀ file ∈ sizes dir.2, 0 ≤ file.toInt) :
    printed size seen dirs = dirs.map (fun dir => (dir.1, expected size (sizes dir.2))) ↔ AllExact size seen dirs := by
  induction dirs generalizing seen with
  | nil => simp [printed, AllExact]
  | cons dir dirs ih =>
    rw [printed, AllExact, List.map_cons, List.cons.injEq, Prod.mk.injEq,
      counted_iff size seen (pos dir (.head _)),
      ih fun other mem => pos other (.tail _ mem)]
    simp

/-- The options leave the sum as it is and print nothing. -/
theorem setOption_foldl (opts : List Opt) (hflag : Bool) (g : Globals) :
    (opts.foldl setOption (hflag, g)).2.suma = g.suma ∧ (opts.foldl setOption (hflag, g)).2.output = g.output := by
  induction opts generalizing hflag g with
  | nil => exact ⟨rfl, rfl⟩
  | cons opt opts ih => cases opt <;> exact ih ..

/-- With `-t` and without `-b`: the totals that `du` prints for the directories are those of the
help text if and only if each directory adds up to what it must. -/
theorem du_threshold_iff (stat : Option String → Option Node) (argc : Nat) (opts : List Opt) (operands : List String)
    (g : Globals) (dirs : List (String × List Visit)) (parsed : opts.foldl setOption (false, initial) = (false, g))
    (limited : g.tbandera = true) (bytes : g.bflag = false)
    (visited : dirs = directories stat ((if operands = [] then [none] else operands.map some).map (duPath argc g)))
    (pos : ∀ dir ∈ dirs, ∀ file ∈ sizes dir.2, 0 ≤ file.toInt) :
    totals (runDu stat argc opts operands) = dirs.map (fun dir => (dir.1, expected g.tvalor (sizes dir.2))) ↔
      AllExact g.tvalor false dirs := by
  have start := setOption_foldl opts false initial
  rw [parsed] at start
  rw [← printed_iff pos, runDu, parsed]
  simp only [Bool.false_eq_true, if_false]
  rw [totals_duLoop stat argc g.tvalor _ g false limited bytes start.1 (by simp [current]), start.2,
    ← visited]
  rfl

/-- The files of 10 and 7 bytes are counted with a threshold of 5. -/
theorem du_threshold_positive : ∃ stat argc opts operands, opts = [Opt.t 5] ∧
    stat (some "d") = some (.dir [.dir "d", .file "d/a" 10 8, .file "d/b" 3 8, .file "d/c" 7 8]) ∧
    totals (runDu stat argc opts operands) = [("d", 17)] := by
  have pos : ∀ dir ∈ [("d", [Visit.dir "d", .file "d/a" 10 8, .file "d/b" 3 8, .file "d/c" 7 8])],
      ∀ file ∈ sizes dir.2, 0 ≤ file.toInt := by
    rw [List.forall_mem_singleton]
    exact List.forall_mem_cons.mpr ⟨by decide, List.forall_mem_cons.mpr ⟨by decide,
      List.forall_mem_singleton.mpr (by decide)⟩⟩
  exact ⟨fun _ => some (.dir [.dir "d", .file "d/a" 10 8, .file "d/b" 3 8, .file "d/c" 7 8]), 4, [.t 5], ["d"], rfl, rfl,
    (du_threshold_iff _ 4 [.t 5] ["d"] ⟨0, 5, true, false, false, []⟩
      [("d", [.dir "d", .file "d/a" 10 8, .file "d/b" 3 8, .file "d/c" 7 8])] (by decide) rfl rfl rfl pos).mpr
      ⟨⟨by decide, by decide⟩, trivial⟩⟩

/-- `du -t -10` on a directory with files of 4, 6 and 20 bytes: the first of them is counted
because it is smaller than 10 bytes, the last because it is larger. -/
theorem du_threshold_turned : ∃ stat argc opts operands, opts = [Opt.t (-10)] ∧
    stat (some "d") = some (.dir [.dir "d", .file "d/a" 4 8, .file "d/b" 6 8, .file "d/c" 20 8]) ∧
    totals (runDu stat argc opts operands) = [("d", 24)] ∧ expected (-10) [4, 6, 20] = 10 :=
  ⟨fun _ => some (.dir [.dir "d", .file "d/a" 4 8, .file "d/b" 6 8, .file "d/c" 20 8]), 4, [.t (-10)], ["d"], rfl, rfl,
    by decide, by decide⟩

end Xv6Simplesh.Shell.Old.Du
