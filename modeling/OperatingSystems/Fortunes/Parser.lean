import Mathlib.Data.Int.DivMod
import Mathlib.Data.List.GetD
import Mathlib.Tactic
import OperatingSystems.Lib.Lines

/-! # The fortune teller: the parser

`main` of `badger_fortune.c` behind the options: it reads two numbers, allocates as many strings as the first one
says of the size the second one says, and fills them in a loop over the lines of the file. A fortune is gathered in
`temp` and stored when the next `%` line comes; the last one is stored behind the loop. Then one fortune is printed,
or those that a batch file asks for.

* `badgerFortune`: the run, `none` if a string is written behind its end, `fortunes` indexed where it has no entry,
  or a number of the program leaves `int`. There is memory for all arrays.
* `texts`: what is between the `%` lines.
* `readLoop_eq`, `readLoop_eq_none`: what the loop makes of it, and when it fails. -/

namespace OperatingSystems.Fortunes.Parser

open OperatingSystems.Lib.Lines

/-- The bytes of a file, or of a string before its final zero. -/
abbrev Bytes := List UInt8

/-- `'\n'`. -/
def newline : UInt8 := 10

/-- The line `%`. -/
def percentLine : Bytes := [37, newline]

/-- The largest `int`. -/
def intMax : ℤ := 2 ^ 31 - 1

/-- The string in a buffer. -/
def cString (buffer : Bytes) : Bytes := buffer.takeWhile (· ≠ 0)

/-! ### Numbers -/

/-- `isspace`. -/
def isSpace (c : UInt8) : Bool := c = 32 ∨ 9 ≤ c ∧ c ≤ 13

/-- `isdigit`. -/
def isDigit (c : UInt8) : Bool := 48 ≤ c ∧ c ≤ 57

/-- The number of the digits at the start. -/
def digits (s : Bytes) : ℤ := (s.takeWhile isDigit).foldl (fun v c => v * 10 + (c.toNat - 48)) 0

/-- The number at the start, behind a sign. -/
def signed : Bytes → ℤ
  | 45 :: s => -digits s
  | 43 :: s => digits s
  | s => digits s

/-- `atoi`: what `strtol` reads, limited to `long` and cut to `int`. -/
def atoi (s : Bytes) : ℤ := (max (-2 ^ 63) (min (2 ^ 63 - 1) (signed (s.dropWhile isSpace)))).bmod (2 ^ 32)

/-- `x + 1`, if it is an `int`. -/
def succInt (x : ℤ) : Option ℤ := if x < intMax then some (x + 1) else none

/-! ### The header -/

/-- `fgets(int_buffer, 20, fp)`; at the end of the file the buffer stays. -/
def fgetsInt (intBuffer fp : Bytes) : Read UInt8 := (read newline 19 fp).getD ⟨intBuffer, fp⟩

/-- `f_max_size`, of the number in the file. -/
def maxSize (m : ℤ) : Option ℕ := (succInt m).map fun s => (if s < 3 then 3 else s).toNat

/-! ### The strings -/

/-- The variables of the loop; a string that was not written is `none`. -/
structure Vars where
  fortunes : List (Option Bytes)
  temp : Bytes
  cnt : ℤ

/-- `strcpy(fortunes[i], s)`. -/
def strcpy (fMaxSize : ℕ) (fortunes : List (Option Bytes)) (i : ℤ) (s : Bytes) : Option (List (Option Bytes)) :=
  if 0 ≤ i ∧ i < fortunes.length ∧ s.length < fMaxSize then some (fortunes.set i.toNat (some s)) else none

/-- `strcat(temp, s)`. -/
def strcat (fMaxSize : ℕ) (temp s : Bytes) : Option Bytes :=
  if (temp ++ s).length < fMaxSize then some (temp ++ s) else none

/-- `fortunes[i]`. -/
def load (fortunes : List (Option Bytes)) (i : ℤ) : Option (Option Bytes) :=
  if 0 ≤ i ∧ i < fortunes.length then some (fortunes.getD i.toNat none) else none

/-- `(buffer[0] == '%') && (buffer[1] == '\n')`. -/
def isPercent (buffer : Bytes) : Bool := buffer.getD 0 0 = 37 ∧ buffer.getD 1 0 = newline

/-! ### The loop -/

/-- The body of the loop, behind the `break`. -/
def readStep (fMaxSize : ℕ) (x : Vars) (buffer : Bytes) : Option Vars :=
  if isPercent buffer then
    if x.cnt = 0 then (succInt x.cnt).map fun cnt => { x with cnt }
    else
      (strcpy fMaxSize x.fortunes (x.cnt - 1) x.temp).bind fun fortunes =>
        (succInt x.cnt).map fun cnt => ⟨fortunes, [], cnt⟩
  else (strcat fMaxSize x.temp (cString buffer)).map fun temp => { x with temp }

/-- The loop over the pieces that `fgets` reads. -/
def readLoop (fMaxSize : ℕ) (fCnt : ℤ) (x : Vars) : List Bytes → Option Vars
  | [] => some x
  | buffer :: rest => if fCnt < x.cnt then some x else (readStep fMaxSize x buffer).bind (readLoop fMaxSize fCnt · rest)

/-- **`fortunes` behind the loop**, with the last one. -/
def parse (fCnt : ℤ) (fMaxSize : ℕ) (fp : Bytes) : Option (List (Option Bytes)) :=
  (readLoop fMaxSize fCnt ⟨List.replicate fCnt.toNat none, [], 0⟩ (pieces newline (fMaxSize - 1) fp)).bind fun x =>
    strcpy fMaxSize x.fortunes (fCnt - 1) x.temp

/-! ### The output -/

/-- What the options ask for: `-n` with a positive number, or `-b` with a file. -/
inductive Mode
  | number (n : ℤ) (pos : 0 < n)
  | batch (bp : Bytes)

/-- `n`. -/
def Mode.n : Mode → ℤ
  | .number n _ => n
  | .batch _ => -1

/-- The check for an empty file: a byte `0xFF` is taken for the end, as it is compared as a `char`. -/
def looksEmpty (file : Bytes) : Bool := file.head?.getD 255 = 255

/-- The check of the batch file. -/
def Mode.looksEmpty : Mode → Bool
  | .number _ _ => false
  | .batch bp => Parser.looksEmpty bp

/-- A text that is printed, to the output file or `stdout`; it is `none` if the string was not written. -/
structure Printed where
  toFile : Bool
  text : Option Bytes
  deriving DecidableEq

/-- How the run ends. -/
inductive Outcome
  | error (message : String)
  | printed (out : List Printed)
  deriving DecidableEq

/-- `"ERROR: Invalid Fortune Number\n\n"`. -/
def invalidNumber : Bytes := "ERROR: Invalid Fortune Number\n\n".toUTF8.toList

/-- One line of the batch file. -/
def printLine (fCnt : ℤ) (op : Bool) (fortunes : List (Option Bytes)) (intBuffer : Bytes) : Option Printed :=
  if atoi intBuffer ≤ 0 ∨ fCnt < atoi intBuffer then some ⟨false, some invalidNumber⟩
  else (load fortunes (atoi intBuffer - 1)).map fun s => ⟨op, s.map (· ++ [newline, newline])⟩

/-- What is printed; `op` says that there is an output file. -/
def print (fCnt : ℤ) (op : Bool) (fortunes : List (Option Bytes)) : Mode → Option (List Printed)
  | .number n _ => (load fortunes (n - 1)).map fun s => [⟨op, s⟩]
  | .batch bp => (pieces newline 19 bp).mapM (printLine fCnt op fortunes)

/-- **The fortune teller**, from the files that its options name. -/
def badgerFortune (fp : Bytes) (mode : Mode) (op : Bool) : Option Outcome :=
  if looksEmpty fp then some (.error "ERROR: Fortune File Empty\n")
  else if mode.looksEmpty then some (.error "ERROR: Batch File Empty\n")
  else
    let first := fgetsInt [] fp
    let fCnt := atoi first.taken
    if fCnt < mode.n then some (.error "ERROR: Invalid Fortune Number\n")
    else
      let second := fgetsInt first.taken first.rest
      (maxSize (atoi second.taken)).bind fun fMaxSize =>
        (parse fCnt fMaxSize second.rest).bind fun fortunes => (print fCnt op fortunes mode).map .printed

/-! ### The texts between the `%` lines -/

/-- The texts of some lines, the first one behind what is gathered already. -/
def textsFrom (temp : Bytes) (ls : List Bytes) : List Bytes :=
  ((ls.splitOn percentLine).map fun g => g.flatMap cString).modifyHead (temp ++ ·)

/-- **The texts of the lines of a file**: the first `%` line does not end one. -/
def texts (ls : List Bytes) : List Bytes := textsFrom [] (ls.erase percentLine)

/-- The texts from number `i` on are gathered and counted without a failure. -/
def Fits (fMaxSize N i : ℕ) (ts : List Bytes) : Prop :=
  (∀ t ∈ ts.take (N - i), t.length < fMaxSize) ∧ (N < intMax ∨ i + ts.length ≤ intMax)

/-- `fortunes` of `N` entries, of which the first ones are stored. -/
def cells (N : ℕ) (stored : List Bytes) : List (Option Bytes) :=
  stored.map some ++ List.replicate (N - stored.length) none

variable {fMaxSize N : ℕ} {stored : List Bytes} {temp b : Bytes} {ls : List Bytes}

theorem textsFrom_nil (temp : Bytes) : textsFrom temp [] = [temp] := by
  rw [textsFrom, List.splitOn_nil]
  simp

theorem textsFrom_percent (temp : Bytes) (ls : List Bytes) :
    textsFrom temp (percentLine :: ls) = temp :: textsFrom [] ls := by
  rw [textsFrom, List.splitOn_cons_eq_if_modifyHead, if_pos (beq_self_eq_true _), List.map_cons, List.modifyHead_cons,
    List.flatMap_nil, List.append_nil, textsFrom, show (([] : Bytes) ++ ·) = id from rfl, List.modifyHead_id]
  rfl

theorem textsFrom_cons (temp : Bytes) (ls : List Bytes) (hb : b ≠ percentLine) :
    textsFrom temp (b :: ls) = textsFrom (temp ++ cString b) ls := by
  rw [textsFrom, textsFrom, List.splitOn_cons_eq_if_modifyHead, if_neg (by simpa using hb)]
  cases ls.splitOn percentLine with
  | nil => rfl
  | cons g gs => simp

theorem length_textsFrom (temp : Bytes) (ls : List Bytes) :
    (textsFrom temp ls).length = ls.count percentLine + 1 := by
  induction ls generalizing temp with
  | nil => rw [textsFrom_nil, List.count_nil, List.length_singleton]
  | cons b ls ih =>
    by_cases hb : b = percentLine
    · rw [hb, textsFrom_percent, List.length_cons, ih, List.count_cons_self]
    · rw [textsFrom_cons _ _ hb, ih, List.count_cons_of_ne hb]

theorem textsFrom_ne_nil (temp : Bytes) (ls : List Bytes) : textsFrom temp ls ≠ [] := fun h => by
  have := length_textsFrom temp ls
  rw [h] at this
  cases this

/-- The first text starts with what is gathered. -/
theorem length_le_of_head (temp : Bytes) (ls : List Bytes) :
    ∃ t ts, textsFrom temp ls = t :: ts ∧ temp.length ≤ t.length := by
  induction ls generalizing temp with
  | nil => exact ⟨temp, [], textsFrom_nil temp, le_rfl⟩
  | cons b ls ih =>
    by_cases hb : b = percentLine
    · exact ⟨temp, _, by rw [hb, textsFrom_percent], le_rfl⟩
    · obtain ⟨t, ts, heq, hle⟩ := ih (temp ++ cString b)
      rw [List.length_append] at hle
      exact ⟨t, ts, by rw [textsFrom_cons _ _ hb, heq], by omega⟩

/-! ### Storing -/

theorem length_cells (h : stored.length ≤ N) : (cells N stored).length = N := by
  rw [cells, List.length_append, List.length_map, List.length_replicate]
  omega

/-- One more fortune is stored. -/
theorem strcpy_cells (hlt : stored.length < N) :
    strcpy fMaxSize (cells N stored) stored.length temp =
      if temp.length < fMaxSize then some (cells N (stored ++ [temp])) else none := by
  have hset : (cells N stored).set stored.length (some temp) = cells N (stored ++ [temp]) := by
    obtain ⟨m, hm⟩ := Nat.exists_eq_add_of_le' (show 1 ≤ N - stored.length by omega)
    rw [cells, cells, List.set_append_right _ _ (by rw [List.length_map]), List.length_map, Nat.sub_self, hm,
      List.replicate_succ, List.set_cons_zero, List.length_append, List.length_singleton,
      show N - (stored.length + 1) = m by omega, List.map_append, List.append_assoc]
    rfl
  rw [strcpy, length_cells hlt.le]
  by_cases hlen : temp.length < fMaxSize
  · rw [if_pos ⟨Int.natCast_nonneg _, by exact_mod_cast hlt, hlen⟩, if_pos hlen, Int.toNat_natCast, hset]
  · rw [if_neg (fun h => hlen h.2.2), if_neg hlen]

/-- The pieces that `fgets` reads are the `%` line if they look like it. -/
theorem isPercent_iff (hb : newline ∉ b.dropLast) : isPercent b = true ↔ b = percentLine := by
  rw [isPercent, decide_eq_true_eq]
  constructor
  · rintro ⟨h0, h1⟩
    match b, hb with
    | [], _ => cases h0
    | [c], _ => cases h1
    | [c, d], _ =>
      rw [List.getD_cons_zero] at h0
      rw [List.getD_cons_succ, List.getD_cons_zero] at h1
      rw [h0, h1]
      rfl
    | c :: d :: e :: b, hb =>
      rw [List.getD_cons_succ, List.getD_cons_zero] at h1
      exact absurd (by simp [h1]) hb
  · rintro rfl
    exact ⟨rfl, rfl⟩

/-! ### The loop -/

theorem readStep_percent (hlt : stored.length < N) :
    readStep fMaxSize ⟨cells N stored, temp, stored.length + 1⟩ percentLine =
      if temp.length < fMaxSize ∧ stored.length + 1 < intMax then
        some ⟨cells N (stored ++ [temp]), [], (stored ++ [temp]).length + 1⟩
      else none := by
  have hcnt : ((stored.length : ℤ) + 1) ≠ 0 := by omega
  rw [readStep, if_pos ((isPercent_iff (by decide)).mpr rfl)]
  dsimp only
  rw [if_neg hcnt, add_sub_cancel_right, strcpy_cells hlt, succInt]
  by_cases hlen : temp.length < fMaxSize
  · by_cases hint : (stored.length : ℤ) + 1 < intMax
    · rw [if_pos hlen, if_pos hint, if_pos ⟨hlen, hint⟩, List.length_append, List.length_singleton]
      rfl
    · rw [if_pos hlen, if_neg hint, if_neg (fun h => hint h.2)]
      rfl
  · rw [if_neg hlen, Option.bind_none, if_neg (fun h => hlen h.1)]

/-- Any other piece goes to `temp`. -/
theorem readStep_other (x : Vars) (hb : newline ∉ b.dropLast) (hne : b ≠ percentLine) :
    readStep fMaxSize x b = if (x.temp ++ cString b).length < fMaxSize then
      some { x with temp := x.temp ++ cString b } else none := by
  rw [readStep, if_neg (fun h => hne ((isPercent_iff hb).mp h)), strcat]
  split_ifs <;> rfl

/-- **The variables behind the loop**: the texts but the last are stored as far as there is room; the last one is in
`temp` if there are not too many. -/
structure Behind (N : ℕ) (ts : List Bytes) (x : Vars) : Prop where
  fortunes : x.fortunes = cells N (ts.dropLast.take N)
  temp : x.temp = if ts.length ≤ N then ts.getLastD [] else []

theorem fits_cons {t : Bytes} {ts : List Bytes} {i : ℕ} (hi : i < N) :
    Fits fMaxSize N i (t :: ts) ↔ t.length < fMaxSize ∧ Fits fMaxSize N (i + 1) ts := by
  obtain ⟨m, hm⟩ := Nat.exists_eq_add_of_le' (show 1 ≤ N - i by omega)
  have hlen : (i : ℤ) + (t :: ts).length = (i + 1 : ℕ) + ts.length := by
    rw [List.length_cons]
    omega
  rw [Fits, Fits, hm, List.take_succ_cons, List.forall_mem_cons, hlen, show N - (i + 1) = m by omega, and_assoc]

/-- The loop has stored all it can. -/
theorem behind_of_full {ts : List Bytes} (hfull : stored.length = N) (hts : ts ≠ []) (cnt : ℤ) :
    Behind N (stored ++ ts) ⟨cells N stored, [], cnt⟩ := by
  have hpos := List.length_pos_of_ne_nil hts
  refine ⟨?_, ?_⟩
  · rw [List.dropLast_append_of_ne_nil hts, List.take_left' hfull]
  · rw [if_neg (by rw [List.length_append]; omega)]

/-- **The loop behind the first `%` line**, by induction on the pieces left. -/
theorem readLoop_counted (ls stored : List Bytes) (temp : Bytes) (hle : stored.length ≤ N)
    (hlen : temp.length < fMaxSize) (hend : stored.length = N → temp = []) (hint : (stored.length : ℤ) + 1 ≤ intMax)
    (hbs : ∀ b ∈ ls, newline ∉ b.dropLast) :
    (Fits fMaxSize N stored.length (textsFrom temp ls) →
      ∃ x, readLoop fMaxSize N ⟨cells N stored, temp, stored.length + 1⟩ ls = some x ∧
        Behind N (stored ++ textsFrom temp ls) x) ∧
    (¬ Fits fMaxSize N stored.length (textsFrom temp ls) →
      readLoop fMaxSize N ⟨cells N stored, temp, stored.length + 1⟩ ls = none) := by
  induction ls generalizing stored temp with
  | nil =>
    rw [textsFrom_nil]
    constructor
    · refine fun _ => ⟨_, rfl, ?_, ?_⟩
      · rw [List.dropLast_concat, List.take_of_length_le hle]
      · rw [List.length_append, List.length_singleton]
        split_ifs with h
        · simp
        · exact hend (by omega)
    · refine fun hno => absurd ⟨fun t ht => ?_, .inr (by simpa using hint)⟩ hno
      rw [List.mem_singleton.mp (List.mem_of_mem_take ht)]
      exact hlen
  | cons b ls ih =>
    have hb := hbs b List.mem_cons_self
    have hls := fun b hb => hbs b (List.mem_cons_of_mem _ hb)
    rw [readLoop]
    dsimp only
    rcases hle.eq_or_lt with hfull | hlt
    -- all are stored: the loop ends
    · rw [if_pos (by omega)]
      constructor
      · rw [hend hfull]
        exact fun _ => ⟨_, rfl, behind_of_full hfull (textsFrom_ne_nil _ _) _⟩
      · refine fun hno => absurd ⟨fun t ht => ?_, .inl (by omega)⟩ hno
        rw [hfull, Nat.sub_self, List.take_zero] at ht
        cases ht
    rw [if_neg (by omega)]
    by_cases hp : b = percentLine
    · rw [hp, readStep_percent hlt, textsFrom_percent, fits_cons hlt,
        List.append_cons stored temp (textsFrom [] ls)]
      by_cases hcnt : (stored.length : ℤ) + 1 < intMax
      · rw [if_pos ⟨hlen, hcnt⟩, Option.bind_some, and_iff_right hlen]
        have hsucc : (stored ++ [temp]).length = stored.length + 1 := by simp
        have hrest := ih (stored ++ [temp]) [] (by omega) (Nat.zero_lt_of_lt hlen) (fun _ => rfl) (by omega) hls
        rwa [hsucc] at hrest ⊢
      · rw [if_neg (fun h => hcnt h.2), Option.bind_none]
        refine ⟨fun hfits => ?_, fun _ => rfl⟩
        have hT := List.length_pos_of_ne_nil (textsFrom_ne_nil [] ls)
        have := hfits.2.2
        omega
    · rw [readStep_other _ hb hp, textsFrom_cons _ _ hp]
      dsimp only
      by_cases hcat : (temp ++ cString b).length < fMaxSize
      · rw [if_pos hcat, Option.bind_some]
        exact ih stored _ hle hcat (fun h => absurd h (by omega)) hint hls
      · rw [if_neg hcat, Option.bind_none]
        refine ⟨fun hfits => ?_, fun _ => rfl⟩
        obtain ⟨t, ts, heq, hge⟩ := length_le_of_head (temp ++ cString b) ls
        rw [heq, fits_cons hlt] at hfits
        omega

/-- **The whole loop**: before the first `%` line, what is read is gathered too. -/
theorem readLoop_uncounted (hN : 0 < N) (ls : List Bytes) (temp : Bytes) (hlen : temp.length < fMaxSize)
    (hbs : ∀ b ∈ ls, newline ∉ b.dropLast) :
    (Fits fMaxSize N 0 (textsFrom temp (ls.erase percentLine)) →
      ∃ x, readLoop fMaxSize N ⟨cells N [], temp, 0⟩ ls = some x ∧
        Behind N (textsFrom temp (ls.erase percentLine)) x) ∧
    (¬ Fits fMaxSize N 0 (textsFrom temp (ls.erase percentLine)) →
      readLoop fMaxSize N ⟨cells N [], temp, 0⟩ ls = none) := by
  induction ls generalizing temp with
  | nil =>
    rw [List.erase_nil, textsFrom_nil]
    refine ⟨fun _ => ⟨_, rfl, ?_, ?_⟩, fun hno => absurd ⟨fun t ht => ?_, .inr ?_⟩ hno⟩
    · rw [List.dropLast_singleton, List.take_nil]
    · rw [if_pos (by exact hN)]
      rfl
    · rw [List.mem_singleton.mp (List.mem_of_mem_take ht)]
      exact hlen
    · rw [List.length_singleton]
      decide
  | cons b ls ih =>
    have hb := hbs b List.mem_cons_self
    have hls := fun b hb => hbs b (List.mem_cons_of_mem _ hb)
    rw [readLoop]
    dsimp only
    rw [if_neg (by omega)]
    by_cases hp : b = percentLine
    · have hstep : readStep fMaxSize ⟨cells N [], temp, 0⟩ b = some ⟨cells N [], temp, 1⟩ := by
        rw [readStep, if_pos ((isPercent_iff hb).mpr hp)]
        rfl
      have hrest := readLoop_counted ls [] temp (Nat.zero_le N) hlen (fun h => absurd h hN.ne) (by decide) hls
      rw [hstep, Option.bind_some, hp, List.erase_cons_head]
      exact hrest
    · rw [readStep_other _ hb hp, List.erase_cons_tail (by simpa using hp), textsFrom_cons _ _ hp]
      dsimp only
      by_cases hcat : (temp ++ cString b).length < fMaxSize
      · rw [if_pos hcat, Option.bind_some]
        exact ih _ hcat hls
      · rw [if_neg hcat, Option.bind_none]
        refine ⟨fun hfits => ?_, fun _ => rfl⟩
        obtain ⟨t, ts, heq, hge⟩ := length_le_of_head (temp ++ cString b) (ls.erase percentLine)
        rw [heq, fits_cons hN] at hfits
        omega

/-! ### The whole parser -/

/-- What is printed as number `k`, of the texts `ts` of the lines: the last entry holds what the loop left in `temp`. -/
def entry (N : ℕ) (ts : List Bytes) (k : ℕ) : Option Bytes :=
  if k = N then some (if ts.length ≤ N then ts.getLastD [] else []) else ts.dropLast[k - 1]?

/-- The strings behind the parser. -/
structure Parsed (N : ℕ) (ts : List Bytes) (fortunes : List (Option Bytes)) : Prop where
  length : fortunes.length = N
  load : ∀ k, 0 < k → k ≤ N → Parser.load fortunes (k - 1 : ℤ) = some (entry N ts k)

theorem getD_cells (j : ℕ) : (cells N stored).getD j none = stored[j]? := by
  rw [cells, List.getD_eq_getElem?_getD]
  by_cases hj : j < stored.length
  · rw [List.getElem?_append_left (by rwa [List.length_map]), List.getElem?_map, List.getElem?_eq_getElem hj]
    rfl
  · rw [List.getElem?_append_right (by rw [List.length_map]; omega), List.getElem?_replicate,
      List.getElem?_eq_none (by omega)]
    split_ifs <;> rfl

/-- Behind the loop the last fortune is stored. -/
theorem strcpy_last (hN : 0 < N) {ts : List Bytes} {x : Vars} (hx : Behind N ts x)
    (hlen : x.temp.length < fMaxSize) :
    ∃ fortunes, strcpy fMaxSize x.fortunes (N - 1) x.temp = some fortunes ∧ Parsed N ts fortunes := by
  have hcells : x.fortunes.length = N := by
    rw [hx.fortunes, length_cells (List.length_take_le _ _)]
  refine ⟨x.fortunes.set (N - 1) (some x.temp), ?_, by rw [List.length_set, hcells], fun k hk hkN => ?_⟩
  · rw [strcpy, if_pos ⟨by omega, by omega, hlen⟩, show ((N : ℤ) - 1).toNat = N - 1 by omega]
  · have htoNat : ((k : ℤ) - 1).toNat = k - 1 := by omega
    rw [load, List.length_set, hcells, if_pos ⟨by omega, by omega⟩, htoNat, entry, List.getD_eq_getElem?_getD]
    by_cases hlast : k = N
    · rw [if_pos hlast, hlast, List.getElem?_set_self (by omega), hx.temp, Option.getD_some]
    · rw [if_neg hlast, List.getElem?_set_ne (by omega), ← List.getD_eq_getElem?_getD, hx.fortunes, getD_cells,
        List.getElem?_take_of_lt (by omega)]

/-- What is left in `temp` fits. -/
theorem length_temp_lt (hsize : 0 < fMaxSize) {ts : List Bytes} {x : Vars} (hx : Behind N ts x)
    (hfits : Fits fMaxSize N 0 ts) : x.temp.length < fMaxSize := by
  rw [hx.temp]
  split_ifs with hle
  · rcases List.eq_nil_or_concat ts with rfl | ⟨init, t, rfl⟩
    · exact hsize
    · rw [List.concat_eq_append] at hle hfits ⊢
      rw [List.getLastD_concat]
      refine hfits.1 t ?_
      rw [List.take_of_length_le (by omega)]
      exact List.mem_append_right _ List.mem_cons_self
  · exact hsize

/-- **The parser stores the texts**, if they fit. -/
theorem parse_eq (hN : 0 < N) (hsize : 0 < fMaxSize) (fp : Bytes)
    (hfits : Fits fMaxSize N 0 (texts (pieces newline (fMaxSize - 1) fp))) :
    ∃ fortunes, parse N fMaxSize fp = some fortunes ∧
      Parsed N (texts (pieces newline (fMaxSize - 1) fp)) fortunes := by
  obtain ⟨x, hx, hbehind⟩ := (readLoop_uncounted hN (pieces newline (fMaxSize - 1) fp) [] hsize
    (forall_mem_pieces (fun s _ => notMem_dropLast_piece _ s) fp)).1 hfits
  obtain ⟨fortunes, hstore, hparsed⟩ := strcpy_last hN hbehind (length_temp_lt hsize hbehind hfits)
  refine ⟨fortunes, ?_, hparsed⟩
  change (readLoop fMaxSize N ⟨cells N [], [], 0⟩ _).bind _ = _
  rw [hx, Option.bind_some, hstore]

/-- **Otherwise it goes wrong**. -/
theorem parse_eq_none (hN : 0 < N) (hsize : 0 < fMaxSize) (fp : Bytes)
    (hno : ¬ Fits fMaxSize N 0 (texts (pieces newline (fMaxSize - 1) fp))) : parse N fMaxSize fp = none := by
  have h := (readLoop_uncounted hN (pieces newline (fMaxSize - 1) fp) [] hsize
    (forall_mem_pieces (fun s _ => notMem_dropLast_piece _ s) fp)).2 hno
  change (readLoop fMaxSize N ⟨cells N [], [], 0⟩ _).bind _ = _
  rw [h, Option.bind_none]

/-- Without a fortune there is no last one. -/
theorem parse_of_nonpos {fCnt : ℤ} (h : fCnt ≤ 0) (fp : Bytes) : parse fCnt fMaxSize fp = none := by
  rw [parse]
  cases readLoop fMaxSize fCnt _ (pieces newline (fMaxSize - 1) fp) with
  | none => rfl
  | some x => rw [Option.bind_some, strcpy, if_neg (fun hi => absurd hi.1 (by omega))]

/-! ### The output -/

/-- A line of the batch file, from the texts. -/
def printedLine (N : ℕ) (op : Bool) (ts : List Bytes) (intBuffer : Bytes) : Printed :=
  if atoi intBuffer ≤ 0 ∨ N < atoi intBuffer then ⟨false, some invalidNumber⟩
  else ⟨op, (entry N ts (atoi intBuffer).toNat).map (· ++ [newline, newline])⟩

/-- What is printed, from the texts. -/
def printed (N : ℕ) (op : Bool) (ts : List Bytes) : Mode → List Printed
  | .number n _ => [⟨op, entry N ts n.toNat⟩]
  | .batch bp => (pieces newline 19 bp).map (printedLine N op ts)

theorem Parsed.load_eq {ts : List Bytes} {fortunes : List (Option Bytes)} (h : Parsed N ts fortunes) {n : ℤ}
    (hpos : 0 < n) (hn : n ≤ N) : Parser.load fortunes (n - 1) = some (entry N ts n.toNat) := by
  obtain ⟨k, rfl⟩ := Int.eq_ofNat_of_zero_le hpos.le
  exact h.load k (by omega) (by omega)

/-- **Nothing goes wrong when the fortunes are printed.** -/
theorem print_eq {ts : List Bytes} {fortunes : List (Option Bytes)} (h : Parsed N ts fortunes) (op : Bool) (mode : Mode)
    (hmode : mode.n ≤ N) : print N op fortunes mode = some (printed N op ts mode) := by
  cases mode with
  | number n pos =>
    rw [print, h.load_eq pos hmode]
    rfl
  | batch bp =>
    have hline : printLine N op fortunes = fun intBuffer => pure (printedLine N op ts intBuffer) := by
      funext intBuffer
      rw [printLine, printedLine]
      by_cases hno : atoi intBuffer ≤ 0 ∨ N < atoi intBuffer
      · rw [if_pos hno, if_pos hno]
        rfl
      · rw [if_neg hno, if_neg hno, h.load_eq (by omega) (by omega)]
        rfl
    rw [print, hline, List.mapM_pure]
    rfl

/-! ### The whole run -/

/-- The number of fortunes in the header. -/
def declared (fp : Bytes) : ℤ := atoi (fgetsInt [] fp).taken

/-- The second line of the header, and what is behind it. -/
def second (fp : Bytes) : Read UInt8 := fgetsInt (fgetsInt [] fp).taken (fgetsInt [] fp).rest

/-- `f_max_size`, when the number in the file leaves room for `+ 1`. -/
def bufferSize (fp : Bytes) : ℕ := (max 3 (atoi (second fp).taken + 1)).toNat

/-- **The texts of a file**, as its lines are read. -/
def textsOf (fp : Bytes) : List Bytes := texts (pieces newline (bufferSize fp - 1) (second fp).rest)

/-- The program ends before it parses the fortunes. -/
def Rejected (fp : Bytes) (mode : Mode) : Prop :=
  looksEmpty fp = true ∨ mode.looksEmpty = true ∨ declared fp < mode.n

/-- **The fortunes fit** in what the header declares. -/
structure Bounded (fp : Bytes) (N : ℕ) : Prop where
  declared : declared fp = N
  pos : 0 < N
  size : atoi (second fp).taken < intMax
  fits : Fits (bufferSize fp) N 0 (textsOf fp)

variable {fp : Bytes} {mode : Mode}

theorem bufferSize_pos (fp : Bytes) : 0 < bufferSize fp := by
  rw [bufferSize]
  omega

theorem maxSize_eq (hsize : atoi (second fp).taken < intMax) :
    maxSize (atoi (second fp).taken) = some (bufferSize fp) := by
  rw [maxSize, succInt, if_pos hsize, Option.map_some, bufferSize]
  split_ifs with h
  · rw [max_eq_left (by omega)]
  · rw [max_eq_right (by omega)]

theorem badgerFortune_of_rejected (h : Rejected fp mode) (op : Bool) :
    ∃ message, badgerFortune fp mode op = some (.error message) := by
  rw [badgerFortune]
  rcases h with h | h | h
  · rw [if_pos h]
    exact ⟨_, rfl⟩
  · rw [if_pos h]
    split_ifs <;> exact ⟨_, rfl⟩
  · change atoi _ < _ at h
    dsimp only
    rw [if_pos h]
    split_ifs <;> exact ⟨_, rfl⟩

theorem badgerFortune_of_not_rejected (h : ¬ Rejected fp mode) (op : Bool) :
    badgerFortune fp mode op = (maxSize (atoi (second fp).taken)).bind fun fMaxSize =>
      (parse (declared fp) fMaxSize (second fp).rest).bind fun fortunes =>
        (print (declared fp) op fortunes mode).map .printed := by
  rw [Rejected, not_or, not_or] at h
  obtain ⟨hfp, hmode, hn⟩ := h
  rw [badgerFortune, if_neg hfp, if_neg hmode]
  exact if_neg hn

/-- **Fortunes that fit are printed.** -/
theorem badgerFortune_of_bounded (h : Bounded fp N) (hrun : ¬ Rejected fp mode) (op : Bool) :
    badgerFortune fp mode op = some (.printed (printed N op (textsOf fp) mode)) := by
  obtain ⟨fortunes, hparse, hparsed⟩ := parse_eq h.pos (bufferSize_pos fp) (second fp).rest h.fits
  have hn : mode.n ≤ N := by
    rw [Rejected, not_or, not_or, h.declared] at hrun
    omega
  rw [badgerFortune_of_not_rejected hrun, maxSize_eq h.size, Option.bind_some, h.declared, hparse, Option.bind_some,
    print_eq hparsed op mode hn]
  rfl

/-- **Otherwise the run goes wrong**, unless it ends before. -/
theorem badgerFortune_of_not_bounded (h : ¬ ∃ N, Bounded fp N) (hrun : ¬ Rejected fp mode) (op : Bool) :
    badgerFortune fp mode op = none := by
  rw [badgerFortune_of_not_rejected hrun]
  by_cases hsize : atoi (second fp).taken < intMax
  · rw [maxSize_eq hsize, Option.bind_some]
    have hparse : parse (declared fp) (bufferSize fp) (second fp).rest = none := by
      rcases le_or_gt (declared fp) 0 with hle | hpos
      · exact parse_of_nonpos hle _
      · obtain ⟨N, hN⟩ := Int.eq_ofNat_of_zero_le hpos.le
        rw [hN]
        refine parse_eq_none (by omega) (bufferSize_pos fp) _ fun hfits => h ⟨N, hN, by omega, hsize, hfits⟩
    rw [hparse, Option.bind_none]
  · rw [maxSize, succInt, if_neg hsize]
    rfl

end OperatingSystems.Fortunes.Parser
