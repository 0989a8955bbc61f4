import OperatingSystems.Lib.Interleave
import OperatingSystems.Lib.Sorting

/-! # The parallel merge sort

`psort.c`: the threads sort their ranges of `keys` at the same time, sharing `keys` and `temp`, and the
final loop merges the ranges from left to right. Positions stay below `MAX_SIZE`, so the `int`s of the code
are numbers here.

* `merge_spec`, `mergeSort_spec`: what the two functions do to `keys`.
* `mergeSort_within`: they touch their range of `keys` and `temp` only, so that the threads do not meet.
* `psort_stable`: whatever the order of the threads' accesses, the output is the stable sort of the input. -/

namespace OperatingSystems.ParallelSort

open Lib.Interleave Lib.Interleave.Prog Lib.Sorting Lib.Transition

/-- `index` is the offset of the record in the mapped input. -/
structure KeyIndex where
  key : ℤ
  index : ℕ
  deriving DecidableEq

/-- The cells of the two global arrays. -/
inductive Cell where
  | keys (i : ℕ)
  | temp (i : ℕ)
  deriving DecidableEq

abbrev Code := Prog Cell KeyIndex

/-! ### The code -/

/-- The first loop of `merge`; it returns `i`, `j` and `k`. -/
def mergeLoop (mid last i j k : ℕ) : Code (ℕ × ℕ × ℕ) :=
  if i < mid ∧ j < last then do
    let a ← get (.keys i)
    let b ← get (.keys j)
    if a.key ≤ b.key then do
      put (.temp k) (← get (.keys i))
      mergeLoop mid last (i + 1) j (k + 1)
    else do
      put (.temp k) (← get (.keys j))
      mergeLoop mid last i (j + 1) (k + 1)
  else return (i, j, k)
termination_by (mid - i) + (last - j)

/-- The loops of `merge` for what one side has left; they return `k`. -/
def drain (last i k : ℕ) : Code ℕ :=
  if i < last then do
    put (.temp k) (← get (.keys i))
    drain last (i + 1) (k + 1)
  else return k
termination_by last - i

/-- The last loop of `merge`. -/
def copyBack (last i : ℕ) : Code Unit :=
  if i < last then do
    put (.keys i) (← get (.temp i))
    copyBack last (i + 1)
  else return ()
termination_by last - i

def merge (start mid last : ℕ) : Code Unit := do
  let (i, j, k) ← mergeLoop mid last start mid start
  let k ← drain mid i k
  let _ ← drain last j k
  copyBack last start

def mergeSort (start last : ℕ) : Code Unit :=
  if last - start < 2 then return ()
  else do
    mergeSort start (start + (last - start) / 2)
    mergeSort (start + (last - start) / 2) last
    merge start (start + (last - start) / 2) last
termination_by last - start

/-- `params[i].start`. -/
def startOf (numRecords numThreads i : ℕ) : ℕ := i * (numRecords / numThreads)

/-- `params[i].end`. -/
def endOf (numRecords numThreads i : ℕ) : ℕ :=
  if i = numThreads - 1 then numRecords else (i + 1) * (numRecords / numThreads)

def sortThread (numRecords numThreads : ℕ) (i : Fin numThreads) : Code Unit :=
  mergeSort (startOf numRecords numThreads i) (endOf numRecords numThreads i)

/-- The loop of `main` that merges the ranges, with the number of rounds that are left. -/
def mergeRanges (numRecords numThreads : ℕ) : ℕ → ℕ → Code Unit
  | 0, _ => return ()
  | r + 1, i => do
    merge 0 (startOf numRecords numThreads i) (endOf numRecords numThreads i)
    mergeRanges numRecords numThreads r (i + 1)

/-- The `int` in the first four bytes of a record, least byte first. -/
def intAt (data : ℕ → BitVec 8) (o : ℕ) : ℤ :=
  (data (o + 3) ++ data (o + 2) ++ data (o + 1) ++ data o : BitVec 32).toInt

def load (data : ℕ → BitVec 8) (i : ℕ) : KeyIndex := ⟨intAt data (100 * i), 100 * i⟩

/-- The arrays after the records of the mapped input were loaded. (`mmap` refuses an empty file; one without
a whole record loads none.) -/
def loaded (data : ℕ → BitVec 8) (numRecords : ℕ) : Cell → KeyIndex
  | .keys i => if i < numRecords then load data i else ⟨0, 0⟩
  | .temp _ => ⟨0, 0⟩

/-- The mapped output: the records that `keys` points to, and zeros behind them. -/
def written (data : ℕ → BitVec 8) (s : Cell → KeyIndex) (numRecords p : ℕ) : BitVec 8 :=
  if p / 100 < numRecords then data ((s (.keys (p / 100))).index + p % 100) else 0

/-! ### Segments of an array -/

variable {s t : Cell → KeyIndex} {c : ℕ → Cell} {a b i j k e mid last start : ℕ}

/-- The entries from position `a` to before position `b`. -/
def seg (c : ℕ → Cell) (s : Cell → KeyIndex) (a b : ℕ) : List KeyIndex :=
  (List.range' a (b - a)).map fun i => s (c i)

theorem seg_of_le (h : b ≤ a) : seg c s a b = [] := by
  rw [seg, Nat.sub_eq_zero_of_le h, List.range'_zero, List.map_nil]

theorem seg_cons (h : a < b) : seg c s a b = s (c a) :: seg c s (a + 1) b := by
  rw [seg, show b - a = b - (a + 1) + 1 by omega, List.range'_succ, List.map_cons, seg]

theorem seg_append (hab : a ≤ b) (hbe : b ≤ e) : seg c s a b ++ seg c s b e = seg c s a e := by
  have h := List.range'_append_1 (s := a) (m := b - a) (n := e - b)
  rw [show a + (b - a) = b by omega, show b - a + (e - b) = e - a by omega] at h
  rw [seg, seg, seg, ← List.map_append, h]

theorem seg_congr (h : ∀ p, a ≤ p → p < b → s (c p) = t (c p)) : seg c s a b = seg c t a b := by
  unfold seg
  refine List.map_congr_left fun p hp => ?_
  rw [List.mem_range'_1] at hp
  exact h p hp.1 (by omega)

theorem length_seg : (seg c s a b).length = b - a := by
  rw [seg, List.length_map, List.length_range']

/-! ### What `merge` does -/

/-- The merge of two ranges of `keys`. -/
abbrev mergeSeg (s : Cell → KeyIndex) (i mid j last : ℕ) : List KeyIndex :=
  (seg .keys s i mid).merge (seg .keys s j last) (leftFirst KeyIndex.key)

/-- Where the first loop stops, having put the smaller ones of both ranges into `temp` from `k` on. -/
structure Merged (s : Cell → KeyIndex) (mid last i j k : ℕ) (r : ℕ × ℕ × ℕ) (t : Cell → KeyIndex) : Prop where
  keys : ∀ p, t (.keys p) = s (.keys p)
  below : ∀ p < k, t (.temp p) = s (.temp p)
  left : i ≤ r.1 ∧ r.1 ≤ mid
  right : j ≤ r.2.1 ∧ r.2.1 ≤ last
  count : r.2.2 + i + j = k + r.1 + r.2.1
  ended : r.1 = mid ∨ r.2.1 = last
  taken : seg .temp t k r.2.2 ++ mergeSeg s r.1 mid r.2.1 last = mergeSeg s i mid j last

theorem merged_of_end (hi : i ≤ mid) (hj : j ≤ last) (h : i = mid ∨ j = last) :
    Merged s mid last i j k (i, j, k) s where
  keys _ := rfl
  below _ _ := rfl
  left := ⟨le_rfl, hi⟩
  right := ⟨le_rfl, hj⟩
  count := by dsimp only
  ended := h
  taken := by rw [seg_of_le le_rfl, List.nil_append]

theorem mergeLoop_spec (hi : i ≤ mid) (hj : j ≤ last) :
    After (mergeLoop mid last i j k) (Merged s mid last i j k) s := by
  induction hn : (mid - i) + (last - j) generalizing i j k s with
  | zero =>
    rw [mergeLoop, if_neg (by omega)]
    exact after_pure.mpr (merged_of_end hi hj (by omega))
  | succ n ih =>
    rw [mergeLoop]
    split_ifs with h
    swap
    · exact after_pure.mpr (merged_of_end hi hj (by omega))
    refine after_bind.mpr (after_get.mpr (after_bind.mpr (after_get.mpr ?_)))
    -- the entry that goes to `temp`, and what the rest of the loop does from there
    have hstep : ∀ {x : KeyIndex} {i' j' : ℕ}, i ≤ i' → i' ≤ mid → j ≤ j' → j' ≤ last → i' + j' = i + j + 1 →
        mergeSeg s i mid j last = x :: mergeSeg s i' mid j' last →
        After (mergeLoop mid last i' j' (k + 1)) (Merged s mid last i j k) (Function.update s (.temp k) x) := by
      intro x i' j' hi1 hi2 hj1 hj2 hsum hseg
      refine (ih hi2 hj2 (by omega)).mono ?_
      rintro ⟨i₁, j₁, k₁⟩ t ⟨hkeys, hbelow, hleft, hright, hcount, hended, htaken⟩
      dsimp only at hleft hright hcount hended htaken
      have hkeys' : ∀ p, Function.update s (.temp k) x (.keys p) = s (.keys p) := fun p =>
        Function.update_of_ne (by simp) _ _
      have hsame : ∀ a b, seg .keys (Function.update s (.temp k) x) a b = seg .keys s a b := fun a b =>
        seg_congr fun p _ _ => hkeys' p
      refine ⟨fun p => (hkeys p).trans (hkeys' p), fun p hp => ?_, ⟨hi1.trans hleft.1, hleft.2⟩,
        ⟨hj1.trans hright.1, hright.2⟩, by dsimp only; omega, hended, ?_⟩
      · rw [hbelow p (by omega), Function.update_of_ne (by simp; omega)]
      · have hfirst : t (.temp k) = x := by rw [hbelow k (by omega), Function.update_self]
        rw [mergeSeg, mergeSeg, hsame, hsame, hsame, hsame] at htaken
        rw [hseg, seg_cons (by dsimp only; omega), hfirst, List.cons_append, htaken]
    split_ifs with hle
    · refine after_bind.mpr (after_get.mpr (after_bind.mpr (after_put.mpr ?_)))
      refine hstep (by omega) (by omega) (by omega) (by omega) (by omega) ?_
      rw [mergeSeg, seg_cons h.1, seg_cons h.2, List.cons_merge_cons_pos _ _ _ (decide_eq_true hle), mergeSeg,
        seg_cons (a := j) h.2]
    · refine after_bind.mpr (after_get.mpr (after_bind.mpr (after_put.mpr ?_)))
      refine hstep (by omega) (by omega) (by omega) (by omega) (by omega) ?_
      rw [mergeSeg, seg_cons h.1, seg_cons h.2, List.cons_merge_cons_neg _ _ _ (by simpa [leftFirst] using hle),
        mergeSeg, seg_cons (a := i) h.1]

theorem drain_spec : After (drain last i k) (fun r t => r = k + (last - i) ∧ (∀ p, t (.keys p) = s (.keys p)) ∧
    (∀ p < k, t (.temp p) = s (.temp p)) ∧ seg .temp t k r = seg .keys s i last) s := by
  induction hn : last - i generalizing i k s with
  | zero =>
    rw [drain, if_neg (by omega)]
    refine after_pure.mpr ⟨rfl, fun _ => rfl, fun _ _ => rfl, ?_⟩
    rw [seg_of_le le_rfl, seg_of_le (by omega)]
  | succ n ih =>
    rw [drain, if_pos (by omega)]
    refine after_bind.mpr (after_get.mpr (after_bind.mpr (after_put.mpr ?_)))
    refine (ih (i := i + 1) (by omega)).mono ?_
    rintro r t ⟨hr, hkeys, hbelow, hseg⟩
    refine ⟨by omega, fun p => ?_, fun p hp => ?_, ?_⟩
    · rw [hkeys, Function.update_of_ne (by simp)]
    · rw [hbelow p (by omega), Function.update_of_ne (by simp; omega)]
    · rw [seg_cons (a := k) (by omega), seg_cons (a := i) (by omega), hseg, hbelow k (by omega),
        Function.update_self]
      exact congrArg _ (seg_congr fun p _ _ => Function.update_of_ne (by simp) _ _)

theorem copyBack_spec : After (copyBack last i) (fun _ t => ∀ p, i ≤ p → p < last → t (.keys p) = s (.temp p)) s := by
  suffices h : After (copyBack last i) (fun _ t => (∀ p, i ≤ p → p < last → t (.keys p) = s (.temp p)) ∧
      ∀ p < i, t (.keys p) = s (.keys p)) s from h.mono fun _ _ h' => h'.1
  induction hn : last - i generalizing i s with
  | zero =>
    rw [copyBack, if_neg (by omega)]
    exact after_pure.mpr ⟨fun p h1 h2 => by omega, fun _ _ => rfl⟩
  | succ n ih =>
    rw [copyBack, if_pos (by omega)]
    refine after_bind.mpr (after_get.mpr (after_bind.mpr (after_put.mpr ?_)))
    refine (ih (i := i + 1) (by omega)).mono ?_
    rintro _ t ⟨hcopied, hbelow⟩
    refine ⟨fun p hlo hhi => ?_, fun p hp => ?_⟩
    · rcases Nat.eq_or_lt_of_le hlo with rfl | hlt
      · rw [hbelow i (by omega), Function.update_self]
      · rw [hcopied p (by omega) hhi, Function.update_of_ne (by simp)]
    · rw [hbelow p (by omega), Function.update_of_ne (by simp; omega)]

/-- **`merge`** merges the two ranges. -/
theorem merge_spec (h1 : start ≤ mid) (h2 : mid ≤ last) :
    After (merge start mid last) (fun _ t => seg .keys t start last = mergeSeg s start mid mid last) s := by
  unfold merge
  refine (mergeLoop_spec h1 h2).bind ?_
  rintro ⟨i, j, k⟩ s₁ ⟨hkeys₁, -, hleft, hright, hcount, hended, htaken⟩
  dsimp only at hleft hright hcount hended htaken ⊢
  refine drain_spec.bind ?_
  rintro k₂ s₂ ⟨hk₂, hkeys₂, hbelow₂, hseg₂⟩
  refine drain_spec.bind ?_
  rintro k₃ s₃ ⟨hk₃, -, hbelow₃, hseg₃⟩
  refine copyBack_spec.mono fun _ t ht => ?_
  have hend : k₃ = last := by omega
  -- `temp` from `start` on: what the first loop took, then what was left of either range
  have hpart₁ : seg .temp s₃ start k = seg .temp s₁ start k := seg_congr fun p _ hp => by
    rw [hbelow₃ p (by omega), hbelow₂ p hp]
  have hpart₂ : seg .temp s₃ k k₂ = seg .keys s i mid := by
    rw [seg_congr fun p _ hp => hbelow₃ p hp, hseg₂]
    exact seg_congr fun p _ _ => hkeys₁ p
  have hpart₃ : seg .temp s₃ k₂ k₃ = seg .keys s j last := by
    rw [hseg₃]
    exact seg_congr fun p _ _ => (hkeys₂ p).trans (hkeys₁ p)
  have hrest : mergeSeg s i mid j last = seg .keys s i mid ++ seg .keys s j last := by
    rcases hended with rfl | rfl
    · rw [mergeSeg, seg_of_le le_rfl, List.nil_merge, List.nil_append]
    · rw [mergeSeg, seg_of_le (a := j) le_rfl, List.merge_right, List.append_nil]
  calc seg .keys t start last = seg .temp s₃ start k₃ := by
        rw [hend]
        unfold seg
        refine List.map_congr_left fun p hp => ?_
        rw [List.mem_range'_1] at hp
        exact ht p hp.1 (by omega)
    _ = seg .temp s₁ start k ++ (seg .keys s i mid ++ seg .keys s j last) := by
        rw [← seg_append (b := k) (by omega) (by omega), ← seg_append (a := k) (b := k₂) (by omega) (by omega),
          hpart₁, hpart₂, hpart₃]
    _ = mergeSeg s start mid mid last := by rw [← hrest, htaken]

/-! ### Which cells are touched -/

/-- The cells of the positions from `a` to before `b`. -/
def cells (a b : ℕ) : Set Cell := {x | ∃ p, (a ≤ p ∧ p < b) ∧ (x = .keys p ∨ x = .temp p)}

theorem keys_mem_cells : Cell.keys i ∈ cells a b ↔ a ≤ i ∧ i < b := by
  simp [cells]

theorem temp_mem_cells : Cell.temp i ∈ cells a b ↔ a ≤ i ∧ i < b := by
  simp [cells]

theorem cells_mono {a' b' : ℕ} (ha : a' ≤ a) (hb : b ≤ b') : cells a b ⊆ cells a' b' := by
  rintro x ⟨p, hp, hx⟩
  exact ⟨p, by omega, hx⟩

/-- A move of one entry to `temp`, and what follows. -/
theorem within_move {R : Set Cell} {β : Type} {f : Code β} {P : β → Prop} (hi : Cell.keys i ∈ R)
    (hk : Cell.temp k ∈ R) (hf : f.Within R P) :
    Within R P (do
      put (.temp k) (← get (.keys i))
      f) :=
  (within_get hi).bind fun _ _ => (within_put hk).bind fun _ _ => hf

theorem mergeLoop_within (hi : start ≤ i ∧ i ≤ mid) (hj : mid ≤ j ∧ j ≤ last) (hk : k + mid = i + j) :
    (mergeLoop mid last i j k).Within (cells start last) fun r =>
      (start ≤ r.1 ∧ r.1 ≤ mid) ∧ (mid ≤ r.2.1 ∧ r.2.1 ≤ last) ∧ r.2.2 + mid = r.1 + r.2.1 := by
  induction hn : (mid - i) + (last - j) generalizing i j k with
  | zero =>
    rw [mergeLoop, if_neg (by omega)]
    exact within_pure ⟨hi, hj, hk⟩
  | succ n ih =>
    rw [mergeLoop]
    split_ifs with h
    · refine (within_get (keys_mem_cells.mpr (by omega))).bind fun a _ => ?_
      refine (within_get (keys_mem_cells.mpr (by omega))).bind fun b _ => ?_
      split_ifs
      · exact within_move (keys_mem_cells.mpr (by omega)) (temp_mem_cells.mpr (by omega))
          (ih (by omega) (by omega) (by omega) (by omega))
      · exact within_move (keys_mem_cells.mpr (by omega)) (temp_mem_cells.mpr (by omega))
          (ih (by omega) (by omega) (by omega) (by omega))
    · exact within_pure ⟨hi, hj, hk⟩

theorem drain_within (hi : start ≤ i) (he : e ≤ last) (hk : start ≤ k) (hend : k + (e - i) ≤ last) :
    (drain e i k).Within (cells start last) fun r => r = k + (e - i) := by
  induction hn : e - i generalizing i k with
  | zero =>
    rw [drain, if_neg (by omega)]
    exact within_pure rfl
  | succ n ih =>
    rw [drain, if_pos (by omega)]
    refine within_move (keys_mem_cells.mpr (by omega)) (temp_mem_cells.mpr (by omega)) ?_
    exact (ih (i := i + 1) (by omega) (by omega) (by omega) (by omega)).mono subset_rfl fun r hr => by omega

theorem copyBack_within (hi : start ≤ i) : (copyBack last i).Within (cells start last) fun _ => True := by
  induction hn : last - i generalizing i with
  | zero =>
    rw [copyBack, if_neg (by omega)]
    exact within_pure trivial
  | succ n ih =>
    rw [copyBack, if_pos (by omega)]
    refine (within_get (temp_mem_cells.mpr (by omega))).bind fun _ _ => ?_
    exact (within_put (keys_mem_cells.mpr (by omega))).bind fun _ _ => ih (by omega) (by omega)

theorem merge_within (h1 : start ≤ mid) (h2 : mid ≤ last) :
    (merge start mid last).Within (cells start last) fun _ => True := by
  unfold merge
  refine (mergeLoop_within ⟨le_rfl, h1⟩ ⟨le_rfl, h2⟩ (by omega)).bind ?_
  rintro ⟨i, j, k⟩ ⟨hi, hj, hk⟩
  dsimp only at hi hj hk ⊢
  refine (drain_within hi.1 h2 (by omega) (by omega)).bind ?_
  rintro k₂ rfl
  refine (drain_within (by omega) le_rfl (by omega) (by omega)).bind fun _ _ => ?_
  exact copyBack_within le_rfl

theorem mergeSort_within : (mergeSort start last).Within (cells start last) fun _ => True := by
  induction hn : last - start using Nat.strong_induction_on generalizing start last with
  | _ n ih =>
    rw [mergeSort]
    split_ifs with h
    · exact within_pure trivial
    · refine ((ih _ ?_ rfl).mono (cells_mono le_rfl (by omega)) fun _ h' => h').bind fun _ _ => ?_
      · omega
      refine ((ih _ ?_ rfl).mono (cells_mono (by omega) le_rfl) fun _ h' => h').bind fun _ _ => ?_
      · omega
      exact merge_within (by omega) (by omega)

/-- **`merge_sort`** sorts its range stably. -/
theorem mergeSort_spec (h : start ≤ last) :
    After (mergeSort start last)
      (fun _ t => StableSort KeyIndex.key (seg .keys s start last) (seg .keys t start last)) s := by
  induction hn : last - start using Nat.strong_induction_on generalizing start last s with
  | _ n ih =>
    rw [mergeSort]
    split_ifs with hlt
    · refine after_pure.mpr (stableSort_of_length_le_one ?_)
      rw [length_seg]
      omega
    · have hmid : start ≤ start + (last - start) / 2 ∧ start + (last - start) / 2 ≤ last := by omega
      generalize hm : start + (last - start) / 2 = mid at hmid
      refine ((ih _ (by omega) hmid.1 rfl).and mergeSort_within.after).bind fun _ s₁ ⟨hleft, hframe₁⟩ => ?_
      refine ((ih _ (by omega) hmid.2 rfl).and mergeSort_within.after).bind fun _ s₂ ⟨hright, hframe₂⟩ => ?_
      refine (merge_spec hmid.1 hmid.2).mono fun _ t ht => ?_
      have hleft' : seg .keys s₂ start mid = seg .keys s₁ start mid := seg_congr fun p _ hp =>
        hframe₂ _ fun hmem => by
          have := keys_mem_cells.mp hmem
          omega
      have hright' : seg .keys s₁ mid last = seg .keys s mid last := seg_congr fun p hp _ =>
        hframe₁ _ fun hmem => by
          have := keys_mem_cells.mp hmem
          omega
      rw [hright'] at hright
      rw [ht, mergeSeg, hleft', ← seg_append hmid.1 hmid.2]
      exact hleft.merge hright

/-! ### The ranges of the threads -/

variable {n m : ℕ}

/-- Where the range of thread `i` begins, and for `i = m` where the last one ends. -/
def bound (n m i : ℕ) : ℕ := if i = m then n else startOf n m i

theorem startOf_eq_bound (hi : i < m) : startOf n m i = bound n m i := by
  rw [bound, if_neg (by omega)]

theorem endOf_eq_bound (hi : i < m) : endOf n m i = bound n m (i + 1) := by
  rw [endOf, bound]
  by_cases h : i = m - 1
  · rw [if_pos h, if_pos (by omega)]
  · rw [if_neg h, if_neg (by omega), startOf]

theorem bound_le_succ (hi : i < m) : bound n m i ≤ bound n m (i + 1) := by
  rw [bound, bound, if_neg (by omega)]
  split_ifs with h
  · calc i * (n / m) ≤ m * (n / m) := Nat.mul_le_mul_right _ hi.le
      _ ≤ n := Nat.mul_div_le n m
  · exact Nat.mul_le_mul_right _ (Nat.le_succ i)

theorem bound_mono (hij : i ≤ j) (hj : j ≤ m) : bound n m i ≤ bound n m j := by
  induction j, hij using Nat.le_induction with
  | base => exact le_rfl
  | succ j hij ih => exact (ih (by omega)).trans (bound_le_succ (by omega))

theorem bound_zero (hm : 0 < m) : bound n m 0 = 0 := by
  rw [bound, if_neg (by omega), startOf, Nat.zero_mul]

/-- The threads do not meet. -/
theorem apart_sortThread :
    Apart (fun i : Fin m => cells (startOf n m i) (endOf n m i)) (sortThread n m) := by
  refine ⟨fun i => mergeSort_within, ?_⟩
  have hlt : ∀ i j : Fin m, i < j → ∀ x ∈ cells (startOf n m i) (endOf n m i),
      x ∉ cells (startOf n m j) (endOf n m j) := by
    rintro i j hij x ⟨p, ⟨-, hp⟩, hx⟩ ⟨q, ⟨hq, -⟩, hx'⟩
    have hpq : p = q := by
      rcases hx with rfl | rfl <;> simpa using hx'
    rw [endOf_eq_bound i.isLt] at hp
    rw [startOf_eq_bound j.isLt] at hq
    have := bound_mono (n := n) (m := m) (show (i : ℕ) + 1 ≤ j from hij) j.isLt.le
    omega
  intro i j x hi hj
  rcases lt_trichotomy i j with h | h | h
  · exact absurd hj (hlt i j h x hi)
  · exact h
  · exact absurd hi (hlt j i h x hj)

/-- **The final loop**: when the ranges are sorted, so are more and more of them together. -/
theorem mergeRanges_spec {r : ℕ} {u v : Cell → KeyIndex} (hr : r + i = m)
    (hranges : ∀ j < m, StableSort KeyIndex.key (seg .keys u (bound n m j) (bound n m (j + 1)))
      (seg .keys v (bound n m j) (bound n m (j + 1))))
    (hsorted : StableSort KeyIndex.key (seg .keys u 0 (bound n m i)) (seg .keys s 0 (bound n m i)))
    (hrest : ∀ p, bound n m i ≤ p → s (.keys p) = v (.keys p)) :
    After (mergeRanges n m r i)
      (fun _ t => StableSort KeyIndex.key (seg .keys u 0 n) (seg .keys t 0 n)) s := by
  induction r generalizing i s with
  | zero =>
    rw [bound, if_pos (by omega)] at hsorted
    exact after_pure.mpr hsorted
  | succ r ih =>
    have hi : i < m := by omega
    rw [mergeRanges, startOf_eq_bound hi, endOf_eq_bound hi]
    have hle := bound_le_succ (n := n) hi
    refine ((merge_spec (Nat.zero_le _) hle).and (merge_within (Nat.zero_le _) hle).after).bind ?_
    rintro _ t ⟨hmerged, hframe⟩
    refine ih (by omega) ?_ fun p hp => ?_
    · rw [hmerged, mergeSeg, ← seg_append (Nat.zero_le _) hle]
      refine hsorted.merge ?_
      rw [seg_congr fun p hp _ => hrest p hp]
      exact hranges i hi
    · rw [hframe _ fun hmem => ?_]
      · exact hrest p (by omega)
      · have := keys_mem_cells.mp hmem
        omega

/-! ### The whole program -/

/-- The records of a file, of 100 bytes each. -/
def records (data : ℕ → BitVec 8) (n : ℕ) : List (List (BitVec 8)) :=
  (List.range n).map fun i => (List.range 100).map fun o => data (100 * i + o)

/-- The key of a record. -/
def recordKey (r : List (BitVec 8)) : ℤ := intAt (fun o => r.getD o 0) 0

/-- `keys` and the output after a run are the stable sort of the input. -/
structure Sorted (data : ℕ → BitVec 8) (n : ℕ) (t : Cell → KeyIndex) : Prop where
  keys : StableSort KeyIndex.key ((List.range n).map (load data)) (seg .keys t 0 n)
  output : StableSort recordKey (records data n) (records (written data t n) n)

theorem seg_loaded {data : ℕ → BitVec 8} : seg .keys (loaded data n) 0 n = (List.range n).map (load data) := by
  rw [seg, Nat.sub_zero, ← List.range_eq_range']
  refine List.map_congr_left fun p hp => ?_
  rw [loaded, if_pos (List.mem_range.mp hp)]

/-- The output holds the records that `keys` points to. -/
theorem records_written {data : ℕ → BitVec 8} :
    records (written data t n) n =
      (seg .keys t 0 n).map fun x => (List.range 100).map fun o => data (x.index + o) := by
  rw [seg, Nat.sub_zero, ← List.range_eq_range', List.map_map, records]
  refine List.map_congr_left fun i hi => ?_
  rw [Function.comp_apply]
  refine List.map_congr_left fun o ho => ?_
  have hi' := List.mem_range.mp hi
  have ho' := List.mem_range.mp ho
  rw [written, show (100 * i + o) / 100 = i by omega, show (100 * i + o) % 100 = o by omega, if_pos hi']

theorem sorted_of_keys {data : ℕ → BitVec 8}
    (h : StableSort KeyIndex.key (seg .keys (loaded data n) 0 n) (seg .keys t 0 n)) : Sorted data n t := by
  rw [seg_loaded] at h
  refine ⟨h, ?_⟩
  have hmap := h.map (f := fun x : KeyIndex => (List.range 100).map fun o => data (x.index + o)) recordKey
    fun x hx => ?_
  · rw [records_written]
    rwa [List.map_map] at hmap
  · obtain ⟨i, -, rfl⟩ := List.mem_map.mp hx
    rfl

/-- **`psort` sorts stably**, with any number of threads and in whatever order they access the arrays; and
the threads can all return. -/
theorem psort_stable (data : ℕ → BitVec 8) (n : ℕ) {m : ℕ} (hm : 0 < m) :
    (∃ c, (threads (sortThread n m) (loaded data n)).Reachable c ∧ c.Done) ∧
      ∀ c, (threads (sortThread n m) (loaded data n)).Reachable c → c.Done →
        After (mergeRanges n m m 0) (fun _ t => Sorted data n t) c.store := by
  refine ⟨exists_done apart_sortThread, fun c hc hd => ?_⟩
  obtain ⟨hstore, -⟩ := done_store apart_sortThread hc hd
  refine (mergeRanges_spec (u := loaded data n) (v := c.store) (by omega) (fun j hj => ?_) ?_ fun _ _ => rfl).mono
    fun _ t ht => sorted_of_keys ht
  · have hspec := mergeSort_spec (s := loaded data n) (bound_le_succ hj : bound n m j ≤ bound n m (j + 1))
    have hsame := hstore ⟨j, hj⟩
    simp only [sortThread, startOf_eq_bound hj, endOf_eq_bound hj] at hsame
    rw [seg_congr fun p hlo hhi => hsame (.keys p) (keys_mem_cells.mpr ⟨hlo, hhi⟩)]
    exact hspec
  · rw [bound_zero hm, seg_of_le le_rfl, seg_of_le le_rfl]
    exact stableSort_of_length_le_one (Nat.zero_le _)

/-- More threads than records. -/
theorem psort_stable_moreThreads : (0 < 5) ∧ ∃ c,
    (threads (sortThread 3 5) (loaded (fun p => BitVec.ofNat 8 (7 * p)) 3)).Reachable c ∧
    After (mergeRanges 3 5 5 0) (fun _ t => Sorted (fun p => BitVec.ofNat 8 (7 * p)) 3 t) c.store := by
  obtain ⟨⟨c, hc, hd⟩, hsorted⟩ := psort_stable (fun p => BitVec.ofNat 8 (7 * p)) 3 (by decide : 0 < 5)
  exact ⟨by decide, c, hc, hsorted c hc hd⟩

end OperatingSystems.ParallelSort
