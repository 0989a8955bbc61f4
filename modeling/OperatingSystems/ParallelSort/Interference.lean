import OperatingSystems.ParallelSort.Psort

/-! # The sorting threads do not interfere

`main` of `psort.c` cuts the records into ranges, one for each thread, and every thread calls `merge_sort` on its
range of the shared `keys` and `temp`. The ranges have no position in common and leave none out, also when there are
more threads than records, and then all but the last are empty.

* `splits`: the ranges.
* `alike`: the threads one after the other, in any order, or together, access by access. -/

namespace OperatingSystems.ParallelSort

open Lib.Interleave Lib.Interleave.Prog Lib.Transition

variable {n m : ℕ}

/-- The positions of thread `i`. -/
def threadRange (n m : ℕ) (i : Fin m) : Set ℕ := Set.Ico (startOf n m i) (endOf n m i)

/-- The ranges are those of a cut of the first `n` positions. -/
structure Splits (n m : ℕ) : Prop where
  le : ∀ i : Fin m, startOf n m i ≤ endOf n m i
  disjoint : ∀ i j : Fin m, i ≠ j → ∀ p ∈ threadRange n m i, p ∉ threadRange n m j
  cover : ⋃ i : Fin m, threadRange n m i = Set.Ico 0 n

theorem mem_threadRange {i : Fin m} {p : ℕ} :
    p ∈ threadRange n m i ↔ bound n m i ≤ p ∧ p < bound n m (i + 1) := by
  rw [threadRange, startOf_eq_bound i.isLt, endOf_eq_bound i.isLt, Set.mem_Ico]

theorem bound_self (n m : ℕ) : bound n m m = n := if_pos rfl

/-- A position below a bound is in one of the ranges before it. -/
theorem exists_mem_threadRange (hm : 0 < m) {p : ℕ} :
    ∀ {k : ℕ}, k ≤ m → p < bound n m k → ∃ i : Fin m, p ∈ threadRange n m i
  | 0, _, hp => by
    rw [bound_zero hm] at hp
    exact absurd hp (Nat.not_lt_zero p)
  | k + 1, hk, hp => by
    rcases Nat.lt_or_ge p (bound n m k) with hlt | hge
    · exact exists_mem_threadRange hm (by omega) hlt
    · exact ⟨⟨k, hk⟩, mem_threadRange.mpr ⟨hge, hp⟩⟩

/-- **The ranges of `main`** do not meet, and there is no position out of them. -/
theorem splits (hm : 0 < m) : Splits n m where
  le i := by
    rw [startOf_eq_bound i.isLt, endOf_eq_bound i.isLt]
    exact bound_le_succ i.isLt
  disjoint i j hij p hi hj := by
    refine hij ((apart_sortThread (n := n)).disjoint i j (.keys p) ?_ ?_)
    · exact keys_mem_cells.mpr hi
    · exact keys_mem_cells.mpr hj
  cover := by
    ext p
    rw [Set.mem_iUnion, Set.mem_Ico]
    constructor
    · rintro ⟨i, hi⟩
      have hle := bound_mono (n := n) (show (i : ℕ) + 1 ≤ m from i.isLt) le_rfl
      rw [bound_self] at hle
      exact ⟨Nat.zero_le p, (mem_threadRange.mp hi).2.trans_le hle⟩
    · rintro ⟨-, hp⟩
      exact exists_mem_threadRange hm le_rfl (by rwa [bound_self])

/-- **The threads one after the other**, as `main` starts them. -/
def oneByOne (n m : ℕ) (s : Cell → KeyIndex) : Cell → KeyIndex := inTurn (sortThread n m) (List.finRange m) s

/-- The threads together, and the cells after the accesses of `is`. -/
def Together (n m : ℕ) (s : Cell → KeyIndex) (is : List (Fin m)) (c : Config (Fin m) Cell KeyIndex) : Prop :=
  (threads (sortThread n m) s).Run ⟨sortThread n m, s⟩ is c

/-- **Whatever the order of the calls or of their accesses**, all runs end, and with the same arrays. -/
structure Alike (n m : ℕ) (s : Cell → KeyIndex) : Prop where
  inTurn : ∀ order, order.Perm (List.finRange m) → inTurn (sortThread n m) order s = oneByOne n m s
  ends : ∃ k, ∀ is c, Together n m s is c → is.length ≤ k
  goesOn : ∀ is c, Together n m s is c → ¬ c.Done → ∃ i c', c.next i = some c'
  together : ∀ is c, Together n m s is c → c.Done → c.store = oneByOne n m s

theorem alike (n m : ℕ) (s : Cell → KeyIndex) : Alike n m s := by
  have hstart : (threads (sortThread n m) s).Reachable ⟨sortThread n m, s⟩ := .init rfl
  have hone : ∀ {c}, (threads (sortThread n m) s).Reachable c → c.Done → c.store = oneByOne n m s := fun hc hd =>
    apart_sortThread.done_eq_inTurn hc hd (List.nodup_finRange m) List.mem_finRange
  refine ⟨fun order horder => ?_, ⟨Config.left ⟨sortThread n m, s⟩, fun is c hr => ?_⟩,
    fun is c _ hd => Config.exists_next hd, fun is c hr hd => hone (hstart.run hr) hd⟩
  · obtain ⟨c, hc, hd⟩ := exists_done (s := s) (apart_sortThread (n := n) (m := m))
    rw [← hone hc hd]
    refine (apart_sortThread.done_eq_inTurn hc hd (horder.nodup_iff.mpr (List.nodup_finRange m)) fun i => ?_).symm
    exact horder.mem_iff.mpr (List.mem_finRange i)
  · have hleft := apart_sortThread.left_run hstart hr
    omega

/-- **The sorting threads do not interfere.** -/
theorem sortThreads_apart (n : ℕ) {m : ℕ} (hm : 0 < m) : Splits n m ∧
    (∀ start last, start ≤ last → (mergeSort start last).Within (cells start last) fun _ => True) ∧
    ∀ s, Alike n m s :=
  ⟨splits hm, fun _ _ _ => mergeSort_within, alike n m⟩

/-- Five threads for three records. -/
theorem sortThreads_apart_five : 0 < 5 ∧ Splits 3 5 ∧ ∀ s, Alike 3 5 s := by
  obtain ⟨hsplits, -, halike⟩ := sortThreads_apart 3 (by decide : 0 < 5)
  exact ⟨by decide, hsplits, halike⟩

end OperatingSystems.ParallelSort
