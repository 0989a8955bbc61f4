import Mathlib.Tactic

/-! # Windows of arrays

An array of cells is a function of the index. `splice f lo n g` is the array `f` with the first `n` cells of `g`
in place of those from index `lo` on. A window that is filled piece after piece is filled as a whole
(`splice_append`). -/

namespace OperatingSystems.Lib.Splice

variable {α : Type*} {f f' g g' : ℕ → α} {lo n m i k : ℕ}

/-- The array `f` with `n` cells of `g` from index `lo` on. -/
def splice (f : ℕ → α) (lo n : ℕ) (g : ℕ → α) (i : ℕ) : α := if lo ≤ i ∧ i < lo + n then g (i - lo) else f i

theorem splice_of_mem (h : lo ≤ i) (h' : i < lo + n) : splice f lo n g i = g (i - lo) := if_pos ⟨h, h'⟩

theorem splice_of_lt (h : i < lo) : splice f lo n g i = f i := if_neg (by omega)

theorem splice_of_ge (h : lo + n ≤ i) : splice f lo n g i = f i := if_neg (by omega)

theorem splice_add (h : k < n) : splice f lo n g (lo + k) = g k := by
  rw [splice_of_mem (by omega) (by omega), Nat.add_sub_cancel_left]

@[simp] theorem splice_zero : splice f lo 0 g = f := funext fun _ => if_neg (by omega)

/-- Only the window counts. -/
theorem splice_congr (h : ∀ k < n, g k = g' k) : splice f lo n g = splice f lo n g' := by
  funext i
  unfold splice
  split_ifs with hi
  · exact h _ (by omega)
  · rfl

/-- **One window after the other.** -/
theorem splice_append :
    splice (splice f lo m g) (lo + m) n (fun k => g (m + k)) = splice f lo (m + n) g := by
  funext i
  by_cases h1 : i < lo
  · have hlt : i < lo + m := by omega
    rw [splice_of_lt hlt, splice_of_lt h1, splice_of_lt h1]
  have hge := not_lt.mp h1
  by_cases h2 : i < lo + m
  · have hlt : i < lo + (m + n) := by omega
    rw [splice_of_lt h2, splice_of_mem hge h2, splice_of_mem hge hlt]
  have hge' := not_lt.mp h2
  by_cases h3 : i < lo + (m + n)
  · have hlt : i < lo + m + n := by omega
    rw [splice_of_mem hge h3, splice_of_mem hge' hlt]
    congr 1
    omega
  · have hout : lo + m + n ≤ i := by omega
    rw [splice_of_ge hout, splice_of_ge hge', splice_of_ge (not_lt.mp h3)]

end OperatingSystems.Lib.Splice
