import Mathlib.Tactic

/-! # Stride scheduling with a late charge

A scheduler records a pass for each client and dispatches a client with the least one, but charges the
quantum of the client that ran `last` only at the next dispatch. What a client has used is its *charged*
pass, the recorded one and the outstanding quantum.

A dispatch raises the charged pass of the dispatched client alone, by its stride (`charged_dispatch`).
Because the choice goes by the recorded pass, which lags by up to one stride, two clients stay within two
strides of each other (`gap_dispatch`). -/

namespace OperatingSystems.Lib.LateCharge

/-- The recorded passes, and the client whose quantum is outstanding. -/
structure Account (ι : Type*) where
  recorded : ι → ℤ
  last : ι

variable {ι : Type*} [DecidableEq ι] {stride : ι → ℤ} {a : Account ι} {i j t : ι}

/-- The recorded pass and the outstanding quantum. -/
def Account.charged (stride : ι → ℤ) (a : Account ι) (i : ι) : ℤ :=
  a.recorded i + if i = a.last then stride i else 0

/-- The dispatch of `t`: the client that ran last is charged. -/
def Account.dispatch (stride : ι → ℤ) (a : Account ι) (t : ι) : Account ι where
  recorded := Function.update a.recorded a.last (a.recorded a.last + stride a.last)
  last := t

theorem charged_dispatch :
    (a.dispatch stride t).charged stride i = a.charged stride i + if i = t then stride i else 0 := by
  unfold Account.charged Account.dispatch
  rcases eq_or_ne i a.last with rfl | hi
  · simp only [Function.update_self, if_true]
  · simp only [Function.update_of_ne hi, if_neg hi, add_zero]

theorem recorded_le_charged (hi : 0 ≤ stride i) : a.recorded i ≤ a.charged stride i := by
  unfold Account.charged
  split_ifs <;> omega

theorem charged_le (hi : 0 ≤ stride i) : a.charged stride i ≤ a.recorded i + stride i := by
  unfold Account.charged
  split_ifs <;> omega

/-- The dispatched client comes at most two strides ahead of another. -/
theorem charged_dispatch_le (hi : 0 ≤ stride i) (hj : 0 ≤ stride j)
    (hle : a.recorded i ≤ a.recorded j) :
    a.charged stride i + stride i ≤ a.charged stride j + 2 * stride i := by
  have h1 := charged_le (a := a) hi
  have h2 := recorded_le_charged (a := a) hj
  omega

/-- **Two clients stay within two strides of each other.** -/
theorem gap_dispatch {M : ℤ} (hi : 0 ≤ stride i) (hj : 0 ≤ stride j) (hiM : stride i ≤ M)
    (hjM : stride j ≤ M) (hti : a.recorded t ≤ a.recorded i) (htj : a.recorded t ≤ a.recorded j)
    (h : |a.charged stride i - a.charged stride j| ≤ 2 * M) :
    |(a.dispatch stride t).charged stride i - (a.dispatch stride t).charged stride j| ≤ 2 * M := by
  rw [charged_dispatch, charged_dispatch]
  obtain ⟨hlo, hhi⟩ := abs_le.mp h
  rcases eq_or_ne i t with rfl | hit <;> rcases eq_or_ne j i with rfl | hji
  · simpa using h
  · have := charged_dispatch_le hi hj htj
    rw [if_pos rfl, if_neg hji]
    exact abs_le.mpr ⟨by omega, by omega⟩
  · simpa using h
  · rcases eq_or_ne j t with rfl | hjt
    · have := charged_dispatch_le hj hi hti
      rw [if_neg hit, if_pos rfl]
      exact abs_le.mpr ⟨by omega, by omega⟩
    · rw [if_neg hit, if_neg hjt, add_zero, add_zero]
      exact h

end OperatingSystems.Lib.LateCharge
