import Mathlib.Data.List.GetD
import Mathlib.Tactic

/-! # Lists laid over an array

An array of cells is a function of the index. `lay f lo xs` is the array `f` with the list `xs` from index
`lo` on, and `At f lo xs` says that the array has the list there. What is laid down is there (`at_lay`),
and stays under lists that do not meet it (`At.lay`). Of many lists that do not meet, all are there
(`at_layAll`). -/

namespace OperatingSystems.Lib.Overlay

variable {α : Type*} {f g : ℕ → α} {lo p i k : ℕ} {xs ys : List α}

/-- The array `f` with the list `xs` from index `lo` on. -/
def lay (f : ℕ → α) (lo : ℕ) (xs : List α) (i : ℕ) : α :=
  if lo ≤ i then xs.getD (i - lo) (f i) else f i

/-- The array has the list from index `lo` on. -/
def At (f : ℕ → α) (lo : ℕ) (xs : List α) : Prop := ∀ i (h : i < xs.length), f (lo + i) = xs[i]

theorem lay_of_lt (h : i < lo) : lay f lo xs i = f i := if_neg (by omega)

theorem lay_of_ge (h : lo + xs.length ≤ i) : lay f lo xs i = f i := by
  unfold lay
  rw [if_pos (by omega), List.getD_eq_default _ _ (by omega)]

theorem lay_of_lt_length (h : i < xs.length) : lay f lo xs (lo + i) = xs[i] := by
  unfold lay
  rw [if_pos (by omega), Nat.add_sub_cancel_left, List.getD_eq_getElem _ _ h]

@[simp] theorem lay_nil : lay f lo [] = f := by
  funext i
  unfold lay
  split_ifs <;> rfl

/-- One list after the other. -/
theorem lay_append : lay f lo (xs ++ ys) = lay (lay f lo xs) (lo + xs.length) ys := by
  funext i
  by_cases h1 : i < lo
  · rw [lay_of_lt h1, lay_of_lt (by omega), lay_of_lt h1]
  by_cases h2 : i < lo + xs.length
  · obtain ⟨k, rfl⟩ := Nat.exists_eq_add_of_le (not_lt.mp h1)
    have hk : k < xs.length := by omega
    rw [lay_of_lt h2, lay_of_lt_length hk, lay_of_lt_length (by rw [List.length_append]; omega),
      List.getElem_append_left hk]
  by_cases h3 : i < lo + (xs ++ ys).length
  · obtain ⟨k, rfl⟩ := Nat.exists_eq_add_of_le (not_lt.mp h2)
    rw [List.length_append] at h3
    have hk : k < ys.length := by omega
    rw [lay_of_lt_length hk, Nat.add_assoc, lay_of_lt_length (by rw [List.length_append]; omega),
      List.getElem_append_right (by omega)]
    simp
  · rw [lay_of_ge (by omega)]
    rw [List.length_append] at h3
    rw [lay_of_ge (by omega), lay_of_ge (by omega)]

theorem at_lay : At (lay f lo xs) lo xs := fun _ h => lay_of_lt_length h

theorem At.congr (h : At f lo xs) (hg : ∀ i, lo ≤ i → i < lo + xs.length → g i = f i) : At g lo xs := by
  intro i hi
  rw [hg _ (by omega) (by omega)]
  exact h i hi

/-- A list stays under one that does not meet it. -/
theorem At.lay (h : At f p xs) (hd : p + xs.length ≤ lo ∨ lo + ys.length ≤ p) :
    At (lay f lo ys) p xs := by
  refine h.congr fun i h1 h2 => ?_
  obtain hlt | hge := hd
  · exact lay_of_lt (by omega)
  · exact lay_of_ge (by omega)

theorem at_append : At f lo (xs ++ ys) ↔ At f lo xs ∧ At f (lo + xs.length) ys := by
  constructor
  · intro h
    refine ⟨fun i hi => ?_, fun i hi => ?_⟩
    · rw [h i (by rw [List.length_append]; omega), List.getElem_append_left hi]
    · rw [Nat.add_assoc, h (xs.length + i) (by rw [List.length_append]; omega),
        List.getElem_append_right (by omega)]
      simp
  · rintro ⟨h1, h2⟩ i hi
    by_cases hlt : i < xs.length
    · rw [h1 i hlt, List.getElem_append_left hlt]
    · rw [List.length_append] at hi
      have h := h2 (i - xs.length) (by omega)
      rw [show lo + xs.length + (i - xs.length) = lo + i by omega] at h
      rw [h, List.getElem_append_right (by omega)]

/-! ### Many lists -/

/-- Lists at their places. -/
abbrev Pieces (α : Type*) := List (ℕ × List α)

variable {ps : Pieces α} {q : ℕ × List α}

/-- The array with each of the lists, one after the other. -/
def layAll (f : ℕ → α) (ps : Pieces α) : ℕ → α := ps.foldl (fun f p => lay f p.1 p.2) f

/-- The lists do not meet. -/
def Apart (p q : ℕ × List α) : Prop := p.1 + p.2.length ≤ q.1 ∨ q.1 + q.2.length ≤ p.1

theorem layAll_of_outside (h : ∀ p ∈ ps, i < p.1 ∨ p.1 + p.2.length ≤ i) : layAll f ps i = f i := by
  induction ps generalizing f with
  | nil => rfl
  | cons p ps ih =>
    rw [layAll, List.foldl_cons]
    refine (ih fun q hq => h q (List.mem_cons_of_mem _ hq)).trans ?_
    rcases h p List.mem_cons_self with hlt | hge
    · exact lay_of_lt hlt
    · exact lay_of_ge hge

theorem At.layAll (h : At f p xs) (hps : ∀ q ∈ ps, Apart (p, xs) q) : At (layAll f ps) p xs := by
  refine h.congr fun i h1 h2 => layAll_of_outside fun q hq => ?_
  rcases hps q hq with hle | hle <;> simp only at hle
  · exact .inl (by omega)
  · exact .inr (by omega)

theorem at_layAll (hd : ps.Pairwise Apart) (hq : q ∈ ps) : At (layAll f ps) q.1 q.2 := by
  induction ps generalizing f with
  | nil => cases hq
  | cons p ps ih =>
    obtain ⟨hp, hps⟩ := List.pairwise_cons.mp hd
    rcases List.mem_cons.mp hq with rfl | hq
    · exact at_lay.layAll hp
    · exact ih hps hq

end OperatingSystems.Lib.Overlay
