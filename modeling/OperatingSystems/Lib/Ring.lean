import Mathlib.Tactic

/-! # Ring buffers with free-running counters

A ring of `n` cells and two counters of `w` bits, which are only ever incremented and wrap around; cell
`k % n` is that of the `k`th entry. `Holds` says which entries are in it. It needs `n` to divide `2 ^ w`, so
that a wrap of a counter does not move the cells.

* `Holds.eq_iff`, `Holds.full_iff`: the tests for an empty and for a full ring.
* `Holds.push`, `Holds.pop`: the two operations. -/

namespace OperatingSystems.Lib.Ring

variable {α : Type*} {w n : ℕ} {cell : ℕ → α} {first next : BitVec w} {xs : List α} {x : α}

/-- The ring holds `xs`, the oldest entry first. -/
structure Holds (n : ℕ) (cell : ℕ → α) (first next : BitVec w) (xs : List α) : Prop where
  count : next = first + BitVec.ofNat w xs.length
  le : xs.length ≤ n
  cell : ∀ i (h : i < xs.length), cell ((first.toNat + i) % n) = xs[i]

theorem toNat_add_ofNat_mod (hn : n ∣ 2 ^ w) (a : BitVec w) (k : ℕ) :
    (a + BitVec.ofNat w k).toNat % n = (a.toNat + k) % n := by
  rw [BitVec.toNat_add, BitVec.toNat_ofNat, Nat.add_mod_mod, Nat.mod_mod_of_dvd _ hn]

theorem holds_nil : Holds n cell first first [] where
  count := by simp
  le := Nat.zero_le n
  cell i h := absurd h (Nat.not_lt_zero i)

namespace Holds

/-- The difference of the counters is the number of entries. -/
theorem toNat_sub (h : Holds n cell first next xs) (hlt : n < 2 ^ w) : (next - first).toNat = xs.length := by
  have hle := h.le
  rw [h.count, BitVec.add_comm, BitVec.add_sub_cancel, BitVec.toNat_ofNat, Nat.mod_eq_of_lt (by omega)]

theorem count_iff {m : ℕ} (h : Holds n cell first next xs) (hlt : n < 2 ^ w) (hm : m ≤ n) :
    next = first + BitVec.ofNat w m ↔ xs.length = m := by
  have hsub := h.toNat_sub hlt
  constructor
  · rintro rfl
    rwa [BitVec.add_comm, BitVec.add_sub_cancel, BitVec.toNat_ofNat, Nat.mod_eq_of_lt (by omega), eq_comm] at hsub
  · rintro rfl
    exact h.count

/-- **The ring is empty** when the counters agree. -/
theorem eq_iff (h : Holds n cell first next xs) (hlt : n < 2 ^ w) : first = next ↔ xs = [] := by
  have h0 := h.count_iff hlt (Nat.zero_le n)
  rw [BitVec.add_zero] at h0
  rw [eq_comm, h0, List.length_eq_zero_iff]

/-- **The ring is full** when they differ by its size. -/
theorem full_iff (h : Holds n cell first next xs) (hlt : n < 2 ^ w) :
    next = first + BitVec.ofNat w n ↔ xs.length = n := h.count_iff hlt le_rfl

/-- **A new entry.** -/
theorem push (h : Holds n cell first next xs) (hn : n ∣ 2 ^ w) (hlt : xs.length < n) :
    Holds n (Function.update cell (next.toNat % n) x) first (next + 1) (xs ++ [x]) := by
  have hpos : next.toNat % n = (first.toNat + xs.length) % n := by
    rw [h.count, toNat_add_ofNat_mod hn]
  refine ⟨?_, by rw [List.length_append, List.length_singleton]; omega, fun i hi => ?_⟩
  · rw [h.count, List.length_append, List.length_singleton, BitVec.ofNat_add, BitVec.add_assoc]
    rfl
  · rw [hpos]
    rcases Nat.lt_or_ge i xs.length with hlt' | hge
    · rw [Function.update_of_ne, List.getElem_append_left hlt', h.cell i hlt']
      intro heq
      have hmod := (Nat.ModEq.add_left_cancel' (first.toNat) heq : i ≡ xs.length [MOD n])
      have := hmod.eq_of_lt_of_lt (by omega) hlt
      omega
    · have hlen : i = xs.length := by
        rw [List.length_append, List.length_singleton] at hi
        omega
      subst hlen
      rw [Function.update_self, List.getElem_concat_length rfl]

/-- **The oldest entry** leaves. -/
theorem pop (h : Holds n cell first next (x :: xs)) (hn : n ∣ 2 ^ w) :
    cell (first.toNat % n) = x ∧ Holds n cell (first + 1) next xs := by
  refine ⟨h.cell 0 (by simp), ?_, ?_, fun i hi => ?_⟩
  · rw [h.count, List.length_cons, Nat.add_comm, BitVec.ofNat_add, BitVec.add_assoc]
    rfl
  · have := h.le
    rw [List.length_cons] at this
    omega
  · have hcell := h.cell (i + 1) (by rw [List.length_cons]; omega)
    rw [List.getElem_cons_succ] at hcell
    rw [← hcell, Nat.add_mod, show (first + 1 : BitVec w) = first + BitVec.ofNat w 1 from rfl,
      toNat_add_ofNat_mod hn, ← Nat.add_mod, Nat.add_assoc, Nat.add_comm 1 i]

end Holds

end OperatingSystems.Lib.Ring
