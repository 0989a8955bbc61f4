import Mathlib.Tactic

/-! # Tables of names

A table gives each of its places the name of a resource, or 0 for none, and a mark says which resources are
in use. `Exclusive`: no resource has two places, and those that have one are in use. It is kept when a
place takes a resource that no place has (`Exclusive.take`), when a place gives its resource back
(`Exclusive.drop`), and when places merely forget theirs (`Exclusive.forget`). -/

namespace OperatingSystems.Lib.Naming

variable {ι ν : Type*} [Zero ν]

/-- No name but 0 occurs twice, and every other name is in use. -/
structure Exclusive (name : ι → ν) (used : ν → Prop) : Prop where
  inj : ∀ i j, name i ≠ 0 → name i = name j → i = j
  used : ∀ i, name i ≠ 0 → used (name i)

variable {name name' : ι → ν} {used used' : ν → Prop} {i : ι} {v : ν}

/-- Places forget their names, and more is in use. -/
theorem Exclusive.forget (h : Exclusive name used) (hname : ∀ i, name' i = 0 ∨ name' i = name i)
    (hused : ∀ v, used v → used' v) : Exclusive name' used' := by
  have hkept : ∀ i, name' i ≠ 0 → name' i = name i := fun i hi => (hname i).resolve_left hi
  refine ⟨fun i j hi hij => ?_, fun i hi => ?_⟩
  · have hi' := hkept i hi
    have hj' := hkept j (hij ▸ hi)
    exact h.inj i j (hi' ▸ hi) (hi'.symm.trans (hij.trans hj'))
  · have hi' := hkept i hi
    rw [hi']
    exact hused _ (h.used i (hi' ▸ hi))

/-- A place takes a name that no place has. -/
theorem Exclusive.take (h : Exclusive name used) (hv : ∀ j, name j ≠ v) (hi : name' i = v)
    (hother : ∀ j, j ≠ i → name' j = 0 ∨ name' j = name j) (hused : ∀ w, used w → used' w)
    (hv' : used' v) : Exclusive name' used' := by
  have hkept : ∀ j, j ≠ i → name' j ≠ 0 → name' j = name j := fun j hj => (hother j hj).resolve_left
  refine ⟨fun j k hj hjk => ?_, fun j hj => ?_⟩
  · have hk : name' k ≠ 0 := hjk ▸ hj
    by_cases hji : j = i <;> by_cases hki : k = i
    · rw [hji, hki]
    · exact absurd ((hkept k hki hk).symm.trans (hjk.symm.trans (hji ▸ hi))) (hv k)
    · exact absurd ((hkept j hji hj).symm.trans (hjk.trans (hki ▸ hi))) (hv j)
    · have hj' := hkept j hji hj
      exact h.inj j k (hj' ▸ hj) (hj'.symm.trans (hjk.trans (hkept k hki hk)))
  · by_cases hji : j = i
    · rw [hji, hi]
      exact hv'
    · have hj' := hkept j hji hj
      rw [hj']
      exact hused _ (h.used j (hj' ▸ hj))

/-- A place gives its name back. -/
theorem Exclusive.drop (h : Exclusive name used) (hi' : name' i = 0)
    (hother : ∀ j, j ≠ i → name' j = 0 ∨ name' j = name j)
    (hused : ∀ w, used w → w ≠ name i → used' w) : Exclusive name' used' := by
  have hkept : ∀ j, name' j ≠ 0 → j ≠ i ∧ name' j = name j := by
    intro j hj
    have hji : j ≠ i := fun hji => hj (hji ▸ hi')
    exact ⟨hji, (hother j hji).resolve_left hj⟩
  refine ⟨fun j k hj hjk => ?_, fun j hj => ?_⟩
  · obtain ⟨-, hj'⟩ := hkept j hj
    obtain ⟨-, hk'⟩ := hkept k (hjk ▸ hj)
    exact h.inj j k (hj' ▸ hj) (hj'.symm.trans (hjk.trans hk'))
  · obtain ⟨hji, heq⟩ := hkept j hj
    rw [heq] at hj ⊢
    exact hused _ (h.used j hj) fun hsame => hji (h.inj j i hj hsame)

end OperatingSystems.Lib.Naming
