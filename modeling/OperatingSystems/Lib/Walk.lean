import Mathlib.Tactic
import Mathlib.Logic.Relation

/-! # Forward walks

A *forward walk* moves over the natural numbers by a function `next` with `a < next a`. `Reach next a b`
says that the walk from `a` comes to `b`; `walk next bound a` lists the positions below `bound`.

* `reach_of_lt`: of two positions a walk comes to, the larger is reached from the one after the smaller.
* `forall_reach_iff`: a walk comes to all positions of an increasing list exactly when it comes to the
  first, and from the position after each to the next one (`Segments`). -/

namespace OperatingSystems.Lib.Walk

/-- The walk from `a` comes to `b`. -/
def Reach (next : ℕ → ℕ) : ℕ → ℕ → Prop := Relation.ReflTransGen fun a b => b = next a

/-- The walk comes to the first position of the list, and from the one after each to the next. -/
def Segments (next : ℕ → ℕ) : ℕ → List ℕ → Prop
  | _, [] => True
  | a, o :: os => Reach next a o ∧ Segments next (next o) os

/-- The positions below `bound`, with fuel for as many steps. -/
def walkFuel (next : ℕ → ℕ) (bound : ℕ) : ℕ → ℕ → List ℕ
  | 0, _ => []
  | fuel + 1, a => if a < bound then a :: walkFuel next bound fuel (next a) else []

/-- The positions of the walk from `a` below `bound`. -/
def walk (next : ℕ → ℕ) (bound a : ℕ) : List ℕ := walkFuel next bound (bound - a) a

section
variable {next : ℕ → ℕ}

theorem reach_iff {a b : ℕ} : Reach next a b ↔ a = b ∨ Reach next (next a) b := by
  constructor
  · intro h
    rcases Relation.ReflTransGen.cases_head h with rfl | ⟨c, rfl, hc⟩
    · exact Or.inl rfl
    · exact Or.inr hc
  · rintro (rfl | h)
    · exact Relation.ReflTransGen.refl
    · exact Relation.ReflTransGen.head rfl h

variable (hnext : ∀ a, a < next a)
include hnext

theorem reach_le {a b : ℕ} (h : Reach next a b) : a ≤ b := by
  induction h with
  | refl => exact le_rfl
  | tail _ hs ih => subst hs; exact ih.trans (hnext _).le

theorem not_reach_of_lt {a b : ℕ} (h : b < a) : ¬ Reach next a b :=
  fun hr => absurd (reach_le hnext hr) (by omega)

theorem reach_of_lt {a b c : ℕ} (hb : Reach next a b) (hc : Reach next a c) (hlt : b < c) :
    Reach next (next b) c := by
  induction hb with
  | refl =>
    rcases reach_iff.mp hc with rfl | h
    · omega
    · exact h
  | @tail b' b _ hs ih =>
    subst hs
    rcases reach_iff.mp (ih ((hnext b').trans hlt)) with h | h
    · omega
    · exact h

/-- **Coming to every position of an increasing list**, piece by piece. -/
theorem forall_reach_iff : ∀ {os : List ℕ} {a : ℕ}, os.Pairwise (· < ·) →
    ((∀ o ∈ os, Reach next a o) ↔ Segments next a os)
  | [], a, _ => by simp [Segments]
  | o :: os, a, hs => by
    obtain ⟨hlt, hs'⟩ := List.pairwise_cons.mp hs
    rw [Segments, ← forall_reach_iff hs', List.forall_mem_cons]
    refine and_congr_right fun ho => ⟨fun h x hx => ?_, fun h x hx => ?_⟩
    · exact reach_of_lt hnext ho (h x hx) (hlt x hx)
    · exact Relation.ReflTransGen.trans ho (reach_iff.mpr (Or.inr (h x hx)))

theorem mem_walkFuel {bound x : ℕ} : ∀ {fuel a : ℕ}, bound ≤ fuel + a →
    (x ∈ walkFuel next bound fuel a ↔ x < bound ∧ Reach next a x)
  | 0, a, hf => by
    refine ⟨fun h => by simp [walkFuel] at h, fun ⟨hx, hr⟩ => ?_⟩
    have := reach_le hnext hr
    omega
  | fuel + 1, a, hf => by
    have hlt := hnext a
    rw [walkFuel]
    split_ifs with ha
    · rw [List.mem_cons, mem_walkFuel (by omega), reach_iff (a := a)]
      constructor
      · rintro (rfl | ⟨hx, hr⟩)
        · exact ⟨ha, Or.inl rfl⟩
        · exact ⟨hx, Or.inr hr⟩
      · rintro ⟨hx, rfl | hr⟩
        · exact Or.inl rfl
        · exact Or.inr ⟨hx, hr⟩
    · refine ⟨fun h => by simp at h, fun ⟨hx, hr⟩ => ?_⟩
      have := reach_le hnext hr
      omega

/-- **The positions of a walk** are those it comes to below the bound. -/
theorem mem_walk {bound a x : ℕ} : x ∈ walk next bound a ↔ x < bound ∧ Reach next a x :=
  mem_walkFuel hnext (by omega)

end

end OperatingSystems.Lib.Walk
