import Mathlib.Data.Set.Card
import Mathlib.Tactic

/-! # Reference-counted pools

Slots `ι` hold resources `α` of a pool. `refs σ a` is the number of slots that hold `a`, and a pool is
`Counted` when each of its resources carries that number and the free list has, once each, the resources
that nobody holds.

* One rule for each thing a slot can do: take a free resource (`Counted.alloc`), hold a resource that is
  in use (`Counted.retain`), give one up (`Counted.release`, `Counted.releaseLast`), pass it to another
  slot (`Counted.move`).
* `Counted.unique`: the holder of a resource with count one is its only holder. -/

namespace OperatingSystems.Lib.RefCount

variable {ι α : Type*}

/-- The number of slots that hold `a`. -/
noncomputable def refs (σ : ι → Option α) (a : α) : ℕ∞ := {s | σ s = some a}.encard

/-- **A counted pool**: the counts are the numbers of holders, and the free list has what nobody holds. -/
structure Counted (pool : Set α) (count : α → ℕ) (free : List α) (σ : ι → Option α) : Prop where
  count_eq : ∀ a ∈ pool, (count a : ℕ∞) = refs σ a
  mem_pool : ∀ s a, σ s = some a → a ∈ pool
  nodup : free.Nodup
  mem_free : ∀ a, a ∈ free ↔ a ∈ pool ∧ count a = 0

/-- The holders of one assignment, renamed, are the holders of another one. -/
theorem refs_rename {κ : Type*} {σ : ι → Option α} {τ : κ → Option α} {a : α} (φ : ι → κ)
    (hφ : ∀ s, σ s = some a → τ (φ s) = some a)
    (hinj : ∀ s t, σ s = some a → σ t = some a → φ s = φ t → s = t)
    (hsurj : ∀ t, τ t = some a → ∃ s, σ s = some a ∧ φ s = t) : refs τ a = refs σ a := by
  have himage : {t | τ t = some a} = φ '' {s | σ s = some a} := by
    ext t
    refine ⟨fun ht => ?_, ?_⟩
    · obtain ⟨s, hs, rfl⟩ := hsurj t ht
      exact ⟨s, hs, rfl⟩
    · rintro ⟨s, hs, rfl⟩
      exact hφ s hs
  unfold refs
  rw [himage]
  exact Set.InjOn.encard_image fun s hs t ht heq => hinj s t hs ht heq

section Update

variable [DecidableEq ι] {σ : ι → Option α} {s t : ι} {a b : α}

theorem refs_update_none (hs : σ s = none) [DecidableEq α] :
    refs (Function.update σ s (some a)) b = refs σ b + if b = a then 1 else 0 := by
  unfold refs
  by_cases hab : b = a
  · subst hab
    have hset : {t | Function.update σ s (some b) t = some b} = insert s {t | σ t = some b} := by
      ext t
      rcases eq_or_ne t s with rfl | ht
      · simp
      · simp [ht]
    rw [hset, Set.encard_insert_of_notMem (by simp [hs]), if_pos rfl]
  · have hset : {t | Function.update σ s (some a) t = some b} = {t | σ t = some b} := by
      ext t
      rcases eq_or_ne t s with rfl | ht
      · simp [hs, Ne.symm hab]
      · simp [ht]
    rw [hset, if_neg hab, add_zero]

theorem refs_update_some (hs : σ s = some a) [DecidableEq α] :
    refs σ b = refs (Function.update σ s none) b + if b = a then 1 else 0 := by
  have h := refs_update_none (a := a) (b := b) (Function.update_self s none σ)
  rwa [Function.update_idem, ← hs, Function.update_eq_self] at h

end Update

namespace Counted

variable {pool : Set α} {count : α → ℕ} {free : List α} {σ : ι → Option α} {s t : ι} {a : α}

theorem count_pos (h : Counted pool count free σ) (hs : σ s = some a) : 0 < count a := by
  have hne : refs σ a ≠ 0 := Set.encard_ne_zero.mpr ⟨s, hs⟩
  rw [← h.count_eq a (h.mem_pool s a hs), Nat.cast_ne_zero] at hne
  omega

/-- **The holder of a resource with count one is its only holder.** -/
theorem unique (h : Counted pool count free σ) (ha : count a = 1) (hs : σ s = some a)
    (ht : σ t = some a) : s = t := by
  have hone : refs σ a = 1 := by rw [← h.count_eq a (h.mem_pool s a hs), ha, Nat.cast_one]
  exact Set.encard_le_one_iff.mp hone.le s t hs ht

theorem notMem_free (h : Counted pool count free σ) (hs : σ s = some a) : a ∉ free := by
  intro hf
  have := h.count_pos hs
  have := ((h.mem_free a).mp hf).2
  omega

/-- What is in use has a holder. -/
theorem exists_holder (h : Counted pool count free σ) (ha : a ∈ pool) (hne : count a ≠ 0) : ∃ s, σ s = some a := by
  have href : refs σ a ≠ 0 := by
    rw [← h.count_eq a ha]
    exact Nat.cast_ne_zero.mpr hne
  exact Set.encard_ne_zero.mp href

/-- Nobody holds what is free. -/
theorem of_mem_free (h : Counted pool count free σ) (ha : a ∈ free) (s : ι) : σ s ≠ some a :=
  fun hs => h.notMem_free hs ha

/-- Only the counts of the pool matter. -/
theorem of_count {count' : α → ℕ} (h : Counted pool count free σ) (hc : ∀ a ∈ pool, count' a = count a) :
    Counted pool count' free σ where
  count_eq a ha := by rw [hc a ha, h.count_eq a ha]
  mem_pool := h.mem_pool
  nodup := h.nodup
  mem_free a := by
    rw [h.mem_free]
    exact and_congr_right fun ha => by rw [hc a ha]

/-- Counting goes by what the slots hold, not by which slot holds it. -/
theorem of_refs {κ : Type*} {τ : κ → Option α} (h : Counted pool count free σ)
    (hrefs : ∀ a, refs τ a = refs σ a) (hpool : ∀ t a, τ t = some a → a ∈ pool) :
    Counted pool count free τ where
  count_eq a ha := by rw [hrefs, h.count_eq a ha]
  mem_pool := hpool
  nodup := h.nodup
  mem_free := h.mem_free

variable [DecidableEq ι]

theorem mem_pool_update {v : Option α} (h : ∀ s a, σ s = some a → a ∈ pool)
    (hv : ∀ a, v = some a → a ∈ pool) (t : ι) (a : α) (ht : Function.update σ s v t = some a) :
    a ∈ pool := by
  rcases eq_or_ne t s with rfl | hts
  · rw [Function.update_self] at ht
    exact hv a ht
  · rw [Function.update_of_ne hts] at ht
    exact h t a ht

variable [DecidableEq α]

/-- A slot takes the first free resource. -/
theorem alloc (h : Counted pool count (a :: free) σ) (hs : σ s = none) :
    Counted pool (Function.update count a 1) free (Function.update σ s (some a)) := by
  obtain ⟨hpool, hzero⟩ := (h.mem_free a).mp List.mem_cons_self
  have hnd := List.nodup_cons.mp h.nodup
  refine ⟨fun b hb => ?_, mem_pool_update h.mem_pool (by rintro _ ⟨⟩; exact hpool), hnd.2, fun b => ?_⟩
  · rw [refs_update_none hs, ← h.count_eq b hb]
    rcases eq_or_ne b a with rfl | hb
    · rw [Function.update_self, hzero, if_pos rfl]
      simp
    · rw [Function.update_of_ne hb, if_neg hb, add_zero]
  · rcases eq_or_ne b a with rfl | hb
    · simp [hnd.1]
    · rw [Function.update_of_ne hb, ← h.mem_free, List.mem_cons, or_iff_right hb]

/-- A slot holds a resource that is in use. -/
theorem retain (h : Counted pool count free σ) (hs : σ s = none) (ht : σ t = some a) :
    Counted pool (Function.update count a (count a + 1)) free (Function.update σ s (some a)) := by
  refine ⟨fun b hb => ?_, mem_pool_update h.mem_pool (by rintro _ ⟨⟩; exact h.mem_pool t a ht), h.nodup,
    fun b => ?_⟩
  · rw [refs_update_none hs, ← h.count_eq b hb]
    rcases eq_or_ne b a with rfl | hb
    · rw [Function.update_self, if_pos rfl, Nat.cast_add, Nat.cast_one]
    · rw [Function.update_of_ne hb, if_neg hb, add_zero]
  · rcases eq_or_ne b a with rfl | hb
    · simp [h.notMem_free ht]
    · rw [Function.update_of_ne hb, h.mem_free]

/-- The count of `a` after one of its holders gave it up. -/
theorem count_eq_release (h : Counted pool count free σ) (hs : σ s = some a) (b : α) (hb : b ∈ pool) :
    (Function.update count a (count a - 1) b : ℕ∞) = refs (Function.update σ s none) b := by
  have hrefs := refs_update_some (b := b) hs
  have hpos := h.count_pos hs
  rw [← h.count_eq b hb] at hrefs
  rcases eq_or_ne b a with rfl | hba
  · rw [if_pos rfl] at hrefs
    have hsucc : ((count b - 1 : ℕ) : ℕ∞) + 1 = refs (Function.update σ s none) b + 1 := by
      rw [← hrefs, ← Nat.cast_succ, Nat.succ_eq_add_one, Nat.sub_add_cancel hpos]
    rw [Function.update_self]
    exact WithTop.add_right_cancel ENat.one_ne_top hsucc
  · rw [if_neg hba, add_zero] at hrefs
    rw [Function.update_of_ne hba, hrefs]

/-- A slot gives up a resource that others hold too. -/
theorem release (h : Counted pool count free σ) (hs : σ s = some a) (hlt : 1 < count a) :
    Counted pool (Function.update count a (count a - 1)) free (Function.update σ s none) := by
  refine ⟨h.count_eq_release hs, mem_pool_update h.mem_pool (by simp), h.nodup, fun b => ?_⟩
  rcases eq_or_ne b a with rfl | hb
  · have hne : count b - 1 ≠ 0 := by omega
    simp [h.notMem_free hs, hne]
  · rw [Function.update_of_ne hb, h.mem_free]

/-- The last holder gives a resource up. -/
theorem releaseLast (h : Counted pool count free σ) (hs : σ s = some a) (hone : count a = 1) :
    Counted pool (Function.update count a 0) (a :: free) (Function.update σ s none) := by
  refine ⟨fun b hb => ?_, mem_pool_update h.mem_pool (by simp),
    List.nodup_cons.mpr ⟨h.notMem_free hs, h.nodup⟩, fun b => ?_⟩
  · have hrefs := h.count_eq_release hs b hb
    rwa [hone] at hrefs
  · rcases eq_or_ne b a with rfl | hb
    · simp [h.mem_pool s b hs]
    · rw [Function.update_of_ne hb, List.mem_cons, or_iff_right hb, h.mem_free]

/-- A slot passes its resource to another one. -/
theorem move (h : Counted pool count free σ) (hs : σ s = some a) (ht : σ t = none) :
    Counted pool count free (Function.update (Function.update σ s none) t (some a)) := by
  have hts : t ≠ s := by
    rintro rfl
    rw [hs] at ht
    cases ht
  refine h.of_refs (fun b => ?_) ?_
  · rw [refs_update_none (by rwa [Function.update_of_ne hts]), ← refs_update_some hs]
  · exact mem_pool_update (mem_pool_update h.mem_pool (by simp)) (by rintro _ ⟨⟩; exact h.mem_pool s a hs)

end Counted

end OperatingSystems.Lib.RefCount
