import OperatingSystems.Lib.WeakestPre

/-! # What a program keeps

`Within R x s`: wherever the program `x` started in `s` returns or stops, that state stands in the preorder `R` to
`s`. The rules follow the program text; `Within.bind` asks nothing of the state between the two programs.

One such preorder says what a program leaves in a log, a part of the state that lists what it has done, the latest
last: `More log I` keeps what is in the log and adds only entries with `I`. -/

namespace OperatingSystems.Lib.Footprint

open OperatingSystems.Lib.WeakestPre

universe u

variable {ε σ α β : Type u}

/-- `x` keeps `R`, whether it returns or stops. -/
def Within (R : σ → σ → Prop) (x : EStateM ε σ α) (s : σ) : Prop :=
  Wp x (fun _ t => R s t) (fun _ t => R s t) s

section
variable {R R' : σ → σ → Prop} {x y : EStateM ε σ α} {f : α → EStateM ε σ β} {s t : σ}

theorem Within.mono (h : Within R x s) (hR : ∀ s t, R s t → R' s t) : Within R' x s :=
  Wp.mono h (fun _ t ht => hR s t ht) fun _ t ht => hR s t ht

theorem within_set (h : R s t) : Within R (set t : EStateM ε σ PUnit) s := wp_set.mpr h

theorem within_modify {g : σ → σ} (h : R s (g s)) : Within R (modify g : EStateM ε σ PUnit) s := wp_modify.mpr h

/-- After `get` the state is known. -/
theorem within_get {f : σ → EStateM ε σ β} (h : Within R (f s) s) : Within R (get >>= f) s :=
  wp_bind.mpr (wp_get.mpr h)

theorem within_ite {p : Prop} [Decidable p] (h : p → Within R x s) (h' : ¬ p → Within R y s) :
    Within R (if p then x else y) s := by
  split_ifs with hp
  · exact h hp
  · exact h' hp

variable [IsPreorder σ R]

theorem within_pure (b : α) : Within R (pure b : EStateM ε σ α) s := wp_pure.mpr (refl s)

theorem within_throw (e : ε) : Within R (throw e : EStateM ε σ α) s := wp_throw.mpr (refl s)

theorem within_throw_bind (e : ε) : Within R (throw e >>= f : EStateM ε σ β) s :=
  wp_bind.mpr (wp_throw.mpr (refl s))

theorem Within.bind_of_ok (h : Within R x s) (hf : ∀ b t, x s = .ok b t → Within R (f b) t) :
    Within R (x >>= f) s := by
  unfold Within at h
  cases hx : x s with
  | ok b t =>
    have ht : R s t := h.of_ok hx
    have htrans : ∀ u, R t u → R s u := fun u hu => IsTrans.trans s t u ht hu
    exact (wp_bind_of_ok hx).mpr (Wp.mono (hf b t hx) (fun _ u => htrans u) fun _ u => htrans u)
  | error e t => exact (wp_bind_of_error hx).mpr (h.of_error hx)

theorem Within.bind (h : Within R x s) (hf : ∀ b t, Within R (f b) t) : Within R (x >>= f) s :=
  h.bind_of_ok fun b t _ => hf b t

/-- Nothing comes after a program that does not return. -/
theorem Within.bind_stops (h : Within R x s) (hx : ∀ b t, x s ≠ .ok b t) : Within R (x >>= f) s :=
  h.bind_of_ok fun b t hbt => absurd hbt (hx b t)

/-- After `set` the state is known. -/
theorem within_set_bind {f : PUnit.{u + 1} → EStateM ε σ β} (h : R s t) (hf : Within R (f ⟨⟩) t) :
    Within R (set t >>= f) s :=
  wp_bind.mpr (wp_set.mpr (Wp.mono hf (fun _ _ hu => IsTrans.trans _ _ _ h hu) fun _ _ hu => IsTrans.trans _ _ _ h hu))

end

/-! ### Logs -/

section
variable {γ : Type*} {log : σ → List γ} {I J : γ → Prop} {x : EStateM ε σ α} {s t u : σ} {a : γ}

/-- The log of `t` is that of `s` with more entries, all with `I`. -/
def More (log : σ → List γ) (I : γ → Prop) (s t : σ) : Prop := ∃ l, log t = log s ++ l ∧ ∀ a ∈ l, I a

theorem More.of_eq (h : log t = log s) : More log I s t := ⟨[], by rw [h, List.append_nil], fun _ ha => by cases ha⟩

instance : IsPreorder σ (More log I) where
  refl _ := .of_eq rfl
  trans s t u h h' := by
    obtain ⟨l, hl, hI⟩ := h
    obtain ⟨l', hl', hI'⟩ := h'
    refine ⟨l ++ l', by rw [hl', hl, List.append_assoc], fun a ha => ?_⟩
    rcases List.mem_append.mp ha with ha | ha
    · exact hI a ha
    · exact hI' a ha

theorem More.mono (h : More log I s t) (hIJ : ∀ a, I a → J a) : More log J s t := by
  obtain ⟨l, hl, hI⟩ := h
  exact ⟨l, hl, fun a ha => hIJ a (hI a ha)⟩

theorem Within.more (h : Within (More log I) x s) (hIJ : ∀ a, I a → J a) : Within (More log J) x s :=
  h.mono fun _ _ ht => More.mono ht hIJ

/-- What was in the log stays. -/
theorem More.mem (h : More log I s t) (ha : a ∈ log s) : a ∈ log t := by
  obtain ⟨l, hl, -⟩ := h
  rw [hl]
  exact List.mem_append_left l ha

/-- The entries after an empty log. -/
theorem More.of_nil (h : More log I s t) (hs : log s = []) : ∀ a ∈ log t, I a := by
  obtain ⟨l, hl, hI⟩ := h
  rwa [hl, hs, List.nil_append]

/-- An entry stays in the log for the rest of the program. -/
theorem Within.wp_mem (h : Within (More log I) x s) (ha : a ∈ log s) :
    Wp x (fun _ t => a ∈ log t) (fun _ t => a ∈ log t) s :=
  Wp.mono h (fun _ _ ht => ht.mem ha) fun _ _ ht => ht.mem ha

end

end OperatingSystems.Lib.Footprint
