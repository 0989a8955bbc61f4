import Mathlib.Tactic

/-! # Weakest preconditions of programs that can stop

Programs are in `EStateM ε σ`: they change a state `σ` and return, or stop with an `ε` in the state they
reached. `Wp x Q E s` says that `x` started in `s` ends as `Q` says when it returns and as `E` says when
it stops. The rules follow the program text, so `simp only [wp]` with them is symbolic execution; a call
is replaced by its specification with `Wp.bind`, and two specifications of one program are joined with
`Wp.and`. -/

namespace OperatingSystems.Lib.WeakestPre

universe u

variable {ε σ α β : Type u}

/-- `x` started in `s` returns as `Q` says or stops as `E` says. -/
def Wp (x : EStateM ε σ α) (Q : α → σ → Prop) (E : ε → σ → Prop) (s : σ) : Prop :=
  match x s with
  | .ok a t => Q a t
  | .error e t => E e t

variable {x : EStateM ε σ α} {f : α → EStateM ε σ β} {Q Q' : α → σ → Prop} {E E' : ε → σ → Prop}
  {R : β → σ → Prop} {s t : σ} {a : α} {e : ε}

@[simp] theorem wp_pure : Wp (pure a) Q E s ↔ Q a s := Iff.rfl

@[simp] theorem wp_throw : Wp (throw e) Q E s ↔ E e s := Iff.rfl

@[simp] theorem wp_get {Q : σ → σ → Prop} : Wp get Q E s ↔ Q s s := Iff.rfl

@[simp] theorem wp_set {Q : PUnit.{u + 1} → σ → Prop} : Wp (set t) Q E s ↔ Q ⟨⟩ t := Iff.rfl

@[simp] theorem wp_modify {Q : PUnit.{u + 1} → σ → Prop} {g : σ → σ} :
    Wp (modify g) Q E s ↔ Q ⟨⟩ (g s) := Iff.rfl

@[simp] theorem wp_bind : Wp (x >>= f) R E s ↔ Wp x (fun a => Wp (f a) R E) E s := by
  simp only [Wp, bind, EStateM.bind]
  cases x s <;> rfl

@[simp] theorem wp_map {g : α → β} : Wp (g <$> x) R E s ↔ Wp x (fun a => R (g a)) E s := by
  simp only [Wp, Functor.map, EStateM.map]
  cases x s <;> rfl

@[simp] theorem wp_ite {c : Prop} [Decidable c] {y : EStateM ε σ α} :
    Wp (if c then x else y) Q E s ↔ (c → Wp x Q E s) ∧ (¬ c → Wp y Q E s) := by
  by_cases hc : c <;> simp [hc]

/-- The rule of consequence. -/
theorem Wp.mono (h : Wp x Q E s) (hQ : ∀ a t, Q a t → Q' a t) (hE : ∀ e t, E e t → E' e t) :
    Wp x Q' E' s := by
  unfold Wp at h ⊢
  split
  next a t hx => exact hQ a t (by rwa [hx] at h)
  next e t hx => exact hE e t (by rwa [hx] at h)

theorem Wp.imp (h : Wp x Q E s) (hQ : ∀ a t, Q a t → Q' a t) : Wp x Q' E s :=
  h.mono hQ fun _ _ he => he

/-- **The rule of a call**: a specification of `x`, and the rest from what it promises. -/
theorem Wp.bind (h : Wp x Q E s) (hf : ∀ a t, Q a t → Wp (f a) R E t) : Wp (x >>= f) R E s :=
  wp_bind.mpr (h.imp hf)

theorem Wp.and (h : Wp x Q E s) (h' : Wp x Q' E' s) :
    Wp x (fun a t => Q a t ∧ Q' a t) (fun e t => E e t ∧ E' e t) s := by
  unfold Wp at h h' ⊢
  split
  next a t hx => exact ⟨by rwa [hx] at h, by rwa [hx] at h'⟩
  next e t hx => exact ⟨by rwa [hx] at h, by rwa [hx] at h'⟩

theorem Wp.trivial : Wp x (fun _ _ => True) (fun _ _ => True) s := by
  unfold Wp
  split <;> exact True.intro

theorem wp_const {c : Prop} : Wp x (fun _ _ => c) (fun _ _ => c) s ↔ c := by
  unfold Wp
  cases x s <;> rfl

theorem Wp.of_ok (h : Wp x Q E s) (hx : x s = .ok a t) : Q a t := by
  unfold Wp at h
  rwa [hx] at h

theorem Wp.of_error (h : Wp x Q E s) (hx : x s = .error e t) : E e t := by
  unfold Wp at h
  rwa [hx] at h

theorem wp_of_ok (hx : x s = .ok a t) (h : Q a t) : Wp x Q E s := by
  unfold Wp
  rwa [hx]

/-- The rest of a program, from the state in which the first part returned. -/
theorem wp_bind_of_ok (hx : x s = .ok a t) : Wp (x >>= f) R E s ↔ Wp (f a) R E t := by
  rw [wp_bind]
  exact ⟨fun h => h.of_ok hx, fun h => wp_of_ok hx h⟩

theorem wp_bind_of_error (hx : x s = .error e t) : Wp (x >>= f) R E s ↔ E e t := by
  rw [wp_bind]
  refine ⟨fun h => h.of_error hx, fun h => ?_⟩
  unfold Wp
  rwa [hx]

/-- A program that cannot stop returns. -/
theorem Wp.returns (h : Wp x Q (fun _ _ => False) s) : ∃ a t, x s = .ok a t ∧ Q a t := by
  unfold Wp at h
  split at h
  next a t hx => exact ⟨a, t, hx, h⟩
  next => exact h.elim

-- A goal `Wp x Q E s` is to be taken apart by the rules, not by running `x`.
attribute [irreducible] Wp

end OperatingSystems.Lib.WeakestPre
