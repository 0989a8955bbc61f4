import Mathlib.Tactic

/-! # Labelled transition systems

A system has initial states and labelled steps. `Run` chains steps, `Reachable` are the states that a
run from an initial state ends in. The two rules used throughout: an invariant of the initial states
that every step keeps holds in every reachable state (`Reachable.invariant`), and a preorder that every
step respects holds between the ends of a run (`Run.rel`). `only` keeps the steps that meet a condition, and
`beside` keeps a record of the run beside the state. -/

namespace OperatingSystems.Lib.Transition

/-- A transition system with states `σ` and labels `α`. -/
structure System (σ α : Type*) where
  init : σ → Prop
  step : σ → α → σ → Prop

variable {σ α : Type*}

/-- The system of a partial step function. -/
def System.ofFun (init : σ → Prop) (next : σ → α → Option σ) : System σ α where
  init := init
  step s a s' := next s a = some s'

/-- The same system, with only the steps that meet a condition. -/
def System.only (S : System σ α) (ok : σ → α → Prop) : System σ α where
  init := S.init
  step s a s' := ok s a ∧ S.step s a s'

/-- The same system, with a record of its runs: it starts as `start`, and `note` adds a step to it. -/
def System.beside {η : Type*} (S : System σ α) (start : η) (note : σ → α → η → η) : System (σ × η) α where
  init x := S.init x.1 ∧ x.2 = start
  step x a y := S.step x.1 a y.1 ∧ y.2 = note x.1 a x.2

/-- Runs, with the labels of their steps. -/
inductive System.Run (S : System σ α) : σ → List α → σ → Prop
  | nil (s : σ) : S.Run s [] s
  | snoc {s t u : σ} {as : List α} {a : α} (h : S.Run s as t) (hs : S.step t a u) :
      S.Run s (as ++ [a]) u

/-- States reachable from an initial state. -/
inductive System.Reachable (S : System σ α) : σ → Prop
  | init {s : σ} (h : S.init s) : S.Reachable s
  | step {s t : σ} {a : α} (h : S.Reachable s) (hs : S.step s a t) : S.Reachable t

variable {S : System σ α}

theorem System.Reachable.run {s t : σ} {as : List α} (hs : S.Reachable s) (h : S.Run s as t) :
    S.Reachable t := by
  induction h with
  | nil => exact hs
  | snoc _ hstep ih => exact .step ih hstep

/-- **The invariant rule.** -/
theorem System.Reachable.invariant {I : σ → Prop} (hinit : ∀ s, S.init s → I s)
    (hstep : ∀ s a t, S.Reachable s → I s → S.step s a t → I t) {s : σ} (h : S.Reachable s) : I s := by
  induction h with
  | init h => exact hinit _ h
  | step h hs ih => exact hstep _ _ _ h ih hs

/-- A relation that every step respects holds between the ends of a run. -/
theorem System.Run.rel {r : σ → σ → Prop} (hrefl : ∀ s, r s s)
    (htrans : ∀ s t u, r s t → r t u → r s u)
    (hstep : ∀ s a t, S.Reachable s → S.step s a t → r s t) {s t : σ} {as : List α}
    (hs : S.Reachable s) (h : S.Run s as t) : r s t := by
  induction h with
  | nil => exact hrefl _
  | snoc h hstep' ih => exact htrans _ _ _ ih (hstep _ _ _ (hs.run h) hstep')

/-- **The measure rule**: a run has at most as many steps as a number that each of them makes smaller. -/
theorem System.Run.length_le {f : σ → ℕ} (hstep : ∀ s a t, S.Reachable s → S.step s a t → f t < f s) {s t : σ}
    {as : List α} (hs : S.Reachable s) (h : S.Run s as t) : as.length + f t ≤ f s := by
  induction h with
  | nil => rw [List.length_nil, Nat.zero_add]
  | snoc h hlast ih =>
    have hlt := hstep _ _ _ (hs.run h) hlast
    rw [List.length_append, List.length_singleton]
    omega

theorem System.Run.eq_of_nil {s t : σ} {as : List α} (h : S.Run s as t) (has : as = []) : s = t := by
  cases h with
  | nil => rfl
  | snoc => simp at has

/-- A run of at least one step has a first one. -/
theorem System.Run.first {s t : σ} {as : List α} (h : S.Run s as t) (hne : as ≠ []) :
    ∃ a u, S.step s a u := by
  induction h with
  | nil => exact absurd rfl hne
  | @snoc t u as a h hs ih =>
    by_cases has : as = []
    · obtain rfl := h.eq_of_nil has
      exact ⟨a, u, hs⟩
    · exact ih has

/-- What is reachable by the steps that meet a condition is reachable. -/
theorem System.Reachable.of_only {ok : σ → α → Prop} {s : σ} (h : (S.only ok).Reachable s) :
    S.Reachable s := by
  induction h with
  | init h => exact .init h
  | step _ hs ih => exact .step ih hs.2

theorem System.Reachable.of_beside {η : Type*} {start : η} {note : σ → α → η → η} {x : σ × η}
    (h : (S.beside start note).Reachable x) : S.Reachable x.1 := by
  induction h with
  | init h => exact .init h.1
  | step _ hs ih => exact .step ih hs.1

/-! ### Runs of a step function -/

/-- The state after a list of labels. -/
def runFun (next : σ → α → Option σ) : σ → List α → Option σ
  | s, [] => some s
  | s, a :: as => (next s a).bind fun t => runFun next t as

/-- The run of a step function whose steps are steps of the system, after another run. -/
theorem System.Run.append_runFun {next : σ → α → Option σ}
    (hnext : ∀ s a t, next s a = some t → S.step s a t) :
    ∀ {bs : List α} {r s t : σ} {as : List α}, S.Run r as s → runFun next s bs = some t →
      S.Run r (as ++ bs) t
  | [], r, s, t, as, hr, h => by
    rw [runFun] at h
    cases h
    rwa [List.append_nil]
  | b :: bs, r, s, t, as, hr, h => by
    obtain ⟨u, hu, h⟩ := Option.bind_eq_some_iff.mp h
    have := append_runFun hnext (hr.snoc (hnext s b u hu)) h
    rwa [List.append_assoc] at this

theorem reachable_runFun {next : σ → α → Option σ} (hnext : ∀ s a t, next s a = some t → S.step s a t)
    {as : List α} {s t : σ} (hs : S.Reachable s) (h : runFun next s as = some t) : S.Reachable t :=
  hs.run ((System.Run.nil s).append_runFun hnext h)

/-- A step function that takes only the steps that meet a condition. -/
def onlyFun (ok : σ → α → Prop) [∀ s a, Decidable (ok s a)] (next : σ → α → Option σ) (s : σ) (a : α) :
    Option σ :=
  if ok s a then next s a else none

theorem only_of_onlyFun {ok : σ → α → Prop} [∀ s a, Decidable (ok s a)] {next : σ → α → Option σ}
    (hnext : ∀ s a t, next s a = some t → S.step s a t) (s : σ) (a : α) (t : σ)
    (h : onlyFun ok next s a = some t) : (S.only ok).step s a t := by
  unfold onlyFun at h
  split_ifs at h with hok
  exact ⟨hok, hnext s a t h⟩

/-- A step function that keeps a record. -/
def besideFun {η : Type*} (next : σ → α → Option σ) (note : σ → α → η → η) (x : σ × η) (a : α) :
    Option (σ × η) :=
  (next x.1 a).map fun t => (t, note x.1 a x.2)

theorem beside_of_besideFun {η : Type*} {start : η} {note : σ → α → η → η} {next : σ → α → Option σ}
    (hnext : ∀ s a t, next s a = some t → S.step s a t) (x : σ × η) (a : α) (y : σ × η)
    (h : besideFun next note x a = some y) : (S.beside start note).step x a y := by
  obtain ⟨t, ht, rfl⟩ := Option.map_eq_some_iff.mp h
  exact ⟨hnext _ a t ht, rfl⟩

theorem runFun_append (next : σ → α → Option σ) :
    ∀ (s : σ) (as bs : List α), runFun next s (as ++ bs) = (runFun next s as).bind (runFun next · bs)
  | _, [], _ => rfl
  | s, a :: as, bs => by
    rw [List.cons_append, runFun, runFun, Option.bind_assoc]
    exact congrArg _ (funext fun t => runFun_append next t as bs)

theorem runFun_concat (next : σ → α → Option σ) (s : σ) (as : List α) (a : α) :
    runFun next s (as ++ [a]) = (runFun next s as).bind (next · a) := by
  rw [runFun_append]
  refine congrArg _ (funext fun t => ?_)
  rw [runFun]
  exact Option.bind_fun_some _

/-- **The rule for runs of a step function**: what holds at the start and is kept by every step. -/
theorem runFun_rule {next : σ → α → Option σ} {s : σ} {P : List α → σ → Prop} (hnil : P [] s)
    (hstep : ∀ as t a u, runFun next s as = some t → P as t → next t a = some u → P (as ++ [a]) u)
    {as : List α} : ∀ {t : σ}, runFun next s as = some t → P as t := by
  induction as using List.reverseRecOn with
  | nil =>
    intro t h
    cases h
    exact hnil
  | append_singleton as a ih =>
    intro u h
    rw [runFun_concat] at h
    obtain ⟨t, ht, hu⟩ := Option.bind_eq_some_iff.mp h
    exact hstep as t a u ht (ih ht) hu

end OperatingSystems.Lib.Transition
