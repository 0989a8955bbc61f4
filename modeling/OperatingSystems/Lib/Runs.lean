import Mathlib.Data.List.DropRight

/-! # Runs between separators

`runs p s` are the maximal runs of `s` without an element of `p`, in their order. A scanner finds them one by one
(`nextRun`). Two lists have the *same runs* if they do whatever comes behind them; separators behind a separator,
or at the start, make no difference to that. -/

namespace OperatingSystems.Lib.Runs

variable {α : Type*} {p : α → Bool} {s t w : List α} {c : α}

/-- **The maximal runs** without a separator. -/
def runs (p : α → Bool) (s : List α) : List (List α) := (s.splitOnP p).filter fun r => !r.isEmpty

theorem runs_nil : runs p [] = [] := by
  rw [runs, List.splitOnP_nil]
  rfl

/-- A separator comes between the runs before it and those behind it. -/
theorem runs_append_cons (s t : List α) (hc : p c = true) : runs p (s ++ c :: t) = runs p s ++ runs p t := by
  rw [runs, List.splitOnP_append_cons s t hc, List.filter_append]
  rfl

theorem runs_cons (t : List α) (hc : p c = true) : runs p (c :: t) = runs p t := by
  have h := runs_append_cons [] t hc
  rwa [List.nil_append, runs_nil, List.nil_append] at h

theorem runs_concat (s : List α) (hc : p c = true) : runs p (s ++ [c]) = runs p s := by
  rw [runs_append_cons s [] hc, runs_nil, List.append_nil]

/-- Without a separator there is one run. -/
theorem runs_of_forall (hne : w ≠ []) (hw : ∀ c ∈ w, p c = false) : runs p w = [w] := by
  rw [runs, List.splitOnP_eq_singleton hw]
  cases w with
  | nil => exact absurd rfl hne
  | cons c w => rfl

/-! ### The scanner -/

/-- A run and what is left behind it. -/
structure Found (α : Type*) where
  run : List α
  rest : List α

/-- The next run: separators are skipped; the one that ends the run is not part of the rest. -/
def nextRun (p : α → Bool) (s : List α) : Option (Found α) :=
  let t := s.dropWhile p
  if t.isEmpty then none else some ⟨t.takeWhile fun c => !p c, (t.dropWhile fun c => !p c).drop 1⟩

theorem runs_dropWhile (s : List α) : runs p (s.dropWhile p) = runs p s := by
  induction s with
  | nil => rfl
  | cons c s ih =>
    by_cases hc : p c
    · rw [List.dropWhile_cons_of_pos hc, ih, runs_cons s hc]
    · rw [List.dropWhile_cons_of_neg hc]

/-- What does not start with a separator starts with a run. -/
theorem runs_takeWhile (hs : s ≠ []) (hhead : s.dropWhile p = s) :
    runs p s = s.takeWhile (fun c => !p c) :: runs p ((s.dropWhile fun c => !p c).drop 1) := by
  obtain ⟨c, s, rfl⟩ := List.exists_cons_of_ne_nil hs
  have hc : ¬ p c := fun hc => by
    rw [List.dropWhile_cons_of_pos hc] at hhead
    have hle := (List.dropWhile_sublist p (l := s)).length_le
    rw [hhead, List.length_cons] at hle
    omega
  have hword : ∀ d ∈ (c :: s).takeWhile (fun c => !p c), p d = false := fun d hd => by
    simpa using List.mem_takeWhile_imp hd
  have hne : (c :: s).takeWhile (fun c => !p c) ≠ [] := by
    rw [List.takeWhile_cons_of_pos (by simpa using hc)]
    exact List.cons_ne_nil _ _
  conv_lhs => rw [← List.takeWhile_append_dropWhile (p := fun c => !p c) (l := c :: s)]
  cases hrest : (c :: s).dropWhile fun c => !p c with
  | nil => rw [List.append_nil, runs_of_forall hne hword, List.drop_nil, runs_nil]
  | cons d t =>
    have hd : p d = true := by
      have hhd := List.head_dropWhile_not (fun c => !p c) (w := by rw [hrest]; exact List.cons_ne_nil d t)
      simpa [hrest] using hhd
    rw [runs_append_cons _ _ hd, runs_of_forall hne hword]
    rfl

/-- **The scanner finds the first run**, and leaves the others. -/
theorem runs_of_nextRun {f : Found α} (h : nextRun p s = some f) : runs p s = f.run :: runs p f.rest := by
  unfold nextRun at h
  dsimp only at h
  split_ifs at h with he
  obtain rfl := Option.some.inj h
  rw [← runs_dropWhile s]
  refine runs_takeWhile (fun h0 => he ?_) (List.dropWhile_idempotent p s)
  rw [h0]
  rfl

theorem runs_of_nextRun_none (h : nextRun p s = none) : runs p s = [] := by
  unfold nextRun at h
  dsimp only at h
  split_ifs at h with he
  rw [← runs_dropWhile s, List.isEmpty_iff.mp he, runs_nil]

theorem length_rest_lt {f : Found α} (h : nextRun p s = some f) : f.rest.length < s.length := by
  unfold nextRun at h
  dsimp only at h
  split_ifs at h with he
  obtain rfl := Option.some.inj h
  have hpos : 0 < (s.dropWhile p).length := List.length_pos_of_ne_nil fun h0 => he (by rw [h0]; rfl)
  have h1 := (List.dropWhile_sublist p (l := s)).length_le
  have h2 := (List.dropWhile_sublist (fun c => !p c) (l := s.dropWhile p)).length_le
  rw [List.length_drop]
  omega

/-! ### The same runs -/

/-- The same runs, whatever comes behind. -/
def SameRuns (p : α → Bool) (s t : List α) : Prop := ∀ u, runs p (s ++ u) = runs p (t ++ u)

theorem SameRuns.runs_eq (h : SameRuns p s t) : runs p s = runs p t := by
  have := h []
  rwa [List.append_nil, List.append_nil] at this

theorem SameRuns.append (h : SameRuns p s t) (u : List α) : SameRuns p (s ++ u) (t ++ u) := fun v => by
  rw [List.append_assoc, List.append_assoc]
  exact h (u ++ v)

/-- A separator behind separators only. -/
theorem SameRuns.concat_of_forall (h : SameRuns p s t) (hs : ∀ d ∈ s, p d = true) (hc : p c = true) :
    SameRuns p (s ++ [c]) t := fun u => by
  have hall : ∀ x : List α, (∀ d ∈ x, p d = true) → ∀ u, runs p (x ++ u) = runs p u := by
    intro x hx u
    induction x with
    | nil => rfl
    | cons d x ih =>
      rw [List.cons_append, runs_cons _ (hx d List.mem_cons_self)]
      exact ih fun e he => hx e (List.mem_cons_of_mem d he)
  rw [← h u, hall s hs, hall]
  intro d hd
  rcases List.mem_append.mp hd with hd | hd
  · exact hs d hd
  · rwa [List.mem_singleton.mp hd]

/-- A separator behind a separator. -/
theorem SameRuns.concat_of_getLast (h : SameRuns p s t) {d : α} (hs : s.getLast? = some d) (hd : p d = true)
    (hc : p c = true) : SameRuns p (s ++ [c]) t := fun u => by
  obtain ⟨x, rfl⟩ := List.getLast?_eq_some_iff.mp hs
  rw [← h u, List.append_assoc, List.append_assoc, List.append_assoc, List.singleton_append, List.singleton_append,
    List.singleton_append, runs_append_cons x _ hd, runs_append_cons x _ hd, runs_cons _ hc]

/-- Separators at the end. -/
theorem runs_rdropWhile (s : List α) : runs p (s.rdropWhile p) = runs p s := by
  induction s using List.reverseRecOn with
  | nil => rfl
  | append_singleton s c ih =>
    by_cases hc : p c
    · rw [List.rdropWhile_concat_pos _ _ _ hc, ih, runs_concat s hc]
    · rw [List.rdropWhile_concat_neg _ _ _ hc]

end OperatingSystems.Lib.Runs
