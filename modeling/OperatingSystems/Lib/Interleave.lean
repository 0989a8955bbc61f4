import OperatingSystems.Lib.Transition

/-! # Threads on disjoint cells

A `Prog` reads and writes shared cells, one at a time. `threads` runs a family of them together, in any
order of their accesses.

* `Prog.run`, `Prog.After`: a program alone, and rules for what holds after it.
* `Prog.Within`: the cells a program touches, whatever it reads.
* `done_store`: threads that touch disjoint cells leave what each of them leaves alone, in any order.
* `Apart.left_run`, `exists_done`: every run ends, and they can always finish.
* `Apart.done_eq_inTurn`: it is as if they had run one after the other. -/

namespace OperatingSystems.Lib.Interleave

open Transition

/-- A program over cells `Loc` with values `Val`. -/
inductive Prog (Loc Val α : Type) where
  | ret (a : α)
  | read (l : Loc) (k : Val → Prog Loc Val α)
  | write (l : Loc) (v : Val) (p : Prog Loc Val α)

variable {Loc Val α β ι : Type}

namespace Prog

def bind : Prog Loc Val α → (α → Prog Loc Val β) → Prog Loc Val β
  | ret a, f => f a
  | read l k, f => .read l fun v => (k v).bind f
  | write l v p, f => .write l v (p.bind f)

instance : Monad (Prog Loc Val) where
  pure := ret
  bind := bind

def get (l : Loc) : Prog Loc Val Val := .read l .ret

def put (l : Loc) (v : Val) : Prog Loc Val Unit := .write l v (.ret ())

variable {p x : Prog Loc Val α} {f : α → Prog Loc Val β} {R R' : Set Loc} {P P' : α → Prop} {Q : β → Prop}
  {s t : Loc → Val} {l : Loc} {v : Val}

/-! ### A program alone -/

section Run

variable [DecidableEq Loc]

/-- The result and the cells afterwards. -/
def run : Prog Loc Val α → (Loc → Val) → α × (Loc → Val)
  | ret a, s => (a, s)
  | read l k, s => (k (s l)).run s
  | write l v p, s => p.run (Function.update s l v)

/-- How many accesses it takes. -/
def steps : Prog Loc Val α → (Loc → Val) → ℕ
  | ret _, _ => 0
  | read l k, s => (k (s l)).steps s + 1
  | write l v p, s => p.steps (Function.update s l v) + 1

/-- `p` started in `s` ends as `Q` says. -/
def After (p : Prog Loc Val α) (Q : α → (Loc → Val) → Prop) (s : Loc → Val) : Prop :=
  Q (p.run s).1 (p.run s).2

theorem after_pure {a : α} {Q : α → (Loc → Val) → Prop} :
    After (pure a : Prog Loc Val α) Q s ↔ Q a s := Iff.rfl

theorem after_get {Q : Val → (Loc → Val) → Prop} : After (get l) Q s ↔ Q (s l) s := Iff.rfl

theorem after_put {Q : Unit → (Loc → Val) → Prop} :
    After (put l v) Q s ↔ Q () (Function.update s l v) := Iff.rfl

theorem after_bind {Q : β → (Loc → Val) → Prop} :
    After (x >>= f) Q s ↔ After x (fun a t => After (f a) Q t) s := by
  induction x generalizing s with
  | ret a => rfl
  | read l k ih => exact ih (s l)
  | write l v p ih => exact ih

theorem After.mono {Q Q' : α → (Loc → Val) → Prop} (h : After p Q s) (hQ : ∀ a t, Q a t → Q' a t) :
    After p Q' s := hQ _ _ h

theorem After.bind {Q : α → (Loc → Val) → Prop} {Q' : β → (Loc → Val) → Prop} (h : After x Q s)
    (hf : ∀ a t, Q a t → After (f a) Q' t) : After (x >>= f) Q' s :=
  after_bind.mpr (h.mono hf)

theorem After.and {Q Q' : α → (Loc → Val) → Prop} (h : After p Q s) (h' : After p Q' s) :
    After p (fun a t => Q a t ∧ Q' a t) s := ⟨h, h'⟩

end Run

/-! ### The cells a program touches -/

/-- Every access is in `R`, whatever is read, and the result meets `P`. -/
def Within (R : Set Loc) (P : α → Prop) : Prog Loc Val α → Prop
  | ret a => P a
  | read l k => l ∈ R ∧ ∀ v, (k v).Within R P
  | write l _ p => l ∈ R ∧ p.Within R P

theorem within_pure {a : α} (h : P a) : Within R P (pure a : Prog Loc Val α) := h

theorem within_get (h : l ∈ R) : Within R (fun _ => True) (get l : Prog Loc Val Val) :=
  ⟨h, fun _ => True.intro⟩

theorem within_put (h : l ∈ R) : Within R (fun _ => True) (put l v) := ⟨h, True.intro⟩

theorem Within.bind (h : Within R P x) (hf : ∀ a, P a → Within R Q (f a)) : Within R Q (x >>= f) := by
  induction x with
  | ret a => exact hf a h
  | read l k ih => exact ⟨h.1, fun v => ih v (h.2 v)⟩
  | write l v p ih => exact ⟨h.1, ih h.2⟩

theorem Within.mono (h : Within R P p) (hR : R ⊆ R') (hP : ∀ a, P a → P' a) : Within R' P' p := by
  induction p with
  | ret a => exact hP a h
  | read l k ih => exact ⟨hR h.1, fun v => ih v (h.2 v)⟩
  | write l v p ih => exact ⟨hR h.1, ih h.2⟩

section Run

variable [DecidableEq Loc]

/-- **Locality**: cells out of `R` do not matter. -/
theorem Within.run_congr (h : Within R P p) (hs : ∀ l ∈ R, s l = t l) :
    (∀ l ∈ R, (p.run s).2 l = (p.run t).2 l) ∧ p.steps s = p.steps t := by
  induction p generalizing s t with
  | ret a => exact ⟨hs, rfl⟩
  | read l k ih =>
    have heq := hs l h.1
    obtain ⟨hrun, hsteps⟩ := ih (s l) (h.2 _) hs
    rw [heq] at hrun hsteps
    refine ⟨fun l' hl' => ?_, ?_⟩
    · show ((k (s l)).run s).2 l' = ((k (t l)).run t).2 l'
      rw [heq]
      exact hrun l' hl'
    · show (k (s l)).steps s + 1 = (k (t l)).steps t + 1
      rw [heq, hsteps]
  | write l v p ih =>
    have hupd : ∀ l' ∈ R, Function.update s l v l' = Function.update t l v l' := by
      intro l' hl'
      rcases eq_or_ne l' l with rfl | hne
      · rw [Function.update_self, Function.update_self]
      · rw [Function.update_of_ne hne, Function.update_of_ne hne, hs l' hl']
    obtain ⟨hrun, hsteps⟩ := ih h.2 hupd
    exact ⟨hrun, congrArg (· + 1) hsteps⟩

/-- **The frame**: cells out of `R` stay as they are. -/
theorem Within.run_frame (h : Within R P p) (hl : l ∉ R) : (p.run s).2 l = s l := by
  induction p generalizing s with
  | ret a => rfl
  | read l' k ih => exact ih (s l') (h.2 _)
  | write l' v p ih =>
    refine (ih h.2).trans (Function.update_of_ne ?_ _ _)
    rintro rfl
    exact hl h.1

theorem Within.after (h : Within R P p) : After p (fun _ t => ∀ l ∉ R, t l = s l) s := fun _ hl =>
  h.run_frame hl

end Run

end Prog

/-! ### Threads -/

/-- What is left to do for each thread, and the cells. -/
structure Config (ι Loc Val : Type) where
  prog : ι → Prog Loc Val Unit
  store : Loc → Val

variable [DecidableEq Loc] [DecidableEq ι]

/-- The next access of thread `i`. -/
def Config.next (c : Config ι Loc Val) (i : ι) : Option (Config ι Loc Val) :=
  match c.prog i with
  | .ret _ => none
  | .read l k => some ⟨Function.update c.prog i (k (c.store l)), c.store⟩
  | .write l v p => some ⟨Function.update c.prog i p, Function.update c.store l v⟩

/-- The threads `ps` on the cells `s`: a step is one access of one thread. -/
def threads (ps : ι → Prog Loc Val Unit) (s : Loc → Val) : System (Config ι Loc Val) ι :=
  .ofFun (· = ⟨ps, s⟩) Config.next

/-- Every thread has returned. -/
def Config.Done (c : Config ι Loc Val) : Prop := ∀ i, c.prog i = .ret ()

/-- Thread `i` touches `R i`, and these do not meet. -/
structure Apart (R : ι → Set Loc) (ps : ι → Prog Loc Val Unit) : Prop where
  within : ∀ i, (ps i).Within (R i) fun _ => True
  disjoint : ∀ i j l, l ∈ R i → l ∈ R j → i = j

variable {R : ι → Set Loc} {ps : ι → Prog Loc Val Unit} {s : Loc → Val} {c c' : Config ι Loc Val} {i j : ι}

/-- Each thread still has the end before it that it has alone. -/
structure OnTrack (R : ι → Set Loc) (ps : ι → Prog Loc Val Unit) (s : Loc → Val) (c : Config ι Loc Val) :
    Prop where
  apart : Apart R c.prog
  ahead : ∀ i, ∀ l ∈ R i, ((c.prog i).run c.store).2 l = ((ps i).run s).2 l
  rest : ∀ l, (∀ i, l ∉ R i) → c.store l = s l

/-- **What an access does**: the thread has one access less before it, and no other one notices. -/
theorem Apart.next (h : Apart R c.prog) (hn : c.next i = some c') :
    Apart R c'.prog ∧ (∀ l, l ∉ R i → c'.store l = c.store l) ∧
      (c'.prog i).run c'.store = (c.prog i).run c.store ∧
      (c'.prog i).steps c'.store + 1 = (c.prog i).steps c.store ∧ ∀ j, j ≠ i → c'.prog j = c.prog j := by
  have hw := h.within i
  unfold Config.next at hn
  split at hn
  · cases hn
  · next l k hp =>
    cases hn
    rw [hp] at hw
    refine ⟨⟨fun j => ?_, h.disjoint⟩, fun _ _ => rfl, ?_, ?_, fun j hj => Function.update_of_ne hj _ _⟩
    · rcases eq_or_ne j i with rfl | hj
      · simpa using hw.2 _
      · simpa [hj] using h.within j
    · simp [hp, Prog.run]
    · simp [hp, Prog.steps]
  · next l v p hp =>
    cases hn
    rw [hp] at hw
    refine ⟨⟨fun j => ?_, h.disjoint⟩, fun l' hl' => Function.update_of_ne ?_ _ _, ?_, ?_,
      fun j hj => Function.update_of_ne hj _ _⟩
    · rcases eq_or_ne j i with rfl | hj
      · simpa using hw.2
      · simpa [hj] using h.within j
    · rintro rfl
      exact hl' hw.1
    · simp [hp, Prog.run]
    · simp [hp, Prog.steps]

/-- The other threads do not notice an access. -/
theorem Apart.next_other (h : Apart R c.prog) (hn : c.next i = some c') (hj : j ≠ i) :
    (∀ l ∈ R j, ((c'.prog j).run c'.store).2 l = ((c.prog j).run c.store).2 l) ∧
      (c'.prog j).steps c'.store = (c.prog j).steps c.store := by
  obtain ⟨-, hstore, -, -, hprog⟩ := h.next hn
  rw [hprog j hj]
  exact (h.within j).run_congr fun l hl => hstore l fun hl' => hj (h.disjoint j i l hl hl')

theorem OnTrack.next (h : OnTrack R ps s c) (hn : c.next i = some c') : OnTrack R ps s c' := by
  obtain ⟨hapart, hstore, hrun, -, -⟩ := h.apart.next hn
  refine ⟨hapart, fun j l hl => ?_, fun l hl => (hstore l (hl i)).trans (h.rest l hl)⟩
  rcases eq_or_ne j i with rfl | hj
  · rw [hrun]
    exact h.ahead j l hl
  · exact ((h.apart.next_other hn hj).1 l hl).trans (h.ahead j l hl)

theorem onTrack (h : Apart R ps) (hc : (threads ps s).Reachable c) : OnTrack R ps s c := by
  refine hc.invariant (I := OnTrack R ps s) ?_ fun _ _ _ _ ih hs => ih.next hs
  rintro _ rfl
  exact ⟨h, fun _ _ _ => rfl, fun _ _ => rfl⟩

/-- **Threads on disjoint cells**: in whatever order they ran, each has left its cells as it does alone. -/
theorem done_store (h : Apart R ps) (hc : (threads ps s).Reachable c) (hd : c.Done) :
    (∀ i, ∀ l ∈ R i, c.store l = ((ps i).run s).2 l) ∧ ∀ l, (∀ i, l ∉ R i) → c.store l = s l := by
  have ht := onTrack h hc
  refine ⟨fun i l hl => ?_, ht.rest⟩
  have := ht.ahead i l hl
  rwa [hd i] at this

/-- A thread that has not returned can go on. -/
theorem Config.exists_next (hd : ¬ c.Done) : ∃ i c', c.next i = some c' := by
  obtain ⟨i, hi⟩ := not_forall.mp hd
  refine ⟨i, ?_⟩
  unfold Config.next
  split
  · next hp => exact absurd hp hi
  · exact ⟨_, rfl⟩
  · exact ⟨_, rfl⟩

section Ends

variable [Fintype ι]

/-- The accesses that are left. -/
def Config.left (c : Config ι Loc Val) : ℕ := ∑ i, (c.prog i).steps c.store

/-- An access is one of those that are left. -/
theorem Apart.left_next (h : Apart R c.prog) (hn : c.next i = some c') : c'.left + 1 = c.left := by
  have hself := (h.next hn).2.2.2.1
  have hothers : ∑ j ∈ Finset.univ.erase i, (c'.prog j).steps c'.store =
      ∑ j ∈ Finset.univ.erase i, (c.prog j).steps c.store :=
    Finset.sum_congr rfl fun j hj => (h.next_other hn (Finset.ne_of_mem_erase hj)).2
  rw [Config.left, Config.left, ← Finset.add_sum_erase _ _ (Finset.mem_univ i),
    ← Finset.add_sum_erase (a := i) _ (fun j => (c.prog j).steps c.store) (Finset.mem_univ i), hothers]
  omega

/-- **Every run ends**: its accesses are those that were left before. -/
theorem Apart.left_run (h : Apart R ps) {c₀ : Config ι Loc Val} {is : List ι} (hc : (threads ps s).Reachable c₀)
    (hr : (threads ps s).Run c₀ is c) : is.length + c.left = c₀.left := by
  induction hr with
  | nil => rw [List.length_nil, Nat.zero_add]
  | snoc hr hstep ih =>
    have hleft := (onTrack h (hc.run hr)).apart.left_next hstep
    rw [← ih, ← hleft, List.length_append, List.length_singleton]
    omega

/-- All threads can return. -/
theorem exists_done (h : Apart R ps) : ∃ c, (threads ps s).Reachable c ∧ c.Done := by
  suffices hgo : ∀ n c, (threads ps s).Reachable c → c.left = n → ∃ c, (threads ps s).Reachable c ∧ c.Done from
    hgo _ ⟨ps, s⟩ (.init rfl) rfl
  intro n
  induction n using Nat.strong_induction_on with
  | _ n ih =>
    intro c hc hn
    by_cases hd : c.Done
    · exact ⟨c, hc, hd⟩
    · obtain ⟨i, c', hc'⟩ := Config.exists_next hd
      have hleft := (onTrack h hc).apart.left_next hc'
      exact ih _ (by omega) c' (.step hc hc') rfl

end Ends

/-! ### One thread after the other -/

/-- The cells after the programs of a list, one after the other. -/
def inTurn (ps : ι → Prog Loc Val Unit) (order : List ι) (s : Loc → Val) : Loc → Val :=
  order.foldl (fun t i => ((ps i).run t).2) s

omit [DecidableEq ι] in
/-- Each program of the list has left its cells as it does alone, by induction on those that ran. -/
theorem Apart.inTurn_store (h : Apart R ps) {order : List ι} (hnodup : order.Nodup) :
    (∀ i ∈ order, ∀ l ∈ R i, inTurn ps order s l = ((ps i).run s).2 l) ∧
      ∀ l, (∀ i ∈ order, l ∉ R i) → inTurn ps order s l = s l := by
  induction order using List.reverseRecOn with
  | nil => exact ⟨fun i hi => absurd hi List.not_mem_nil, fun _ _ => rfl⟩
  | append_singleton order i ih =>
    obtain ⟨hbefore, -, hi⟩ := List.nodup_append.mp hnodup
    obtain ⟨hran, hrest⟩ := ih hbefore
    have hnew : ∀ j ∈ order, j ≠ i := fun j hj => hi j hj i (List.mem_singleton_self i)
    have hlast : inTurn ps (order ++ [i]) s = ((ps i).run (inTurn ps order s)).2 :=
      List.foldl_concat ..
    -- the cells of the last program are as they were at the start
    have hown : ∀ l ∈ R i, inTurn ps order s l = s l := fun l hl =>
      hrest l fun j hj hl' => hnew j hj (h.disjoint j i l hl' hl)
    rw [hlast]
    refine ⟨fun j hj l hl => ?_, fun l hl => ?_⟩
    · rcases List.mem_append.mp hj with hj | hj
      · rw [(h.within i).run_frame fun hl' => hnew j hj (h.disjoint j i l hl hl')]
        exact hran j hj l hl
      · obtain rfl := List.mem_singleton.mp hj
        exact ((h.within j).run_congr hown).1 l hl
    · rw [(h.within i).run_frame (hl i (List.mem_append_right _ (List.mem_singleton_self i)))]
      exact hrest l fun j hj => hl j (List.mem_append_left _ hj)

/-- **One after the other or together**, in any order: the cells are the same in the end. -/
theorem Apart.done_eq_inTurn (h : Apart R ps) (hc : (threads ps s).Reachable c) (hd : c.Done) {order : List ι}
    (hnodup : order.Nodup) (hall : ∀ i, i ∈ order) : c.store = inTurn ps order s := by
  obtain ⟨hown, hrest⟩ := done_store h hc hd
  obtain ⟨hown', hrest'⟩ := h.inTurn_store (s := s) hnodup
  funext l
  by_cases hl : ∃ i, l ∈ R i
  · obtain ⟨i, hi⟩ := hl
    rw [hown i l hi, hown' i (hall i) l hi]
  · rw [hrest l fun i hi => hl ⟨i, hi⟩, hrest' l fun i _ hi => hl ⟨i, hi⟩]

end OperatingSystems.Lib.Interleave
