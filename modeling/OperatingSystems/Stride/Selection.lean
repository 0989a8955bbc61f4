import OperatingSystems.Stride.Overflow

/-! # What the search sees

`scheduler` searches for the least pass first and charges the quantum that has just ended afterwards. Beside
the kernel we keep the slot of the process that was dispatched last, whose quantum is the outstanding one;
the up-to-date pass of a slot is what its pass will be after that charge (`pass_eq_upToDate`).

The search goes by the recorded passes, and takes the last process of the table among those with the least
(`select_last`). From this we read off when its choice is also the least by the up-to-date passes
(`picks_least_iff`). -/

namespace OperatingSystems.Stride.Selection

open OperatingSystems.Lib.Transition OperatingSystems.Stride.Overflow OperatingSystems.Stride.Ownership
  OperatingSystems.Stride.Table

/-- The slot of the process that was dispatched last. -/
def ranAfter (k : Kernel) (op : Op) (ran : Option (Fin nproc)) : Option (Fin nproc) :=
  match op with
  | .dispatch => (select k).map Choice.nxt
  | _ => ran

/-- The kernel, and the slot of the process that ran last. -/
def lately : System (Kernel × Option (Fin nproc)) Op := system.beside none ranAfter

/-- A step, with the record. -/
def latelyStep (x : Kernel × Option (Fin nproc)) (op : Op) : Option (Kernel × Option (Fin nproc)) :=
  (step x.1 op).map fun k => (k, ranAfter x.1 op x.2)

theorem lately_of_latelyStep {x y : Kernel × Option (Fin nproc)} {op : Op}
    (h : latelyStep x op = some y) : lately.step x op y := by
  obtain ⟨k, hk, rfl⟩ := Option.map_eq_some_iff.mp h
  exact ⟨hk, rfl⟩

theorem lately_userinit : lately.Reachable (userinit, none) := .init ⟨rfl, rfl⟩

instance (k : Kernel) (p i : Fin nproc) : Decidable (Candidate k p i) :=
  inferInstanceAs (Decidable (_ ∧ _))

/-- **The up-to-date pass** of a slot: with the quantum that has just ended. -/
def upToDate (x : Kernel × Option (Fin nproc)) (s : Fin nproc) : ℤ :=
  if x.2 = some s then int ((x.1.pstat s).pass + (x.1.pstat s).strides) else (x.1.pstat s).pass

/-- The dispatch runs a `RUNNABLE` process whose up-to-date pass is least. -/
def PicksLeast (x y : Kernel × Option (Fin nproc)) : Prop :=
  ∃ p, y.1.current = some p ∧ Candidate x.1 p y.1.curr ∧
    ∀ q t, Candidate x.1 q t → upToDate x y.1.curr ≤ upToDate x t

/-- By the recorded passes the process comes first: it has less than any other, or as much as some that
stand before it in the table. -/
def Leads (k : Kernel) (p s : Fin nproc) : Prop :=
  ∀ q t, Candidate k q t → q ≠ p →
    (k.pstat s).pass < (k.pstat t).pass ∨ (k.pstat s).pass = (k.pstat t).pass ∧ q < p

/-- The outstanding charge makes no difference: the process that ran last may not run again, or it comes
first and still does with the charge, or it does not come first and its charge does not change that. -/
def Harmless (x : Kernel × Option (Fin nproc)) : Prop :=
  ∀ p s, x.2 = some s → Candidate x.1 p s →
    (Leads x.1 p s → ∀ q t, Candidate x.1 q t → q ≠ p → upToDate x s ≤ (x.1.pstat t).pass) ∧
    (¬ Leads x.1 p s → ∃ q t, Candidate x.1 q t ∧ q ≠ p ∧ (x.1.pstat t).pass ≤ upToDate x s)

/-! ### The order of the search -/

/-- The best choice so far comes before the slot of this process. -/
def Wins (k : Kernel) (best : Option Choice) (p i : Fin nproc) : Prop :=
  ∃ c, best = some c ∧ (c.min < (k.pstat i).pass ∨ c.min = (k.pstat i).pass ∧ p ≤ c.minp)

/-- A process further down the table only takes the place of a choice with at least its pass. -/
theorem wins_selectSlot {k : Kernel} {best : Option Choice} {p q i : Fin nproc} (hpq : p ≤ q)
    (h : Wins k best p i) (j : Fin nproc) : Wins k (selectSlot k q best j) p i := by
  obtain ⟨c, rfl, hc⟩ := h
  unfold selectSlot
  split_ifs with hpid
  · simp only
    split_ifs with hle
    · refine ⟨_, rfl, ?_⟩
      rcases hle.lt_or_eq with hlt | heq
      · exact Or.inl (hlt.trans_le (hc.elim le_of_lt fun h => h.1.le))
      · exact heq ▸ hc.imp_right fun h => ⟨h.1, hpq⟩
    · exact ⟨c, rfl, hc⟩
  · exact ⟨c, rfl, hc⟩

theorem wins_selectSlot_self {k : Kernel} {p i : Fin nproc} (hpid : (k.pstat i).pid = (k.proc p).pid)
    (best : Option Choice) : Wins k (selectSlot k p best i) p i := by
  unfold selectSlot
  rw [if_pos hpid]
  cases best with
  | none => exact ⟨_, rfl, Or.inr ⟨rfl, le_rfl⟩⟩
  | some c =>
    simp only
    split_ifs with hle
    · exact ⟨_, rfl, Or.inr ⟨rfl, le_rfl⟩⟩
    · exact ⟨c, rfl, Or.inl (not_le.mp hle)⟩

theorem wins_foldl_selectSlot {k : Kernel} {p q i : Fin nproc} (hpq : p ≤ q) :
    ∀ (l : List (Fin nproc)) {best : Option Choice}, Wins k best p i →
      Wins k (l.foldl (selectSlot k q) best) p i
  | [], _, h => h
  | j :: l, _, h => wins_foldl_selectSlot hpq l (wins_selectSlot hpq h j)

theorem wins_foldl_selectSlot_self {k : Kernel} {p i : Fin nproc}
    (hpid : (k.pstat i).pid = (k.proc p).pid) :
    ∀ {l : List (Fin nproc)} (best : Option Choice), i ∈ l → Wins k (l.foldl (selectSlot k p) best) p i
  | j :: l, best, h => by
    rcases List.mem_cons.mp h with rfl | h
    · exact wins_foldl_selectSlot le_rfl l (wins_selectSlot_self hpid best)
    · exact wins_foldl_selectSlot_self hpid (selectSlot k p best j) h

theorem wins_selectProc {k : Kernel} {best : Option Choice} {p q i : Fin nproc} (hpq : p ≤ q)
    (h : Wins k best p i) : Wins k (selectProc k best q) p i := by
  unfold selectProc
  split_ifs
  · exact h
  · exact wins_foldl_selectSlot hpq _ h

theorem wins_selectProc_self {k : Kernel} {p i : Fin nproc} (h : Candidate k p i)
    (best : Option Choice) : Wins k (selectProc k best p) p i := by
  unfold selectProc
  rw [if_neg (not_not.mpr h.1)]
  exact wins_foldl_selectSlot_self h.2 best (List.mem_finRange i)

theorem wins_foldl_selectProc {k : Kernel} {p i : Fin nproc} :
    ∀ {l : List (Fin nproc)} {best : Option Choice}, (∀ q ∈ l, p ≤ q) → Wins k best p i →
      Wins k (l.foldl (selectProc k) best) p i
  | [], _, _, h => h
  | q :: l, best, hl, h => by
    have h' : Wins k (selectProc k best q) p i := wins_selectProc (hl q List.mem_cons_self) h
    exact wins_foldl_selectProc (l := l) (fun r hr => hl r (List.mem_cons_of_mem q hr)) h'

/-- What comes after the process in the table is further down. -/
theorem wins_foldl_selectProc_self {k : Kernel} {p i : Fin nproc} (h : Candidate k p i) :
    ∀ {l : List (Fin nproc)} (best : Option Choice), l.Pairwise (· < ·) → p ∈ l →
      Wins k (l.foldl (selectProc k) best) p i
  | q :: l, best, hl, hp => by
    obtain ⟨hlt, hl⟩ := List.pairwise_cons.mp hl
    rcases List.mem_cons.mp hp with rfl | hp
    · have h' : Wins k (selectProc k best p) p i := wins_selectProc_self h best
      exact wins_foldl_selectProc (l := l) (fun r hr => (hlt r hr).le) h'
    · exact wins_foldl_selectProc_self h (selectProc k best q) hl hp

/-- **The search takes the last process with the least pass.** -/
theorem select_last {k : Kernel} {c : Choice} (hc : select k = some c) {p i : Fin nproc}
    (h : Candidate k p i) : (k.pstat c.nxt).pass < (k.pstat i).pass ∨
      (k.pstat c.nxt).pass = (k.pstat i).pass ∧ p ≤ c.minp := by
  obtain ⟨c', hc', hwins⟩ :=
    wins_foldl_selectProc_self h none (List.pairwise_lt_finRange nproc) (List.mem_finRange p)
  cases hc.symm.trans hc'
  rwa [((select_spec k).1 c hc).min] at hwins

/-! ### The choice and the outstanding charge -/

section
variable {k : Kernel} (hinv : Inv k) {p q s t : Fin nproc}
include hinv

theorem slot_eq (h : Candidate k p s) (h' : Candidate k p t) : s = t := by
  refine hinv.slot_inj s t ?_ (h.2.trans h'.2.symm)
  have := hinv.pid_pos p (by simp [h.1])
  have := h.2
  omega

theorem proc_eq (h : Candidate k p s) (h' : Candidate k q s) : p = q :=
  hinv.pid_inj p q (by simp [h.1]) (by simp [h'.1]) (h.2.symm.trans h'.2)

/-- The search takes the process that comes first. -/
theorem leads_iff {c : Choice} (hc : select k = some c) (h : Candidate k p s) :
    Leads k p s ↔ c.minp = p := by
  have hok := ((select_spec k).1 c hc).candidate
  constructor
  · intro hl
    by_contra hne
    have hlast := select_last hc h
    rcases hl c.minp c.nxt hok hne with hlt | ⟨heq, hlt⟩
    · omega
    · rcases hlast with h' | ⟨-, hle⟩
      · omega
      · exact absurd hlt (not_lt.mpr hle)
  · rintro rfl q t hq hne
    obtain rfl := slot_eq hinv hok h
    exact (select_last hc hq).imp_right fun hle => ⟨hle.1, lt_of_le_of_ne hle.2 hne⟩

end

theorem upToDate_of_ne {x : Kernel × Option (Fin nproc)} {s : Fin nproc} (h : x.2 ≠ some s) :
    upToDate x s = (x.1.pstat s).pass := if_neg h

theorem dispatch_cases {x y : Kernel × Option (Fin nproc)} (hs : lately.step x .dispatch y) :
    ∃ c, select x.1 = some c ∧ y = (switch x.1 c, some c.nxt) := by
  obtain ⟨k, ran⟩ := x
  obtain ⟨k', ran'⟩ := y
  obtain ⟨hstep, hran⟩ := hs
  have hstep : step k .dispatch = some k' := hstep
  unfold step at hstep
  split at hstep <;> simp_all
  obtain ⟨c, hc, rfl⟩ := hstep
  exact ⟨c, hc, rfl, by simp [ranAfter, hc]⟩

theorem ranAfter_of_ne {k : Kernel} {op : Op} (hop : op ≠ .dispatch) (ran : Option (Fin nproc)) :
    ranAfter k op ran = ran := by
  unfold ranAfter
  split
  · exact absurd rfl hop
  · rfl

theorem curr_step {k k' : Kernel} {op : Op} (hs : step k op = some k') (hop : op ≠ .dispatch) :
    k'.curr = k.curr := by
  cases pstatStep_of_step hs with
  | same _ _ hc => exact hc
  | forkSlot _ _ hc => exact hc
  | current _ _ _ hc => exact hc
  | dispatch => exact absurd rfl hop

/-- The record is `curr_pstat_idx`, once a process has run. -/
theorem ran_eq_curr {x : Kernel × Option (Fin nproc)} (h : lately.Reachable x) :
    x.2 = none ∨ x.2 = some x.1.curr := by
  refine h.invariant (I := fun x => x.2 = none ∨ x.2 = some x.1.curr) ?_ ?_
  · intro x hx
    exact Or.inl hx.2
  · intro x op y _ hx hs
    by_cases hop : op = .dispatch
    · subst hop
      obtain ⟨c, -, rfl⟩ := dispatch_cases hs
      exact Or.inr rfl
    · obtain ⟨hstep, hran⟩ := hs
      rw [hran, ranAfter_of_ne hop, curr_step hstep hop]
      exact hx

/-- **What the next dispatch leaves** in a slot is its up-to-date pass. -/
theorem pass_eq_upToDate {x y : Kernel × Option (Fin nproc)} (h : lately.Reachable x) (hran : x.2 ≠ none)
    (hs : lately.step x .dispatch y) (s : Fin nproc) : (y.1.pstat s).pass = upToDate x s := by
  obtain ⟨c, -, rfl⟩ := dispatch_cases hs
  have hcurr := (ran_eq_curr h).resolve_left hran
  by_cases hsc : s = x.1.curr
  · subst hsc
    rw [upToDate, if_pos hcurr]
    simp only [switch, Function.update_self]
  · have hne : x.2 ≠ some s := by simpa [hcurr] using Ne.symm hsc
    rw [upToDate_of_ne hne]
    simp only [switch, Function.update_of_ne hsc]

/-- **When the dispatch takes the least up-to-date pass.** In every reachable state, the next dispatch runs a
`RUNNABLE` process with the least up-to-date pass exactly if the charge outstanding makes no difference. -/
theorem picks_least_iff {x y : Kernel × Option (Fin nproc)} (hx : lately.Reachable x)
    (hs : lately.step x .dispatch y) : PicksLeast x y ↔ Harmless x := by
  obtain ⟨c, hc, rfl⟩ := dispatch_cases hs
  have hinv := inv_reachable hx.of_beside
  have hok := ((select_spec x.1).1 c hc).candidate
  have hpicks : PicksLeast x (switch x.1 c, some c.nxt) ↔
      ∀ q t, Candidate x.1 q t → upToDate x c.nxt ≤ upToDate x t := by
    constructor
    · rintro ⟨p, -, -, h⟩
      exact h
    · intro h
      exact ⟨c.minp, rfl, hok, h⟩
  rw [hpicks]
  -- the choice is least by the recorded passes
  have hleast : ∀ q t, Candidate x.1 q t → (x.1.pstat c.nxt).pass ≤ (x.1.pstat t).pass := fun q t hq =>
    (select_last hc hq).elim le_of_lt fun h => h.1.le
  by_cases hran : ∃ p s, x.2 = some s ∧ Candidate x.1 p s
  · obtain ⟨p, s, hs, hp⟩ := hran
    have hother : ∀ q t, Candidate x.1 q t → q ≠ p → upToDate x t = (x.1.pstat t).pass := by
      intro q t hq hne
      refine upToDate_of_ne fun ht => hne ?_
      obtain rfl : s = t := by simpa [hs] using ht
      exact proc_eq hinv hq hp
    have honly : ∀ p' s', x.2 = some s' → Candidate x.1 p' s' → p' = p ∧ s' = s := by
      intro p' s' hs' hp'
      obtain rfl : s = s' := by simpa [hs] using hs'
      exact ⟨proc_eq hinv hp' hp, rfl⟩
    by_cases hlead : Leads x.1 p s
    · -- the process that ran last is chosen again
      obtain rfl := (leads_iff hinv hc hp).mp hlead
      obtain rfl := slot_eq hinv hok hp
      constructor
      · intro h p' s' hs' hp'
        obtain ⟨rfl, rfl⟩ := honly p' s' hs' hp'
        exact ⟨fun _ q t hq hne => hother q t hq hne ▸ h q t hq, fun hnot => absurd hlead hnot⟩
      · intro h q t hq
        by_cases hqp : q = c.minp
        · subst hqp
          rw [slot_eq hinv hq hp]
        · rw [hother q t hq hqp]
          exact (h c.minp c.nxt hs hp).1 hlead q t hq hqp
    · -- another process is chosen
      have hne : c.minp ≠ p := fun h => hlead ((leads_iff hinv hc hp).mpr h)
      rw [hother c.minp c.nxt hok hne]
      constructor
      · intro h p' s' hs' hp'
        obtain ⟨rfl, rfl⟩ := honly p' s' hs' hp'
        exact ⟨fun hl => absurd hl hlead, fun _ => ⟨c.minp, c.nxt, hok, hne, h p' s' hp⟩⟩
      · intro h q t hq
        by_cases hqp : q = p
        · subst hqp
          obtain rfl := slot_eq hinv hq hp
          obtain ⟨q', t', hq', -, hle⟩ := (h q t hs hp).2 hlead
          exact (hleast q' t' hq').trans hle
        · rw [hother q t hq hqp]
          exact hleast q t hq
  · -- nothing is outstanding for a process that may run
    have hall : ∀ q t, Candidate x.1 q t → upToDate x t = (x.1.pstat t).pass := fun q t hq =>
      upToDate_of_ne fun ht => hran ⟨q, t, ht, hq⟩
    refine iff_of_true (fun q t hq => ?_) fun p s hs hp => absurd ⟨p, s, hs, hp⟩ hran
    rw [hall q t hq, hall c.minp c.nxt hok]
    exact hleast q t hq

/-- Init forks and yields: both processes may run, and the quantum of init is not charged yet. -/
def initForks : List Op := [.dispatch, .fork, .forkCopy, .forkSlot, .yield]

/-- The dispatch of the child, whose pass is less with and without that charge. -/
theorem picks_least_initForks : ∃ x ∈ runFun latelyStep (userinit, none) initForks,
    x.2 = some 0 ∧ Candidate x.1 0 0 ∧ Candidate x.1 1 1 ∧
    ∃ y, lately.step x .dispatch y ∧ PicksLeast x y := by
  have hrun : ∃ x ∈ runFun latelyStep (userinit, none) initForks, x.2 = some 0 ∧ Candidate x.1 0 0 ∧
      Candidate x.1 1 1 ∧ (x.1.pstat 1).pass < (x.1.pstat 0).pass ∧
      (x.1.pstat 1).pass ≤ upToDate x 0 ∧ (latelyStep x .dispatch).isSome := by
    decide +kernel
  obtain ⟨x, hx, hran, hinit, hchild, hlt, hle, hsome⟩ := hrun
  obtain ⟨y, hy⟩ := Option.isSome_iff_exists.mp hsome
  have hs := lately_of_latelyStep hy
  have hreach : lately.Reachable x := reachable_runFun (fun _ _ _ => lately_of_latelyStep) lately_userinit hx
  refine ⟨x, hx, hran, hinit, hchild, y, hs, (picks_least_iff hreach hs).mpr fun p s hs hp => ?_⟩
  obtain rfl : 0 = s := Option.some.inj (hran.symm.trans hs)
  obtain rfl := proc_eq (inv_reachable hreach.of_beside) hp hinit
  refine ⟨fun hleads => ?_, fun _ => ⟨1, 1, hchild, by decide, hle⟩⟩
  rcases hleads 1 1 hchild (by decide) with h | ⟨h, -⟩
  · omega
  · omega

/-- Init forks, and its child runs until its recorded pass is that of init: 49152. -/
def childCatchesUp : List Op :=
  [.dispatch, .fork, .forkCopy, .forkSlot, .yield, .dispatch, .yield, .dispatch, .yield, .dispatch, .yield]

/-- **The child runs again** although its last quantum has put it behind init. -/
theorem picks_stale : ¬ ∀ x y, lately.Reachable x → lately.step x .dispatch y → PicksLeast x y := by
  intro hall
  have hrun : ∃ x ∈ runFun latelyStep (userinit, none) childCatchesUp,
      ∃ y ∈ latelyStep x .dispatch, Candidate x.1 0 0 ∧ ¬ upToDate x y.1.curr ≤ upToDate x 0 := by
    decide +kernel
  obtain ⟨x, hx, y, hy, hinit, hlt⟩ := hrun
  have hreach : lately.Reachable x := reachable_runFun (fun _ _ _ => lately_of_latelyStep) lately_userinit hx
  obtain ⟨p, -, -, hleast⟩ := hall x y hreach (lately_of_latelyStep hy)
  exact hlt (hleast 0 0 hinit)

end OperatingSystems.Stride.Selection
