import OperatingSystems.Stride.Overflow

/-! # What a charge counts, and what it costs

Every dispatch charges the slot that `curr_pstat_idx` names. Beside the kernel we keep the `Past` of its
processes: how often each was dispatched, and whether its stride has changed or its pass has overflowed. A
process has a slot until it dies (`Known.step`), and the ticks of a slot in use count the dispatches of its
process up to the outstanding one, and one more for init, to whose slot the first dispatch of all is charged
(`ticks_exact_iff`).

A charge is the stride of the slot, which is that of its tickets; it is positive for up to `max_stride` of
them (`quantum_costs_iff`). -/

namespace OperatingSystems.Stride.Charges

open OperatingSystems.Lib.Transition OperatingSystems.Stride.Overflow OperatingSystems.Stride.Ownership
  OperatingSystems.Stride.Share OperatingSystems.Stride.Table

/-! ### The past of the processes -/

/-- What has happened to the processes, by their pids. -/
structure Past where
  dispatched : ℕ → ℕ
  changed : ℕ → Bool
  wrapped : ℕ → Bool

/-- A dispatch counts for the process that it runs, and charges the current slot, perhaps with an overflow;
`settickets` may give the current process another stride. -/
def Past.after (k : Kernel) (op : Op) (h : Past) : Past :=
  match op with
  | .dispatch =>
    match select k with
    | none => h
    | some c => { h with
        dispatched := Function.update h.dispatched (k.proc c.minp).pid
          (h.dispatched (k.proc c.minp).pid + 1)
        wrapped := if InRange k then h.wrapped else Function.update h.wrapped (k.pstat k.curr).pid true }
  | .settickets number =>
    if number < 1 ∨ maxStride / number = (k.pstat k.curr).strides then h
    else { h with changed := Function.update h.changed (k.pstat k.curr).pid true }
  | _ => h

/-- Before the first dispatch. -/
def noPast : Past := ⟨fun _ => 0, fun _ => false, fun _ => false⟩

/-- The kernel, and the past of its processes. -/
def lives : System (Kernel × Past) Op := system.beside noPast Past.after

/-- **The slot is exact**: its ticks are the dispatches of its process without the outstanding one, and its
pass is a stride for each of them and one to begin with. Before the first dispatch none is outstanding. -/
structure Accounted (x : Kernel × Past) (s : Fin nproc) : Prop where
  ticks : (x.1.pstat s).ticks = x.2.dispatched (x.1.pstat s).pid - if s = x.1.curr then 1 else 0
  pass : x.2.changed (x.1.pstat s).pid = false → x.2.wrapped (x.1.pstat s).pid = false →
    (x.1.pstat s).pass = (x.1.pstat s).strides * (1 + (x.1.pstat s).ticks)

theorem Past.dispatched_after {k : Kernel} {op : Op} (hop : op ≠ .dispatch) (h : Past) :
    (h.after k op).dispatched = h.dispatched := by
  unfold Past.after
  split
  · exact absurd rfl hop
  · split_ifs <;> rfl
  · rfl

theorem of_update_true {f : ℕ → Bool} {i j : ℕ} (h : Function.update f i true j = false) : f j = false := by
  rcases eq_or_ne j i with rfl | hne
  · simp at h
  · rwa [Function.update_of_ne hne] at h

/-- What has changed stays so. -/
theorem Past.changed_after {k : Kernel} {op : Op} {h : Past} {pid : ℕ}
    (hc : (h.after k op).changed pid = false) : h.changed pid = false := by
  unfold Past.after at hc
  split at hc
  · split at hc <;> exact hc
  · split_ifs at hc
    · exact hc
    · exact of_update_true hc
  · exact hc

theorem Past.wrapped_after {k : Kernel} {op : Op} {h : Past} {pid : ℕ}
    (hw : (h.after k op).wrapped pid = false) : h.wrapped pid = false := by
  unfold Past.after at hw
  split at hw
  · split at hw
    · exact hw
    · split_ifs at hw
      · exact hw
      · exact of_update_true hw
  · split_ifs at hw <;> exact hw
  · exact hw

/-! ### The slots in use -/

/-- A slot in use after a step other than a dispatch: it was in use, and its stride is the same or that of
new tickets; or it has just been given to the child of a `fork`. -/
inductive InUse (k : Kernel) (op : Op) (k' : Kernel) (s : Fin nproc) : Prop
  | kept (huse : (k.pstat s).inuse) (hk : Kept k k' s)
      (hstrides : (k'.pstat s).strides = (k.pstat s).strides ∨
        ∃ number, op = .settickets number ∧ s = k.curr ∧ 1 ≤ number ∧
          (k'.pstat s).strides = maxStride / number) : InUse k op k' s
  | child {np : Fin nproc} (hnp : Pending k np) (hne : s ≠ k.curr) (hcurr : k'.curr = k.curr)
      (hslot : k'.pstat s = childSlot k (k.proc np).pid) : InUse k op k' s

theorem inUse_of_eq {k k' : Kernel} {op : Op} {s : Fin nproc} (huse : (k'.pstat s).inuse)
    (hp : k'.pstat = k.pstat) (hc : k'.curr = k.curr) : InUse k op k' s := by
  refine .kept (hp ▸ huse) (.of_eq hc hp) (Or.inl ?_)
  rw [hp]

theorem inUse_procStep {k k' : Kernel} {p : Fin nproc} {op : Op} (hinv : Inv k)
    (hs : procStep k p op = some k') {s : Fin nproc} (huse : (k'.pstat s).inuse) : InUse k op k' s := by
  have hkept : (k.pstat s).inuse → Kept k k' s := kept_procStep hs
  unfold procStep at hs
  split at hs
  case h_2 =>
    cases hs
    unfold allocproc at huse ⊢
    split at huse <;> exact inUse_of_eq huse rfl rfl
  case h_5 np pid hf =>
    cases hs
    unfold Table.forkSlot at huse hkept ⊢
    split at huse
    · exact inUse_of_eq huse rfl rfl
    · next t ht =>
      by_cases hst : s = t
      · subst hst
        obtain ⟨-, rfl⟩ := hinv.ready p np pid hf
        refine .child ⟨p, _, hf⟩ ((freeSlot_spec k).1 s ht).2 rfl ?_
        exact Function.update_self ..
      · simp only [Function.update_of_ne hst] at huse
        simp only [ht] at hkept
        refine .kept huse (hkept huse) (Or.inl ?_)
        simp only [Function.update_of_ne hst]
  case h_6 =>
    split_ifs at hs
    cases hs
    by_cases hsc : s = k.curr
    · subst hsc
      simp [Table.exit] at huse
    · simp only [Table.exit, Function.update_of_ne hsc] at huse
      refine .kept huse (hkept huse) (Or.inl ?_)
      simp only [Table.exit, Function.update_of_ne hsc]
  case h_7 =>
    cases hs
    unfold wait at huse ⊢
    split at huse
    · exact inUse_of_eq huse rfl rfl
    · split_ifs at huse ⊢ <;> exact inUse_of_eq huse rfl rfl
  case h_9 =>
    cases hs
    unfold kill at huse ⊢
    split at huse <;> exact inUse_of_eq huse rfl rfl
  case h_10 number _ =>
    cases hs
    unfold Table.settickets at huse hkept ⊢
    split_ifs at huse hkept ⊢ with hn
    · exact inUse_of_eq huse rfl rfl
    · by_cases hsc : s = k.curr
      · subst hsc
        simp only [Function.update_self] at huse
        refine .kept huse (hkept huse) (Or.inr ⟨number, rfl, rfl, not_lt.mp hn, ?_⟩)
        simp only [Function.update_self]
      · simp only [Function.update_of_ne hsc] at huse
        refine .kept huse (hkept huse) (Or.inl ?_)
        simp only [Function.update_of_ne hsc]
  case h_11 => cases hs
  all_goals
    cases hs
    exact inUse_of_eq huse rfl rfl

/-- **The slots in use after a step** other than a dispatch. -/
theorem inUse_step {k k' : Kernel} {op : Op} (hinv : Inv k) (hs : step k op = some k')
    (hop : op ≠ .dispatch) {s : Fin nproc} (huse : (k'.pstat s).inuse) : InUse k op k' s := by
  unfold step at hs
  split at hs
  case h_1 => cases hs; exact inUse_of_eq huse rfl rfl
  case h_2 => exact absurd rfl hop
  case h_3 => cases hs
  case h_4 => cases hs
  case h_5 => exact inUse_procStep hinv hs huse

/-! ### Processes that have had a slot -/

/-- The process with this pid has a slot, or it had one and has died. -/
def Known (k : Kernel) (pid : ℕ) : Prop := Dead k pid ∨ ∃ s, Owns k pid s

theorem Known.step {k k' : Kernel} {op : Op} {pid : ℕ} (h : Known k pid) (hinv : Inv k)
    (hs : step k op = some k') : Known k' pid := by
  rcases h with hd | ⟨s, ho⟩
  · exact Or.inl (hd.step hinv hs)
  · by_cases hop : op = .dispatch
    · subst hop
      cases pstatStep_of_step hs with
      | same hop => exact absurd rfl hop
      | current hop => exact absurd rfl hop
      | dispatch hc => exact Or.inr ⟨s, (owns_switch _).mpr ho⟩
    · have hk := kept_step hs hop ho.1
      have hpid : (k'.pstat s).pid = pid := hk.pid.trans ho.2
      by_cases huse : (k'.pstat s).inuse
      · exact Or.inr ⟨s, huse, hpid⟩
      · obtain ⟨p, hl, -, hp⟩ := hinv.owner s ho.1
        have hpos := hinv.pid_pos p hl.ne_unused
        have hne : (k'.pstat s).pid ≠ 0 := by rw [hk.pid, ← hp]; omega
        exact Or.inl (hpid ▸ dead_of_free (inv_step hinv hs) hne (by simpa using huse))

/-- The child of a `fork` in progress has had none yet. -/
theorem not_known {k : Kernel} (hinv : Inv k) {np : Fin nproc} (hnp : Pending k np) :
    ¬ Known k (k.proc np).pid := by
  rintro (hd | ⟨s, -, hs⟩)
  · obtain ⟨p, pid, hp⟩ := hnp
    obtain ⟨hrun, -⟩ := hinv.ready p np pid hp
    exact hd.2 np (by simp [Active, hrun]) rfl
  · exact hinv.fresh np (Or.inr hnp) s hs

/-! ### The ticks count the dispatches -/

/-- Nothing has run yet. -/
structure Booting (k : Kernel) : Prop where
  current : k.current = none
  curr : k.curr = 0
  pstat : k.pstat = userinit.pstat

/-- **The slots in use agree with the past** of their processes. Init has one tick on top of its quanta, also
before the first dispatch, when the current slot is its own. -/
structure Tallied (x : Kernel × Past) : Prop where
  inv : Inv x.1
  known : ∀ pid, pid = 1 ∨ x.2.dispatched pid ≠ 0 → Known x.1 pid
  quanta : ∀ s, (x.1.pstat s).inuse →
    quanta x.1 s = x.2.dispatched (x.1.pstat s).pid + if (x.1.pstat s).pid = 1 then 1 else 0
  pass : ∀ s, (x.1.pstat s).inuse → x.2.changed (x.1.pstat s).pid = false →
    x.2.wrapped (x.1.pstat s).pid = false →
    (x.1.pstat s).pass = (x.1.pstat s).strides * (1 + (x.1.pstat s).ticks)
  begun : (∀ pid, x.2.dispatched pid = 0) ∧ Booting x.1 ∨ 0 < x.2.dispatched 1

/-- Before the first dispatch only an interrupt does anything. -/
theorem Booting.step {k k' : Kernel} {op : Op} (h : Booting k) (hop : op ≠ .dispatch)
    (hs : step k op = some k') : Booting k' := by
  unfold Table.step at hs
  split at hs
  case h_1 => cases hs; exact ⟨h.current, h.curr, h.pstat⟩
  case h_2 => exact absurd rfl hop
  case h_3 => cases hs
  case h_4 => cases hs
  case h_5 hp => exact absurd (h.current.symm.trans hp) nofun

theorem tallied_userinit : Tallied (userinit, noPast) := by
  have hslot : ∀ s, (userinit.pstat s).inuse → s = 0 := by decide +kernel
  refine ⟨inv_userinit, fun pid hpid => ?_, fun s hs => ?_, fun s hs _ _ => ?_, ?_⟩
  · obtain rfl := hpid.resolve_right (not_not.mpr rfl)
    exact Or.inr ⟨0, rfl, rfl⟩
  · obtain rfl := hslot s hs
    rfl
  · obtain rfl := hslot s hs
    rfl
  · exact Or.inl ⟨fun _ => rfl, rfl, rfl, rfl⟩

/-- A step other than a dispatch. -/
theorem Tallied.other {x y : Kernel × Past} {op : Op} (h : Tallied x) (hop : op ≠ .dispatch)
    (hs : lives.step x op y) : Tallied y := by
  obtain ⟨hstep, hpast⟩ := hs
  have hdisp : y.2.dispatched = x.2.dispatched := by rw [hpast, Past.dispatched_after hop]
  have huse := fun s => inUse_step (s := s) h.inv hstep hop
  refine ⟨inv_step h.inv hstep, fun pid hpid => ?_, fun s hs => ?_, fun s hs hc hw => ?_, ?_⟩
  · rw [hdisp] at hpid
    exact (h.known pid hpid).step h.inv hstep
  · rw [hdisp]
    cases huse s hs with
    | kept hin hk _ =>
      rw [hk.quanta, hk.pid]
      exact h.quanta s hin
    | @child np hnp hne hcurr hslot =>
      have hnew := fun hpid => not_known h.inv hnp (h.known (x.1.proc np).pid hpid)
      have hpid : (y.1.pstat s).pid = (x.1.proc np).pid := by rw [hslot, childSlot]
      have hzero : x.2.dispatched (x.1.proc np).pid = 0 := by
        by_contra hne
        exact hnew (Or.inr hne)
      rw [Share.quanta, hpid, hzero, hslot, hcurr, if_neg hne, if_neg fun h1 => hnew (Or.inl h1)]
      rfl
  · rw [hpast] at hc hw
    cases huse s hs with
    | kept hin hk hstrides =>
      rw [hk.pid] at hc hw
      have hpass := h.pass s hin (Past.changed_after hc) (Past.wrapped_after hw)
      rw [hk.pass, hk.ticks, hpass]
      rcases hstrides with heq | ⟨number, rfl, rfl, hn, heq⟩
      · rw [heq]
      · -- a stride other than the one before is recorded
        rw [heq]
        by_contra hne
        have hsame : ¬ (number < 1 ∨ maxStride / number = (x.1.pstat x.1.curr).strides) := by
          rintro (hlt | hsame)
          · omega
          · exact hne (by rw [hsame])
        simp [Past.after, hsame] at hc
    | child hnp hne hcurr hslot =>
      rw [hslot]
      simp [childSlot]
  · rw [hdisp]
    exact h.begun.imp_left fun hb => ⟨hb.1, hb.2.step hop hstep⟩

/-- **A dispatch** adds the tick of the slot that ran last, and counts for the one that runs next. -/
theorem Tallied.dispatch {x y : Kernel × Past} (h : Tallied x) (hs : lives.step x .dispatch y) :
    Tallied y := by
  obtain ⟨k, past⟩ := x
  obtain ⟨k', past'⟩ := y
  obtain ⟨hstep, hpast⟩ := hs
  have hstep : step k .dispatch = some k' := hstep
  have hafter : past' = past.after k .dispatch := hpast
  have hinv : Inv k := h.inv
  have hinv' := inv_step hinv hstep
  obtain ⟨c, hc, rfl⟩ : ∃ c, select k = some c ∧ k' = switch k c := by
    cases pstatStep_of_step hstep with
    | same hop => exact absurd rfl hop
    | current hop => exact absurd rfl hop
    | dispatch hc => exact ⟨_, hc, rfl⟩
  have hok := ((select_spec k).1 c hc).candidate
  have hpos := hinv.pid_pos c.minp (by simp [hok.1])
  -- the slot that runs next is the one with the pid of the process
  have hnxt : ∀ s, s = c.nxt ↔ (k.pstat s).pid = (k.proc c.minp).pid := by
    intro s
    constructor
    · rintro rfl
      exact hok.2
    · intro hpid
      exact hinv.slot_inj s c.nxt (by omega) (hpid.trans hok.2.symm)
  have hdisp : ∀ pid, past'.dispatched pid =
      past.dispatched pid + if pid = (k.proc c.minp).pid then 1 else 0 := by
    intro pid
    simp only [hafter, Past.after, hc]
    split_ifs with hpid
    · rw [hpid, Function.update_self]
    · rw [Function.update_of_ne hpid, add_zero]
  have hslot : ∀ s, ((switch k c).pstat s).pid = (k.pstat s).pid ∧
      ((switch k c).pstat s).inuse = (k.pstat s).inuse := by
    intro s
    by_cases hsc : s = k.curr
    · subst hsc
      simp only [switch, Function.update_self, and_self]
    · simp only [switch, Function.update_of_ne hsc, and_self]
  refine ⟨hinv', fun pid hpid => ?_, fun s hs => ?_, fun s hs hch hw => ?_, ?_⟩
  · by_cases hq : pid = (k.proc c.minp).pid
    · have hcurr := hinv'.curr c.minp rfl
      exact Or.inr ⟨c.nxt, hcurr.1, by rw [(hslot _).1, hq, hok.2]⟩
    · rw [hdisp, if_neg hq, add_zero] at hpid
      exact (h.known pid hpid).step h.inv hstep
  · rw [(hslot s).2] at hs
    have hq := h.quanta s hs
    rw [quanta_switch, hq, (hslot s).1, hdisp]
    simp only [hnxt s]
    push_cast
    ring
  · rw [(hslot s).2] at hs
    simp only [(hslot s).1] at hch hw
    rw [hafter] at hch hw
    have hpass := h.pass s hs (Past.changed_after hch) (Past.wrapped_after hw)
    by_cases hsc : s = k.curr
    · subst hsc
      have hr : InRange k := by
        by_contra hr
        simp [Past.after, hc, hr] at hw
      simp only [switch, Function.update_self, int_eq hr]
      rw [hpass]
      push_cast
      ring
    · simp only [switch, Function.update_of_ne hsc]
      exact hpass
  · refine Or.inr ?_
    simp only [hdisp]
    rcases h.begun with ⟨-, hboot⟩ | h1
    · -- there is no process yet but init
      have hslots : ∀ s, (userinit.pstat s).pid ≠ 0 → (userinit.pstat s).pid = 1 := by decide +kernel
      have hpstat : k.pstat = userinit.pstat := hboot.pstat
      rw [← hok.2, hpstat] at hpos ⊢
      rw [hslots c.nxt (by omega), if_pos rfl]
      exact Nat.succ_pos _
    · exact Nat.add_pos_left h1 _

theorem tallied_reachable {x : Kernel × Past} (h : lives.Reachable x) : Tallied x := by
  refine h.invariant (I := Tallied) ?_ ?_
  · rintro ⟨k, past⟩ ⟨rfl, rfl⟩
    exact tallied_userinit
  · intro x op y _ hx hs
    by_cases hop : op = .dispatch
    · subst hop
      exact hx.dispatch hs
    · exact hx.other hop hs

/-- **The ticks of a slot.** In every reachable state a slot in use is exact, unless it is that of init and
some process has been dispatched: the first dispatch charges it a tick for no quantum. -/
theorem ticks_exact_iff {x : Kernel × Past} (h : lives.Reachable x) {s : Fin nproc}
    (hs : (x.1.pstat s).inuse) :
    Accounted x s ↔ (x.1.pstat s).pid ≠ 1 ∨ ∀ pid, x.2.dispatched pid = 0 := by
  have ht := tallied_reachable h
  have hq := ht.quanta s hs
  unfold quanta at hq
  constructor
  · intro ha
    by_contra! hnot
    obtain ⟨hpid, pid, hpos⟩ := hnot
    have hfirst : 0 < x.2.dispatched 1 := ht.begun.resolve_left fun hb => hpos (hb.1 pid)
    have hticks := ha.ticks
    rw [hpid] at hq hticks
    rw [if_pos rfl] at hq
    split_ifs at hq hticks <;> omega
  · intro hcond
    refine ⟨?_, ht.pass s hs⟩
    rcases hcond with hpid | hzero
    · rw [if_neg hpid] at hq
      split_ifs at hq ⊢ <;> omega
    · have hnone : ∀ s, (userinit.pstat s).ticks = 0 := by decide +kernel
      have hboot := (ht.begun.resolve_right (by simp [hzero])).2
      rw [hzero, Nat.zero_sub, hboot.pstat, hnone]

theorem lives_userinit : lives.Reachable (userinit, noPast) :=
  .init ⟨rfl, rfl⟩

/-- Init forks, and its child runs three quanta. -/
def threeQuanta : List Op :=
  [.dispatch, .fork, .forkCopy, .forkSlot, .yield, .dispatch, .yield, .dispatch, .yield, .dispatch, .yield]

/-- The slot of the child is exact: two quanta are charged, and the third is outstanding. -/
theorem ticks_exact_threeQuanta : ∃ x ∈ runFun (besideFun step Past.after) (userinit, noPast) threeQuanta,
    (x.1.pstat 1).pid = 2 ∧ (x.1.pstat 1).ticks = 2 ∧ x.2.dispatched 2 = 3 ∧ Accounted x 1 := by
  have hrun : ∃ x ∈ runFun (besideFun step Past.after) (userinit, noPast) threeQuanta,
      (x.1.pstat 1).inuse ∧ (x.1.pstat 1).pid = 2 ∧ (x.1.pstat 1).ticks = 2 ∧ x.2.dispatched 2 = 3 := by
    decide +kernel
  obtain ⟨x, hx, huse, hpid, hticks, hdisp⟩ := hrun
  have hreach : lives.Reachable x :=
    reachable_runFun (beside_of_besideFun fun _ _ _ h => h) lives_userinit hx
  exact ⟨x, hx, hpid, hticks, hdisp, (ticks_exact_iff hreach huse).mpr (Or.inl (by omega))⟩

/-- **The first dispatch** gives init a tick while its quantum is still outstanding. -/
theorem ticks_first_dispatch : ¬ ∀ x s, lives.Reachable x → (x.1.pstat s).inuse → Accounted x s := by
  intro hall
  have hrun : ∃ k ∈ step userinit .dispatch, (k.pstat 0).inuse ∧ (k.pstat 0).ticks = 1 ∧
      (Past.after userinit .dispatch noPast).dispatched
        (k.pstat 0).pid = 1 ∧ 0 = k.curr := by
    decide +kernel
  obtain ⟨k, hk, huse, hticks, hdisp, hcurr⟩ := hrun
  have hreach : lives.Reachable (k, Past.after userinit .dispatch _) :=
    .step lives_userinit (a := .dispatch) ⟨hk, rfl⟩
  have h := (hall _ 0 hreach huse).ticks
  simp only [hticks, hdisp, if_pos hcurr] at h
  exact absurd h (by decide)

/-! ### What a quantum costs -/

/-- **A quantum costs something**: every slot in use has a stride from 1 to `max_stride`, and a dispatch
without an overflow raises the pass that it charges. -/
structure Costs (k : Kernel) : Prop where
  strides : ∀ s, (k.pstat s).inuse → 1 ≤ (k.pstat s).strides ∧ (k.pstat s).strides ≤ maxStride
  raises : ∀ k', step k .dispatch = some k' → InRange k →
    (k.pstat k.curr).pass < (k'.pstat k.curr).pass

/-- No slot in use, nor the one that the next dispatch charges, has more than `max_stride` tickets. -/
structure Modest (k : Kernel) : Prop where
  inuse : ∀ s, (k.pstat s).inuse → (k.pstat s).tickets ≤ maxStride
  charged : (step k .dispatch).isSome → (k.pstat k.curr).tickets ≤ maxStride

/-- Every `settickets` is for at most `max_stride` tickets. -/
def Asks (_ : Kernel) (op : Op) : Prop := ∀ number, op = .settickets number → number ≤ maxStride

/-- A pass is an `int`, and the tickets and strides are what a charge needs. -/
structure Charged (k : Kernel) : Prop where
  inv : Inv k
  priced : Priced k
  pass : ∀ s, -2 ^ 31 ≤ (k.pstat s).pass ∧ (k.pstat s).pass < 2 ^ 31

theorem int_range (x : ℤ) : -2 ^ 31 ≤ int x ∧ int x < 2 ^ 31 := by
  unfold int
  have h1 := Int.le_bmod (x := x) (m := 2 ^ 32) (by decide)
  have h2 := Int.bmod_lt (x := x) (m := 2 ^ 32) (by decide)
  omega

theorem charged_userinit : Charged userinit :=
  ⟨inv_userinit, priced_userinit, by decide +kernel⟩

theorem Charged.step {k k' : Kernel} {op : Op} (h : Charged k) (hs : step k op = some k') :
    Charged k' := by
  refine ⟨inv_step h.inv hs, h.priced.step h.inv hs, fun s => ?_⟩
  cases pstatStep_of_step hs with
  | same _ hp =>
    rw [hp]
    exact h.pass s
  | @forkSlot _ t pid ht hp =>
    rw [hp]
    by_cases hst : s = t
    · subst hst
      have h1 := h.inv.strides k.curr
      have h2 := h.priced.strides_le k.curr
      simp only [Function.update_self, childSlot]
      unfold maxStride at h2
      omega
    · rw [Function.update_of_ne hst]
      exact h.pass s
  | current _ _ hp _ hpass =>
    rw [hp]
    by_cases hsc : s = k.curr
    · subst hsc
      rw [Function.update_self, hpass]
      exact h.pass k.curr
    · rw [Function.update_of_ne hsc]
      exact h.pass s
  | dispatch =>
    by_cases hsc : s = k.curr
    · subst hsc
      simp only [switch, Function.update_self]
      exact int_range _
    · simp only [switch, Function.update_of_ne hsc]
      exact h.pass s

theorem charged_reachable {k : Kernel} (h : system.Reachable k) : Charged k := by
  refine h.invariant (I := Charged) ?_ fun k op k' _ hk hs => hk.step hs
  rintro _ rfl
  exact charged_userinit

theorem Charged.costs_iff {k : Kernel} (h : Charged k) : Costs k ↔ Modest k := by
  constructor
  · intro hc
    refine ⟨fun s hs => (h.priced.pos_iff (Or.inl hs)).mp (hc.strides s hs).1, fun hd => ?_⟩
    obtain ⟨k', hk'⟩ := Option.isSome_iff_exists.mp hd
    by_contra hmany
    -- a charge of zero never overflows
    have hzero : (k.pstat k.curr).strides = 0 := by
      have h0 := h.inv.strides k.curr
      have hnot := mt (h.priced.pos_iff (Or.inr rfl)).mp hmany
      omega
    have hr : InRange k := by
      unfold InRange
      rw [hzero, add_zero]
      exact h.pass k.curr
    have hlt := hc.raises k' hk' hr
    rw [pass_dispatch hk', int_eq hr, hzero, add_zero] at hlt
    exact lt_irrefl _ hlt
  · intro hm
    refine ⟨fun s hs => ?_, fun k' hk' hr => ?_⟩
    · have hpos := (h.priced.pos_iff (Or.inl hs)).mpr (hm.inuse s hs)
      exact ⟨hpos, h.priced.strides_le s⟩
    · have hpos := (h.priced.pos_iff (Or.inr rfl)).mpr (hm.charged (by simp [hk']))
      rw [pass_dispatch hk', int_eq hr]
      omega

/-- Only one slot changes. -/
theorem tickets_update {k k' : Kernel} {op : Op} {x : Slot} {s t : Fin nproc}
    (hp : k'.pstat = Function.update k.pstat t x)
    (hx : (∃ u, x.tickets = (k.pstat u).tickets) ∨ op = .settickets x.tickets) :
    (∃ u, (k'.pstat s).tickets = (k.pstat u).tickets) ∨ op = .settickets (k'.pstat s).tickets := by
  rw [hp]
  by_cases hst : s = t
  · subst hst
    rwa [Function.update_self]
  · rw [Function.update_of_ne hst]
    exact Or.inl ⟨s, rfl⟩

theorem tickets_procStep {k k' : Kernel} {p : Fin nproc} {op : Op} (hs : procStep k p op = some k')
    (s : Fin nproc) :
    (∃ t, (k'.pstat s).tickets = (k.pstat t).tickets) ∨ op = .settickets (k'.pstat s).tickets := by
  unfold procStep at hs
  split at hs
  case h_2 =>
    cases hs
    unfold allocproc
    split <;> exact Or.inl ⟨s, rfl⟩
  case h_5 =>
    cases hs
    unfold Table.forkSlot
    split
    · exact Or.inl ⟨s, rfl⟩
    · exact tickets_update rfl (Or.inl ⟨k.curr, rfl⟩)
  case h_6 =>
    split_ifs at hs
    cases hs
    exact tickets_update rfl (Or.inl ⟨k.curr, rfl⟩)
  case h_7 =>
    cases hs
    unfold wait
    split
    · exact Or.inl ⟨s, rfl⟩
    · split_ifs <;> exact Or.inl ⟨s, rfl⟩
  case h_9 =>
    cases hs
    unfold kill
    split <;> exact Or.inl ⟨s, rfl⟩
  case h_10 =>
    cases hs
    unfold Table.settickets
    split_ifs
    · exact Or.inl ⟨s, rfl⟩
    · exact tickets_update rfl (Or.inr rfl)
  case h_11 => cases hs
  all_goals
    cases hs
    exact Or.inl ⟨s, rfl⟩

/-- **Tickets** come from another slot, or from `settickets`. -/
theorem tickets_step {k k' : Kernel} {op : Op} (hs : step k op = some k') (s : Fin nproc) :
    (∃ t, (k'.pstat s).tickets = (k.pstat t).tickets) ∨ op = .settickets (k'.pstat s).tickets := by
  unfold Table.step at hs
  split at hs
  case h_1 => cases hs; exact Or.inl ⟨s, rfl⟩
  case h_2 =>
    obtain ⟨c, -, rfl⟩ := Option.map_eq_some_iff.mp hs
    exact tickets_update rfl (Or.inl ⟨k.curr, rfl⟩)
  case h_3 => cases hs
  case h_4 => cases hs
  case h_5 => exact tickets_procStep hs s

/-- The tickets while every `settickets` asks for few. -/
theorem tickets_le {k : Kernel} (h : (system.only Asks).Reachable k) (s : Fin nproc) :
    (k.pstat s).tickets ≤ maxStride := by
  refine h.invariant (I := fun k => ∀ s, (k.pstat s).tickets ≤ maxStride) ?_ ?_ s
  · rintro _ rfl
    decide +kernel
  · rintro k op k' - hk ⟨hask, hs⟩ s
    rcases tickets_step hs s with ⟨t, ht⟩ | rfl
    · exact ht ▸ hk t
    · exact hask _ rfl

/-- **What a quantum costs.** In every reachable state a quantum costs something exactly if no slot in use,
nor the one to be charged, has more than `max_stride` tickets; which is so in every run in which every
`settickets` is for at most so many. -/
theorem quantum_costs_iff {k : Kernel} (h : system.Reachable k) :
    (Costs k ↔ Modest k) ∧ ((system.only Asks).Reachable k → Costs k) := by
  have hiff := (charged_reachable h).costs_iff
  exact ⟨hiff, fun ha => hiff.mpr ⟨fun s _ => tickets_le ha s, fun _ => tickets_le ha k.curr⟩⟩

instance (k : Kernel) (op : Op) : Decidable (Asks k op) :=
  match op with
  | .settickets number => decidable_of_iff (number ≤ maxStride) (by simp [Asks])
  | .fork | .forkFail | .forkCopy | .forkSlot | .exit | .wait | .sleep _ | .wakeup _ | .yield | .kill _
  | .dispatch => isTrue (by simp [Asks])

/-- Init has four tickets and gives them to its child. -/
theorem quantum_costs_four : ∃ k ∈ runFun (onlyFun Asks step) userinit
    [.dispatch, .settickets 4, .fork, .forkCopy, .forkSlot, .yield],
    (k.pstat 0).strides = 4096 ∧ (k.pstat 1).strides = 4096 ∧ Costs k := by
  have hrun : ∃ k ∈ runFun (onlyFun Asks step) userinit
      [.dispatch, .settickets 4, .fork, .forkCopy, .forkSlot, .yield],
      (k.pstat 0).strides = 4096 ∧ (k.pstat 1).strides = 4096 := by
    decide +kernel
  obtain ⟨k, hk, hinit, hchild⟩ := hrun
  have hreach : (system.only Asks).Reachable k :=
    reachable_runFun (only_of_onlyFun fun _ _ _ h => h) (.init rfl) hk
  exact ⟨k, hk, hinit, hchild, (quantum_costs_iff hreach.of_only).2 hreach⟩

/-- **A free quantum**: init asks for 20000 tickets. -/
theorem quantum_free : ¬ ∀ k, system.Reachable k → Costs k := by
  intro hall
  have hrun : ∃ k ∈ runFun step userinit [.dispatch, .settickets 20000],
      (k.pstat 0).inuse ∧ (k.pstat 0).strides = 0 := by
    decide +kernel
  obtain ⟨k, hk, huse, hzero⟩ := hrun
  have hreach : system.Reachable k := reachable_runFun (fun _ _ _ h => h) (.init rfl) hk
  have hpos := ((hall k hreach).strides 0 huse).1
  rw [hzero] at hpos
  exact absurd hpos (by decide)

end OperatingSystems.Stride.Charges
