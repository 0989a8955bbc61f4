import OperatingSystems.Lib.LateCharge
import OperatingSystems.Stride.Ownership

/-! # Proportional share

The dispatches of the kernel are those of a late-charging scheduler on the slots (`account_switch`), and
no other step touches the pass or the ticks of a slot in use (`kept_step`). A process that is `RUNNABLE`
at a later dispatch has kept its slot until then: a pid that has died never comes back (`Dead`). So the
bound on two clients of the abstract scheduler carries over to two processes of the kernel. -/

namespace OperatingSystems.Stride.Share

open OperatingSystems.Lib.LateCharge OperatingSystems.Lib.Transition OperatingSystems.Stride.Ownership
  OperatingSystems.Stride.Table

/-! ### The kernel as a late-charging scheduler -/

/-- The recorded pass of a slot, and a stride if its latest quantum is not yet added. -/
def chargedBy (stride : ℤ) (k : Kernel) (s : Fin nproc) : ℤ :=
  (k.pstat s).pass + if s = k.curr then stride else 0

/-- **The charged pass** of a slot. -/
def charged (k : Kernel) (s : Fin nproc) : ℤ := chargedBy (k.pstat s).strides k s

/-- The quanta that a slot has received, with the latest. -/
def quanta (k : Kernel) (s : Fin nproc) : ℤ := (k.pstat s).ticks + if s = k.curr then 1 else 0

/-- The process with this pid has the slot. -/
def Owns (k : Kernel) (pid : ℕ) (s : Fin nproc) : Prop := (k.pstat s).inuse ∧ (k.pstat s).pid = pid

/-- The process with this pid is `RUNNABLE`. -/
def Runnable (k : Kernel) (pid : ℕ) : Prop :=
  ∃ p, (k.proc p).pid = pid ∧ (k.proc p).state = .runnable

/-- The next charge of a pass does not overflow. -/
def InRange (k : Kernel) : Prop :=
  -2 ^ 31 ≤ (k.pstat k.curr).pass + (k.pstat k.curr).strides ∧
    (k.pstat k.curr).pass + (k.pstat k.curr).strides < 2 ^ 31

/-- The steps of a run in which two processes keep their strides, are `RUNNABLE` at every dispatch, and
no pass overflows. -/
def Steady (i j : ℕ) (σi σj : ℤ) (k : Kernel) (op : Op) : Prop :=
  (∀ s, Owns k i s → (k.pstat s).strides = σi) ∧ (∀ s, Owns k j s → (k.pstat s).strides = σj) ∧
    (op = .dispatch → Runnable k i ∧ Runnable k j ∧ InRange k)

instance (k : Kernel) (pid : ℕ) (s : Fin nproc) : Decidable (Owns k pid s) :=
  inferInstanceAs (Decidable (_ ∧ _))

instance (k : Kernel) (pid : ℕ) : Decidable (Runnable k pid) :=
  inferInstanceAs (Decidable (∃ _, _))

instance (k : Kernel) : Decidable (InRange k) := inferInstanceAs (Decidable (_ ∧ _))

instance (i j : ℕ) (σi σj : ℤ) (k : Kernel) (op : Op) : Decidable (Steady i j σi σj k op) :=
  inferInstanceAs (Decidable (_ ∧ _ ∧ _))

/-- The accounts of the kernel. -/
def account (k : Kernel) : Account (Fin nproc) := ⟨fun s => (k.pstat s).pass, k.curr⟩

/-- The strides of the kernel. -/
def strides (k : Kernel) (s : Fin nproc) : ℤ := (k.pstat s).strides

theorem int_eq {x : ℤ} (h : -2 ^ 31 ≤ x ∧ x < 2 ^ 31) : int x = x := by
  unfold int
  rw [Int.bmod_eq_of_le_mul_two] <;> omega

/-- **A switch is a dispatch** of the late-charging scheduler. -/
theorem account_switch {k : Kernel} (hr : InRange k) (c : Choice) :
    account (switch k c) = (account k).dispatch (strides k) c.nxt := by
  unfold account Account.dispatch strides switch
  congr 1
  funext s
  rcases eq_or_ne s k.curr with rfl | hs
  · simp only [Function.update_self, int_eq hr]
  · simp only [Function.update_of_ne hs]

theorem strides_switch (k : Kernel) (c : Choice) (s : Fin nproc) :
    ((switch k c).pstat s).strides = (k.pstat s).strides := by
  rcases eq_or_ne s k.curr with rfl | hs
  · simp only [switch, Function.update_self]
  · simp only [switch, Function.update_of_ne hs]

theorem owns_switch {k : Kernel} (c : Choice) {pid : ℕ} {s : Fin nproc} :
    Owns (switch k c) pid s ↔ Owns k pid s := by
  rcases eq_or_ne s k.curr with rfl | hs
  · simp only [Owns, switch, Function.update_self]
  · simp only [Owns, switch, Function.update_of_ne hs]

theorem charged_switch {k : Kernel} (hr : InRange k) (c : Choice) (s : Fin nproc) :
    charged (switch k c) s = charged k s + if s = c.nxt then (k.pstat s).strides else 0 := by
  have h : ((account k).dispatch (strides k) c.nxt).charged (strides k) s = _ := charged_dispatch
  rw [← account_switch hr c] at h
  unfold charged
  rw [strides_switch]
  exact h

/-- The gap between two slots of candidates, after a switch. -/
theorem gap_switch {k : Kernel} (hinv : Inv k) (hr : InRange k) {c : Choice} {i j : Fin nproc}
    (hi : (k.pstat c.nxt).pass ≤ (k.pstat i).pass) (hj : (k.pstat c.nxt).pass ≤ (k.pstat j).pass)
    (h : |charged k i - charged k j| ≤ 2 * max (k.pstat i).strides (k.pstat j).strides) :
    |charged (switch k c) i - charged (switch k c) j| ≤
      2 * max (k.pstat i).strides (k.pstat j).strides := by
  have hgap : |((account k).dispatch (strides k) c.nxt).charged (strides k) i - _| ≤ _ :=
    gap_dispatch (hinv.strides i) (hinv.strides j) (le_max_left _ _) (le_max_right _ _) hi hj h
  rw [← account_switch hr c] at hgap
  unfold charged
  rw [strides_switch, strides_switch]
  exact hgap

theorem quanta_switch (k : Kernel) (c : Choice) (s : Fin nproc) :
    quanta (switch k c) s = quanta k s + if s = c.nxt then 1 else 0 := by
  unfold quanta
  rcases eq_or_ne s k.curr with rfl | hs
  · simp only [switch, Function.update_self, if_true, Nat.cast_add, Nat.cast_one]
    rfl
  · simp only [switch, Function.update_of_ne hs, if_neg hs, add_zero]
    rfl

/-! ### The other steps -/

/-- What a step other than a dispatch leaves alone: `curr_pstat_idx`, and the pass, the pid and the ticks
of a slot in use. -/
structure Kept (k k' : Kernel) (s : Fin nproc) : Prop where
  curr : k'.curr = k.curr
  pass : (k'.pstat s).pass = (k.pstat s).pass
  pid : (k'.pstat s).pid = (k.pstat s).pid
  ticks : (k'.pstat s).ticks = (k.pstat s).ticks

theorem Kept.chargedBy {k k' : Kernel} {s : Fin nproc} (h : Kept k k' s) (stride : ℤ) :
    chargedBy stride k' s = chargedBy stride k s := by
  rw [Share.chargedBy, Share.chargedBy, h.pass, h.curr]

theorem Kept.quanta {k k' : Kernel} {s : Fin nproc} (h : Kept k k' s) : quanta k' s = quanta k s := by
  rw [Share.quanta, Share.quanta, h.ticks, h.curr]

theorem Kept.of_eq {k k' : Kernel} {s : Fin nproc} (hc : k'.curr = k.curr) (hp : k'.pstat = k.pstat) :
    Kept k k' s := by
  refine ⟨hc, ?_, ?_, ?_⟩ <;> rw [hp]

/-- Only the slot of the current process changes, in its other fields. -/
theorem Kept.update {k k' : Kernel} {s : Fin nproc} {x : Slot} (hc : k'.curr = k.curr)
    (hp : k'.pstat = Function.update k.pstat k.curr x) (hpass : x.pass = (k.pstat k.curr).pass)
    (hpid : x.pid = (k.pstat k.curr).pid) (hticks : x.ticks = (k.pstat k.curr).ticks) :
    Kept k k' s := by
  rcases eq_or_ne s k.curr with rfl | hs
  · refine ⟨hc, ?_, ?_, ?_⟩ <;> rw [hp, Function.update_self]
    exacts [hpass, hpid, hticks]
  · refine ⟨hc, ?_, ?_, ?_⟩ <;> rw [hp, Function.update_of_ne hs]

theorem kept_procStep {k k' : Kernel} {p : Fin nproc} {op : Op} (hs : procStep k p op = some k')
    {s : Fin nproc} (huse : (k.pstat s).inuse) : Kept k k' s := by
  unfold procStep at hs
  split at hs
  case h_2 =>
    cases hs
    unfold allocproc
    split <;> exact .of_eq rfl rfl
  case h_5 _ _ pid _ =>
    cases hs
    unfold forkSlot
    split
    · exact .of_eq rfl rfl
    · rename_i t ht
      have hne : s ≠ t := by
        rintro rfl
        rw [((freeSlot_spec k).1 s ht).1] at huse
        cases huse
      refine ⟨rfl, ?_, ?_, ?_⟩ <;> simp only [Function.update_of_ne hne]
  case h_6 =>
    split_ifs at hs
    cases hs
    exact .update rfl rfl rfl rfl rfl
  case h_7 =>
    cases hs
    unfold wait
    split
    · exact .of_eq rfl rfl
    · split_ifs <;> exact .of_eq rfl rfl
  case h_9 =>
    cases hs
    unfold kill
    split <;> exact .of_eq rfl rfl
  case h_10 =>
    cases hs
    unfold settickets
    split_ifs
    · exact .of_eq rfl rfl
    · exact .update rfl rfl rfl rfl rfl
  case h_11 => cases hs
  all_goals
    cases hs
    exact .of_eq rfl rfl

theorem kept_step {k k' : Kernel} {op : Op} (hs : step k op = some k') (hop : op ≠ .dispatch)
    {s : Fin nproc} (huse : (k.pstat s).inuse) : Kept k k' s := by
  unfold step at hs
  split at hs
  case h_1 => cases hs; exact .of_eq rfl rfl
  case h_2 => exact absurd rfl hop
  case h_3 => cases hs
  case h_4 => cases hs
  case h_5 => exact kept_procStep hs huse

/-! ### Pids that have died -/

/-- The entry holds a process that has not died. -/
def Active (p : Proc) : Prop := p.state ≠ .unused ∧ p.state ≠ .zombie

/-- The pid has been given out, and its process has died. -/
def Dead (k : Kernel) (pid : ℕ) : Prop := pid < k.nextpid ∧ ∀ p, Active (k.proc p) → (k.proc p).pid ≠ pid

/-- A process has been there before the step, or has got the next pid in it. -/
structure Born (k k' : Kernel) : Prop where
  le : k.nextpid ≤ k'.nextpid
  old : ∀ p, Active (k'.proc p) →
    (k'.proc p).pid = k.nextpid ∨ Active (k.proc p) ∧ (k'.proc p).pid = (k.proc p).pid

theorem born_resched {k k' : Kernel} (hr : Resched k k') : Born k k' := by
  refine ⟨hr.nextpid.ge, fun p hp => Or.inr ⟨?_, hr.pid p⟩⟩
  rcases hr.state p with hs | ⟨hs, -⟩ | ⟨hs, -⟩
  · rwa [Active, ← hs]
  · simp [Active, hs]
  · simp [Active, hs]

/-- Only the entry of `q` changes. -/
theorem born_update {k k' : Kernel} {q : Fin nproc} {x : Proc} (hle : k.nextpid ≤ k'.nextpid)
    (hk' : k'.proc = Function.update k.proc q x)
    (hx : Active x → x.pid = k.nextpid ∨ Active (k.proc q) ∧ x.pid = (k.proc q).pid) : Born k k' := by
  refine ⟨hle, fun p hp => ?_⟩
  rw [hk'] at hp ⊢
  rcases eq_or_ne p q with rfl | hpq
  · rw [Function.update_self] at hp ⊢
    exact hx hp
  · rw [Function.update_of_ne hpq] at hp ⊢
    exact Or.inr ⟨hp, rfl⟩

theorem born_of_eq {k k' : Kernel} (hle : k.nextpid ≤ k'.nextpid) (hk' : k'.proc = k.proc) :
    Born k k' := ⟨hle, fun p hp => Or.inr (by rw [hk'] at hp ⊢; exact ⟨hp, rfl⟩)⟩

theorem born_procStep {k k' : Kernel} {p : Fin nproc} {op : Op} (h : Inv k) (hp : k.current = some p)
    (hs : procStep k p op = some k') : Born k k' := by
  unfold procStep at hs
  split at hs
  case h_1 => cases hs; exact born_resched (resched_stop h hp rfl (Or.inl rfl))
  case h_2 =>
    cases hs
    unfold allocproc
    split
    · exact born_of_eq le_rfl rfl
    · exact born_update (Nat.le_succ _) rfl fun _ => Or.inl rfl
  case h_3 => cases hs; exact born_update le_rfl rfl fun ha => absurd rfl ha.1
  case h_4 np hf =>
    cases hs
    have hnp := h.embryo p np hf
    exact born_update le_rfl rfl fun _ => Or.inr ⟨by simp [Active, hnp], rfl⟩
  case h_5 => cases hs; unfold forkSlot; split <;> exact born_of_eq le_rfl rfl
  case h_6 =>
    split_ifs at hs
    cases hs
    have hw := (wakes_wakeup1 k.proc ((k.proc p).parent.map .proc)).trans (wakes_abandon _ p)
    have hb := born_resched (hw.resched h)
    refine ⟨le_rfl, fun q hq => ?_⟩
    rcases eq_or_ne q p with rfl | hqp
    · simp [Active, exit] at hq
    · simp only [exit, Function.update_of_ne hqp] at hq ⊢
      exact hb.old q hq
  case h_7 hf =>
    cases hs
    unfold wait
    split
    · exact born_update le_rfl rfl fun ha => absurd rfl ha.1
    · split_ifs
      · exact born_of_eq le_rfl rfl
      · exact born_resched (resched_stop h hp rfl (Or.inr ⟨rfl, hf⟩))
  case h_8 hf => cases hs; exact born_resched (resched_stop h hp rfl (Or.inr ⟨rfl, hf⟩))
  case h_9 => cases hs; exact born_resched (resched_kill h _)
  case h_10 => cases hs; unfold settickets; split_ifs <;> exact born_of_eq le_rfl rfl
  case h_11 => cases hs

theorem born_step {k k' : Kernel} {op : Op} (h : Inv k) (hs : step k op = some k') : Born k k' := by
  unfold step at hs
  split at hs
  case h_1 => cases hs; exact born_resched ((wakes_wakeup1 k.proc _).resched h)
  case h_2 =>
    obtain ⟨c, hc, rfl⟩ := Option.map_eq_some_iff.mp hs
    have hrun := ((select_spec k).1 c hc).candidate.1
    exact born_update le_rfl rfl fun _ => Or.inr ⟨by simp [Active, hrun], rfl⟩
  case h_3 => cases hs
  case h_4 => cases hs
  case h_5 hp => exact born_procStep h hp hs

theorem Dead.step {k k' : Kernel} {op : Op} {pid : ℕ} (hd : Dead k pid) (h : Inv k)
    (hs : step k op = some k') : Dead k' pid := by
  obtain ⟨hle, hborn⟩ := born_step h hs
  refine ⟨hd.1.trans_le hle, fun p hp => ?_⟩
  rcases hborn p hp with hpid | ⟨hact, hpid⟩
  · have := hd.1
    omega
  · rw [hpid]
    exact hd.2 p hact

/-- **A slot that is not in use any more** is that of a dead process. -/
theorem dead_of_free {k : Kernel} (h : Inv k) {s : Fin nproc} (hpos : (k.pstat s).pid ≠ 0)
    (hs : (k.pstat s).inuse = false) : Dead k (k.pstat s).pid := by
  refine ⟨h.slot_lt s, fun p hp hpid => ?_⟩
  by_cases hfresh : (k.proc p).state = .embryo ∨ Pending k p
  · exact h.fresh p hfresh s hpid.symm
  · obtain ⟨hne, hnp⟩ := not_or.mp hfresh
    have hlive : Live k p := by
      unfold Live
      obtain ⟨h1, h2⟩ := hp
      rcases hst : (k.proc p).state <;> simp_all
    obtain ⟨t, ht, htp⟩ := h.owns p hlive hnp
    rw [h.slot_inj s t hpos (hpid.symm.trans htp.symm), ht] at hs
    cases hs

theorem not_dead {k : Kernel} {pid : ℕ} (hr : Runnable k pid) : ¬ Dead k pid := by
  obtain ⟨p, hp, hs⟩ := hr
  exact fun hd => hd.2 p (by simp [Active, hs]) hp

/-! ### The share of two processes -/

/-- What holds along a run: both processes have their slots, their charged passes are within two
strides, and a charged pass grows by one stride for each quantum. `ci` and `cj` are what the charged
passes would be without any quantum. -/
structure Tracked (i j : ℕ) (si sj : Fin nproc) (σi σj ci cj : ℤ) (k : Kernel) : Prop where
  owns_i : Owns k i si
  owns_j : Owns k j sj
  gap : |chargedBy σi k si - chargedBy σj k sj| ≤ 2 * max σi σj
  charge_i : chargedBy σi k si = ci + σi * quanta k si
  charge_j : chargedBy σj k sj = cj + σj * quanta k sj

section
variable {i j : ℕ} {si sj : Fin nproc} {σi σj ci cj : ℤ} {k k' : Kernel}

/-- A step other than a dispatch changes nothing, unless one of the processes dies. -/
theorem Tracked.other (h : Tracked i j si sj σi σj ci cj k) (hinv : Inv k) {op : Op}
    (hs : step k op = some k') (hop : op ≠ .dispatch) :
    Tracked i j si sj σi σj ci cj k' ∨ Dead k' i ∨ Dead k' j := by
  have hi := kept_step hs hop h.owns_i.1
  have hj := kept_step hs hop h.owns_j.1
  have hinv' := inv_step hinv hs
  have hdead : ∀ {pid s}, Owns k pid s → Kept k k' s → (k'.pstat s).inuse = false → Dead k' pid := by
    intro pid s ho hk hf
    have hpid : (k'.pstat s).pid = pid := hk.pid.trans ho.2
    obtain ⟨p, hl, -, hp⟩ := hinv.owner s ho.1
    have hpos := hinv.pid_pos p hl.ne_unused
    have ho2 := ho.2
    exact hpid ▸ dead_of_free hinv' (by omega) hf
  by_cases hui : (k'.pstat si).inuse = false
  · exact Or.inr (Or.inl (hdead h.owns_i hi hui))
  by_cases huj : (k'.pstat sj).inuse = false
  · exact Or.inr (Or.inr (hdead h.owns_j hj huj))
  refine Or.inl ⟨⟨by simpa using hui, hi.pid.trans h.owns_i.2⟩,
    ⟨by simpa using huj, hj.pid.trans h.owns_j.2⟩, ?_, ?_, ?_⟩
  · rw [hi.chargedBy, hj.chargedBy]; exact h.gap
  · rw [hi.chargedBy, hi.quanta]; exact h.charge_i
  · rw [hj.chargedBy, hj.quanta]; exact h.charge_j

/-- **A dispatch** keeps the gap, and charges what it gives. -/
theorem Tracked.dispatch (h : Tracked i j si sj σi σj ci cj k) (hinv : Inv k)
    (hst : Steady i j σi σj k .dispatch) (hs : step k .dispatch = some k') :
    Tracked i j si sj σi σj ci cj k' ∧ charged k' si = chargedBy σi k' si ∧
      charged k' sj = chargedBy σj k' sj := by
  obtain ⟨hσi, hσj, hrun⟩ := hst
  obtain ⟨⟨pi, hpi, hri⟩, ⟨pj, hpj, hrj⟩, hrange⟩ := hrun rfl
  obtain rfl := hσi si h.owns_i
  obtain rfl := hσj sj h.owns_j
  obtain ⟨c, hc, rfl⟩ : ∃ c, select k = some c ∧ switch k c = k' := by
    unfold step at hs
    split at hs <;> simp_all
  -- both are candidates of the search
  obtain ⟨ci', hci, hlei⟩ := (select_spec k).2 pi si ⟨hri, h.owns_i.2.trans hpi.symm⟩
  obtain ⟨cj', hcj, hlej⟩ := (select_spec k).2 pj sj ⟨hrj, h.owns_j.2.trans hpj.symm⟩
  cases hc.symm.trans hci
  cases hc.symm.trans hcj
  have hci' : charged (switch k c) si = chargedBy (k.pstat si).strides (switch k c) si := by
    rw [charged, strides_switch]
  have hcj' : charged (switch k c) sj = chargedBy (k.pstat sj).strides (switch k c) sj := by
    rw [charged, strides_switch]
  refine ⟨⟨(owns_switch c).mpr h.owns_i, (owns_switch c).mpr h.owns_j, ?_, ?_, ?_⟩, hci', hcj'⟩
  · rw [← hci', ← hcj']
    exact gap_switch hinv hrange hlei hlej h.gap
  · have := h.charge_i
    rw [← hci', charged_switch hrange, quanta_switch, charged, this]
    split_ifs <;> ring
  · have := h.charge_j
    rw [← hcj', charged_switch hrange, quanta_switch, charged, this]
    split_ifs <;> ring

/-- **Along a steady run** the two processes stay tracked, unless one of them dies. -/
theorem Tracked.run (h : Tracked i j si sj σi σj ci cj k) (hk : system.Reachable k) {as : List Op}
    (hrun : (system.only (Steady i j σi σj)).Run k as k') :
    system.Reachable k' ∧ (Tracked i j si sj σi σj ci cj k' ∨ Dead k' i ∨ Dead k' j) := by
  induction hrun with
  | nil => exact ⟨hk, Or.inl h⟩
  | snoc _ hs ih =>
    rename_i t u as op _
    obtain ⟨hreach, ht⟩ := ih
    obtain ⟨hst, hstep⟩ := hs
    have hinv := inv_reachable hreach
    refine ⟨.step hreach hstep, ?_⟩
    rcases ht with ht | hd | hd
    · by_cases hop : op = .dispatch
      · subst hop
        exact Or.inl (ht.dispatch hinv hst hstep).1
      · exact ht.other hinv hstep hop
    · exact Or.inr (Or.inl (hd.step hinv hstep))
    · exact Or.inr (Or.inr (hd.step hinv hstep))

end

/-- **Proportional share.** In a run from any reachable state, with any other steps in between, in which
two processes are `RUNNABLE` at every dispatch and keep their strides, and no pass overflows: if their
charged passes differ by at most two strides at the start, they do so after every dispatch, and the
quanta that they have received since, times their strides, differ by at most four strides. -/
theorem proportional_share {k k' : Kernel} (hk : system.Reachable k) {i j : ℕ} {si sj : Fin nproc}
    (hi : Owns k i si) (hj : Owns k j sj) {σi σj : ℤ} (as : List Op)
    (hrun : (system.only (Steady i j σi σj)).Run k (as ++ [.dispatch]) k')
    (hstart : |charged k si - charged k sj| ≤ 2 * max σi σj) :
    Owns k' i si ∧ Owns k' j sj ∧ |charged k' si - charged k' sj| ≤ 2 * max σi σj ∧
      |σi * (quanta k' si - quanta k si) - σj * (quanta k' sj - quanta k sj)| ≤ 4 * max σi σj := by
  obtain ⟨op, u, hst, -⟩ := hrun.first (by simp)
  have hσi : (k.pstat si).strides = σi := hst.1 si hi
  have hσj : (k.pstat sj).strides = σj := hst.2.1 sj hj
  rw [charged, charged, hσi, hσj] at hstart
  have h0 : Tracked i j si sj σi σj (chargedBy σi k si - σi * quanta k si)
      (chargedBy σj k sj - σj * quanta k sj) k :=
    ⟨hi, hj, hstart, by ring, by ring⟩
  generalize has : as ++ [Op.dispatch] = as' at hrun
  cases hrun with
  | nil => simp at has
  | snoc hrun hs =>
    obtain ⟨rfl, rfl⟩ := (List.append_inj' has rfl).imp_right List.singleton_inj.mp
    obtain ⟨hst', hstep⟩ := hs
    obtain ⟨hreach, ht⟩ := h0.run hk hrun
    obtain ⟨hri, hrj, -⟩ := hst'.2.2 rfl
    have ht := ht.resolve_right fun hd => hd.elim (not_dead hri) (not_dead hrj)
    obtain ⟨h', hci, hcj⟩ := ht.dispatch (inv_reachable hreach) hst' hstep
    refine ⟨h'.owns_i, h'.owns_j, by rw [hci, hcj]; exact h'.gap, ?_⟩
    have hqi := h'.charge_i
    have hqj := h'.charge_j
    have hgap := abs_le.mp h'.gap
    have hgap0 := abs_le.mp hstart
    rw [mul_sub, mul_sub]
    exact abs_le.mpr ⟨by omega, by omega⟩

/-- Init and its first child take turns. -/
theorem proportional_share_fork : ∃ k k', system.Reachable k ∧
    (system.only (Steady 1 2 maxStride maxStride)).Run k [.yield, .dispatch, .yield, .dispatch] k' ∧
    |charged k' 0 - charged k' 1| ≤ 2 * maxStride := by
  have hrun : ∃ k ∈ runFun step userinit [.dispatch, .fork, .forkCopy, .forkSlot],
      (runFun (fun k op => if Steady 1 2 maxStride maxStride k op then step k op else none) k
        [.yield, .dispatch, .yield, .dispatch]).isSome ∧
      Owns k 1 0 ∧ Owns k 2 1 ∧ |charged k 0 - charged k 1| ≤ 2 * max maxStride maxStride := by
    decide +kernel
  obtain ⟨k, hk, hsome, hi, hj, hstart⟩ := hrun
  obtain ⟨k', hk'⟩ := Option.isSome_iff_exists.mp hsome
  have hreach : system.Reachable k := reachable_runFun (fun _ _ _ h => h) (.init rfl) hk
  have hsteady : (system.only (Steady 1 2 maxStride maxStride)).Run k
      [.yield, .dispatch, .yield, .dispatch] k' := by
    refine (System.Run.nil k).append_runFun (fun s a t hs => ?_) hk'
    split_ifs at hs with hok
    exact ⟨hok, hs⟩
  obtain ⟨-, -, hgap, -⟩ :=
    proportional_share hreach hi hj [.yield, .dispatch, .yield] hsteady hstart
  rw [max_self] at hgap
  exact ⟨k, k', hreach, hsteady, hgap⟩

end OperatingSystems.Stride.Share
