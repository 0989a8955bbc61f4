import OperatingSystems.Stride.Table

/-! # Every process owns one slot

The invariant `Inv` ties the two tables together: the slots in use and the live processes correspond by
pid, except for the child of a `fork` in progress, whose pid is in no slot yet; a slot of a dead process
keeps its pid, which is never given out again; and `curr_pstat_idx` is the slot of the current process.

Most steps only move processes between `RUNNING`, `RUNNABLE` and `SLEEPING` (`Resched`). The search of
`fork` finds a slot because the slots in use belong to different processes, of which the new child is
none (`Inv.exists_free`). -/

namespace OperatingSystems.Stride.Ownership

open OperatingSystems.Lib.Transition OperatingSystems.Stride.Table

/-! ### The invariant -/

/-- The process is `RUNNABLE`, `RUNNING` or `SLEEPING`. -/
def Live (k : Kernel) (i : Fin nproc) : Prop :=
  (k.proc i).state = .runnable ∨ (k.proc i).state = .running ∨ (k.proc i).state = .sleeping

/-- The process is the child of a `fork` that has not updated pstat yet. -/
def Pending (k : Kernel) (i : Fin nproc) : Prop := ∃ p pid, k.frame p = .ready i pid

/-- **The invariant of the two tables.** -/
structure Inv (k : Kernel) : Prop where
  running : ∀ i, (k.proc i).state = .running ↔ k.current = some i
  curr : ∀ i, k.current = some i → (k.pstat k.curr).inuse ∧ (k.pstat k.curr).pid = (k.proc i).pid
  pid_lt : ∀ i, (k.proc i).pid < k.nextpid
  pid_pos : ∀ i, (k.proc i).state ≠ .unused → 0 < (k.proc i).pid
  pid_inj : ∀ i j, (k.proc i).state ≠ .unused → (k.proc j).state ≠ .unused →
    (k.proc i).pid = (k.proc j).pid → i = j
  slot_lt : ∀ s, (k.pstat s).pid < k.nextpid
  slot_inj : ∀ s t, (k.pstat s).pid ≠ 0 → (k.pstat s).pid = (k.pstat t).pid → s = t
  owner : ∀ s, (k.pstat s).inuse → ∃ i, Live k i ∧ ¬ Pending k i ∧ (k.proc i).pid = (k.pstat s).pid
  owns : ∀ i, Live k i → ¬ Pending k i → ∃ s, (k.pstat s).inuse ∧ (k.pstat s).pid = (k.proc i).pid
  fresh : ∀ i, (k.proc i).state = .embryo ∨ Pending k i → ∀ s, (k.pstat s).pid ≠ (k.proc i).pid
  embryo : ∀ p np, k.frame p = .embryo np → (k.proc np).state = .embryo
  ready : ∀ p np pid, k.frame p = .ready np pid → (k.proc np).state = .runnable ∧ (k.proc np).pid = pid
  forking : ∀ p, k.frame p ≠ .user → (k.proc p).state = .runnable ∨ (k.proc p).state = .running
  child_inj : ∀ p q np, (k.frame p).child = some np → (k.frame q).child = some np → p = q
  strides : ∀ s, 0 ≤ (k.pstat s).strides

theorem Live.ne_unused {k : Kernel} {i : Fin nproc} (h : Live k i) : (k.proc i).state ≠ .unused := by
  rcases h with h | h | h <;> simp [h]

theorem Inv.live_of_pending {k : Kernel} (h : Inv k) {i : Fin nproc} (hi : Pending k i) : Live k i := by
  obtain ⟨p, pid, hp⟩ := hi
  exact Or.inl (h.ready p i pid hp).1

theorem Inv.current {k : Kernel} (h : Inv k) {p : Fin nproc} (hp : k.current = some p) :
    (k.proc p).state = .running ∧ Live k p ∧ ¬ Pending k p := by
  have hr := (h.running p).mpr hp
  exact ⟨hr, Or.inr (Or.inl hr), fun hpend => h.fresh p (Or.inr hpend) _ (h.curr p hp).2⟩

/-- The slots in use belong to different live processes, of which a child without a slot is none. -/
theorem Inv.exists_free {k : Kernel} (h : Inv k) {np : Fin nproc} (hnp : Pending k np) :
    ∃ s, (k.pstat s).inuse = false := by
  by_contra! hall
  have huse : ∀ s, (k.pstat s).inuse = true := fun s => by simpa using hall s
  choose owner hlive hpend hpid using fun s => h.owner s (huse s)
  have hinj : Function.Injective owner := by
    intro s t hst
    have hpos := h.pid_pos _ (hlive s).ne_unused
    exact h.slot_inj s t (by have := hpid s; omega) (by rw [← hpid s, ← hpid t, hst])
  obtain ⟨s, hs⟩ := Finite.injective_iff_surjective.mp hinj np
  exact hpend s (hs ▸ hnp)

/-- **The search of `fork` always finds a free slot.** -/
theorem Inv.freeSlot_isSome {k : Kernel} (h : Inv k) {p np : Fin nproc} {pid : ℕ}
    (hp : k.current = some p) (hf : k.frame p = .ready np pid) : (freeSlot k).isSome := by
  obtain ⟨s, hs⟩ := h.exists_free ⟨p, pid, hf⟩
  refine (freeSlot_spec k).2 s hs ?_
  rintro rfl
  rw [(h.curr p hp).1] at hs
  exact absurd hs (by simp)

/-! ### Steps that move processes between states -/

/-- A process stays in its state, gives up the CPU, or wakes up. -/
structure Resched (k k' : Kernel) : Prop where
  pstat : k'.pstat = k.pstat
  curr : k'.curr = k.curr
  nextpid : k'.nextpid = k.nextpid
  frame : k'.frame = k.frame
  current : k'.current = k.current ∨ k'.current = none
  running : ∀ i, (k'.proc i).state = .running ↔ k'.current = some i
  pid : ∀ i, (k'.proc i).pid = (k.proc i).pid
  state : ∀ i, (k'.proc i).state = (k.proc i).state ∨
    (k.proc i).state = .running ∧
      ((k'.proc i).state = .runnable ∨ (k'.proc i).state = .sleeping ∧ k.frame i = .user) ∨
    (k.proc i).state = .sleeping ∧ (k'.proc i).state = .runnable

theorem Resched.live {k k' : Kernel} (hr : Resched k k') (i : Fin nproc) : Live k' i ↔ Live k i := by
  rcases hr.state i with h | ⟨h, h' | ⟨h', -⟩⟩ | ⟨h, h'⟩ <;> simp [Live, h] <;> simp [h']

theorem Resched.pending {k k' : Kernel} (hr : Resched k k') (i : Fin nproc) :
    Pending k' i ↔ Pending k i := by
  simp [Pending, hr.frame]

theorem Resched.keeps {k k' : Kernel} (hr : Resched k k') (i : Fin nproc) {st : ProcState}
    (h1 : st ≠ .runnable) (h2 : st ≠ .running) (h3 : st ≠ .sleeping) :
    (k'.proc i).state = st ↔ (k.proc i).state = st := by
  rcases hr.state i with h | ⟨h, h' | ⟨h', -⟩⟩ | ⟨h, h'⟩
  · rw [h]
  all_goals
    rw [h, h']
    exact ⟨fun he => absurd he.symm (by assumption), fun he => absurd he.symm (by assumption)⟩

theorem Inv.resched {k k' : Kernel} (h : Inv k) (hr : Resched k k') : Inv k' := by
  have hunused : ∀ i, (k'.proc i).state ≠ .unused ↔ (k.proc i).state ≠ .unused := fun i =>
    not_congr (hr.keeps i (by simp) (by simp) (by simp))
  have hembryo : ∀ i, (k'.proc i).state = .embryo ↔ (k.proc i).state = .embryo := fun i =>
    hr.keeps i (by simp) (by simp) (by simp)
  constructor
  case running => exact hr.running
  case curr =>
    intro i hi
    rw [hr.pstat, hr.curr, hr.pid]
    rcases hr.current with hc | hc
    · exact h.curr i (hc ▸ hi)
    · rw [hc] at hi; cases hi
  case pid_lt => intro i; rw [hr.pid, hr.nextpid]; exact h.pid_lt i
  case pid_pos => intro i hi; rw [hr.pid]; exact h.pid_pos i ((hunused i).mp hi)
  case pid_inj =>
    intro i j hi hj hij
    rw [hr.pid, hr.pid] at hij
    exact h.pid_inj i j ((hunused i).mp hi) ((hunused j).mp hj) hij
  case slot_lt => rw [hr.pstat, hr.nextpid]; exact h.slot_lt
  case slot_inj => rw [hr.pstat]; exact h.slot_inj
  case owner => simpa only [hr.pstat, hr.live, hr.pending, hr.pid] using h.owner
  case owns => simpa only [hr.pstat, hr.live, hr.pending, hr.pid] using h.owns
  case fresh => simpa only [hr.pstat, hembryo, hr.pending, hr.pid] using h.fresh
  case embryo => simpa only [hr.frame, hembryo] using h.embryo
  case ready =>
    intro p np pid hp
    obtain ⟨hs, hpid⟩ := h.ready p np pid (hr.frame ▸ hp)
    refine ⟨?_, by rw [hr.pid, hpid]⟩
    rcases hr.state np with h' | ⟨h', -⟩ | ⟨h', -⟩
    · rw [h', hs]
    · rw [hs] at h'; cases h'
    · rw [hs] at h'; cases h'
  case forking =>
    intro p hp
    rw [hr.frame] at hp
    rcases hr.state p with h' | ⟨-, h' | ⟨-, h'⟩⟩ | ⟨-, h'⟩
    · rw [h']; exact h.forking p hp
    · exact Or.inl h'
    · exact absurd h' hp
    · exact Or.inl h'
  case child_inj => rw [hr.frame]; exact h.child_inj
  case strides => rw [hr.pstat]; exact h.strides

/-- Some sleeping processes wake up. -/
def Wakes (proc proc' : Fin nproc → Proc) : Prop :=
  ∀ q, (proc' q).pid = (proc q).pid ∧
    ((proc' q).state = (proc q).state ∨ (proc q).state = .sleeping ∧ (proc' q).state = .runnable)

theorem Wakes.trans {proc proc' proc'' : Fin nproc → Proc} (h : Wakes proc proc')
    (h' : Wakes proc' proc'') : Wakes proc proc'' := by
  intro q
  obtain ⟨hp, hs⟩ := h q
  obtain ⟨hp', hs'⟩ := h' q
  refine ⟨hp'.trans hp, ?_⟩
  rcases hs' with hs' | ⟨hs', hr⟩
  · rwa [hs']
  · rcases hs with hs | ⟨-, hs⟩
    · exact Or.inr ⟨hs ▸ hs', hr⟩
    · rw [hs] at hs'; cases hs'

theorem wakes_wakeup1 (proc : Fin nproc → Proc) (chan : Option Chan) :
    Wakes proc (wakeup1 proc chan) := by
  intro q
  by_cases h : (proc q).state = .sleeping ∧ (proc q).chan = chan
  · rw [wakeup1, if_pos h]
    exact ⟨rfl, Or.inr ⟨h.1, rfl⟩⟩
  · rw [wakeup1, if_neg h]
    exact ⟨rfl, Or.inl rfl⟩

theorem wakes_abandon (proc : Fin nproc → Proc) (p : Fin nproc) : Wakes proc (abandon proc p) := by
  have hparent : Wakes proc fun q =>
      if (proc q).parent = some p then { proc q with parent := some initproc } else proc q := by
    intro q
    simp only
    split_ifs <;> exact ⟨rfl, Or.inl rfl⟩
  unfold abandon
  simp only
  split_ifs
  · exact hparent.trans (wakes_wakeup1 _ _)
  · exact hparent

theorem Wakes.resched {k : Kernel} (h : Inv k) {proc' : Fin nproc → Proc} (hw : Wakes k.proc proc') :
    Resched k { k with proc := proc' } where
  pstat := rfl
  curr := rfl
  nextpid := rfl
  frame := rfl
  current := Or.inl rfl
  running i := by
    rcases (hw i).2 with hs | ⟨hs, hs'⟩
    · exact hs ▸ h.running i
    · have hnot : k.current ≠ some i := fun hc => by
        have := (h.running i).mpr hc
        rw [hs] at this
        cases this
      simp [hs', hnot]
  pid i := (hw i).1
  state i := by
    rcases (hw i).2 with hs | hs
    · exact Or.inl hs
    · exact Or.inr (Or.inr hs)

theorem wakes_update {proc : Fin nproc → Proc} {q : Fin nproc} {x : Proc} (hpid : x.pid = (proc q).pid)
    (hs : x.state = (proc q).state ∨ (proc q).state = .sleeping ∧ x.state = .runnable) :
    Wakes proc (Function.update proc q x) := by
  intro i
  rcases eq_or_ne i q with rfl | hi
  · rw [Function.update_self]
    exact ⟨hpid, hs⟩
  · rw [Function.update_of_ne hi]
    exact ⟨rfl, Or.inl rfl⟩

theorem resched_kill {k : Kernel} (h : Inv k) (pid : ℕ) : Resched k (kill k pid) := by
  unfold kill
  split
  · have hw : Wakes k.proc k.proc := fun q => ⟨rfl, Or.inl rfl⟩
    exact hw.resched h
  · rename_i q _
    refine Wakes.resched h (wakes_update rfl ?_)
    by_cases hs : (k.proc q).state = .sleeping
    · exact Or.inr ⟨hs, if_pos hs⟩
    · exact Or.inl (if_neg hs)

/-- The current process gives up the CPU. -/
theorem resched_stop {k : Kernel} (h : Inv k) {p : Fin nproc} (hp : k.current = some p) {q : Proc}
    (hpid : q.pid = (k.proc p).pid)
    (hq : q.state = .runnable ∨ q.state = .sleeping ∧ k.frame p = .user) :
    Resched k { k with proc := Function.update k.proc p q, current := none } := by
  have hrun := (h.running p).mpr hp
  refine ⟨rfl, rfl, rfl, rfl, Or.inr rfl, fun i => ?_, fun i => ?_, fun i => ?_⟩
  · rcases eq_or_ne i p with rfl | hi
    · rcases hq with hq | ⟨hq, -⟩ <;> simp [hq]
    · have hnot : (k.proc i).state ≠ .running := fun hs => by
        have := ((h.running i).mp hs).symm.trans hp
        exact hi (Option.some.inj this)
      simp [Function.update_of_ne hi, hnot]
  · rcases eq_or_ne i p with rfl | hi
    · simp only [Function.update_self, hpid]
    · simp only [Function.update_of_ne hi]
  · rcases eq_or_ne i p with rfl | hi
    · simp only [Function.update_self]
      exact Or.inr (Or.inl ⟨hrun, hq⟩)
    · exact Or.inl (congrArg Proc.state (Function.update_of_ne hi ..))

/-! ### The steps of fork -/

/-- The child of a fork in progress is `EMBRYO` or `RUNNABLE`. -/
theorem Inv.child_state {k : Kernel} (h : Inv k) {q i : Fin nproc} (hq : (k.frame q).child = some i) :
    (k.proc i).state = .embryo ∨ (k.proc i).state = .runnable := by
  rcases hf : k.frame q with _ | np | ⟨np, pid⟩ <;> rw [hf] at hq <;> cases hq
  · exact Or.inl (h.embryo q i hf)
  · exact Or.inr (h.ready q i pid hf).1

theorem Inv.allocproc {k : Kernel} (h : Inv k) {p : Fin nproc} (hp : k.current = some p)
    (hf : k.frame p = .user) : Inv (allocproc k p) := by
  unfold Table.allocproc
  split
  · exact h
  rename_i np hnp
  replace hnp : (k.proc np).state = .unused := by simpa using List.find?_some hnp
  have hrun := (h.current hp).1
  have hlt := h.pid_lt
  have hready := h.ready
  have hembryo := h.embryo
  have hchild : ∀ q, (k.frame q).child ≠ some np := fun q hq => by
    rcases h.child_state hq with hs | hs <;> rw [hnp] at hs <;> cases hs
  constructor <;> simp only [Live, Pending, Function.update_apply]
  case running => have := h.running; grind
  case curr => have := h.curr; grind
  case pid_lt => grind
  case pid_pos => have := h.pid_pos; grind
  case pid_inj => have := h.pid_inj; grind
  case slot_lt => exact fun s => (h.slot_lt s).trans (Nat.lt_succ_self _)
  case slot_inj => exact h.slot_inj
  case owner => have := h.owner; grind [Live, Pending]
  case owns => have := h.owns; simp only [Live, Pending] at this; grind
  case fresh => have := h.fresh; have := h.slot_lt; grind [Pending]
  case embryo => grind
  case ready => grind
  case forking => have := h.forking; grind
  case child_inj => have := h.child_inj; grind [Frame.child]
  case strides => exact h.strides

theorem Inv.forkFail {k : Kernel} (h : Inv k) {p np : Fin nproc} (hp : k.current = some p)
    (hf : k.frame p = .embryo np) : Inv (forkFail k p np) := by
  have hnp := h.embryo p np hf
  have hrun := (h.current hp).1
  have hinj := h.child_inj
  constructor <;> simp only [Table.forkFail, Live, Pending, Function.update_apply]
  case running => have := h.running; grind
  case curr => have := h.curr; grind
  case pid_lt => have := h.pid_lt; grind
  case pid_pos => have := h.pid_pos; grind
  case pid_inj => have := h.pid_inj; grind
  case slot_lt => exact h.slot_lt
  case slot_inj => exact h.slot_inj
  case owner => have := h.owner; grind [Live, Pending]
  case owns => have := h.owns; simp only [Live, Pending] at this; grind
  case fresh => have := h.fresh; grind [Pending]
  case embryo => have := h.embryo; grind [Frame.child]
  case ready => have := h.ready; grind
  case forking => have := h.forking; grind
  case child_inj => grind [Frame.child]
  case strides => exact h.strides

theorem Inv.forkCopy {k : Kernel} (h : Inv k) {p np : Fin nproc} (hp : k.current = some p)
    (hf : k.frame p = .embryo np) : Inv (forkCopy k p np) := by
  have hnp := h.embryo p np hf
  have hrun := (h.current hp).1
  have hinj := h.child_inj
  have hready := h.ready
  constructor <;> simp only [Table.forkCopy, Live, Pending, Function.update_apply]
  case running => have := h.running; grind
  case curr => have := h.curr; grind
  case pid_lt => have := h.pid_lt; grind
  case pid_pos => have := h.pid_pos; grind
  case pid_inj => have := h.pid_inj; grind
  case slot_lt => exact h.slot_lt
  case slot_inj => exact h.slot_inj
  case owner => have := h.owner; grind [Live, Pending]
  case owns =>
    intro i hi hpend
    rcases eq_or_ne i np with rfl | hne
    · exact absurd ⟨p, _, if_pos rfl⟩ hpend
    · simp only [if_neg hne] at hi ⊢
      refine h.owns i hi fun ⟨q, pid, hq⟩ => hpend ⟨q, pid, ?_⟩
      grind
  case fresh => have := h.fresh; grind [Pending]
  case embryo => have := h.embryo; grind [Frame.child]
  case ready => grind [Frame.child]
  case forking => have := h.forking; grind
  case child_inj => grind [Frame.child]
  case strides => exact h.strides

/-- **The child gets its slot.** -/
theorem Inv.forkSlot {k : Kernel} (h : Inv k) {p np : Fin nproc} {pid : ℕ} (hp : k.current = some p)
    (hf : k.frame p = .ready np pid) : Inv (forkSlot k p pid) := by
  obtain ⟨s, hs⟩ := Option.isSome_iff_exists.mp (h.freeSlot_isSome hp hf)
  obtain ⟨hfree, hcurr⟩ := (freeSlot_spec k).1 s hs
  obtain ⟨hstate, hpid⟩ := h.ready p np pid hf
  have hrun := (h.current hp).1
  have hinj := h.child_inj
  have hpend : Pending k np := ⟨p, pid, hf⟩
  have hfresh := h.fresh np (Or.inr hpend)
  simp only [Table.forkSlot, hs]
  constructor <;> simp only [childSlot, Live, Pending, Function.update_apply]
  case running => exact h.running
  case curr => have := h.curr; grind
  case pid_lt => exact h.pid_lt
  case pid_pos => exact h.pid_pos
  case pid_inj => exact h.pid_inj
  case slot_lt => have := h.slot_lt; have := h.pid_lt; grind
  case slot_inj => have := h.slot_inj; grind
  case owner => have := h.owner; grind [Live, Pending, Frame.child]
  case owns => have := h.owns; simp only [Live, Pending] at this; grind [Frame.child]
  case fresh =>
    intro i hi t
    have hne : i ≠ np := by grind [Frame.child]
    have hi' : (k.proc i).state = .embryo ∨ Pending k i := by grind [Pending]
    have hinj := h.pid_inj i np
    have hpend := h.live_of_pending (i := i)
    have := h.fresh i hi'
    grind [Live]
  case embryo => have := h.embryo; grind
  case ready => have := h.ready; grind
  case forking => have := h.forking; grind
  case child_inj => grind [Frame.child]
  case strides => have := h.strides; grind

/-! ### The other steps -/

/-- The current process turns into a zombie, and its slot is free. -/
theorem Inv.die {k : Kernel} (h : Inv k) {p : Fin nproc} (hp : k.current = some p)
    (hf : k.frame p = .user) : Inv { k with
      pstat := Function.update k.pstat k.curr { k.pstat k.curr with inuse := false }
      proc := Function.update k.proc p { k.proc p with state := .zombie }
      current := none } := by
  obtain ⟨hrun, -, hnpend⟩ := h.current hp
  obtain ⟨huse, hpid⟩ := h.curr p hp
  have hpos := h.pid_pos p (by rw [hrun]; simp)
  have hslot := h.slot_inj
  constructor <;> simp only [Live, Pending, Function.update_apply]
  case running => have := h.running; grind
  case curr => exact nofun
  case pid_lt => have := h.pid_lt; grind
  case pid_pos => have := h.pid_pos; grind
  case pid_inj => have := h.pid_inj; grind
  case slot_lt => have := h.slot_lt; grind
  case slot_inj => grind
  case owner => have := h.owner; grind [Live, Pending]
  case owns => have := h.owns; have := h.pid_inj; simp only [Live, Pending] at *; grind
  case fresh => have := h.fresh; grind [Pending]
  case embryo => have := h.embryo; grind
  case ready => have := h.ready; grind
  case forking => have := h.forking; grind
  case child_inj => exact h.child_inj
  case strides => have := h.strides; grind

theorem Inv.exit {k : Kernel} (h : Inv k) {p : Fin nproc} (hp : k.current = some p)
    (hf : k.frame p = .user) : Inv (exit k p) := by
  have hw := (wakes_wakeup1 k.proc ((k.proc p).parent.map .proc)).trans (wakes_abandon _ p)
  exact (h.resched (hw.resched h)).die hp hf

theorem Inv.wait {k : Kernel} (h : Inv k) {p : Fin nproc} (hp : k.current = some p)
    (hf : k.frame p = .user) : Inv (wait k p) := by
  unfold Table.wait
  split
  · rename_i q hq
    have hz : (k.proc q).state = .zombie := by
      have := List.find?_some hq
      simp only [decide_eq_true_eq] at this
      exact this.2
    constructor <;> simp only [Live, Pending, Function.update_apply]
    case running => have := h.running; grind
    case curr => have := h.curr; have := h.running; grind
    case pid_lt => have := h.pid_lt; grind
    case pid_pos => have := h.pid_pos; grind
    case pid_inj => have := h.pid_inj; grind
    case slot_lt => exact h.slot_lt
    case slot_inj => exact h.slot_inj
    case owner => have := h.owner; grind [Live, Pending]
    case owns => have := h.owns; simp only [Live, Pending] at this; grind
    case fresh => have := h.fresh; have := h.ready; grind [Pending]
    case embryo => have := h.embryo; grind
    case ready => have := h.ready; grind
    case forking => have := h.forking; grind
    case child_inj => exact h.child_inj
    case strides => exact h.strides
  · split_ifs
    · exact h
    · exact h.resched (resched_stop h hp rfl (Or.inr ⟨rfl, hf⟩))

theorem Inv.settickets {k : Kernel} (h : Inv k) (number : ℤ) : Inv (settickets k number) := by
  unfold Table.settickets
  split_ifs with hn
  · exact h
  have hstride : 0 ≤ maxStride / number := Int.ediv_nonneg (by decide) (by omega)
  constructor <;> simp only [Live, Pending, Function.update_apply]
  case running => exact h.running
  case curr => have := h.curr; grind
  case pid_lt => exact h.pid_lt
  case pid_pos => exact h.pid_pos
  case pid_inj => exact h.pid_inj
  case slot_lt => have := h.slot_lt; grind
  case slot_inj => have := h.slot_inj; grind
  case owner => have := h.owner; grind [Live, Pending]
  case owns => have := h.owns; simp only [Live, Pending] at this; grind
  case fresh => have := h.fresh; grind [Pending]
  case embryo => exact h.embryo
  case ready => exact h.ready
  case forking => exact h.forking
  case child_inj => exact h.child_inj
  case strides => have := h.strides; grind

/-- **The switch of the scheduler**: the process it has chosen is the one whose slot it has chosen, and
it has a slot. -/
theorem Inv.switch {k : Kernel} (h : Inv k) (hn : k.current = none) {c : Choice} (hc : c.Ok k) :
    Inv (switch k c) := by
  obtain ⟨hrun, hpid⟩ := hc.candidate
  have hnpend : ¬ Pending k c.minp := fun hp => h.fresh _ (Or.inr hp) _ hpid
  have hpos := h.pid_pos c.minp (by rw [hrun]; simp)
  have huse : (k.pstat c.nxt).inuse := by
    obtain ⟨s, hs, hs'⟩ := h.owns c.minp (Or.inl hrun) hnpend
    rwa [h.slot_inj c.nxt s (by omega) (hpid.trans hs'.symm)]
  constructor <;> simp only [Table.switch, Live, Pending, Function.update_apply]
  case running => have := h.running; grind
  case curr => grind
  case pid_lt => have := h.pid_lt; grind
  case pid_pos => have := h.pid_pos; grind
  case pid_inj => have := h.pid_inj; grind
  case slot_lt => have := h.slot_lt; grind
  case slot_inj => have := h.slot_inj; grind
  case owner => have := h.owner; grind [Live, Pending]
  case owns => have := h.owns; simp only [Live, Pending] at this; grind
  case fresh => have := h.fresh; grind [Pending]
  case embryo => have := h.embryo; grind
  case ready => have := h.ready; grind [Pending]
  case forking => have := h.forking; grind
  case child_inj => exact h.child_inj
  case strides => have := h.strides; grind

theorem inv_userinit : Inv userinit := by
  constructor <;> simp only [userinit, Live, Pending, Function.update_apply, unusedProc, unusedSlot]
  case owner => intro s hs; refine ⟨initproc, ?_⟩; grind
  case owns => intro i hi _; refine ⟨0, ?_⟩; grind
  case strides => intro s; split_ifs <;> decide
  all_goals grind [Frame.child]

theorem inv_procStep {k k' : Kernel} {p : Fin nproc} {op : Op} (h : Inv k) (hp : k.current = some p)
    (hs : procStep k p op = some k') : Inv k' := by
  unfold procStep at hs
  split at hs
  case h_1 => cases hs; exact h.resched (resched_stop h hp rfl (Or.inl rfl))
  case h_2 hf => cases hs; exact h.allocproc hp hf
  case h_3 hf => cases hs; exact h.forkFail hp hf
  case h_4 hf => cases hs; exact h.forkCopy hp hf
  case h_5 hf => cases hs; exact h.forkSlot hp hf
  case h_6 hf => split_ifs at hs; cases hs; exact h.exit hp hf
  case h_7 hf => cases hs; exact h.wait hp hf
  case h_8 hf => cases hs; exact h.resched (resched_stop h hp rfl (Or.inr ⟨rfl, hf⟩))
  case h_9 hf => cases hs; exact h.resched (resched_kill h _)
  case h_10 hf => cases hs; exact h.settickets _
  case h_11 => cases hs

/-- **Every step keeps the invariant.** -/
theorem inv_step {k k' : Kernel} {op : Op} (h : Inv k) (hs : step k op = some k') : Inv k' := by
  unfold step at hs
  split at hs
  case h_1 => cases hs; exact h.resched ((wakes_wakeup1 k.proc _).resched h)
  case h_2 hn =>
    obtain ⟨c, hc, rfl⟩ := Option.map_eq_some_iff.mp hs
    exact h.switch hn ((select_spec k).1 c hc)
  case h_3 => cases hs
  case h_4 => cases hs
  case h_5 hp => exact inv_procStep h hp hs

theorem inv_reachable {k : Kernel} (h : system.Reachable k) : Inv k := by
  refine h.invariant (I := Inv) (fun s hs => ?_) fun _ _ _ _ hi hs => inv_step hi hs
  obtain rfl : s = userinit := hs
  exact inv_userinit

/-! ### Slot ownership -/

/-- The slot of the current process is the one at `curr_pstat_idx`. -/
theorem Inv.slot_current {k : Kernel} (h : Inv k) {p : Fin nproc} (hp : k.current = some p)
    {s : Fin nproc} (hs : (k.pstat s).pid = (k.proc p).pid) : s = k.curr := by
  have hpos := h.pid_pos p (h.current hp).2.1.ne_unused
  exact h.slot_inj s k.curr (by omega) (hs.trans (h.curr p hp).2.symm)

/-- **Slot ownership.** In every reachable state: the slot at `curr_pstat_idx` is in use and that of the
running process; no two slots hold the same pid; a live process, other than the child of a fork in
progress, has exactly one slot, in use; the search of `fork` finds a free slot; and `exit`, `settickets`
and `fork` update, and copy from, the slot of the process that called them. -/
theorem slot_ownership {k : Kernel} (h : system.Reachable k) :
    (∀ i, (k.proc i).state = .running →
      (k.pstat k.curr).pid = (k.proc i).pid ∧ (k.pstat k.curr).inuse) ∧
    (∀ s t, (k.pstat s).pid ≠ 0 → (k.pstat s).pid = (k.pstat t).pid → s = t) ∧
    (∀ i, Live k i → ¬ Pending k i →
      ∃ s, (k.pstat s).inuse ∧ ∀ t, (k.pstat t).pid = (k.proc i).pid ↔ t = s) ∧
    (∀ p np pid, k.current = some p → k.frame p = .ready np pid → (freeSlot k).isSome) ∧
    ∀ p c, k.current = some p → (k.pstat c).pid = (k.proc p).pid → ∀ k',
      (step k .exit = some k' →
        k'.pstat = Function.update k.pstat c { k.pstat c with inuse := false }) ∧
      (∀ number, 1 ≤ number → step k (.settickets number) = some k' →
        k'.pstat = Function.update k.pstat c
          { k.pstat c with tickets := number, strides := maxStride / number }) ∧
      ∀ np pid, k.frame p = .ready np pid → step k .forkSlot = some k' →
        pid = (k.proc np).pid ∧ ∃ s, (k.pstat s).inuse = false ∧
          k'.pstat = Function.update k.pstat s
            ⟨true, (k.pstat c).tickets, (k.pstat c).strides, (k.pstat c).strides, pid, 0⟩ := by
  have hinv := inv_reachable h
  refine ⟨fun i hi => ?_, hinv.slot_inj, fun i hl hp => ?_,
    fun p np pid hp hf => hinv.freeSlot_isSome hp hf, fun p c hp hc k' => ?_⟩
  · exact (hinv.curr i ((hinv.running i).mp hi)).symm
  · obtain ⟨s, hs, hpid⟩ := hinv.owns i hl hp
    have hpos := hinv.pid_pos i hl.ne_unused
    refine ⟨s, hs, fun t => ⟨fun ht => hinv.slot_inj t s (by omega) (ht.trans hpid.symm), ?_⟩⟩
    rintro rfl
    exact hpid
  · obtain rfl := hinv.slot_current hp hc
    refine ⟨fun hs => ?_, fun number hn hs => ?_, fun np pid hf hs => ?_⟩
    · rcases hf : k.frame p with _ | np | ⟨np, pid⟩ <;> simp only [step, hp, procStep, hf] at hs
      · split_ifs at hs
        cases hs
        rfl
      · cases hs
      · cases hs
    · rcases hf : k.frame p with _ | np | ⟨np, pid⟩ <;> simp only [step, hp, procStep, hf] at hs
      · cases hs
        rw [settickets, if_neg (by omega)]
      · cases hs
      · cases hs
    · obtain ⟨s, hfree⟩ := Option.isSome_iff_exists.mp (hinv.freeSlot_isSome hp hf)
      simp only [step, hp, procStep, hf, forkSlot, hfree] at hs
      cases hs
      exact ⟨(hinv.ready p np pid hf).2.symm, s, ((freeSlot_spec k).1 s hfree).1, rfl⟩

/-- A fork that is preempted before it updates pstat: the scheduler passes the child over. -/
theorem slot_ownership_fork : ∃ k, system.Reachable k ∧ k.current = some initproc ∧
    (k.proc 1).state = .runnable ∧ (freeSlot k).isSome := by
  have hrun : (runFun step userinit [.dispatch, .fork, .forkCopy, .yield, .dispatch]).map
      (fun k => (k.current, (k.proc 1).state, k.frame 0)) =
        some (some initproc, .runnable, .ready 1 2) := by decide +kernel
  obtain ⟨k, hk, heq⟩ := Option.map_eq_some_iff.mp hrun
  simp only [Prod.mk.injEq] at heq
  have hr : system.Reachable k := reachable_runFun (fun _ _ _ h => h) (.init rfl) hk
  obtain ⟨-, -, -, hfree, -⟩ := slot_ownership hr
  exact ⟨k, hr, heq.1, heq.2.1, hfree initproc 1 2 heq.1 heq.2.2⟩

end OperatingSystems.Stride.Ownership
