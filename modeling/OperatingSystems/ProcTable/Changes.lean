import OperatingSystems.ProcTable.Steps

/-! # What a step does to the process table

Most steps only move processes between `RUNNING`, `RUNNABLE` and `SLEEPING` (`Calm`); the others are in `Change`.
Beside the kernel, `Log` numbers the processes, and records who has exited and whom `wait` has returned. -/

namespace OperatingSystems.ProcTable.Exits

open OperatingSystems.Lib.Transition OperatingSystems.ProcTable

variable {k k' : Kernel} {p q r np : Fin nproc} {frame : Frame}

/-- The process is `SLEEPING`, `RUNNABLE` or `RUNNING`. -/
def Live (k : Kernel) (q : Fin nproc) : Prop :=
  (k.proc q).state = .sleeping ∨ (k.proc q).state = .runnable ∨ (k.proc q).state = .running

/-- The process is in `wait`, asleep. -/
def Waits (k : Kernel) (p : Fin nproc) : Prop := (k.proc p).state = .sleeping ∧ (k.proc p).chan = some (.proc p)

/-- Live processes fall asleep, wake up, or get and lose the CPU. -/
structure Calm (k k' : Kernel) : Prop where
  nextpid : k'.nextpid = k.nextpid
  pages : k'.pages = k.pages
  freed : k'.freed = k.freed
  frame : ∀ p, k'.frame p = k.frame p ∨ (k.frame p).child = none ∧ (k'.frame p).child = none
  pid : ∀ q, (k'.proc q).pid = (k.proc q).pid
  parent : ∀ q, (k'.proc q).parent = (k.proc q).parent
  kstack : ∀ q, (k'.proc q).kstack = (k.proc q).kstack
  pgdir : ∀ q, (k'.proc q).pgdir = (k.proc q).pgdir
  state : ∀ q, (k'.proc q).state = (k.proc q).state ∨ Live k q ∧ ((k'.proc q).state = .runnable ∨
    (k'.proc q).state = .running ∨ (k'.proc q).state = .sleeping ∧ (k.frame q).child = none)
  waits : ∀ p, Waits k' p → Waits k p ∨ ∀ q, (k.proc q).parent = some p → (k.proc q).state ≠ .zombie

namespace Calm

theorem refl (k : Kernel) : Calm k k :=
  ⟨rfl, rfl, rfl, fun _ => .inl rfl, fun _ => rfl, fun _ => rfl, fun _ => rfl, fun _ => rfl, fun _ => .inl rfl,
    fun _ => .inl⟩

theorem live (h : Calm k k') (hq : Live k q) : Live k' q := by
  unfold Live at *
  rcases h.state q with hs | ⟨-, hs | hs | ⟨hs, -⟩⟩
  · rwa [hs]
  all_goals simp [hs]

theorem state_iff (h : Calm k k') {st : ProcState} (hst : st = .unused ∨ st = .embryo ∨ st = .zombie) :
    (k'.proc q).state = st ↔ (k.proc q).state = st := by
  rcases h.state q with hs | ⟨hl, hs⟩
  · rw [hs]
  · constructor
    · intro he
      rcases hst with rfl | rfl | rfl <;> rcases hs with hs | hs | ⟨hs, -⟩ <;> rw [he] at hs <;> cases hs
    · intro he
      rcases hst with rfl | rfl | rfl <;> rcases hl with hl | hl | hl <;> rw [he] at hl <;> cases hl

theorem child (h : Calm k k') : (k'.frame p).child = (k.frame p).child := by
  rcases h.frame p with hf | ⟨h1, h2⟩
  · rw [hf]
  · rw [h1, h2]

/-- A frame of `fork` stays. -/
theorem frame_iff (h : Calm k k') (hc : frame.child ≠ none) : k'.frame p = frame ↔ k.frame p = frame := by
  rcases h.frame p with hf | ⟨h1, h2⟩
  · rw [hf]
  · constructor <;> intro he
    · rw [he] at h2; exact absurd h2 hc
    · rw [he] at h1; exact absurd h1 hc

/-- One live process changes its state and its channel. -/
theorem update {x : Proc} (hproc : k'.proc = Function.update k.proc p x)
    (hrest : k'.nextpid = k.nextpid ∧ k'.pages = k.pages ∧ k'.freed = k.freed)
    (hframe : ∀ q, k'.frame q = k.frame q ∨ (k.frame q).child = none ∧ (k'.frame q).child = none) (hp : Live k p)
    (hx : x.pid = (k.proc p).pid ∧ x.parent = (k.proc p).parent ∧ x.kstack = (k.proc p).kstack ∧
      x.pgdir = (k.proc p).pgdir)
    (hs : x.state = .runnable ∨ x.state = .running ∨ x.state = .sleeping ∧ (k.frame p).child = none)
    (hw : x.state = .sleeping → x.chan = some (.proc p) →
      ∀ q, (k.proc q).parent = some p → (k.proc q).state ≠ .zombie) : Calm k k' := by
  have hne : ∀ {q}, q ≠ p → k'.proc q = k.proc q := fun hq => by rw [hproc, Function.update_of_ne hq]
  have hself : k'.proc p = x := by rw [hproc, Function.update_self]
  refine ⟨hrest.1, hrest.2.1, hrest.2.2, hframe, fun q => ?_, fun q => ?_, fun q => ?_, fun q => ?_, fun q => ?_,
    fun q hq => ?_⟩
  · rcases eq_or_ne q p with rfl | hqp
    · rw [hself, hx.1]
    · rw [hne hqp]
  · rcases eq_or_ne q p with rfl | hqp
    · rw [hself, hx.2.1]
    · rw [hne hqp]
  · rcases eq_or_ne q p with rfl | hqp
    · rw [hself, hx.2.2.1]
    · rw [hne hqp]
  · rcases eq_or_ne q p with rfl | hqp
    · rw [hself, hx.2.2.2]
    · rw [hne hqp]
  · rcases eq_or_ne q p with rfl | hqp
    · rw [hself]
      exact .inr ⟨hp, hs⟩
    · rw [hne hqp]
      exact .inl rfl
  · unfold Waits at *
    rcases eq_or_ne q p with rfl | hqp
    · rw [hself] at hq
      exact .inr (hw hq.1 hq.2)
    · rw [hne hqp] at hq
      exact .inl hq

/-- Sleepers are woken up. -/
theorem wake (hrest : k'.frame = k.frame ∧ k'.nextpid = k.nextpid ∧ k'.pages = k.pages ∧ k'.freed = k.freed)
    (hx : ∀ q, (k'.proc q).pid = (k.proc q).pid ∧ (k'.proc q).parent = (k.proc q).parent ∧
      (k'.proc q).chan = (k.proc q).chan ∧ (k'.proc q).kstack = (k.proc q).kstack ∧
      (k'.proc q).pgdir = (k.proc q).pgdir)
    (hs : ∀ q, (k'.proc q).state = (k.proc q).state ∨ (k.proc q).state = .sleeping ∧ (k'.proc q).state = .runnable) :
    Calm k k' := by
  refine ⟨hrest.2.1, hrest.2.2.1, hrest.2.2.2, fun q => .inl (congrFun hrest.1 q), fun q => (hx q).1,
    fun q => (hx q).2.1, fun q => (hx q).2.2.2.1, fun q => (hx q).2.2.2.2, fun q => ?_, fun q hq => ?_⟩
  · exact (hs q).imp_right fun h => ⟨.inl h.1, .inl h.2⟩
  · obtain ⟨hq, hc⟩ := hq
    rcases hs q with h | ⟨-, h⟩
    · exact .inl ⟨h.symm.trans hq, (hx q).2.2.1.symm.trans hc⟩
    · rw [h] at hq
      cases hq

theorem live_iff (h : Calm k k') : Live k' q ↔ Live k q := by
  refine ⟨fun hq => ?_, h.live⟩
  rcases h.state q with hs | ⟨hl, -⟩
  · unfold Live at *
    rwa [hs] at hq
  · exact hl

theorem trans {k'' : Kernel} (h : Calm k k') (h' : Calm k' k'') : Calm k k'' := by
  refine ⟨h'.nextpid.trans h.nextpid, h'.pages.trans h.pages, h'.freed.trans h.freed, fun q => ?_,
    fun q => (h'.pid q).trans (h.pid q), fun q => (h'.parent q).trans (h.parent q),
    fun q => (h'.kstack q).trans (h.kstack q), fun q => (h'.pgdir q).trans (h.pgdir q), fun q => ?_, fun q hq => ?_⟩
  · rcases h'.frame q with hf | ⟨h1, h2⟩
    · rw [hf]
      exact h.frame q
    · exact .inr ⟨h.child.symm.trans h1, h2⟩
  · rcases h'.state q with hs | ⟨hl, hs⟩
    · rw [hs]
      exact h.state q
    · exact .inr ⟨h.live_iff.mp hl, by rwa [h.child] at hs⟩
  · rcases h'.waits q hq with hq | hnone
    · exact h.waits q hq
    · refine .inr fun c hc hz => ?_
      exact hnone c ((h.parent c).trans hc) ((h.state_iff (.inr (.inr rfl))).mpr hz)

end Calm

/-- A process outside `fork` stays outside. -/
theorem frame_goto {proc : Fin nproc → Proc} (hp : (k.frame p).child = none) (hf : frame.child = none) (q : Fin nproc) :
    (k.goto p frame proc).frame q = k.frame q ∨
      (k.frame q).child = none ∧ ((k.goto p frame proc).frame q).child = none := by
  show Function.update k.frame p frame q = _ ∨ _ ∧ (Function.update k.frame p frame q).child = none
  rcases eq_or_ne q p with rfl | hq
  · rw [Function.update_self]
    exact .inr ⟨hp, hf⟩
  · rw [Function.update_of_ne hq]
    exact .inl rfl

theorem calm_sleep (hp : Live k p) (hf : (k.frame p).child = none) {chan : Chan} (hframe : frame.child = none)
    (hw : chan = .proc p → ∀ q, (k.proc q).parent = some p → (k.proc q).state ≠ .zombie) :
    Calm k (sleep k p chan frame) :=
  .update rfl ⟨rfl, rfl, rfl⟩ (frame_goto hf hframe) hp ⟨rfl, rfl, rfl, rfl⟩ (.inr (.inr ⟨rfl, hf⟩)) fun _ hc =>
    hw (Option.some.inj hc)

theorem calm_awake (hp : Live k p) (hf : (k.frame p).child = none) : Calm k (awake k p) :=
  .update rfl ⟨rfl, rfl, rfl⟩ (frame_goto hf rfl) hp ⟨rfl, rfl, rfl, rfl⟩ (.inr (.inl rfl)) nofun

theorem calm_set (hp : Live k p) {state : ProcState} (hs : state = .runnable ∨ state = .running) {killed : Bool} :
    Calm k (k.set p state killed) :=
  .update rfl ⟨rfl, rfl, rfl⟩ (fun _ => .inl rfl) hp ⟨rfl, rfl, rfl, rfl⟩ (hs.imp_right .inl) fun h => by
    rcases hs with rfl | rfl <;> cases h

theorem calm_wakeup {a : ℕ} : Calm k { k with proc := wakeup1 k.proc (some (.addr a)) } :=
  .wake ⟨rfl, rfl, rfl, rfl⟩ (fun _ => ⟨wakeup1_pid, wakeup1_parent, wakeup1_chan, wakeup1_kstack, wakeup1_pgdir⟩)
    fun _ => (wakeup1_state ..).imp_right fun h => ⟨h.1, h.2.2⟩

theorem calm_kill {pid : BitVec 32} : Calm k ((kill k pid).getD k) :=
  .wake (kill_rest k pid) (kill_fields k pid) (kill_state k pid)

theorem calm_frame (hf : (k.frame p).child = none) (hframe : frame.child = none) : Calm k (k.goto p frame k.proc) :=
  { Calm.refl k with frame := frame_goto hf hframe }

/-! ### Who has exited -/

/-- An `exit`: which process it was, its pid, its kernel stack and its page table. -/
structure Exit where
  life : ℕ
  pid : BitVec 32
  kstack : Option ℕ
  pgdir : Option ℕ

/-- The processes are numbered by the order in which `allocproc` made them; `life` says which of them an entry
holds, or held. `waits` are the processes that `wait` returned, with the pid that it returned and the process
that called it. -/
structure Log where
  born : ℕ
  life : Fin nproc → ℕ
  exits : List Exit
  waits : List (ℕ × BitVec 32 × Fin nproc)

/-- After `userinit`. -/
def Log.start : Log := ⟨1, fun _ => 0, [], []⟩

/-- `wait` returns the process in an entry. -/
def Log.returned (h : Log) (k : Kernel) (p q : Fin nproc) : Log :=
  { h with waits := h.waits ++ [(h.life q, (k.proc q).pid, p)] }

/-- One pass of the loop of `wait`. -/
def Log.wait (h : Log) (k : Kernel) (p : Fin nproc) : Log :=
  match findZombie k p with
  | none => h
  | some q => h.returned k p q

/-- A new process. -/
def Log.alloc (h : Log) (np : Fin nproc) : Log :=
  { h with born := h.born + 1, life := Function.update h.life np h.born }

/-- `exit`. -/
def Log.exit (h : Log) (k : Kernel) (p : Fin nproc) : Log :=
  { h with exits := h.exits ++ [⟨h.life p, (k.proc p).pid, (k.proc p).kstack, (k.proc p).pgdir⟩] }

/-- What a step adds. -/
def note (k : Kernel) (op : Op) (h : Log) : Log :=
  match op with
  | .fork _ => match findUnused k with | none => h | some np => h.alloc np
  | .exit p => h.exit k p
  | .wait p => h.wait k p
  | .dispatch p => if k.frame p = .waiting then h.wait k p else h
  | _ => h

/-- The process table, with the log. -/
def runs : System (Kernel × Log) Op := system.beside Log.start note

/-! ### What a step does -/

/-- The child that `wait` has found is gone. -/
def reaped (k : Kernel) (p q : Fin nproc) : Kernel := (reap k q).goto p .user (reap k q).proc

/-- **What a step does to the table.** -/
inductive Change (k : Kernel) : Op → Kernel → Prop
  | calm {op : Op} {k' : Kernel} (h : Calm k k') (hnote : ∀ g, note k op g = g) : Change k op k'
  | alloc {p np : Fin nproc} (hp : (k.proc p).state = .running) (hf : k.frame p = .user) (hnp : findUnused k = some np) :
      Change k (.fork p) (allocproc k p)
  | kalloc {p np : Fin nproc} {ok : Bool} (hp : (k.proc p).state = .running) (hf : k.frame p = .kalloc np) :
      Change k (.forkKalloc p ok) (forkKalloc k p np ok)
  | copy {p np : Fin nproc} {ok : Bool} (hp : (k.proc p).state = .running) (hf : k.frame p = .copy np) :
      Change k (.forkCopy p ok) (forkCopy k p np ok)
  | ready {p np : Fin nproc} (hp : (k.proc p).state = .running) (hf : k.frame p = .ready np) :
      Change k (.forkReady p) (forkReady k p np)
  | exit {p : Fin nproc} (hp : (k.proc p).state = .running) (hf : k.frame p = .user) (hinit : p ≠ initproc) :
      Change k (.exit p) (exit k p)
  | reap {op : Op} {p q : Fin nproc} {k1 : Kernel} (h : Calm k k1) (hp : (k1.frame p).child = none)
      (hq : (k1.proc q).parent = some p ∧ (k1.proc q).state = .zombie) (hnote : ∀ g, note k op g = g.returned k1 p q) :
      Change k op (reaped k1 p q)

/-- One pass of the loop of `wait`, after a calm step. -/
theorem change_wait {op : Op} {k1 : Kernel} (h : Calm k k1) (hp : Live k1 p) (hf : (k1.frame p).child = none)
    (hnote : ∀ g, note k op g = g.wait k1 p) : Change k op (wait k1 p) := by
  unfold ProcTable.wait
  cases hq : findZombie k1 p with
  | some q => exact .reap h hf (findZombie_eq hq) fun g => by rw [hnote, Log.wait, hq]
  | none =>
    have hnote' : ∀ g, note k op g = g := fun g => by rw [hnote, Log.wait, hq]
    dsimp only
    split_ifs
    · exact .calm (h.trans (calm_frame hf rfl)) hnote'
    · exact .calm (h.trans (calm_sleep hp hf rfl fun _ c hc => findZombie_none hq hc)) hnote'

theorem change_of_step {op : Op} (hs : Step k op k') : Change k op k' := by
  have live : ∀ {p}, (k.proc p).state = .running → Live k p := fun hp => .inr (.inr hp)
  have outside : ∀ {p}, k.frame p = .user → (k.frame p).child = none := fun hf => by rw [hf]; rfl
  cases hs with
  | @fork p hp hf =>
    cases hnp : findUnused k with
    | some np => exact .alloc hp hf hnp
    | none =>
      have hsame : allocproc k p = k := by unfold allocproc; rw [hnp]
      rw [hsame]
      exact .calm (.refl k) fun g => by simp [note, hnp]
  | forkKalloc hp hf => exact .kalloc hp hf
  | forkCopy hp hf => exact .copy hp hf
  | forkReady hp hf => exact .ready hp hf
  | exit hp hf hinit => exact .exit hp hf hinit
  | wait hp hf => exact change_wait (.refl k) (live hp) (outside hf) fun _ => rfl
  | sleep hp hf => exact .calm (calm_sleep (live hp) (outside hf) rfl nofun) fun _ => rfl
  | wakeup => exact .calm calm_wakeup fun _ => rfl
  | kill hp hf => exact .calm calm_kill fun _ => rfl
  | trap hp hf => exact .calm (calm_set (live hp) (.inr rfl)) fun _ => rfl
  | yield hp => exact .calm (calm_set (live hp) (.inl rfl)) fun _ => rfl
  | @dispatch p hp =>
    have hl : Live k p := .inr (.inl hp)
    unfold dispatch
    split
    · next hf =>
      exact .calm (calm_awake hl (by rw [hf]; rfl)) fun g => if_neg (by rw [hf]; simp)
    · next hf =>
      have hc := calm_awake hl (by rw [hf]; rfl)
      have hz : findZombie (awake k p) p = findZombie k p := findZombie_awake (by simp [hp])
      refine change_wait hc (hc.live hl) (by rw [hc.child, hf]; rfl) fun g => ?_
      show (if k.frame p = .waiting then g.wait k p else g) = g.wait (awake k p) p
      rw [if_pos hf, Log.wait, Log.wait, hz]
      cases hq : findZombie k p with
      | none => rfl
      | some q => simp only [Log.returned, hc.pid]
    · next _ hne =>
      refine .calm ?_ fun g => if_neg hne
      exact .update (x := { k.proc p with state := .running }) rfl ⟨rfl, rfl, rfl⟩ (fun _ => .inl rfl) hl
        ⟨rfl, rfl, rfl, rfl⟩ (.inr (.inl rfl)) nofun

end OperatingSystems.ProcTable.Exits
