import Mathlib.Tactic
import OperatingSystems.Lib.Transition

/-! # The process table

`proc.c`, as it is in the kernels of the second and the fifth project, on any number of CPUs. A step is what one
CPU does while it holds `ptable.lock`, or what `fork` does to its new slot without it; `fork` is four of them,
and its `Frame` keeps `np` meanwhile. A process that was woken up in `wait` goes on with its loop before the
lock is given away, so `dispatch` does that, too.

Kernel stacks and page tables are named by the order in which they are allocated, and `freed` lists those that
`kfree` and `freevm` were called on. -/

namespace OperatingSystems.ProcTable

open OperatingSystems.Lib.Transition

/-! ### The table -/

/-- `NPROC`. -/
abbrev nproc : ℕ := 64

instance : NeZero nproc := ⟨by decide⟩

/-- `enum procstate`. -/
inductive ProcState
  | unused
  | embryo
  | sleeping
  | runnable
  | running
  | zombie
  deriving DecidableEq

/-- What a process sleeps on: an entry of the process table (in `wait`), or another address. -/
inductive Chan
  | proc (p : Fin nproc)
  | addr (a : ℕ)
  deriving DecidableEq

/-- `struct proc`. -/
structure Proc where
  state : ProcState
  pid : BitVec 32
  parent : Option (Fin nproc)
  chan : Option Chan
  killed : Bool
  kstack : Option ℕ
  pgdir : Option ℕ

/-- Where a process stands: in `sleep`, in `sleep` called by `wait`, in `allocproc` before `kalloc`, in `fork`
before the copy of the address space or before `np->state = RUNNABLE`, or anywhere else. -/
inductive Frame
  | user
  | asleep
  | waiting
  | kalloc (np : Fin nproc)
  | copy (np : Fin nproc)
  | ready (np : Fin nproc)
  deriving DecidableEq

/-- The child in a frame. -/
def Frame.child : Frame → Option (Fin nproc)
  | .kalloc np | .copy np | .ready np => some np
  | _ => none

/-- The kernel. `pages` counts the allocations. -/
structure Kernel where
  proc : Fin nproc → Proc
  nextpid : BitVec 32
  frame : Fin nproc → Frame
  pages : ℕ
  freed : List ℕ

/-- `initproc`, which `userinit` puts into the first entry. -/
def initproc : Fin nproc := 0

/-- `p` in another position, with the table changed. -/
def Kernel.goto (k : Kernel) (p : Fin nproc) (frame : Frame) (proc : Fin nproc → Proc) : Kernel :=
  { k with proc := proc, frame := Function.update k.frame p frame }

/-! ### fork -/

/-- The search of `allocproc`. -/
def findUnused (k : Kernel) : Option (Fin nproc) :=
  (List.finRange nproc).find? fun q => (k.proc q).state = .unused

/-- `allocproc`, while it has the lock. Without an unused entry `fork` returns -1. -/
def allocproc (k : Kernel) (p : Fin nproc) : Kernel :=
  match findUnused k with
  | none => k
  | some np =>
    { k.goto p (.kalloc np) (Function.update k.proc np { k.proc np with state := .embryo, pid := k.nextpid }) with
      nextpid := k.nextpid + 1 }

/-- The kernel stack, or the failure of `kalloc`. -/
def forkKalloc (k : Kernel) (p np : Fin nproc) (ok : Bool) : Kernel :=
  if ok then
    { k.goto p (.copy np) (Function.update k.proc np { k.proc np with kstack := some k.pages }) with
      pages := k.pages + 1 }
  else k.goto p .user (Function.update k.proc np { k.proc np with kstack := none, state := .unused })

/-- The copy of the address space and of the process, or the failure of `copyuvm` or `cowuvm`. -/
def forkCopy (k : Kernel) (p np : Fin nproc) (ok : Bool) : Kernel :=
  if ok then
    { k.goto p (.ready np) (Function.update k.proc np { k.proc np with pgdir := some k.pages, parent := some p }) with
      pages := k.pages + 1 }
  else
    { k.goto p .user (Function.update k.proc np { k.proc np with pgdir := none, kstack := none, state := .unused })
        with
      freed := k.freed ++ (k.proc np).kstack.toList }

/-- `np->state = RUNNABLE`. -/
def forkReady (k : Kernel) (p np : Fin nproc) : Kernel :=
  k.goto p .user (Function.update k.proc np { k.proc np with state := .runnable })

/-! ### exit, wait, sleep, wakeup, kill -/

/-- `wakeup1`, on the entries. -/
def wakeup1 (proc : Fin nproc → Proc) (chan : Option Chan) (q : Fin nproc) : Proc :=
  if (proc q).state = .sleeping ∧ (proc q).chan = chan then { proc q with state := .runnable } else proc q

/-- The entries, with those of the children of `p` passed to init. -/
def adopted (proc : Fin nproc → Proc) (p q : Fin nproc) : Proc :=
  if (proc q).parent = some p then { proc q with parent := some initproc } else proc q

/-- Passing the children of `p` to init, which wakes up for a zombie among them. -/
def abandon (proc : Fin nproc → Proc) (p : Fin nproc) : Fin nproc → Proc :=
  if ∃ q, (proc q).parent = some p ∧ (proc q).state = .zombie then
    wakeup1 (adopted proc p) (some (.proc initproc))
  else adopted proc p

/-- `exit`, from `acquire` on. -/
def exit (k : Kernel) (p : Fin nproc) : Kernel :=
  let proc := abandon (wakeup1 k.proc ((k.proc p).parent.map .proc)) p
  { k with proc := Function.update proc p { proc p with state := .zombie } }

/-- `sleep`, up to `sched`. -/
def sleep (k : Kernel) (p : Fin nproc) (chan : Chan) (frame : Frame) : Kernel :=
  k.goto p frame (Function.update k.proc p { k.proc p with state := .sleeping, chan := some chan })

/-- The search of `wait`. -/
def findZombie (k : Kernel) (p : Fin nproc) : Option (Fin nproc) :=
  (List.finRange nproc).find? fun q => (k.proc q).parent = some p ∧ (k.proc q).state = .zombie

/-- What `wait` does to the child that it has found. -/
def reap (k : Kernel) (q : Fin nproc) : Kernel :=
  let reaped := { k.proc q with kstack := none, state := .unused, pid := 0, parent := none, killed := false }
  { k with
    proc := Function.update k.proc q reaped
    freed := k.freed ++ (k.proc q).kstack.toList ++ (k.proc q).pgdir.toList }

/-- One pass of the loop of `wait`: it returns the pid of a zombie, returns -1, or sleeps. -/
def wait (k : Kernel) (p : Fin nproc) : Kernel :=
  match findZombie k p with
  | some q => let k := reap k q; k.goto p .user k.proc
  | none =>
    if (∀ q, (k.proc q).parent ≠ some p) ∨ (k.proc p).killed then k.goto p .user k.proc
    else sleep k p (.proc p) .waiting

/-- The search of `kill` and `getprocstate`. -/
def findPid (k : Kernel) (pid : BitVec 32) : Option (Fin nproc) :=
  (List.finRange nproc).find? fun q => (k.proc q).pid = pid

/-- `kill`, which returns 0, or -1 when it finds no process. -/
def kill (k : Kernel) (pid : BitVec 32) : Option Kernel :=
  (findPid k pid).map fun q =>
    let state := if (k.proc q).state = .sleeping then .runnable else (k.proc q).state
    { k with proc := Function.update k.proc q { k.proc q with killed := true, state := state } }

/-- `states`. -/
def ProcState.name : ProcState → List Char
  | .unused => ['u', 'n', 'u', 's', 'e', 'd']
  | .embryo => ['e', 'm', 'b', 'r', 'y', 'o']
  | .sleeping => ['s', 'l', 'e', 'e', 'p', ' ']
  | .runnable => ['r', 'u', 'n', 'b', 'l', 'e']
  | .running => ['r', 'u', 'n', ' ', ' ', ' ']
  | .zombie => ['z', 'o', 'm', 'b', 'i', 'e']

/-- `getprocstate` with the string it copies into a buffer of `n` bytes, or -1 when it finds no process. -/
def getprocstate (k : Kernel) (pid : BitVec 32) (n : ℕ) : Option (List Char) :=
  (findPid k pid).map fun q => (k.proc q).state.name.take (n - 1)

/-! ### The scheduler -/

/-- `p` runs, and has left `sleep`. -/
def awake (k : Kernel) (p : Fin nproc) : Kernel :=
  k.goto p .user (Function.update k.proc p { k.proc p with state := .running, chan := none })

/-- `scheduler` runs `p`, which leaves `sleep` when it was in it. -/
def dispatch (k : Kernel) (p : Fin nproc) : Kernel :=
  match k.frame p with
  | .asleep => awake k p
  | .waiting => wait (awake k p) p
  | _ => { k with proc := Function.update k.proc p { k.proc p with state := .running } }

/-- A change of the state or of `killed` of the current process, by `yield` or by `trap`. -/
def Kernel.set (k : Kernel) (p : Fin nproc) (state : ProcState) (killed : Bool) : Kernel :=
  { k with proc := Function.update k.proc p { k.proc p with state := state, killed := killed } }

/-! ### The system -/

/-- What happens next. -/
inductive Op
  | fork (p : Fin nproc)
  | forkKalloc (p : Fin nproc) (ok : Bool)
  | forkCopy (p : Fin nproc) (ok : Bool)
  | forkReady (p : Fin nproc)
  | exit (p : Fin nproc)
  | wait (p : Fin nproc)
  | sleep (p : Fin nproc) (a : ℕ)
  | wakeup (a : ℕ)
  | kill (p : Fin nproc) (pid : BitVec 32)
  | trap (p : Fin nproc)
  | yield (p : Fin nproc)
  | dispatch (p : Fin nproc)
  deriving DecidableEq

/-- **A step of a process that a CPU runs**: a system call, the next part of `fork`, or a trap. -/
def procStep (k : Kernel) (op : Op) : Option Kernel :=
  match op with
  | .fork p => if k.frame p = .user then some (allocproc k p) else none
  | .forkKalloc p ok => match k.frame p with | .kalloc np => some (forkKalloc k p np ok) | _ => none
  | .forkCopy p ok => match k.frame p with | .copy np => some (forkCopy k p np ok) | _ => none
  | .forkReady p => match k.frame p with | .ready np => some (forkReady k p np) | _ => none
  | .exit p => if k.frame p = .user ∧ p ≠ initproc then some (exit k p) else none
  | .wait p => if k.frame p = .user then some (wait k p) else none
  | .sleep p a => if k.frame p = .user then some (sleep k p (.addr a) .asleep) else none
  | .kill p pid => if k.frame p = .user then some ((kill k pid).getD k) else none
  | .trap p => if k.frame p = .user then some (k.set p .running true) else none
  | .yield p => some (k.set p .runnable (k.proc p).killed)
  | .wakeup _ => none
  | .dispatch _ => none

/-- The process that acts. -/
def Op.actor : Op → Option (Fin nproc)
  | .fork p | .forkKalloc p _ | .forkCopy p _ | .forkReady p | .exit p | .wait p | .sleep p _ | .kill p _ | .trap p
  | .yield p => some p
  | .wakeup _ | .dispatch _ => none

/-- **One step.** An interrupt can wake processes up at any time. -/
def step (k : Kernel) (op : Op) : Option Kernel :=
  match op with
  | .wakeup a => some { k with proc := wakeup1 k.proc (some (.addr a)) }
  | .dispatch p => if (k.proc p).state = .runnable then some (dispatch k p) else none
  | op => if ∃ p, op.actor = some p ∧ (k.proc p).state = .running then procStep k op else none

/-- An unused entry of the process table. -/
def unusedProc : Proc := ⟨.unused, 0, none, none, false, none, none⟩

/-- The kernel after `userinit`. -/
def userinit : Kernel where
  proc := Function.update (fun _ => unusedProc) initproc
    { unusedProc with state := .runnable, pid := 1, kstack := some 0, pgdir := some 1 }
  nextpid := 2
  frame _ := .user
  pages := 2
  freed := []

theorem userinit_initproc : userinit.proc initproc =
    { unusedProc with state := .runnable, pid := 1, kstack := some 0, pgdir := some 1 } := by
  simp only [userinit, Function.update_self]

theorem userinit_of_ne {q : Fin nproc} (hq : q ≠ initproc) : userinit.proc q = unusedProc := by
  simp only [userinit, Function.update_of_ne hq]

/-- The process table as a transition system. -/
def system : System Kernel Op := .ofFun (· = userinit) step

/-- **What a step is.** -/
inductive Step (k : Kernel) : Op → Kernel → Prop
  | fork {p : Fin nproc} (hp : (k.proc p).state = .running) (hf : k.frame p = .user) :
      Step k (.fork p) (allocproc k p)
  | forkKalloc {p np : Fin nproc} {ok : Bool} (hp : (k.proc p).state = .running) (hf : k.frame p = .kalloc np) :
      Step k (.forkKalloc p ok) (forkKalloc k p np ok)
  | forkCopy {p np : Fin nproc} {ok : Bool} (hp : (k.proc p).state = .running) (hf : k.frame p = .copy np) :
      Step k (.forkCopy p ok) (forkCopy k p np ok)
  | forkReady {p np : Fin nproc} (hp : (k.proc p).state = .running) (hf : k.frame p = .ready np) :
      Step k (.forkReady p) (forkReady k p np)
  | exit {p : Fin nproc} (hp : (k.proc p).state = .running) (hf : k.frame p = .user) (hinit : p ≠ initproc) :
      Step k (.exit p) (exit k p)
  | wait {p : Fin nproc} (hp : (k.proc p).state = .running) (hf : k.frame p = .user) : Step k (.wait p) (wait k p)
  | sleep {p : Fin nproc} {a : ℕ} (hp : (k.proc p).state = .running) (hf : k.frame p = .user) :
      Step k (.sleep p a) (sleep k p (.addr a) .asleep)
  | wakeup {a : ℕ} : Step k (.wakeup a) { k with proc := wakeup1 k.proc (some (.addr a)) }
  | kill {p : Fin nproc} {pid : BitVec 32} (hp : (k.proc p).state = .running) (hf : k.frame p = .user) :
      Step k (.kill p pid) ((kill k pid).getD k)
  | trap {p : Fin nproc} (hp : (k.proc p).state = .running) (hf : k.frame p = .user) :
      Step k (.trap p) (k.set p .running true)
  | yield {p : Fin nproc} (hp : (k.proc p).state = .running) :
      Step k (.yield p) (k.set p .runnable (k.proc p).killed)
  | dispatch {p : Fin nproc} (hp : (k.proc p).state = .runnable) : Step k (.dispatch p) (dispatch k p)

theorem step_cases {k k' : Kernel} {op : Op} (h : step k op = some k') : Step k op k' := by
  have hrun : ∀ {p}, op.actor = some p → (if ∃ p, op.actor = some p ∧ (k.proc p).state = .running then
      procStep k op else none) = some k' → (k.proc p).state = .running ∧ procStep k op = some k' := by
    intro p hp hs
    split_ifs at hs with hr
    obtain ⟨q, hq, hr⟩ := hr
    exact ⟨Option.some.inj (hp.symm.trans hq) ▸ hr, hs⟩
  cases op with
  | wakeup a =>
    cases h
    exact .wakeup
  | dispatch p =>
    obtain ⟨hp, h⟩ := Option.ite_none_right_eq_some.mp h
    cases h
    exact .dispatch hp
  | fork p =>
    obtain ⟨hp, h⟩ := hrun rfl h
    obtain ⟨hf, h⟩ := Option.ite_none_right_eq_some.mp h
    cases h
    exact .fork hp hf
  | forkKalloc p ok =>
    obtain ⟨hp, h⟩ := hrun rfl h
    simp only [procStep] at h
    split at h
    · next np hf => cases h; exact .forkKalloc hp hf
    · cases h
  | forkCopy p ok =>
    obtain ⟨hp, h⟩ := hrun rfl h
    simp only [procStep] at h
    split at h
    · next np hf => cases h; exact .forkCopy hp hf
    · cases h
  | forkReady p =>
    obtain ⟨hp, h⟩ := hrun rfl h
    simp only [procStep] at h
    split at h
    · next np hf => cases h; exact .forkReady hp hf
    · cases h
  | exit p =>
    obtain ⟨hp, h⟩ := hrun rfl h
    obtain ⟨⟨hf, hinit⟩, h⟩ := Option.ite_none_right_eq_some.mp h
    cases h
    exact .exit hp hf hinit
  | wait p =>
    obtain ⟨hp, h⟩ := hrun rfl h
    obtain ⟨hf, h⟩ := Option.ite_none_right_eq_some.mp h
    cases h
    exact .wait hp hf
  | sleep p a =>
    obtain ⟨hp, h⟩ := hrun rfl h
    obtain ⟨hf, h⟩ := Option.ite_none_right_eq_some.mp h
    cases h
    exact .sleep hp hf
  | kill p pid =>
    obtain ⟨hp, h⟩ := hrun rfl h
    obtain ⟨hf, h⟩ := Option.ite_none_right_eq_some.mp h
    cases h
    exact .kill hp hf
  | trap p =>
    obtain ⟨hp, h⟩ := hrun rfl h
    obtain ⟨hf, h⟩ := Option.ite_none_right_eq_some.mp h
    cases h
    exact .trap hp hf
  | yield p =>
    obtain ⟨hp, h⟩ := hrun rfl h
    cases h
    exact .yield hp

/-! ### The searches and the loops over the table -/

section Table

variable {k : Kernel} {p q : Fin nproc} {pid : BitVec 32} {proc : Fin nproc → Proc} {chan : Option Chan}

theorem findUnused_eq (h : findUnused k = some q) : (k.proc q).state = .unused := by
  simpa using List.find?_some h

theorem allocproc_of_some {np : Fin nproc} (h : findUnused k = some np) : allocproc k p =
    { k.goto p (.kalloc np) (Function.update k.proc np { k.proc np with state := .embryo, pid := k.nextpid }) with
      nextpid := k.nextpid + 1 } := by
  unfold allocproc
  rw [h]

theorem findZombie_eq (h : findZombie k p = some q) : (k.proc q).parent = some p ∧ (k.proc q).state = .zombie := by
  simpa using List.find?_some h

theorem findZombie_none (h : findZombie k p = none) (hq : (k.proc q).parent = some p) :
    (k.proc q).state ≠ .zombie := fun hz => by
  simpa [hq, hz] using List.find?_eq_none.mp h q (List.mem_finRange q)

/-- The search sees the parents and the zombies. -/
theorem findZombie_congr {k' : Kernel} (h : ∀ q, (k'.proc q).parent = (k.proc q).parent ∧
    ((k'.proc q).state = .zombie ↔ (k.proc q).state = .zombie)) : findZombie k' p = findZombie k p := by
  unfold findZombie
  simp only [h]

theorem findPid_eq (h : findPid k pid = some q) : (k.proc q).pid = pid := by
  simpa using List.find?_some h

theorem findPid_isSome : (findPid k pid).isSome ↔ ∃ q, (k.proc q).pid = pid := by
  simp [findPid, List.find?_isSome]

@[simp] theorem wakeup1_pid : (wakeup1 proc chan q).pid = (proc q).pid := by unfold wakeup1; split_ifs <;> rfl
@[simp] theorem wakeup1_parent : (wakeup1 proc chan q).parent = (proc q).parent := by
  unfold wakeup1; split_ifs <;> rfl
@[simp] theorem wakeup1_chan : (wakeup1 proc chan q).chan = (proc q).chan := by unfold wakeup1; split_ifs <;> rfl
@[simp] theorem wakeup1_killed : (wakeup1 proc chan q).killed = (proc q).killed := by
  unfold wakeup1; split_ifs <;> rfl
@[simp] theorem wakeup1_kstack : (wakeup1 proc chan q).kstack = (proc q).kstack := by
  unfold wakeup1; split_ifs <;> rfl
@[simp] theorem wakeup1_pgdir : (wakeup1 proc chan q).pgdir = (proc q).pgdir := by
  unfold wakeup1; split_ifs <;> rfl

/-- A wakeup moves sleepers on the channel, and nobody else. -/
theorem wakeup1_state (proc : Fin nproc → Proc) (chan : Option Chan) (q : Fin nproc) : (wakeup1 proc chan q).state = (proc q).state ∨
    (proc q).state = .sleeping ∧ (proc q).chan = chan ∧ (wakeup1 proc chan q).state = .runnable := by
  unfold wakeup1
  split_ifs with h
  · exact .inr ⟨h.1, h.2, rfl⟩
  · exact .inl rfl

@[simp] theorem adopted_pid : (adopted proc p q).pid = (proc q).pid := by unfold adopted; split_ifs <;> rfl
@[simp] theorem adopted_state : (adopted proc p q).state = (proc q).state := by unfold adopted; split_ifs <;> rfl
@[simp] theorem adopted_chan : (adopted proc p q).chan = (proc q).chan := by unfold adopted; split_ifs <;> rfl
@[simp] theorem adopted_killed : (adopted proc p q).killed = (proc q).killed := by unfold adopted; split_ifs <;> rfl
@[simp] theorem adopted_kstack : (adopted proc p q).kstack = (proc q).kstack := by unfold adopted; split_ifs <;> rfl
@[simp] theorem adopted_pgdir : (adopted proc p q).pgdir = (proc q).pgdir := by unfold adopted; split_ifs <;> rfl

theorem adopted_parent : (adopted proc p q).parent =
    if (proc q).parent = some p then some initproc else (proc q).parent := by
  unfold adopted; split_ifs <;> rfl

@[simp] theorem abandon_pid : (abandon proc p q).pid = (proc q).pid := by unfold abandon; split_ifs <;> simp
@[simp] theorem abandon_chan : (abandon proc p q).chan = (proc q).chan := by unfold abandon; split_ifs <;> simp
@[simp] theorem abandon_killed : (abandon proc p q).killed = (proc q).killed := by
  unfold abandon; split_ifs <;> simp
@[simp] theorem abandon_kstack : (abandon proc p q).kstack = (proc q).kstack := by
  unfold abandon; split_ifs <;> simp
@[simp] theorem abandon_pgdir : (abandon proc p q).pgdir = (proc q).pgdir := by
  unfold abandon; split_ifs <;> simp

theorem abandon_parent : (abandon proc p q).parent =
    if (proc q).parent = some p then some initproc else (proc q).parent := by
  unfold abandon
  split_ifs <;> simp only [wakeup1_parent, adopted_parent, ↓reduceIte, *]

theorem abandon_state (proc : Fin nproc → Proc) (p q : Fin nproc) : (abandon proc p q).state = (proc q).state ∨
    (proc q).state = .sleeping ∧ (proc q).chan = some (.proc initproc) ∧ (abandon proc p q).state = .runnable := by
  unfold abandon
  split_ifs
  · simpa using wakeup1_state (adopted proc p) (some (.proc initproc)) q
  · exact .inl adopted_state

/-- The entries of the others after `exit`. -/
theorem exit_proc_of_ne (hq : q ≠ p) : (exit k p).proc q =
    abandon (wakeup1 k.proc ((k.proc p).parent.map .proc)) p q := Function.update_of_ne hq _ _

theorem exit_proc_self : (exit k p).proc p =
    { abandon (wakeup1 k.proc ((k.proc p).parent.map .proc)) p p with state := .zombie } := Function.update_self ..

theorem findZombie_awake (hp : (k.proc p).state ≠ .zombie) : findZombie (awake k p) p = findZombie k p := by
  refine findZombie_congr fun q => ?_
  show (Function.update k.proc p _ q).parent = _ ∧ ((Function.update k.proc p _ q).state = _ ↔ _)
  rcases eq_or_ne q p with rfl | hq
  · rw [Function.update_self]
    exact ⟨rfl, by simp [hp]⟩
  · rw [Function.update_of_ne hq]
    exact ⟨rfl, Iff.rfl⟩

/-- `kill` changes the entry that it finds. -/
theorem kill_proc : ((kill k pid).getD k).proc q = if findPid k pid = some q then
    { k.proc q with
      killed := true
      state := if (k.proc q).state = .sleeping then .runnable else (k.proc q).state }
    else k.proc q := by
  unfold kill
  cases hp : findPid k pid with
  | none => simp
  | some r =>
    simp only [Option.map_some, Option.getD_some, Option.some.injEq]
    rcases eq_or_ne q r with rfl | hqr
    · rw [Function.update_self, if_pos rfl]
    · rw [Function.update_of_ne hqr, if_neg hqr.symm]

theorem kill_rest (k : Kernel) (pid : BitVec 32) : ((kill k pid).getD k).frame = k.frame ∧ ((kill k pid).getD k).nextpid = k.nextpid ∧
    ((kill k pid).getD k).pages = k.pages ∧ ((kill k pid).getD k).freed = k.freed := by
  unfold kill
  cases findPid k pid <;> exact ⟨rfl, rfl, rfl, rfl⟩

theorem kill_killed : (((kill k pid).getD k).proc q).killed = ((k.proc q).killed || findPid k pid == some q) := by
  rw [kill_proc]
  split_ifs with h <;> simp [h]

theorem kill_state (k : Kernel) (pid : BitVec 32) (q : Fin nproc) : (((kill k pid).getD k).proc q).state = (k.proc q).state ∨
    (k.proc q).state = .sleeping ∧ (((kill k pid).getD k).proc q).state = .runnable := by
  rw [kill_proc]
  split_ifs with h hs
  · exact .inr ⟨hs, rfl⟩
  · exact .inl rfl
  · exact .inl rfl

/-- `kill` leaves the other fields. -/
theorem kill_fields (k : Kernel) (pid : BitVec 32) (q : Fin nproc) : (((kill k pid).getD k).proc q).pid = (k.proc q).pid ∧
    (((kill k pid).getD k).proc q).parent = (k.proc q).parent ∧
    (((kill k pid).getD k).proc q).chan = (k.proc q).chan ∧
    (((kill k pid).getD k).proc q).kstack = (k.proc q).kstack ∧
    (((kill k pid).getD k).proc q).pgdir = (k.proc q).pgdir := by
  rw [kill_proc]
  split_ifs <;> exact ⟨rfl, rfl, rfl, rfl, rfl⟩

end Table

end OperatingSystems.ProcTable
