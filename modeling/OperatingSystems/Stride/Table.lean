import Mathlib.Tactic
import OperatingSystems.Lib.Transition

/-! # The process table and the pstat table

The part of the kernel that the stride scheduler sees: `ptable.proc`, `ptable.pstat`,
`curr_pstat_idx`, `nextpid` and the current process. The two tables are indexed independently; a slot
belongs to the process whose pid it holds.

A step is what the kernel does without giving up the CPU or `ptable.lock`. `fork` is three of them:
`allocproc`, the copy that ends with the child `RUNNABLE`, and the search for a slot; the process can be
preempted in between, and its `Frame` keeps the local variables meanwhile.

* `select`: the search of `scheduler`; `select_spec` says that it finds a least pass.
* `freeSlot`: the search of `fork`. -/

namespace OperatingSystems.Stride.Table

open OperatingSystems.Lib.Transition

/-! ### The tables -/

/-- `NPROC`. -/
abbrev nproc : ℕ := 64

instance : NeZero nproc := ⟨by decide⟩

/-- `max_stride`. -/
def maxStride : ℤ := 2 ^ 14

/-- `enum procstate`. -/
inductive ProcState
  | unused
  | embryo
  | sleeping
  | runnable
  | running
  | zombie
  deriving DecidableEq

/-- What a process sleeps on: an entry of the process table (in `wait`), or another address. -/
inductive Chan
  | proc (p : Fin nproc)
  | addr (a : ℕ)
  deriving DecidableEq

/-- `struct proc`. -/
structure Proc where
  state : ProcState
  pid : ℕ
  parent : Option (Fin nproc)
  chan : Option Chan
  killed : Bool

/-- A slot of `struct pstat`. -/
structure Slot where
  inuse : Bool
  tickets : ℤ
  strides : ℤ
  pass : ℤ
  pid : ℕ
  ticks : ℕ

/-- Where a process stands: outside `fork`, after `allocproc`, or with the child `RUNNABLE` and no slot
for it yet; with `np` and `pid`. -/
inductive Frame
  | user
  | embryo (np : Fin nproc)
  | ready (np : Fin nproc) (pid : ℕ)
  deriving DecidableEq

/-- The child in a frame. -/
def Frame.child : Frame → Option (Fin nproc)
  | .user => none
  | .embryo np | .ready np _ => some np

/-- The state of the kernel. `current` is `proc`, and `curr` is `curr_pstat_idx`. -/
structure Kernel where
  proc : Fin nproc → Proc
  pstat : Fin nproc → Slot
  curr : Fin nproc
  nextpid : ℕ
  current : Option (Fin nproc)
  frame : Fin nproc → Frame

/-- `initproc`, which `userinit` puts into the first entry. -/
def initproc : Fin nproc := 0

/-- An `int` after an addition. -/
def int (x : ℤ) : ℤ := x.bmod (2 ^ 32)

/-! ### fork -/

/-- `allocproc`, with the pid from `nextpid`. Without an unused entry `fork` returns -1. -/
def allocproc (k : Kernel) (p : Fin nproc) : Kernel :=
  match (List.finRange nproc).find? fun q => (k.proc q).state = .unused with
  | none => k
  | some np => { k with
      proc := Function.update k.proc np { k.proc np with state := .embryo, pid := k.nextpid }
      nextpid := k.nextpid + 1
      frame := Function.update k.frame p (.embryo np) }

/-- `kalloc` or `copyuvm` fails. -/
def forkFail (k : Kernel) (p np : Fin nproc) : Kernel := { k with
  proc := Function.update k.proc np { k.proc np with state := .unused }
  frame := Function.update k.frame p .user }

/-- The copy of the process, up to `np->state = RUNNABLE`. -/
def forkCopy (k : Kernel) (p np : Fin nproc) : Kernel := { k with
  proc := Function.update k.proc np { k.proc np with parent := some p, state := .runnable }
  frame := Function.update k.frame p (.ready np (k.proc np).pid) }

/-- The slots in the order of the search of `fork`: from the one after `curr_pstat_idx` around. -/
def slotOrder (curr : Fin nproc) : List (Fin nproc) :=
  (List.range' 1 (nproc - 1)).map fun i => curr + Fin.ofNat nproc i

/-- The first free slot. -/
def freeSlot (k : Kernel) : Option (Fin nproc) :=
  (slotOrder k.curr).find? fun s => !(k.pstat s).inuse

/-- The slot of a new process. -/
def childSlot (k : Kernel) (pid : ℕ) : Slot where
  inuse := true
  tickets := (k.pstat k.curr).tickets
  strides := (k.pstat k.curr).strides
  pass := (k.pstat k.curr).strides
  pid := pid
  ticks := 0

/-- The end of `fork`: the update of pstat. -/
def forkSlot (k : Kernel) (p : Fin nproc) (pid : ℕ) : Kernel :=
  match freeSlot k with
  | none => { k with frame := Function.update k.frame p .user }
  | some s => { k with
      pstat := Function.update k.pstat s (childSlot k pid)
      frame := Function.update k.frame p .user }

/-! ### exit, wait, sleep, wakeup, kill -/

/-- `wakeup1`, on the entries. -/
def wakeup1 (proc : Fin nproc → Proc) (chan : Option Chan) (q : Fin nproc) : Proc :=
  if (proc q).state = .sleeping ∧ (proc q).chan = chan then { proc q with state := .runnable } else proc q

/-- Passing the children of `p` to init, which wakes up for a zombie among them. -/
def abandon (proc : Fin nproc → Proc) (p : Fin nproc) : Fin nproc → Proc :=
  let proc' q := if (proc q).parent = some p then { proc q with parent := some initproc } else proc q
  if ∃ q, (proc q).parent = some p ∧ (proc q).state = .zombie then
    wakeup1 proc' (some (.proc initproc))
  else proc'

/-- `exit`, from `acquire` on. -/
def exit (k : Kernel) (p : Fin nproc) : Kernel :=
  let proc := abandon (wakeup1 k.proc ((k.proc p).parent.map .proc)) p
  { k with
    pstat := Function.update k.pstat k.curr { k.pstat k.curr with inuse := false }
    proc := Function.update proc p { proc p with state := .zombie }
    current := none }

/-- `sleep`, up to `sched`. -/
def sleep (k : Kernel) (p : Fin nproc) (chan : Chan) : Kernel := { k with
  proc := Function.update k.proc p { k.proc p with state := .sleeping, chan := some chan }
  current := none }

/-- One pass of the loop of `wait`: it takes a zombie, returns -1, or sleeps. -/
def wait (k : Kernel) (p : Fin nproc) : Kernel :=
  match (List.finRange nproc).find? fun q => (k.proc q).parent = some p ∧ (k.proc q).state = .zombie with
  | some q =>
    let reaped := { k.proc q with state := .unused, pid := 0, parent := none, killed := false }
    { k with proc := Function.update k.proc q reaped }
  | none =>
    if (∀ q, (k.proc q).parent ≠ some p) ∨ (k.proc p).killed then k else sleep k p (.proc p)

/-- `kill`. -/
def kill (k : Kernel) (pid : ℕ) : Kernel :=
  match (List.finRange nproc).find? fun q => (k.proc q).pid = pid with
  | none => k
  | some q =>
    let state := if (k.proc q).state = .sleeping then .runnable else (k.proc q).state
    { k with proc := Function.update k.proc q { k.proc q with killed := true, state := state } }

/-- `sys_settickets`. -/
def settickets (k : Kernel) (number : ℤ) : Kernel :=
  if number < 1 then k
  else
    let slot := { k.pstat k.curr with tickets := number, strides := maxStride / number }
    { k with pstat := Function.update k.pstat k.curr slot }

/-! ### The scheduler -/

/-- `yield`. -/
def yield (k : Kernel) (p : Fin nproc) : Kernel := { k with
  proc := Function.update k.proc p { k.proc p with state := .runnable }
  current := none }

/-- `minp`, `nxt_pstat_idx` and `min_pass_value`. -/
structure Choice where
  minp : Fin nproc
  nxt : Fin nproc
  min : ℤ

/-- The inner loop of the search, for a process. -/
def selectSlot (k : Kernel) (p : Fin nproc) (best : Option Choice) (i : Fin nproc) : Option Choice :=
  if (k.pstat i).pid = (k.proc p).pid then
    match best with
    | none => some ⟨p, i, (k.pstat i).pass⟩
    | some c => if (k.pstat i).pass ≤ c.min then some ⟨p, i, (k.pstat i).pass⟩ else some c
  else best

/-- The outer loop of the search. -/
def selectProc (k : Kernel) (best : Option Choice) (p : Fin nproc) : Option Choice :=
  if (k.proc p).state ≠ .runnable then best
  else (List.finRange nproc).foldl (selectSlot k p) best

/-- **The search of `scheduler`** for the `RUNNABLE` process with the least pass. -/
def select (k : Kernel) : Option Choice := (List.finRange nproc).foldl (selectProc k) none

/-- The switch of `scheduler`: it charges the slot that ran last, and runs the process it has chosen. -/
def switch (k : Kernel) (c : Choice) : Kernel := { k with
  pstat := Function.update k.pstat k.curr { k.pstat k.curr with
    pass := int ((k.pstat k.curr).pass + (k.pstat k.curr).strides)
    ticks := (k.pstat k.curr).ticks + 1 }
  curr := c.nxt
  current := some c.minp
  proc := Function.update k.proc c.minp { k.proc c.minp with state := .running } }

/-! ### The system -/

/-- What happens next. -/
inductive Op
  | fork
  | forkFail
  | forkCopy
  | forkSlot
  | exit
  | wait
  | sleep (chan : Chan)
  | wakeup (chan : Chan)
  | yield
  | kill (pid : ℕ)
  | settickets (number : ℤ)
  | dispatch
  deriving DecidableEq

/-- **A step of the current process**: a system call, or the next part of `fork`. -/
def procStep (k : Kernel) (p : Fin nproc) (op : Op) : Option Kernel :=
  match op, k.frame p with
  | .yield, _ => some (yield k p)
  | .fork, .user => some (allocproc k p)
  | .forkFail, .embryo np => some (forkFail k p np)
  | .forkCopy, .embryo np => some (forkCopy k p np)
  | .forkSlot, .ready _ pid => some (forkSlot k p pid)
  | .exit, .user => if p = initproc then none else some (exit k p)
  | .wait, .user => some (wait k p)
  | .sleep chan, .user => some (sleep k p chan)
  | .kill pid, .user => some (kill k pid)
  | .settickets number, .user => some (settickets k number)
  | _, _ => none

/-- **One step.** An interrupt can wake processes up at any time, and the scheduler runs when no process
does. -/
def step (k : Kernel) (op : Op) : Option Kernel :=
  match op, k.current with
  | .wakeup chan, _ => some { k with proc := wakeup1 k.proc (some chan) }
  | .dispatch, none => (select k).map (switch k)
  | .dispatch, some _ => none
  | _, none => none
  | op, some p => procStep k p op

/-- An unused entry of the process table. -/
def unusedProc : Proc := ⟨.unused, 0, none, none, false⟩

/-- A slot as `userinit` clears it. -/
def unusedSlot : Slot := ⟨false, 0, 0, 0, 0, 0⟩

/-- The kernel after `userinit`. -/
def userinit : Kernel where
  proc := Function.update (fun _ => unusedProc) initproc { unusedProc with state := .runnable, pid := 1 }
  pstat := Function.update (fun _ => unusedSlot) 0 ⟨true, 1, maxStride, maxStride, 1, 0⟩
  curr := 0
  nextpid := 2
  current := none
  frame _ := .user

/-- The kernel as a transition system. -/
def system : System Kernel Op := .ofFun (· = userinit) step

/-! ### The searches -/

/-- The slot belongs to a process that may run. -/
def Candidate (k : Kernel) (p i : Fin nproc) : Prop :=
  (k.proc p).state = .runnable ∧ (k.pstat i).pid = (k.proc p).pid

/-- The choice is a candidate with its pass. -/
structure Choice.Ok (k : Kernel) (c : Choice) : Prop where
  candidate : Candidate k c.minp c.nxt
  min : c.min = (k.pstat c.nxt).pass

/-- The choice so far is at most the pass of the slot. -/
def Beats (k : Kernel) (best : Option Choice) (i : Fin nproc) : Prop :=
  ∃ c, best = some c ∧ c.min ≤ (k.pstat i).pass

/-- What a pass of the search does to its best choice: it stays a candidate and only gets better. -/
structure Improves (k : Kernel) (best best' : Option Choice) : Prop where
  ok : (∀ c, best = some c → c.Ok k) → ∀ c, best' = some c → c.Ok k
  beats : ∀ i, Beats k best i → Beats k best' i

theorem Improves.refl (k : Kernel) (best : Option Choice) : Improves k best best := ⟨id, fun _ => id⟩

theorem Improves.trans {k : Kernel} {a b c : Option Choice} (h : Improves k a b)
    (h' : Improves k b c) : Improves k a c :=
  ⟨fun ha => h'.ok (h.ok ha), fun i hi => h'.beats i (h.beats i hi)⟩

theorem improves_foldl {k : Kernel} {f : Option Choice → Fin nproc → Option Choice}
    (hf : ∀ best i, Improves k best (f best i)) :
    ∀ (l : List (Fin nproc)) (best : Option Choice), Improves k best (l.foldl f best)
  | [], best => .refl k best
  | i :: l, best => (hf best i).trans (improves_foldl hf l _)

/-- A pass of a search that considers `i` beats it in the end. -/
theorem beats_foldl {k : Kernel} {f : Option Choice → Fin nproc → Option Choice}
    (hf : ∀ best i, Improves k best (f best i)) {i j : Fin nproc} (hi : ∀ best, Beats k (f best i) j) :
    ∀ {l : List (Fin nproc)} (best : Option Choice), i ∈ l → Beats k (l.foldl f best) j
  | a :: l, best, h => by
    rcases List.mem_cons.mp h with rfl | h
    · exact (improves_foldl hf l _).beats j (hi best)
    · exact beats_foldl hf hi (f best a) h

theorem improves_selectSlot {k : Kernel} {p : Fin nproc} (hp : (k.proc p).state = .runnable)
    (best : Option Choice) (i : Fin nproc) : Improves k best (selectSlot k p best i) := by
  unfold selectSlot
  split_ifs with hpid
  · have hok : Choice.Ok k ⟨p, i, (k.pstat i).pass⟩ := ⟨⟨hp, hpid⟩, rfl⟩
    rcases best with _ | c
    · refine ⟨fun _ c hc => by cases hc; exact hok, fun j hj => ?_⟩
      obtain ⟨c, hc, -⟩ := hj
      cases hc
    · simp only
      split_ifs with hle
      · refine ⟨fun _ c' hc' => by cases hc'; exact hok, fun j hj => ?_⟩
        obtain ⟨c', hc', hj⟩ := hj
        cases hc'
        exact ⟨_, rfl, hle.trans hj⟩
      · exact .refl k _
  · exact .refl k _

theorem beats_selectSlot {k : Kernel} {p i : Fin nproc} (hpid : (k.pstat i).pid = (k.proc p).pid)
    (best : Option Choice) : Beats k (selectSlot k p best i) i := by
  unfold selectSlot
  rw [if_pos hpid]
  rcases best with _ | c
  · exact ⟨_, rfl, le_rfl⟩
  · simp only
    split_ifs with hle
    · exact ⟨_, rfl, le_rfl⟩
    · exact ⟨c, rfl, (not_le.mp hle).le⟩

theorem improves_selectProc {k : Kernel} (best : Option Choice) (p : Fin nproc) :
    Improves k best (selectProc k best p) := by
  unfold selectProc
  split_ifs with hp
  · exact .refl k best
  · exact improves_foldl (improves_selectSlot (not_not.mp hp)) _ _

theorem beats_selectProc {k : Kernel} {p i : Fin nproc} (h : Candidate k p i) (best : Option Choice) :
    Beats k (selectProc k best p) i := by
  unfold selectProc
  rw [if_neg (not_not.mpr h.1)]
  exact beats_foldl (improves_selectSlot h.1) (beats_selectSlot h.2) best (List.mem_finRange i)

/-- **The search finds a candidate with the least pass.** -/
theorem select_spec (k : Kernel) :
    (∀ c, select k = some c → c.Ok k) ∧
    ∀ p i, Candidate k p i → ∃ c, select k = some c ∧ (k.pstat c.nxt).pass ≤ (k.pstat i).pass := by
  have hok : ∀ c, select k = some c → c.Ok k :=
    (improves_foldl (improves_selectProc (k := k)) (List.finRange nproc) none).ok nofun
  refine ⟨hok, fun p i h => ?_⟩
  obtain ⟨c, hc, hle⟩ := beats_foldl improves_selectProc (beats_selectProc h) none (List.mem_finRange p)
  exact ⟨c, hc, (hok c hc).min ▸ hle⟩

/-- The search of `fork` comes to every slot but the current one. -/
theorem mem_slotOrder {curr s : Fin nproc} : s ∈ slotOrder curr ↔ s ≠ curr := by
  simp only [slotOrder, List.mem_map, List.mem_range'_1]
  constructor
  · rintro ⟨i, ⟨h1, h2⟩, rfl⟩ heq
    have h0 : i % 64 = 0 := congrArg Fin.val (add_eq_left.mp heq)
    have h64 : i < 64 := h2
    omega
  · intro hne
    refine ⟨(s - curr).val, ⟨?_, ?_⟩, ?_⟩
    · exact Nat.pos_of_ne_zero fun h0 => hne (sub_eq_zero.mp (Fin.ext h0))
    · exact (s - curr).isLt
    · rw [Fin.ofNat_val_eq_self, add_sub_cancel]

/-- **The search of `fork`** finds a free slot, unless all but the current one are in use. -/
theorem freeSlot_spec (k : Kernel) :
    (∀ s, freeSlot k = some s → (k.pstat s).inuse = false ∧ s ≠ k.curr) ∧
    ∀ s, (k.pstat s).inuse = false → s ≠ k.curr → (freeSlot k).isSome := by
  refine ⟨fun s hs => ?_, fun s hs hne => ?_⟩
  · exact ⟨by simpa using List.find?_some hs, mem_slotOrder.mp (List.mem_of_find?_eq_some hs)⟩
  · exact List.find?_isSome.mpr ⟨s, mem_slotOrder.mpr hne, by simpa using hs⟩

end OperatingSystems.Stride.Table
