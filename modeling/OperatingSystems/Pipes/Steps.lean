import OperatingSystems.Lib.Transition
import OperatingSystems.Lib.Ring

/-! # Pipes

`pipe.c`, as processes that step through `pipewrite`, `piperead` and `pipeclose`, one lock, one test or one
byte at a time. A process keeps its position in a `Pc`; what is left of the `for` loop stands for `i`.

* `sleep` releases the lock and falls asleep in one step, and goes on at `acquire` when it is woken.
* `kill` comes at any time, also while the lock is held.
* `files` are the ends that some process has open. `fileclose` calls `pipeclose` with the last reference,
  when nobody is in a call on that end.

`stored` and `taken` record the bytes in the order in which they were written and read. -/

namespace OperatingSystems.Pipes

open Lib.Transition

abbrev Byte := BitVec 8

/-- `PIPESIZE`. -/
def pipesize : ℕ := 512

/-- `struct pipe`, without its lock. -/
structure Pipe where
  data : ℕ → Byte
  nread : BitVec 32
  nwrite : BitVec 32
  readopen : Bool
  writeopen : Bool

/-- What processes sleep on: `&p->nread` or `&p->nwrite`. -/
inductive Chan where
  | nread
  | nwrite
  deriving DecidableEq

/-- Where a process is in `pipewrite`. -/
inductive WriteAt where
  | acquire
  | loop
  | wake
  | sleep
  | asleep
  | done
  deriving DecidableEq

/-- Where a process is in `piperead`. -/
inductive ReadAt where
  | acquire
  | test
  | sleep
  | asleep
  | copy
  | done
  deriving DecidableEq

/-- Outside the pipe, in `pipewrite` with the bytes that are left, in `piperead` with the number of bytes that
are left, or in `pipeclose`. -/
inductive Pc where
  | out
  | write (rest : List Byte) (pos : WriteAt)
  | read (left : ℕ) (pos : ReadAt)
  | close (writable : Bool)
  deriving DecidableEq

/-- The channel a process is asleep on. -/
def Pc.chan : Pc → Option Chan
  | .write _ .asleep => some .nwrite
  | .read _ .asleep => some .nread
  | _ => none

/-- A process that was woken. -/
def Pc.woken : Pc → Pc
  | .write rest .asleep => .write rest .acquire
  | .read left .asleep => .read left .acquire
  | pc => pc

/-- The end that a process works on. -/
def Pc.uses : Pc → Option Bool
  | .write _ _ => some true
  | .read _ _ => some false
  | _ => none

variable {P : Type} [DecidableEq P]

/-- `files true` and `files false` say whether the write end and the read end are open in some process, and
`frees` counts the calls of `kfree` on the pipe. -/
structure State (P : Type) where
  pipe : Pipe
  lock : Option P
  pc : P → Pc
  killed : P → Bool
  files : Bool → Bool
  frees : ℕ
  stored : List Byte
  taken : List Byte

/-- `wakeup`. -/
def wakeup (chan : Chan) (pc : P → Pc) (q : P) : Pc :=
  if (pc q).chan = some chan then (pc q).woken else pc q

/-- `p` goes on at `pc`, where `pcs` are the positions of all. -/
def State.goto (s : State P) (p : P) (pcs : P → Pc) (pc : Pc) : State P :=
  { s with pc := Function.update pcs p pc }

/-- The next step of `pipewrite`. -/
def stepWrite (s : State P) (p : P) (rest : List Byte) : WriteAt → State P
  | .acquire => { s.goto p s.pc (.write rest .loop) with lock := some p }
  | .loop =>
    match rest with
    | [] => s.goto p s.pc (.write [] .done)
    | b :: bs =>
      if s.pipe.nwrite = s.pipe.nread + BitVec.ofNat 32 pipesize then
        if s.pipe.readopen = false ∨ s.killed p then { s.goto p s.pc .out with lock := none }
        else s.goto p s.pc (.write rest .wake)
      else { s.goto p s.pc (.write bs .loop) with
        pipe := { s.pipe with
          data := Function.update s.pipe.data (s.pipe.nwrite.toNat % pipesize) b
          nwrite := s.pipe.nwrite + 1 }
        stored := s.stored ++ [b] }
  | .wake => s.goto p (wakeup .nread s.pc) (.write rest .sleep)
  | .sleep => { s.goto p s.pc (.write rest .asleep) with lock := none }
  | .asleep => s
  | .done => { s.goto p (wakeup .nread s.pc) .out with lock := none }

/-- The next step of `piperead`. -/
def stepRead (s : State P) (p : P) (left : ℕ) : ReadAt → State P
  | .acquire => { s.goto p s.pc (.read left .test) with lock := some p }
  | .test =>
    if s.pipe.nread = s.pipe.nwrite ∧ s.pipe.writeopen = true then
      if s.killed p then { s.goto p s.pc .out with lock := none }
      else s.goto p s.pc (.read left .sleep)
    else s.goto p s.pc (.read left .copy)
  | .sleep => { s.goto p s.pc (.read left .asleep) with lock := none }
  | .asleep => s
  | .copy =>
    match left with
    | 0 => s.goto p s.pc (.read 0 .done)
    | n + 1 =>
      if s.pipe.nread = s.pipe.nwrite then s.goto p s.pc (.read left .done)
      else { s.goto p s.pc (.read n .copy) with
        pipe := { s.pipe with nread := s.pipe.nread + 1 }
        taken := s.taken ++ [s.pipe.data (s.pipe.nread.toNat % pipesize)] }
  | .done => { s.goto p (wakeup .nwrite s.pc) .out with lock := none }

/-- `pipeclose`. -/
def stepClose (s : State P) (p : P) (writable : Bool) : State P :=
  let pipe : Pipe := if writable then { s.pipe with writeopen := false } else { s.pipe with readopen := false }
  { s.goto p (wakeup (if writable then .nread else .nwrite) s.pc) .out with
    pipe := pipe
    frees := if pipe.readopen = false ∧ pipe.writeopen = false then s.frees + 1 else s.frees }

/-- The next step of a process in a call. -/
def stepRun (s : State P) (p : P) : State P :=
  match s.pc p with
  | .out => s
  | .write rest pos => stepWrite s p rest pos
  | .read left pos => stepRead s p left pos
  | .close writable => stepClose s p writable

/-- What happens next. -/
inductive Op (P : Type) where
  | write (p : P) (addr : List Byte)
  | read (p : P) (n : ℕ)
  | close (p : P) (writable : Bool)
  | kill (p : P)
  | run (p : P)

def State.after (s : State P) : Op P → State P
  | .write p addr => s.goto p s.pc (.write addr .acquire)
  | .read p n => s.goto p s.pc (.read n .acquire)
  | .close p writable => { s.goto p s.pc (.close writable) with files := Function.update s.files writable false }
  | .kill p => { s.goto p s.pc (s.pc p).woken with killed := Function.update s.killed p true }
  | .run p => stepRun s p

/-- When a process in a call can go on: to take the lock or to close an end it waits until the lock is free. -/
def State.CanRun (s : State P) (p : P) : Prop :=
  match s.pc p with
  | .out => False
  | .write _ .acquire => s.lock = none
  | .write _ .asleep => False
  | .read _ .acquire => s.lock = none
  | .read _ .asleep => False
  | .close _ => s.lock = none
  | _ => True

/-- When an operation can happen. -/
def State.Enabled (s : State P) : Op P → Prop
  | .write p _ => s.pc p = .out ∧ s.files true = true
  | .read p _ => s.pc p = .out ∧ s.files false = true
  | .close p writable => s.pc p = .out ∧ s.files writable = true ∧ ∀ q, (s.pc q).uses ≠ some writable
  | .kill _ => True
  | .run p => s.CanRun p

/-- The pipe that `pipealloc` makes, with both ends open and nobody in a call. -/
def State.Fresh (s : State P) : Prop :=
  s.pipe.nread = 0 ∧ s.pipe.nwrite = 0 ∧ s.pipe.readopen = true ∧ s.pipe.writeopen = true ∧ s.lock = none ∧
    (∀ p, s.pc p = .out) ∧ (∀ w, s.files w = true) ∧ s.frees = 0 ∧ s.stored = [] ∧ s.taken = []

/-- The runs of one pipe. -/
def system (P : Type) [DecidableEq P] : System (State P) (Op P) where
  init := State.Fresh
  step s op t := s.Enabled op ∧ t = s.after op

end OperatingSystems.Pipes
