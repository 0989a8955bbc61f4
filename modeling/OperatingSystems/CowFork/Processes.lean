import OperatingSystems.CowFork.Scarce
import OperatingSystems.ProcTable.Steps

/-! # Processes

`fork` of `proc.c`, over the paging code. What is on a kernel stack is not modelled; the trap frame, which
`allocproc` puts there, is a field of the process. Files and inodes are known by their numbers of references. -/

namespace OperatingSystems.CowFork.Processes

open Lib.WeakestPre ProcTable

/-- `NOFILE`. -/
def nofile : ℕ := 16

/-- The registers in `struct trapframe` that the kernel looks at. -/
structure Trapframe where
  eax : Word
  eip : Word
  esp : Word

/-- `struct proc`. -/
structure Proc where
  sz : Word
  pgdir : ℕ
  kstack : ℕ
  state : ProcState
  pid : Word
  parent : Option (Fin nproc)
  tf : Trapframe
  killed : Bool
  ofile : ℕ → Option ℕ
  cwd : ℕ
  name : List (BitVec 8)

/-- The memory, `ptable` with `nextpid`, and `ref` of the files and the inodes. -/
structure State where
  mem : Mem
  proc : Fin nproc → Proc
  nextpid : Word
  fileRef : ℕ → ℕ
  inodeRef : ℕ → ℕ

/-- Code of `proc.c`. -/
abbrev Code := EStateM Panic State

/-- Code of the allocator and the paging code. -/
def paging {α : Type} (c : Kernel α) : Code α := fun s =>
  match c s.mem with
  | .ok a m => .ok a { s with mem := m }
  | .error e m => .error e { s with mem := m }

instance : MonadLift Kernel Code := ⟨paging⟩

@[simp] theorem wp_paging {α : Type} {c : Kernel α} {Q : α → State → Prop} {E : Panic → State → Prop} {s : State} :
    Wp (liftM c : Code α) Q E s ↔
      Wp c (fun a m => Q a { s with mem := m }) (fun e m => E e { s with mem := m }) s.mem := by
  show Wp (paging c) Q E s ↔ _
  unfold Wp paging
  cases c s.mem <;> rfl

/-- A change of an entry of the process table. -/
def modifyProc (p : Fin nproc) (f : Proc → Proc) : Code Unit :=
  modify fun s => { s with proc := Function.update s.proc p (f (s.proc p)) }

def filedup (f : ℕ) : Code Unit := do
  let s ← get
  if s.fileRef f < 1 then throw .filedup
  else set { s with fileRef := Function.update s.fileRef f (s.fileRef f + 1) }

def idup (ip : ℕ) : Code Unit :=
  modify fun s => { s with inodeRef := Function.update s.inodeRef ip (s.inodeRef ip + 1) }

def allocproc : Code (Option (Fin nproc)) := do
  let s ← get
  match (List.finRange nproc).find? fun p => (s.proc p).state = .unused with
  | none => return none
  | some np => do
    modifyProc np fun q => { q with state := .embryo, pid := s.nextpid }
    modify fun s => { s with nextpid := s.nextpid + 1#32 }
    let kstack ← kalloc
    modifyProc np fun q => { q with kstack := kstack }
    if kstack = 0 then
      modifyProc np fun q => { q with state := .unused }
      return none
    else return some np

/-- The loop of `fork` over the first `n` open files. -/
def dupFiles (p np : Fin nproc) : ℕ → Code Unit
  | 0 => pure ()
  | fd + 1 => do
    dupFiles p np fd
    let s ← get
    match (s.proc p).ofile fd with
    | none => pure ()
    | some f => do
      filedup f
      modifyProc np fun q => { q with ofile := Function.update q.ofile fd (some f) }

/-- `fork` by process `p`, with the function that copies the address space. -/
def forkWith (dup : ℕ → ℕ → Kernel ℕ) (L : Layout) (p : Fin nproc) : Code ℤ := do
  let np ← allocproc
  match np with
  | none => return -1
  | some np => do
    let s ← get
    let pgdir ← dup (s.proc p).pgdir (s.proc p).sz.toNat
    modifyProc np fun q => { q with pgdir := pgdir }
    if pgdir = 0 then do
      kfree L (s.proc np).kstack
      modifyProc np fun q => { q with kstack := 0, state := .unused }
      return -1
    else do
      modifyProc np fun q =>
        { q with sz := (s.proc p).sz, parent := some p, tf := { (s.proc p).tf with eax := 0#32 } }
      dupFiles p np nofile
      modifyProc np fun q => { q with cwd := (s.proc p).cwd }
      idup (s.proc p).cwd
      modifyProc np fun q => { q with state := .runnable, name := (s.proc p).name }
      return (s.proc np).pid.toInt

def fork (L : Layout) : Fin nproc → Code ℤ := forkWith (cowuvm L) L

end OperatingSystems.CowFork.Processes
