import OperatingSystems.CowFork.FailedFork
import OperatingSystems.CowFork.UserAccess

/-! # The calls of a process

`growproc`, `exit`, `wait` and `userinit` of `proc.c` and `sys_sbrk`, beside `fork`, and what a process does by
itself: loads and stores. A call by a process is one step of a run; the scheduler, which makes the process
`RUNNING` meanwhile, is left out, and a process that would sleep in `wait` calls it again.

* `Owns`: every process in the table has a directory and a stack of its own. -/

namespace OperatingSystems.CowFork.Processes

open Lib.WeakestPre ProcTable

/-! ### sbrk -/

/-- The end of `growproc`. -/
def setSize (p : Fin nproc) (sz : ℕ) : Code ℤ := do
  modifyProc p fun q => { q with sz := BitVec.ofNat 32 sz }
  return 0

def growproc (L : Layout) (p : Fin nproc) (n : Word) : Code ℤ := do
  let s ← get
  let pgdir := (s.proc p).pgdir
  let sz := (s.proc p).sz
  if 0 < n.toInt then do
    let r ← allocuvm L pgdir sz.toNat (sz + n).toNat
    if r = 0 then return -1 else setSize p r
  else if n.toInt < 0 then do
    let r ← deallocuvm L pgdir sz.toNat (sz + n).toNat
    if r = 0 then return -1 else setSize p r
  else setSize p sz.toNat

/-- `sys_sbrk` with the argument that `argint` gets. -/
def sysSbrk (L : Layout) (p : Fin nproc) (n : Word) : Code ℤ := do
  let s ← get
  let addr := (s.proc p).sz.toInt
  let r ← growproc L p n
  if r < 0 then return -1 else return addr

/-! ### exit -/

/-- One reference less. What becomes of a pipe or an inode that nobody has open any more is left out. -/
def fileclose (f : ℕ) : Code Unit := do
  let s ← get
  if s.fileRef f < 1 then throw .fileclose
  else set { s with fileRef := Function.update s.fileRef f (s.fileRef f - 1) }

/-- One reference less. Freeing an inode that is not linked is left out. -/
def iput (ip : ℕ) : Code Unit :=
  modify fun s => { s with inodeRef := Function.update s.inodeRef ip (s.inodeRef ip - 1) }

/-- The loop of `exit` over the first `n` open files. -/
def closeFiles (p : Fin nproc) : ℕ → Code Unit
  | 0 => pure ()
  | fd + 1 => do
    closeFiles p fd
    let s ← get
    match (s.proc p).ofile fd with
    | none => pure ()
    | some f => do
      fileclose f
      modifyProc p fun q => { q with ofile := Function.update q.ofile fd none }

/-- A child of `p` becomes a child of `init`. -/
def Proc.passedOn (p : Fin nproc) (q : Proc) : Proc :=
  if q.parent = some p then { q with parent := some initproc } else q

/-- `exit` by process `p`. Nobody sleeps, so that `wakeup1` has nothing to do. -/
def exit (p : Fin nproc) : Code Unit := do
  if p = initproc then throw .initExiting
  else
    closeFiles p nofile
    let s ← get
    iput (s.proc p).cwd
    modifyProc p fun q => { q with cwd := 0 }
    modify fun s => { s with proc := fun q => (s.proc q).passedOn p }
    modifyProc p fun q => { q with state := .zombie }

/-! ### wait -/

/-- `wait` by process `p`, up to where it would sleep: that is `none`. -/
def wait (L : Layout) (p : Fin nproc) : Code (Option ℤ) := do
  let s ← get
  match (List.finRange nproc).find? fun q => (s.proc q).parent = some p ∧ (s.proc q).state = .zombie with
  | some q => do
    kfree L (s.proc q).kstack
    modifyProc q fun c => { c with kstack := 0 }
    freevm L (s.proc q).pgdir
    modifyProc q fun c => { c with state := .unused, pid := 0#32, parent := none, name := [], killed := false }
    return some (s.proc q).pid.toInt
  | none =>
    if (∀ q, (s.proc q).parent ≠ some p) ∨ (s.proc p).killed then return some (-1) else return none

/-! ### The first process -/

/-- `ROOTINO`, the inode of "/". -/
def rootino : ℕ := 1

/-- "initcode" -/
def initcodeName : List (BitVec 8) := [0x69, 0x6E, 0x69, 0x74, 0x63, 0x6F, 0x64, 0x65]

/-- `userinit`, with the program of the first process. Without an entry for it the kernel would write to the null
pointer. -/
def userinit (L : Layout) (initcode : List (BitVec 8)) : Code Unit := do
  match ← allocproc with
  | none => throw .fault
  | some p => do
    let pgdir ← setupkvm L
    modifyProc p fun q => { q with pgdir := pgdir }
    if pgdir = 0 then throw .userinit
    else
      inituvm pgdir initcode
      modifyProc p fun q =>
        { q with sz := 4096#32, tf := ⟨0#32, 0#32, 4096#32⟩, name := initcodeName, cwd := rootino }
      idup rootino
      modifyProc p fun q => { q with state := .runnable }

/-- The kernel before `userinit`. -/
def atBoot (m : Mem) : State where
  mem := m
  proc _ := unusedProc
  nextpid := 1#32
  fileRef _ := 0
  inodeRef _ := 0

/-- The kernel has just started its first process, and every page that it asked for was there. -/
def Booted (L : Layout) (s : State) : Prop :=
  ∃ m₀ m initcode, Blank m₀ ∧ kinit L m₀ = .ok () m ∧ userinit L initcode (atBoot m) = .ok () s ∧
    s.mem.fails = m.fails

/-! ### Who owns what -/

variable {L : Layout} {s t : State} {D K S : Finset ℕ} {p q np : Fin nproc} {f : ℕ} {page : Proc → ℕ}

/-- Every process in the table has a page of its own in `S`. -/
structure Each (s : State) (page : Proc → ℕ) (S : Finset ℕ) : Prop where
  mem : ∀ p, (s.proc p).state ≠ .unused → page (s.proc p) ∈ S
  inj : ∀ p q, (s.proc p).state ≠ .unused → (s.proc q).state ≠ .unused → page (s.proc p) = page (s.proc q) → p = q

namespace Each

theorem same (h : Each s page S)
    (ht : ∀ q, page (t.proc q) = page (s.proc q) ∧ ((t.proc q).state = .unused ↔ (s.proc q).state = .unused)) :
    Each t page S := by
  constructor
  case mem => exact fun p hp => (ht p).1 ▸ h.mem p (mt (ht p).2.mpr hp)
  case inj =>
    intro p q hp hq heq
    rw [(ht p).1, (ht q).1] at heq
    exact h.inj p q (mt (ht p).2.mpr hp) (mt (ht q).2.mpr hq) heq

/-- A new process gets a new page. -/
theorem add (h : Each s page S) (hother : ∀ q, q ≠ np → t.proc q = s.proc q) (hf : page (t.proc np) = f) (hS : f ∉ S) :
    Each t page (insert f S) := by
  have hold : ∀ q, q ≠ np → (t.proc q).state ≠ .unused → (s.proc q).state ≠ .unused := fun q hq hs => hother q hq ▸ hs
  constructor
  case mem =>
    intro p hp
    by_cases hpn : p = np
    · exact Finset.mem_insert.mpr (.inl (hpn ▸ hf))
    · rw [hother p hpn]
      exact Finset.mem_insert_of_mem (h.mem p (hold p hpn hp))
  case inj =>
    intro p q hp hq heq
    by_cases hpn : p = np <;> by_cases hqn : q = np
    · rw [hpn, hqn]
    · rw [hpn, hf, hother q hqn] at heq
      exact absurd (heq ▸ h.mem q (hold q hqn hq)) hS
    · rw [hqn, hf, hother p hpn] at heq
      exact absurd (heq ▸ h.mem p (hold p hpn hp)) hS
    · rw [hother p hpn, hother q hqn] at heq
      exact h.inj p q (hold p hpn hp) (hold q hqn hq) heq

/-- A process leaves the table, and gives its page back. -/
theorem remove (h : Each s page S) (hq : (s.proc q).state ≠ .unused) (hother : ∀ p, p ≠ q → t.proc p = s.proc p)
    (hun : (t.proc q).state = .unused) : Each t page (S.erase (page (s.proc q))) := by
  have hne : ∀ p, (t.proc p).state ≠ .unused → p ≠ q := by
    rintro p hp rfl
    exact hp hun
  have hold : ∀ p, (t.proc p).state ≠ .unused → (s.proc p).state ≠ .unused := fun p hp => hother p (hne p hp) ▸ hp
  constructor
  case mem =>
    intro p hp
    rw [hother p (hne p hp)]
    exact Finset.mem_erase.mpr ⟨fun heq => hne p hp (h.inj p q (hold p hp) hq heq), h.mem p (hold p hp)⟩
  case inj =>
    intro p r hp hr heq
    rw [hother p (hne p hp), hother r (hne r hr)] at heq
    exact h.inj p r (hold p hp) (hold r hr) heq

/-- A process gets a new page for its own. -/
theorem replace (h : Each s page S) (hp : (s.proc p).state ≠ .unused) (hother : ∀ q, q ≠ p → t.proc q = s.proc q)
    (hf : page (t.proc p) = f) (hS : f ∉ S) : Each t page ((insert f S).erase (page (s.proc p))) := by
  have hmem : ∀ q, q ≠ p → (t.proc q).state ≠ .unused → page (t.proc q) ∈ S ∧ page (t.proc q) ≠ page (s.proc p) := by
    intro q hq hu
    rw [hother q hq] at hu ⊢
    exact ⟨h.mem q hu, fun heq => hq (h.inj q p hu hp heq)⟩
  constructor
  case mem =>
    intro q hq
    by_cases hqp : q = p
    · rw [hqp, hf]
      exact Finset.mem_erase.mpr ⟨fun heq => hS (heq ▸ h.mem p hp), Finset.mem_insert_self _ _⟩
    · exact Finset.mem_erase.mpr ⟨(hmem q hqp hq).2, Finset.mem_insert_of_mem (hmem q hqp hq).1⟩
  case inj =>
    intro q r hq hr heq
    by_cases hqp : q = p <;> by_cases hrp : r = p
    · rw [hqp, hrp]
    · rw [hqp, hf] at heq
      exact absurd (heq ▸ (hmem r hrp hr).1) hS
    · rw [hrp, hf] at heq
      exact absurd (heq ▸ (hmem q hqp hq).1) hS
    · rw [hother q hqp] at hq heq
      rw [hother r hrp] at hr heq
      exact h.inj q r hq hr heq

end Each

/-- The directories and the stacks of the processes are live, and different pages. -/
structure Owns (L : Layout) (s : State) (D K : Finset ℕ) : Prop where
  inv : Inv L False s.mem D K
  dirs : Each s Proc.pgdir D
  kstacks : Each s Proc.kstack K

/-- Nobody gets or loses a directory or a stack. -/
def SameOwners (s t : State) : Prop :=
  ∀ q, (t.proc q).pgdir = (s.proc q).pgdir ∧ (t.proc q).kstack = (s.proc q).kstack ∧
    ((t.proc q).state = .unused ↔ (s.proc q).state = .unused)

theorem Owns.same (h : Owns L s D K) (ht : SameOwners s t) (hinv : Inv L False t.mem D K) : Owns L t D K :=
  ⟨hinv, h.dirs.same fun q => ⟨(ht q).1, (ht q).2.2⟩, h.kstacks.same fun q => (ht q).2⟩

end OperatingSystems.CowFork.Processes
