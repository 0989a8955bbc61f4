import OperatingSystems.CowFork.Calls
import OperatingSystems.CowFork.NewSpace

/-! # Calls that store into the process

`sys_read`, `sys_fstat` and `sys_pipe` of `sysfile.c`, with what they need of `syscall.c`, `file.c`, `pipe.c`,
`console.c` and `fs.c`. A call runs up to where it sleeps and goes on from there later (`resume`), whatever other
processes have done meanwhile; `readi` may sleep for every block. Locks are left out, and what is in a file is
the list of its bytes.

The kernel stores through the directory of the process. `vmenable` does not set `CR0_WP`, so that the hardware
looks at the present bit alone. -/

namespace OperatingSystems.CowFork.Descriptors

open Lib.WeakestPre Processes ProcTable

/-- `NFILE`. -/
def nfile : ℕ := 100

/-- `PIPESIZE`. -/
def pipesize : ℕ := 512

/-- `INPUT_BUF`. -/
def inputBuf : ℕ := 128

/-- `BSIZE`. -/
def bsize : ℕ := 512

/-- `MAXFILE`. -/
def maxfile : ℕ := 140

/-- `T_DEV`. -/
def tDev : BitVec 16 := 3#16

/-- `CONSOLE`, the only device with a `read` function. -/
def console : BitVec 16 := 1#16

/-! ### Files, pipes, inodes and the console -/

inductive FileType where
  | none
  | pipe
  | inode
  deriving DecidableEq

/-- `struct file`; `ref` is in the state of the processes. A pipe is named by its page. -/
structure OpenFile where
  type : FileType
  readable : Bool
  writable : Bool
  pipe : ℕ
  ip : ℕ
  off : Word

/-- `struct pipe`. -/
structure Pipe where
  data : ℕ → BitVec 8
  nread : Word
  nwrite : Word
  readopen : Bool
  writeopen : Bool

/-- `struct inode` as far as a reader sees it. `writei` does not write beyond `MAXFILE` blocks. -/
structure Inode where
  dev : Word
  inum : Word
  type : BitVec 16
  major : BitVec 16
  nlink : BitVec 16
  file : File
  size_le : file.data.length ≤ maxfile * bsize

/-- `input`, for the reader. -/
structure Input where
  buf : ℕ → BitVec 8
  r : Word
  w : Word

/-- The processes, and what they read from. -/
structure Machine where
  st : State
  file : ℕ → OpenFile
  pipe : ℕ → Pipe
  inode : ℕ → Inode
  input : Input

/-- What a call that sleeps goes on with. -/
inductive Pending where
  /-- `piperead`, before it copies -/
  | pipe (pi : ℕ) (addr n : Word)
  /-- `consoleread` by `fileread` of file `f`, with `n` bytes to go of `target` -/
  | console (f : ℕ) (dst : Word) (n target : ℕ)
  /-- `readi` by `fileread` of file `f`, with `left` bytes to go of `n` -/
  | block (f : ℕ) (dst off : Word) (left n : ℕ)

/-- Why a call does not return. -/
inductive Break where
  | panic (e : Panic)
  /-- "fileread" -/
  | fileread
  | sleep (k : Pending)

abbrev Syscall := EStateM Break Machine

/-- Code that does not look at files. -/
def lower {α : Type} (c : Code α) : Syscall α := fun s =>
  match c s.st with
  | .ok a t => .ok a { s with st := t }
  | .error e t => .error (.panic e) { s with st := t }

instance : MonadLift Code Syscall := ⟨lower⟩

def modifyFile (f : ℕ) (g : OpenFile → OpenFile) : Syscall Unit :=
  modify fun s => { s with file := Function.update s.file f (g (s.file f)) }

def modifyPipe (pi : ℕ) (g : Pipe → Pipe) : Syscall Unit :=
  modify fun s => { s with pipe := Function.update s.pipe pi (g (s.pipe pi)) }

/-! ### Loads and stores of the kernel -/

/-- The page and the offset in it. -/
def place (m : Mem) (d : ℕ) (va : Word) : ℕ × ℕ := (pageOf (entry m d (va.toNat / 4096)), va.toNat % 4096)

/-- The hardware lets the kernel access the `n` bytes from `va` on. -/
def Reaches (m : Mem) (d : ℕ) (va : Word) (n : ℕ) : Prop :=
  ∀ i < n, present (entry m d ((va + BitVec.ofNat 32 i).toNat / 4096))

instance {m : Mem} {d n : ℕ} {va : Word} : Decidable (Reaches m d va n) := inferInstanceAs (Decidable (∀ _ < _, _))

def loadByte (m : Mem) (d : ℕ) (va : Word) : BitVec 8 := m.byte (place m d va).1 (place m d va).2

def loadWord (m : Mem) (d : ℕ) (va : Word) : Word :=
  loadByte m d (va + 3#32) ++ loadByte m d (va + 2#32) ++ loadByte m d (va + 1#32) ++ loadByte m d va

/-- The bytes from `va` on, with the places where they go. -/
def placed (m : Mem) (d : ℕ) : Word → List (BitVec 8) → List ((ℕ × ℕ) × BitVec 8)
  | _, [] => []
  | va, b :: bytes => (place m d va, b) :: placed m d (va + 1#32) bytes

def setAll (m : Mem) (ws : List ((ℕ × ℕ) × BitVec 8)) : Mem := ws.foldl (fun m w => m.setByte w.1.1 w.1.2 w.2) m

/-- One instruction of the kernel stores `bytes`. The handler leaves an entry that is not present as it is. -/
def kernelStore (p : Fin nproc) (va : Word) (bytes : List (BitVec 8)) : Syscall Unit := do
  let s ← get
  let d := (s.st.proc p).pgdir
  if Reaches s.st.mem d va bytes.length then
    set { s with st := { s.st with mem := setAll s.st.mem (placed s.st.mem d va bytes) } }
  else throw (.panic .fault)

/-- `memmove` from the kernel. -/
def storeBytes (p : Fin nproc) (dst : Word) : List (BitVec 8) → Syscall Unit
  | [] => return ()
  | b :: bytes => do
    kernelStore p dst [b]
    storeBytes p (dst + 1#32) bytes

def shortBytes (w : BitVec 16) : List (BitVec 8) := [w.extractLsb' 0 8, w.extractLsb' 8 8]

/-! ### syscall.c -/

def fetchint (s : State) (p : Fin nproc) (addr : Word) : Except Break (Option Word) :=
  if (s.proc p).sz ≤ addr ∨ (s.proc p).sz < addr + 4#32 then .ok none
  else if Reaches s.mem (s.proc p).pgdir addr 4 then .ok (some (loadWord s.mem (s.proc p).pgdir addr))
  else .error (.panic .fault)

def argint (s : State) (p : Fin nproc) (n : ℕ) : Except Break (Option Word) :=
  fetchint s p ((s.proc p).tf.esp + 4#32 + BitVec.ofNat 32 (4 * n))

def argptr (s : State) (p : Fin nproc) (n : ℕ) (size : Word) : Except Break (Option Word) := do
  match ← argint s p n with
  | none => return none
  | some i => if (s.proc p).sz ≤ i ∨ (s.proc p).sz < i + size then return none else return some i

/-- `argfd`, with the file. -/
def argfd (s : State) (p : Fin nproc) (n : ℕ) : Except Break (Option ℕ) := do
  match ← argint s p n with
  | none => return none
  | some fd => if fd.toInt < 0 ∨ nofile ≤ fd.toInt then return none else return (s.proc p).ofile fd.toNat

/-! ### Reading -/

/-- The end of `fileread` for an inode. -/
def advance (f : ℕ) (r : ℤ) : Syscall ℤ := do
  if 0 < r then modifyFile f fun file => { file with off := file.off + BitVec.ofInt 32 r }
  return r

/-- The loop of `piperead` with `n` rounds left, of which `i` are done. -/
def pipereadLoop (p : Fin nproc) (pi : ℕ) (addr : Word) : ℕ → ℕ → Syscall ℤ
  | 0, i => return i
  | n + 1, i => do
    let s ← get
    let q := s.pipe pi
    if q.nread = q.nwrite then return i
    else
      modifyPipe pi fun q => { q with nread := q.nread + 1#32 }
      kernelStore p (addr + BitVec.ofNat 32 i) [q.data (q.nread.toNat % pipesize)]
      pipereadLoop p pi addr n (i + 1)

def piperead (p : Fin nproc) (pi : ℕ) (addr n : Word) : Syscall ℤ := do
  let s ← get
  let q := s.pipe pi
  if q.nread = q.nwrite ∧ q.writeopen then
    if (s.st.proc p).killed then return -1 else throw (.sleep (.pipe pi addr n))
  else pipereadLoop p pi addr n.toInt.toNat 0

/-- `consoleread` with `n` bytes to go, up to the end of `fileread`. `C('D')` is byte 4. -/
def consolereadLoop (p : Fin nproc) (f target : ℕ) : ℕ → Word → Syscall ℤ
  | 0, _ => advance f target
  | n + 1, dst => do
    let s ← get
    let input := s.input
    if input.r = input.w then
      if (s.st.proc p).killed then advance f (-1) else throw (.sleep (.console f dst (n + 1) target))
    else
      let c := input.buf (input.r.toNat % inputBuf)
      if c = 4#8 then
        if target ≤ n + 1 then modify fun s => { s with input := { s.input with r := s.input.r + 1#32 } }
        advance f (target - (n + 1))
      else
        modify fun s => { s with input := { s.input with r := s.input.r + 1#32 } }
        kernelStore p dst [c]
        if c = 10#8 then advance f (target - n) else consolereadLoop p f target n (dst + 1#32)

/-- The test of the loop of `readi`, up to where `bread` may sleep. -/
def nextBlock (f : ℕ) (dst off : Word) (left n : ℕ) : Syscall ℤ :=
  if left = 0 then advance f n else throw (.sleep (.block f dst off left n))

/-- The number of bytes that a round of `readi` copies. -/
def chunk (off : Word) (left : ℕ) : ℕ := min left (bsize - off.toNat % bsize)

/-- A round of `readi`, when `bread` has the block. -/
def readBlock (p : Fin nproc) (f : ℕ) (dst off : Word) (left n : ℕ) : Syscall ℤ := do
  let s ← get
  let m := chunk off left
  storeBytes p dst ((s.inode (s.file f).ip).file.slice off.toNat m)
  nextBlock f (dst + BitVec.ofNat 32 m) (off + BitVec.ofNat 32 m) (left - m) n

/-- `readi` by `fileread` of file `f`. -/
def readi (p : Fin nproc) (f : ℕ) (ip : Inode) (dst off n : Word) : Syscall ℤ :=
  if ip.type = tDev then
    if ip.major = console then consolereadLoop p f n.toInt.toNat n.toInt.toNat dst else advance f (-1)
  else if off > ip.file.size ∨ off + n < off then advance f (-1)
  else
    let n := if off + n > ip.file.size then ip.file.size - off else n
    nextBlock f dst off n.toNat n.toNat

def fileread (p : Fin nproc) (f : ℕ) (addr n : Word) : Syscall ℤ := do
  let s ← get
  let file := s.file f
  if ¬ file.readable then return -1
  else
    match file.type with
    | .pipe => piperead p file.pipe addr n
    | .inode => readi p f (s.inode file.ip) addr file.off n
    | .none => throw .fileread

/-- The arguments of `sys_read`. -/
def readArgs (s : State) (p : Fin nproc) : Except Break (Option (ℕ × Word × Word)) := do
  match ← argfd s p 0 with
  | none => return none
  | some f =>
    match ← argint s p 2 with
    | none => return none
    | some n =>
      match ← argptr s p 1 n with
      | none => return none
      | some addr => return some (f, addr, n)

def sysRead (p : Fin nproc) : Syscall ℤ := do
  let s ← get
  match ← MonadExcept.ofExcept (readArgs s.st p) with
  | none => return -1
  | some (f, addr, n) => fileread p f addr n

/-- A call that slept goes on. -/
def resume (p : Fin nproc) : Pending → Syscall ℤ
  | .pipe pi addr n => piperead p pi addr n
  | .console f dst n target => consolereadLoop p f target n dst
  | .block f dst off left n => readBlock p f dst off left n

/-! ### fstat -/

def stati (p : Fin nproc) (ip : Inode) (st : Word) : Syscall Unit := do
  kernelStore p (st + 4#32) (wordBytes ip.dev)
  kernelStore p (st + 8#32) (wordBytes ip.inum)
  kernelStore p st (shortBytes ip.type)
  kernelStore p (st + 12#32) (shortBytes ip.nlink)
  kernelStore p (st + 16#32) (wordBytes ip.file.size)

def filestat (p : Fin nproc) (f : ℕ) (st : Word) : Syscall ℤ := do
  let s ← get
  if (s.file f).type = .inode then do
    stati p (s.inode (s.file f).ip) st
    return 0
  else return -1

/-- The arguments of `sys_fstat`. -/
def fstatArgs (s : State) (p : Fin nproc) : Except Break (Option (ℕ × Word)) := do
  match ← argfd s p 0 with
  | none => return none
  | some f =>
    match ← argptr s p 1 20#32 with
    | none => return none
    | some st => return some (f, st)

def sysFstat (p : Fin nproc) : Syscall ℤ := do
  let s ← get
  match ← MonadExcept.ofExcept (fstatArgs s.st p) with
  | none => return -1
  | some (f, st) => filestat p f st

/-! ### pipe -/

def filealloc : Syscall (Option ℕ) := do
  let s ← get
  match (List.range nfile).find? fun f => s.st.fileRef f = 0 with
  | none => return none
  | some f => do
    set { s with st := { s.st with fileRef := Function.update s.st.fileRef f 1 } }
    return some f

def pipeclose (L : Layout) (pi : ℕ) (writable : Bool) : Syscall Unit := do
  modifyPipe pi fun q => if writable then { q with writeopen := false } else { q with readopen := false }
  let s ← get
  if (s.pipe pi).readopen = false ∧ (s.pipe pi).writeopen = false then
    (kfree L pi : Code Unit)

def fileclose (L : Layout) (f : ℕ) : Syscall Unit := do
  let s ← get
  let ff := s.file f
  Processes.fileclose f
  if s.st.fileRef f = 1 then do
    modifyFile f fun file => { file with type := .none }
    match ff.type with
    | .pipe => pipeclose L ff.pipe ff.writable
    | .inode => iput ff.ip
    | .none => return ()

/-- `pipealloc`, with the files for reading and for writing. -/
def pipealloc (L : Layout) : Syscall (Option (ℕ × ℕ)) := do
  match ← filealloc with
  | none => return none
  | some f0 =>
    match ← filealloc with
    | none => do
      fileclose L f0
      return none
    | some f1 => do
      let p ← (kalloc : Code ℕ)
      if p = 0 then do
        fileclose L f0
        fileclose L f1
        return none
      else
        modifyPipe p fun q => { q with readopen := true, writeopen := true, nwrite := 0#32, nread := 0#32 }
        modifyFile f0 fun file => { file with type := .pipe, readable := true, writable := false, pipe := p }
        modifyFile f1 fun file => { file with type := .pipe, readable := false, writable := true, pipe := p }
        return some (f0, f1)

/-- A descriptor of the process. -/
def setFd (p : Fin nproc) (fd : ℕ) (f : Option ℕ) : Code Unit :=
  modifyProc p fun q => { q with ofile := Function.update q.ofile fd f }

def fdalloc (p : Fin nproc) (f : ℕ) : Syscall (Option ℕ) := do
  let s ← get
  match (List.range nofile).find? fun fd => (s.st.proc p).ofile fd = none with
  | none => return none
  | some fd => do
    setFd p fd (some f)
    return some fd

def sysPipe (L : Layout) (p : Fin nproc) : Syscall ℤ := do
  let s ← get
  match ← MonadExcept.ofExcept (argptr s.st p 0 8#32) with
  | none => return -1
  | some fd =>
    match ← pipealloc L with
    | none => return -1
    | some (rf, wf) =>
      match ← fdalloc p rf with
      | none => do
        fileclose L rf
        fileclose L wf
        return -1
      | some fd0 =>
        match ← fdalloc p wf with
        | none => do
          setFd p fd0 none
          fileclose L rf
          fileclose L wf
          return -1
        | some fd1 => do
          kernelStore p fd (wordBytes (BitVec.ofNat 32 fd0))
          kernelStore p (fd + 4#32) (wordBytes (BitVec.ofNat 32 fd1))
          return 0

end OperatingSystems.CowFork.Descriptors
