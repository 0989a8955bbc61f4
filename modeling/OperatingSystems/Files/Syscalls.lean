import OperatingSystems.Files.Turns

/-! # System calls on files

`syscall.c` and `file.c`, and from `sysfile.c` and `sysproc.c` the calls that get a pointer to a buffer or to a
result: `read`, `write`, `fstat`, `pipe` and `getpinfo`. The two kernels have all of it in common but
`getpinfo`.

The arguments are read from the stack of the process. These reads are not in `touched`, which is about what the
pointers point to; `fetchint_below` is about them. -/

namespace OperatingSystems.Files.Syscalls

open OperatingSystems.Lib.Words OperatingSystems.Lib.WeakestPre OperatingSystems.Pipes

/-- `NOFILE`. -/
def nofile : ℕ := 16

/-! ### Arguments -/

section
variable (s : System)

def fetchint (addr : Word) : Option Word :=
  if s.proc.sz ≤ addr ∨ s.proc.sz < addr + 4#32 then none else some (word s.user addr.toNat)

def argint (n : ℕ) : Option Word := fetchint s (s.proc.esp + 4#32 + 4#32 * BitVec.ofNat 32 n)

def argptr (n : ℕ) (size : Word) : Option Word :=
  match argint s n with
  | none => none
  | some i => if s.proc.sz ≤ i ∨ s.proc.sz < i + size then none else some i

def argfd (n : ℕ) : Option (Fin nfile) :=
  match argint s n with
  | none => none
  | some fd => if fd.toInt < 0 ∨ nofile ≤ fd.toInt then none else s.proc.ofile fd.toNat

end

/-- The words of the arguments lie in the memory of the process. -/
theorem fetchint_below {s : System} {addr w : Word} (h : fetchint s addr = some w) :
    addr.toNat + 4 ≤ s.proc.sz.toNat := by
  unfold fetchint at h
  have hsz := s.proc.sz_le
  unfold usertop at hsz
  split_ifs at h with hout
  simp only [BitVec.le_def, BitVec.lt_def, BitVec.toNat_add, not_or, not_le, not_lt] at hout
  have h4 : (4#32).toNat = 4 := rfl
  omega

/-! ### Files -/

/-- A change of an entry of `ftable`. -/
def modifyFile (f : Fin nfile) (g : File → File) : Sys Unit :=
  modify fun s => { s with file := Function.update s.file f (g (s.file f)) }

/-- `fileread` and `filewrite`, with the flag they look at, what they call, and their panic. -/
def transferFile (allowed : File → Bool) (onPipe : ℕ → ℕ → ℤ → Code ℤ)
    (onInode : Fin ninode → ℕ → Word → Word → Sys ℤ) (stop : Stop) (f : Fin nfile) (addr : ℕ) (n : Word) :
    Sys ℤ := do
  let s ← get
  if allowed (s.file f) = false then return -1
  else
    match (s.file f).type with
    | .pipe p => onPipe p addr n.toInt
    | .inode x => do
      ilock x
      let s ← get
      let r ← onInode x addr (s.file f).off n
      if 0 < r then modifyFile f fun ff => { ff with off := ff.off + BitVec.ofInt 32 r }
      iunlock x
      return r
    | .none => throw stop

def fileread : Fin nfile → ℕ → Word → Sys ℤ := transferFile File.readable piperead readi .fileread

def filewrite : Fin nfile → ℕ → Word → Sys ℤ := transferFile File.writable pipewrite writei .filewrite

/-- `sys_read` and `sys_write`. -/
def transfer (op : Fin nfile → ℕ → Word → Sys ℤ) : Sys ℤ := do
  let s ← get
  match argfd s 0 with
  | none => return -1
  | some f =>
    match argint s 2 with
    | none => return -1
    | some n =>
      match argptr s 1 n with
      | none => return -1
      | some p => op f p.toNat n

def sysRead : Sys ℤ := transfer fileread

def sysWrite : Sys ℤ := transfer filewrite

/-! ### stat -/

/-- Stores the `m` low bytes of a word. -/
def store (a m : ℕ) (w : Word) : Sys Unit := toUser a m (byteOf w)

/-- `sizeof(struct stat)`. -/
def sizeofStat : ℕ := 20

/-- `ROOTDEV`. -/
def rootdev : Word := 1#32

def stati (x : Fin ninode) (st : ℕ) : Sys Unit := do
  let s ← get
  let ip := s.inode x
  store (st + 4) 4 rootdev
  store (st + 8) 4 (BitVec.ofNat 32 ip.inum)
  store st 2 (ip.type.zeroExtend 32)
  store (st + 12) 2 (ip.nlink.zeroExtend 32)
  store (st + 16) 4 ip.size

def filestat (f : Fin nfile) (st : ℕ) : Sys ℤ := do
  let s ← get
  match (s.file f).type with
  | .inode x => do
    ilock x
    stati x st
    iunlock x
    return 0
  | _ => return -1

def sysFstat : Sys ℤ := do
  let s ← get
  match argfd s 0 with
  | none => return -1
  | some f =>
    match argptr s 1 (BitVec.ofNat 32 sizeofStat) with
    | none => return -1
    | some st => filestat f st.toNat

/-! ### pipe -/

def filealloc : Sys (Option (Fin nfile)) := do
  let s ← get
  match (List.finRange nfile).find? fun f => (s.file f).ref = 0 with
  | none => return none
  | some f => do
    modifyFile f fun ff => { ff with ref := 1 }
    return some f

/-- `kalloc`. -/
def kalloc : Sys (Option ℕ) := do
  let s ← get
  match s.pages with
  | [] => return none
  | p :: ps => do
    set { s with pages := ps }
    return some p

/-- `pipeclose`; the pipe is freed with its second end. -/
def pipeclose (p : ℕ) (writable : Bool) : Sys Unit := do
  let s ← get
  let pi := s.pipe p
  let pi := if writable then { pi with writeopen := false } else { pi with readopen := false }
  let pages := if pi.readopen = false ∧ pi.writeopen = false then p :: s.pages else s.pages
  set { s with pipe := Function.update s.pipe p pi, pages := pages }

def fileclose (f : Fin nfile) : Sys Unit := do
  let s ← get
  let ff := s.file f
  if ff.ref < 1 then throw .fileclose
  else if 1 < ff.ref then modifyFile f fun ff => { ff with ref := ff.ref - 1 }
  else do
    modifyFile f fun ff => { ff with ref := 0, type := .none }
    match ff.type with
    | .pipe p => pipeclose p ff.writable
    | .inode x => iput x
    | .none => return ()

/-- The two files of a pipe. -/
structure Ends where
  rf : Fin nfile
  wf : Fin nfile

def pipealloc : Sys (Option Ends) := do
  let f0 ← filealloc
  match f0 with
  | none => return none
  | some f0 =>
    let f1 ← filealloc
    match f1 with
    | none => do
      fileclose f0
      return none
    | some f1 =>
      let page ← kalloc
      match page with
      | none => do
        fileclose f0
        fileclose f1
        return none
      | some p => do
        modify fun s => { s with pipe := Function.update s.pipe p ⟨(s.pipe p).data, 0#32, 0#32, true, true⟩ }
        modifyFile f0 fun ff => { ff with type := .pipe p, readable := true, writable := false }
        modifyFile f1 fun ff => { ff with type := .pipe p, readable := false, writable := true }
        return some ⟨f0, f1⟩

/-- An assignment to `proc->ofile[fd]`. -/
def setOfile (fd : ℕ) (f : Option (Fin nfile)) : Sys Unit :=
  modify fun s => { s with proc := { s.proc with ofile := Function.update s.proc.ofile fd f } }

def fdalloc (f : Fin nfile) : Sys (Option ℕ) := do
  let s ← get
  match (List.range nofile).find? fun fd => (s.proc.ofile fd).isNone with
  | none => return none
  | some fd => do
    setOfile fd (some f)
    return some fd

def sysPipe : Sys ℤ := do
  let s ← get
  match argptr s 0 8#32 with
  | none => return -1
  | some fd =>
    let files ← pipealloc
    match files with
    | none => return -1
    | some files =>
      let fd0 ← fdalloc files.rf
      match fd0 with
      | none => do
        fileclose files.rf
        fileclose files.wf
        return -1
      | some fd0 =>
        let fd1 ← fdalloc files.wf
        match fd1 with
        | none => do
          setOfile fd0 none
          fileclose files.rf
          fileclose files.wf
          return -1
        | some fd1 => do
          store fd.toNat 4 (BitVec.ofNat 32 fd0)
          store (fd.toNat + 4) 4 (BitVec.ofNat 32 fd1)
          return 0

/-! ### getpinfo -/

/-- `sizeof(struct pstat)`: six arrays of `NPROC` words. -/
def sizeofPstat : ℕ := 4 * (6 * Stride.Table.nproc)

/-- The words of `struct pstat`, one array after the other. -/
def pstatInt (pstat : Fin Stride.Table.nproc → Stride.Table.Slot) (k : ℕ) : Word :=
  let slot := pstat (Fin.ofNat _ k)
  match k / Stride.Table.nproc with
  | 0 => if slot.inuse then 1#32 else 0#32
  | 1 => BitVec.ofInt 32 slot.tickets
  | 2 => BitVec.ofInt 32 slot.strides
  | 3 => BitVec.ofInt 32 slot.pass
  | 4 => BitVec.ofNat 32 slot.pid
  | _ => BitVec.ofNat 32 slot.ticks

def getpinfo (pstat : ℕ) : Sys ℤ := do
  if pstat = 0 then return -1
  else do
    let s ← get
    toUser pstat sizeofPstat fun i => byteOf (pstatInt s.pstat (i / 4)) (i % 4)
    return 0

def sysGetpinfo : Sys ℤ := do
  let s ← get
  match argptr s 0 4#32 with
  | none => return -1
  | some p => getpinfo p.toNat

end OperatingSystems.Files.Syscalls
