import OperatingSystems.Files.Contents
import OperatingSystems.Files.Layout
import OperatingSystems.Stride.Table

/-! # The file system among other processes

The functions of `fs.c` behind `read`, `write` and `fstat` once more, as one process runs them while the others
go on. It sleeps in `ilock` until the inode is free, and in `bread` and `bwrite` until it has the buffer and the
disk is done. What it finds after that is the next of `turns`, about which nothing is assumed. Blocks are read and
written as bytes, and a call also goes on with a block outside the data area. -/

namespace OperatingSystems.Files.Syscalls

open OperatingSystems.Files.Bitmap (bblock mask scan)
open OperatingSystems.Lib.Words OperatingSystems.Lib.WeakestPre OperatingSystems.Pipes

/-! ### A process in a system call -/

/-- `USERTOP`. -/
def usertop : ℕ := 0xA0000

/-- `NFILE`. -/
abbrev nfile : ℕ := 100

/-- The `type` of a file, with the pipe or the inode. -/
inductive FileType where
  | none
  | pipe (p : ℕ)
  | inode (x : Fin ninode)

/-- `struct file`. -/
structure File where
  type : FileType
  ref : ℕ
  readable : Bool
  writable : Bool
  off : Word

/-- What the calls look at in `proc`: `esp` is `tf->esp`, and `mapped` are the addresses in `pgdir`. `allocuvm`
does not let a process grow beyond `USERTOP`, and its pages below `sz` are there. -/
structure Proc where
  sz : Word
  sz_le : sz.toNat ≤ usertop
  esp : Word
  ofile : ℕ → Option (Fin nfile)
  mapped : ℕ → Bool
  mapped_below : ∀ a < sz.toNat, mapped a = true

/-- What the other processes have made of the kernel while the process slept. -/
structure Turn where
  kernel : Kernel
  file : Fin nfile → File
  pages : List ℕ

/-- The kernel with `ftable`, `proc`, the pages that `kalloc` has, and `ptable.pstat`. `buf` is the block of a buffer
that the process keeps while it asks for others. `turns` are what it will find whenever it has slept; after `none`
it never runs again. -/
structure System extends Kernel where
  file : Fin nfile → File
  proc : Proc
  pages : List ℕ
  pstat : Fin Stride.Table.nproc → Stride.Table.Slot
  buf : Option ℕ
  turns : List (Option Turn)

/-- The memory of the process is its own. -/
def System.resume (s : System) (t : Turn) : System :=
  { s with
    toKernel := { t.kernel with user := s.user, touched := s.touched, wakes := s.wakes }
    file := t.file
    pages := t.pages }

/-- Code of the system calls. -/
abbrev Sys := EStateM Stop System

/-- Kernel code in a system call. -/
def kernel {α : Type} (c : Code α) : Sys α := fun s =>
  match c s.toKernel with
  | .ok a t => .ok a { s with toKernel := t }
  | .error e t => .error e { s with toKernel := t }

instance : MonadLift Code Sys := ⟨kernel⟩

@[simp] theorem wp_kernel {α : Type} {c : Code α} {Q : α → System → Prop} {E : Stop → System → Prop}
    {s : System} : Wp (liftM c : Sys α) Q E s ↔
      Wp c (fun a t => Q a { s with toKernel := t }) (fun e t => E e { s with toKernel := t }) s.toKernel := by
  show Wp (kernel c) Q E s ↔ _
  unfold Wp kernel
  cases c s.toKernel <;> rfl

/-- `sleep`. -/
def sleep : Sys Unit := do
  let s ← get
  match s.turns with
  | some t :: turns => set { s.resume t with turns := turns }
  | _ => throw .asleep

/-- The sleep of `bget` and `iderw`; a process without more turns does not have to wait for its blocks. -/
def diskSleep : Sys Unit := do
  let s ← get
  if s.turns.isEmpty = false then sleep

/-! ### The memory of the process -/

/-- How many of `m` bytes from `a` on come before the first one that is not mapped. -/
def reach (mapped : ℕ → Bool) (a : ℕ) : ℕ → ℕ
  | 0 => 0
  | m + 1 => if mapped a then reach mapped (a + 1) m + 1 else 0

theorem reach_le (mapped : ℕ → Bool) (m : ℕ) : ∀ a, reach mapped a m ≤ m := by
  induction m with
  | zero => exact fun _ => le_rfl
  | succ m ih =>
    intro a
    unfold reach
    split_ifs
    · exact Nat.succ_le_succ (ih _)
    · exact Nat.zero_le _

theorem reach_pos {mapped : ℕ → Bool} {a m : ℕ} (ha : mapped a = true) (hm : 0 < m) : 0 < reach mapped a m := by
  cases m with
  | zero => exact absurd hm (lt_irrefl 0)
  | succ m => simp [reach, ha]

/-- `memmove` to the process. At a byte that is not mapped `trap` panics, or finds nothing to do and the kernel
tries the same store for ever. -/
def toUser (dst m : ℕ) (bytes : ℕ → Byte) : Sys Unit := do
  let s ← get
  Files.toUser dst (reach s.proc.mapped dst m) bytes
  if reach s.proc.mapped dst m < m then throw .fault

/-- `memmove` from the process. -/
def fromUser (src m : ℕ) : Sys (ℕ → Byte) := do
  let s ← get
  let bytes ← Files.fromUser src (reach s.proc.mapped src m)
  if reach s.proc.mapped src m < m then throw .fault
  return bytes

/-! ### Blocks -/

/-- `bread`. For a buffer that the process has itself it would sleep for ever. -/
def bread (b : ℕ) : Sys (ℕ → Byte) := do
  let s ← get
  if s.buf = some b then throw .asleep
  else do
    diskSleep
    let s ← get
    return s.bytes b

/-- `bwrite`, with the contents of the buffer. -/
def bwrite (b : ℕ) (data : ℕ → Byte) : Sys Unit := do
  modify fun s => { s with toKernel := s.write b data }
  diskSleep

/-- Code that runs between the `bread` of a block and its `brelse`. -/
def holding {α : Type} (b : ℕ) (c : Sys α) : Sys α := do
  modify fun s => { s with buf := some b }
  let r ← c
  modify fun s => { s with buf := none }
  return r

def readsb : Sys Superblock := do
  let data ← bread 1
  return ⟨word data 0, word data 8⟩

def bzero (b : ℕ) : Sys Unit := do
  let _ ← bread b
  bwrite b fun _ => 0#8

/-- The loop of `balloc` over so many blocks of the bitmap, from the one with the bit of `b` on. -/
def ballocLoop (ninodes : Word) : ℕ → ℕ → Sys Word
  | 0, _ => throw .balloc
  | k + 1, b => do
    let data ← bread (bblock b ninodes)
    match scan data 0 with
    | none => ballocLoop ninodes k (b + bpb)
    | some bi => do
      bwrite (bblock b ninodes) (Function.update data (bi / 8) (data (bi / 8) ||| mask bi))
      return BitVec.ofNat 32 (b + bi)

def balloc : Sys Word := do
  let sb ← readsb
  ballocLoop sb.ninodes ((sb.size.toNat + bpb - 1) / bpb) 0

def bfree (b : Word) : Sys Unit := do
  bzero b.toNat
  let sb ← readsb
  let n := bblock b.toNat sb.ninodes
  let data ← bread n
  let bi := b.toNat % bpb
  if data (bi / 8) &&& mask bi = 0#8 then throw .bfree
  else bwrite n (Function.update data (bi / 8) (data (bi / 8) &&& ~~~mask bi))

/-! ### Inodes -/

def iupdate (x : Fin ninode) : Sys Unit := do
  let s ← get
  let b := iblock (s.inode x).inum
  let data ← bread b
  let s ← get
  let ip := s.inode x
  let o := sizeofDinode * (ip.inum % ipb)
  bwrite b fun i => if o ≤ i ∧ i < o + sizeofDinode then ip.bytes (i - o) else data i

/-- The loop of `ilock`. Each turn of it takes one of `turns`. -/
def ilockWait (x : Fin ninode) : ℕ → Sys Unit
  | 0 => throw .asleep
  | k + 1 => do
    let s ← get
    if (s.inode x).busy then do
      sleep
      ilockWait x k
    else return ()

def ilock (x : Fin ninode) : Sys Unit := do
  let s ← get
  if (s.inode x).ref < 1 then throw .ilock
  else do
    ilockWait x (s.turns.length + 1)
    modifyInode x fun ip => { ip with busy := true }
    let s ← get
    if (s.inode x).valid = false then do
      let data ← bread (iblock (s.inode x).inum)
      let s ← get
      let dip := dinodeAt data (sizeofDinode * ((s.inode x).inum % ipb))
      modifyInode x fun ip => { ip with toDinode := dip, valid := true }
      if dip.type = 0#16 then throw .ilockType

/-- `ip->addrs[j]`, allocated if there is none. -/
def addrOf (x : Fin ninode) (j : ℕ) : Sys Word := do
  let s ← get
  if (s.inode x).addrs j = 0#32 then do
    let addr ← balloc
    setAddr x j addr
    return addr
  else return (s.inode x).addrs j

def bmap (x : Fin ninode) (bn : ℕ) : Sys Word :=
  if bn < ndirect then addrOf x bn
  else if bn - ndirect < nindirect then do
    let ind ← addrOf x ndirect
    let a ← bread ind.toNat
    if word a (4 * (bn - ndirect)) = 0#32 then do
      let addr ← holding ind.toNat balloc
      bwrite ind.toNat (setWord a (4 * (bn - ndirect)) addr)
      return addr
    else return word a (4 * (bn - ndirect))
  else throw .bmap

/-- The first loop of `itrunc`, over the first `n` addresses. -/
def freeDirect (x : Fin ninode) : ℕ → Sys Unit
  | 0 => pure ()
  | j + 1 => do
    freeDirect x j
    let s ← get
    if (s.inode x).addrs j ≠ 0#32 then
      bfree ((s.inode x).addrs j)
      setAddr x j 0#32

/-- The loop over the first `n` entries of an indirect block. -/
def freeEntries (a : ℕ → Word) : ℕ → Sys Unit
  | 0 => pure ()
  | j + 1 => do
    freeEntries a j
    if a j ≠ 0#32 then bfree (a j)

def itrunc (x : Fin ninode) : Sys Unit := do
  freeDirect x ndirect
  let s ← get
  let ind := (s.inode x).addrs ndirect
  if ind ≠ 0#32 then
    let a ← bread ind.toNat
    holding ind.toNat (freeEntries (fun j => word a (4 * j)) nindirect)
    bfree ind
    setAddr x ndirect 0#32
  modifyInode x fun ip => { ip with size := 0#32 }
  iupdate x

def iput (x : Fin ninode) : Sys Unit := do
  let s ← get
  if (s.inode x).ref = 1 ∧ (s.inode x).valid ∧ (s.inode x).nlink = 0#16 then
    if (s.inode x).busy then throw .iput
    modifyInode x fun ip => { ip with busy := true }
    itrunc x
    modifyInode x fun ip => { ip with type := 0#16 }
    iupdate x
    modifyInode x fun ip => { ip with busy := false, valid := false }
  modifyInode x fun ip => { ip with ref := ip.ref - 1 }

/-! ### The contents of files -/

/-- `consoleread` and `consolewrite` run without the inode. -/
def onConsole (x : Fin ninode) (c : Code ℤ) : Sys ℤ := do
  iunlock x
  let r ← c
  ilock x
  return r

/-- The loop of `readi`, with at most `fuel` turns. -/
def readLoop (x : Fin ninode) (n : ℕ) : ℕ → ℕ → ℕ → ℕ → Sys Unit
  | 0, _, _, _ => pure ()
  | fuel + 1, tot, off, dst =>
    if tot < n then do
      let b ← bmap x (off / bsize)
      let data ← bread b.toNat
      let m := min (n - tot) (bsize - off % bsize)
      toUser dst m fun i => data (off % bsize + i)
      readLoop x n fuel (tot + m) (off + m) (dst + m)
    else pure ()

def readi (x : Fin ninode) (dst : ℕ) (off n : Word) : Sys ℤ := do
  let s ← get
  let ip := s.inode x
  if ip.type = tDev then
    if ip.major = console then onConsole x (consoleread dst n.toInt) else return -1
  else if ip.size < off ∨ off + n < off then return -1
  else do
    let n := if ip.size < off + n then ip.size - off else n
    readLoop x n.toNat n.toNat 0 off.toNat dst
    return n.toInt

/-- The loop of `writei`; it ends with the offset. -/
def writeLoop (x : Fin ninode) (n : ℕ) : ℕ → ℕ → ℕ → ℕ → Sys ℕ
  | 0, _, off, _ => return off
  | fuel + 1, tot, off, src =>
    if tot < n then do
      let b ← bmap x (off / bsize)
      let data ← bread b.toNat
      let m := min (n - tot) (bsize - off % bsize)
      let bytes ← fromUser src m
      let o := off % bsize
      bwrite b.toNat fun i => if o ≤ i ∧ i < o + m then bytes (i - o) else data i
      writeLoop x n fuel (tot + m) (off + m) (src + m)
    else return off

def writei (x : Fin ninode) (src : ℕ) (off n : Word) : Sys ℤ := do
  let s ← get
  let ip := s.inode x
  if ip.type = tDev then
    if ip.major = console then onConsole x (consolewrite src n.toInt) else return -1
  else if ip.size < off ∨ off + n < off then return -1
  else do
    let last := BitVec.ofNat 32 (maxfile * bsize)
    let n := if last < off + n then last - off else n
    let off ← writeLoop x n.toNat n.toNat 0 off.toNat src
    let s ← get
    if 0 < n.toNat ∧ (s.inode x).size.toNat < off then do
      modifyInode x fun ip => { ip with size := BitVec.ofNat 32 off }
      iupdate x
    return n.toInt

end OperatingSystems.Files.Syscalls
