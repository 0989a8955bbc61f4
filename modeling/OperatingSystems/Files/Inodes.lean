import OperatingSystems.Lib.WeakestPre
import OperatingSystems.Lib.Words
import OperatingSystems.Pipes.Steps

/-! # Blocks and inodes

The two lower layers of `fs.c`, on a disk with one file system. The super block, the inodes and the bitmap
are kept as what they say, and the data blocks as bytes. A buffer is its block: it is written back before it
is released, and whoever holds it holds the only copy.

A call runs until it returns or stops. It stops at a panic, when it would sleep with nobody to wake it up,
and, which the code would not notice, when it writes a block outside the data area as if it were data.

`full` says that `balloc` has found no free block on the disk, and `touched` lists the addresses of the
process that were read or written; no code reads these two. -/

namespace OperatingSystems.Files

open OperatingSystems.Lib.Words OperatingSystems.Pipes

abbrev Short := BitVec 16
abbrev Word := BitVec 32

/-- `BSIZE`. -/
def bsize : ℕ := 512

/-- `NDIRECT`. -/
def ndirect : ℕ := 12

/-- `NINDIRECT`: the words of a block. -/
def nindirect : ℕ := 128

/-- `MAXFILE`. -/
def maxfile : ℕ := ndirect + nindirect

/-- `BPB`: the bits of a block. -/
def bpb : ℕ := bsize * 8

/-- `IPB`: the inodes of a block. -/
def ipb : ℕ := 8

/-- `NINODE`. -/
abbrev ninode : ℕ := 50

/-- `struct superblock`; the kernel does not look at `nblocks`. -/
structure Superblock where
  size : Word
  ninodes : Word

/-- The first data block, after the inodes and the bitmap. -/
def Superblock.start (sb : Superblock) : ℕ := sb.ninodes.toNat / ipb + 3 + (sb.size.toNat / bpb + 1)

/-- The numbers of the data blocks. -/
def Superblock.IsData (sb : Superblock) (b : ℕ) : Prop := sb.start ≤ b ∧ b < sb.size.toNat

instance (sb : Superblock) (b : ℕ) : Decidable (sb.IsData b) := inferInstanceAs (Decidable (_ ∧ _))

/-- `struct dinode`; `addrs` has the indices up to `NDIRECT`. -/
structure Dinode where
  type : Short
  major : Short
  minor : Short
  nlink : Short
  size : Word
  addrs : ℕ → Word

/-- `struct inode`, with its copy of the disk inode; `busy` and `valid` are `flags`. -/
structure Inode extends Dinode where
  inum : ℕ
  ref : ℕ
  busy : Bool
  valid : Bool

/-- `T_DIR`, `T_FILE` and `T_DEV`. -/
def tDir : Short := 1#16
def tFile : Short := 2#16
def tDev : Short := 3#16

/-- `input`, the buffer of the console. -/
structure Input where
  buf : ℕ → Byte
  r : Word
  w : Word
  e : Word

/-- What a process finds when it is woken up: whether it was killed, and what the others have done to the
console and the pipes. -/
structure Wake where
  killed : Bool
  input : Input
  pipe : ℕ → Pipe

/-- The reasons to stop. -/
inductive Stop where
  /-- "balloc: out of blocks" -/
  | balloc
  /-- "freeing free block" -/
  | bfree
  /-- "ialloc: no inodes" -/
  | ialloc
  /-- "iget: no inodes" -/
  | iget
  /-- "ilock" -/
  | ilock
  /-- "ilock: no type" -/
  | ilockType
  /-- "iunlock" -/
  | iunlock
  /-- "iput busy" -/
  | iput
  /-- "bmap: out of range" -/
  | bmap
  /-- "fileread" -/
  | fileread
  /-- "filewrite" -/
  | filewrite
  /-- "fileclose" -/
  | fileclose
  /-- the call sleeps -/
  | asleep
  /-- a block outside the data area would be written as data -/
  | outside
  /-- the kernel stores to a page that is not mapped -/
  | fault
  deriving DecidableEq

/-- The disk, the inode cache, the console and the pipes, and the memory of the process. `wakes` are what
the process will find whenever it sleeps. -/
structure Kernel where
  sb : Superblock
  bitmap : ℕ → Bool
  dinode : ℕ → Dinode
  block : ℕ → ℕ → Byte
  inode : Fin ninode → Inode
  full : Bool
  input : Input
  pipe : ℕ → Pipe
  killed : Bool
  wakes : List Wake
  user : ℕ → Byte
  touched : List ℕ

/-- Kernel code. -/
abbrev Code := EStateM Stop Kernel

/-! ### Blocks -/

/-- `bwrite`, with the contents of the buffer. -/
def bwrite (b : ℕ) (data : ℕ → Byte) : Code Unit := do
  let s ← get
  if s.sb.IsData b then set { s with block := Function.update s.block b data }
  else throw .outside

def bzero (b : ℕ) : Code Unit := bwrite b fun _ => 0#8

/-- The bits that `balloc` looks at: those of all the blocks of the bitmap. -/
def Superblock.bits (sb : Superblock) : ℕ := (sb.size.toNat + bpb - 1) / bpb * bpb

def balloc : Code Word := do
  let s ← get
  match (List.range s.sb.bits).find? fun b => !s.bitmap b with
  | none =>
    set { s with full := true }
    throw .balloc
  | some b =>
    let full := s.full || decide (s.sb.size.toNat ≤ b)
    set { s with bitmap := Function.update s.bitmap b true, full := full }
    return BitVec.ofNat 32 b

def bfree (b : Word) : Code Unit := do
  bzero b.toNat
  let s ← get
  if s.bitmap b.toNat = false then throw .bfree
  else set { s with bitmap := Function.update s.bitmap b.toNat false }

/-! ### Inodes -/

/-- A change of an entry of the inode cache. -/
def modifyInode (x : Fin ninode) (f : Inode → Inode) : Code Unit :=
  modify fun s => { s with inode := Function.update s.inode x (f (s.inode x)) }

def iget (inum : ℕ) : Code (Fin ninode) := do
  let s ← get
  match (List.finRange ninode).find? fun x => 0 < (s.inode x).ref ∧ (s.inode x).inum = inum with
  | some x =>
    modifyInode x fun ip => { ip with ref := ip.ref + 1 }
    return x
  | none =>
    match (List.finRange ninode).find? fun x => (s.inode x).ref = 0 with
    | none => throw .iget
    | some x =>
      modifyInode x fun ip => { ip with inum := inum, ref := 1, busy := false, valid := false }
      return x

/-- A disk inode that `ialloc` has cleared. -/
def cleared (type : Short) : Dinode := ⟨type, 0#16, 0#16, 0#16, 0#32, fun _ => 0#32⟩

def ialloc (type : Short) : Code (Fin ninode) := do
  let s ← get
  match (List.range s.sb.ninodes.toNat).find? fun i => 1 ≤ i ∧ (s.dinode i).type = 0#16 with
  | none => throw .ialloc
  | some inum =>
    set { s with dinode := Function.update s.dinode inum (cleared type) }
    iget inum

def iupdate (x : Fin ninode) : Code Unit :=
  modify fun s =>
    { s with dinode := Function.update s.dinode (s.inode x).inum (s.inode x).toDinode }

def idup (x : Fin ninode) : Code Unit := modifyInode x fun ip => { ip with ref := ip.ref + 1 }

def ilock (x : Fin ninode) : Code Unit := do
  let s ← get
  if (s.inode x).ref < 1 then throw .ilock
  else if (s.inode x).busy then throw .asleep
  else do
    modifyInode x fun ip => { ip with busy := true }
    if (s.inode x).valid = false then
      let dip := s.dinode (s.inode x).inum
      modifyInode x fun ip => { ip with toDinode := dip, valid := true }
      if dip.type = 0#16 then throw .ilockType

def iunlock (x : Fin ninode) : Code Unit := do
  let s ← get
  if (s.inode x).busy = false ∨ (s.inode x).ref < 1 then throw .iunlock
  else modifyInode x fun ip => { ip with busy := false }

/-- An assignment to `ip->addrs[j]`. -/
def setAddr (x : Fin ninode) (j : ℕ) (a : Word) : Code Unit :=
  modifyInode x fun ip => { ip with addrs := Function.update ip.addrs j a }

/-- `ip->addrs[j]`, allocated if there is none. -/
def addrOf (x : Fin ninode) (j : ℕ) : Code Word := do
  let s ← get
  if (s.inode x).addrs j = 0#32 then do
    let addr ← balloc
    setAddr x j addr
    return addr
  else return (s.inode x).addrs j

def bmap (x : Fin ninode) (bn : ℕ) : Code Word :=
  if bn < ndirect then addrOf x bn
  else if bn - ndirect < nindirect then do
    let ind ← addrOf x ndirect
    let s ← get
    let addr := word (s.block ind.toNat) (4 * (bn - ndirect))
    if addr = 0#32 then do
      let addr ← balloc
      bwrite ind.toNat (setWord (s.block ind.toNat) (4 * (bn - ndirect)) addr)
      return addr
    else return addr
  else throw .bmap

/-- The first loop of `itrunc`, over the first `n` addresses. -/
def freeDirect (x : Fin ninode) : ℕ → Code Unit
  | 0 => pure ()
  | j + 1 => do
    freeDirect x j
    let s ← get
    if (s.inode x).addrs j ≠ 0#32 then
      bfree ((s.inode x).addrs j)
      setAddr x j 0#32

/-- The loop over the first `n` entries of an indirect block. -/
def freeEntries (a : ℕ → Word) : ℕ → Code Unit
  | 0 => pure ()
  | j + 1 => do
    freeEntries a j
    if a j ≠ 0#32 then bfree (a j)

def itrunc (x : Fin ninode) : Code Unit := do
  freeDirect x ndirect
  let s ← get
  let ind := (s.inode x).addrs ndirect
  if ind ≠ 0#32 then
    freeEntries (fun j => word (s.block ind.toNat) (4 * j)) nindirect
    bfree ind
    setAddr x ndirect 0#32
  modifyInode x fun ip => { ip with size := 0#32 }
  iupdate x

def iput (x : Fin ninode) : Code Unit := do
  let s ← get
  if (s.inode x).ref = 1 ∧ (s.inode x).valid ∧ (s.inode x).nlink = 0#16 then
    if (s.inode x).busy then throw .iput
    modifyInode x fun ip => { ip with busy := true }
    itrunc x
    modifyInode x fun ip => { ip with type := 0#16 }
    iupdate x
    modifyInode x fun ip => { ip with busy := false, valid := false }
  modifyInode x fun ip => { ip with ref := ip.ref - 1 }

end OperatingSystems.Files
