import OperatingSystems.CowFork.Processes
import OperatingSystems.Lib.Overlay

/-! # exec

`exec` of `exec.c`, with `loaduvm` and `copyout` of `vm.c`. A file is the list of its bytes: block maps,
buffers and the counts of inodes are left out, and so is `switchuvm`. The local arrays of `exec` are lists. -/

namespace OperatingSystems.CowFork.Processes

/-! ### Files -/

/-- What `readi` finds of a file that is not a device. -/
structure File where
  data : List (BitVec 8)
  size_lt : data.length < 2 ^ 32

def File.size (ip : File) : Word := BitVec.ofNat 32 ip.data.length

/-- `readi`, with the bytes it copies; `none` is its return value -1. -/
def readi (ip : File) (off n : Word) : Option (List (BitVec 8)) :=
  if off > ip.size ∨ off + n < off then none
  else
    let n := if off + n > ip.size then ip.size - off else n
    some ((ip.data.drop off.toNat).take n.toNat)

/-- The word at offset `o`, least byte first. -/
def wordAt (bytes : List (BitVec 8)) (o : ℕ) : Word :=
  bytes.getD (o + 3) 0 ++ bytes.getD (o + 2) 0 ++ bytes.getD (o + 1) 0 ++ bytes.getD o 0

def shortAt (bytes : List (BitVec 8)) (o : ℕ) : BitVec 16 := bytes.getD (o + 1) 0 ++ bytes.getD o 0

/-- The fields of `struct elfhdr` that `exec` reads. -/
structure Elfhdr where
  magic : Word
  entry : Word
  phoff : Word
  phnum : BitVec 16

def Elfhdr.ofBytes (bytes : List (BitVec 8)) : Elfhdr where
  magic := wordAt bytes 0
  entry := wordAt bytes 24
  phoff := wordAt bytes 28
  phnum := shortAt bytes 44

/-- The fields of `struct proghdr` that `exec` reads. -/
structure Proghdr where
  type : Word
  offset : Word
  va : Word
  filesz : Word
  memsz : Word

def Proghdr.ofBytes (bytes : List (BitVec 8)) : Proghdr where
  type := wordAt bytes 0
  offset := wordAt bytes 4
  va := wordAt bytes 8
  filesz := wordAt bytes 16
  memsz := wordAt bytes 20

/-- `ELF_MAGIC`. -/
def elfMagic : Word := 0x464C457F#32

/-- `ELF_PROG_LOAD`. -/
def elfProgLoad : Word := 1#32

/-- `sizeof(struct elfhdr)`. -/
def elfhdrSize : Word := 52#32

/-- `sizeof(struct proghdr)`. -/
def proghdrSize : Word := 32#32

/-- `MAXARG`. -/
def maxarg : ℕ := 32

end OperatingSystems.CowFork.Processes

namespace OperatingSystems.CowFork

open Lib.Overlay

/-- The bytes `bytes` are in page `f` from offset `o` on. -/
def Mem.setBytes (m : Mem) (f o : ℕ) (bytes : List (BitVec 8)) : Mem :=
  { m with byte := Function.update m.byte f (lay (m.byte f) o bytes) }

end OperatingSystems.CowFork

namespace OperatingSystems.CowFork.Processes

open ProcTable

/-! ### vm.c -/

/-- `readi` to a page, from the kernel that runs in the directory `cur`. -/
def store (cur f : ℕ) (bytes : List (BitVec 8)) : Kernel Unit := do
  if bytes = [] then pure ()
  else
    let dst ← target cur f
    modify fun m => m.setBytes dst 0 bytes

/-- The rounds of `loaduvm`; `false` is its return value -1. -/
def loaduvmLoop (cur pgdir : ℕ) (addr : Word) (ip : File) (offset sz : Word) : ℕ → Word → Kernel Bool
  | 0, _ => return true
  | k + 1, i => do
    match ← walkpgdir pgdir (addr + i).toNat false with
    | none => throw .loaduvmAddr
    | some pte => do
      let w ← readPte pte
      let n := if sz - i < 4096#32 then sz - i else 4096#32
      match readi ip (offset + i) n with
      | none => return false
      | some bytes => do
        store cur (pageOf w) bytes
        if bytes.length ≠ n.toNat then return false
        else loaduvmLoop cur pgdir addr ip offset sz k (i + 4096#32)

/-- A size in the last page of the address space makes the loop of the source endless; it passes addresses
that have no table first. -/
def loaduvm (cur pgdir : ℕ) (addr : Word) (ip : File) (offset sz : Word) : Kernel Bool := do
  if addr.toNat % 4096 ≠ 0 then throw .loaduvmAlign
  else loaduvmLoop cur pgdir addr ip offset sz (pgup sz.toNat) 0#32

def uva2ka (pgdir : ℕ) (uva : Word) : Kernel ℕ := do
  match ← walkpgdir pgdir uva.toNat false with
  | none => throw .nullPte
  | some pte => do
    let w ← readPte pte
    if ¬ present w then return 0
    else if ¬ userOk w then return 0
    else return pageOf w

/-- The rounds of `copyout`, each of which copies a byte at least; `false` is its return value -1. -/
def copyoutLoop (pgdir : ℕ) : ℕ → Word → List (BitVec 8) → Kernel Bool
  | 0, _, _ => return true
  | k + 1, va, buf => do
    if buf = [] then return true
    else
      let va0 := va &&& ~~~0xFFF#32
      let pa0 ← uva2ka pgdir va0
      if pa0 = 0 then return false
      else
        let n := min (4096 - (va - va0).toNat) buf.length
        modify fun m => m.setBytes pa0 (va - va0).toNat (buf.take n)
        copyoutLoop pgdir k (va0 + 4096#32) (buf.drop n)

def copyout (pgdir : ℕ) (va : Word) (buf : List (BitVec 8)) : Kernel Bool :=
  copyoutLoop pgdir buf.length va buf

/-! ### exec.c -/

/-- The loop over the program headers, with the headers that are left, the offset of the next one and the
size so far; `none` is `goto bad`. -/
def loadLoop (L : Layout) (cur pgdir : ℕ) (ip : File) : ℕ → Word → ℕ → Kernel (Option ℕ)
  | 0, _, sz => return some sz
  | k + 1, off, sz => do
    match readi ip off proghdrSize with
    | none => return none
    | some bytes => do
      let ph := Proghdr.ofBytes bytes
      if bytes.length ≠ proghdrSize.toNat then return none
      else if ph.type ≠ elfProgLoad then loadLoop L cur pgdir ip k (off + proghdrSize) sz
      else if ph.memsz < ph.filesz then return none
      else
        let sz ← allocuvm L pgdir sz (ph.va + ph.memsz).toNat
        if sz = 0 then return none
        else if ← loaduvm cur pgdir ph.va ip ph.offset ph.filesz then
          loadLoop L cur pgdir ip k (off + proghdrSize) sz
        else return none

/-- The stack pointer, and the pointers in `ustack[3..]`. -/
structure Pushed where
  sp : Word
  args : List Word

/-- The loop over the argument strings that are left, which it pushes with their NUL. -/
def pushArgs (pgdir : ℕ) : List (List (BitVec 8)) → Pushed → Kernel (Option Pushed)
  | [], st => return some st
  | s :: argv, st => do
    if st.args.length ≥ maxarg then return none
    else
      let sp := (st.sp - BitVec.ofNat 32 (s.length + 1)) &&& ~~~3#32
      if ← copyout pgdir sp (s ++ [0#8]) then pushArgs pgdir argv ⟨sp, st.args ++ [sp]⟩
      else return none

/-- The bytes of a word in memory. -/
def wordBytes (w : Word) : List (BitVec 8) :=
  [w.extractLsb' 0 8, w.extractLsb' 8 8, w.extractLsb' 16 8, w.extractLsb' 24 8]

/-- `ustack`, for the stack pointer below the strings. -/
def ustack (st : Pushed) : List Word :=
  0xffffffff#32 :: BitVec.ofNat 32 st.args.length ::
    (st.sp - BitVec.ofNat 32 ((st.args.length + 1) * 4)) :: (st.args ++ [0#32])

/-- What `exec` commits to: the size and the stack pointer. -/
structure Image where
  sz : ℕ
  sp : Word

/-- `exec` from the program headers to the frame on the stack; `none` is `goto bad`. -/
def buildImage (L : Layout) (cur pgdir : ℕ) (ip : File) (elf : Elfhdr) (argv : List (List (BitVec 8))) :
    Kernel (Option Image) := do
  match ← loadLoop L cur pgdir ip elf.phnum.toNat elf.phoff 0 with
  | none => return none
  | some sz => do
    let sz ← allocuvm L pgdir (pgup sz * 4096) (pgup sz * 4096 + 4096)
    if sz = 0 then return none
    else
      match ← pushArgs pgdir argv ⟨BitVec.ofNat 32 sz, []⟩ with
      | none => return none
      | some st => do
        let sp := st.sp - BitVec.ofNat 32 ((3 + st.args.length + 1) * 4)
        if ← copyout pgdir sp ((ustack st).flatMap wordBytes) then return some ⟨sz, sp⟩
        else return none

/-- The rest of `path` after its last slash. -/
def lastName (last : List (BitVec 8)) : List (BitVec 8) → List (BitVec 8)
  | [] => last
  | c :: s => if c = 0x2F#8 then lastName s s else lastName last s

/-- `exec` by process `p`. The first `readi` of a file cannot fail, at offset 0; its -1 would pass the test,
which is unsigned. -/
def exec (L : Layout) (namei : List (BitVec 8) → Option File) (p : Fin nproc) (path : List (BitVec 8))
    (argv : List (List (BitVec 8))) : Code ℤ := do
  match namei path with
  | none => return -1
  | some ip => do
    let bytes := (readi ip 0#32 elfhdrSize).getD []
    let elf := Elfhdr.ofBytes bytes
    if bytes.length < elfhdrSize.toNat ∨ elf.magic ≠ elfMagic then return -1
    else
      let pgdir ← setupkvm L
      if pgdir = 0 then return -1
      else
        let s ← get
        let oldpgdir := (s.proc p).pgdir
        match ← buildImage L oldpgdir pgdir ip elf argv with
        | none => do
          freevm L pgdir
          return -1
        | some img => do
          modifyProc p fun q =>
            { q with
              name := (lastName path path).take 15
              pgdir := pgdir
              sz := BitVec.ofNat 32 img.sz
              tf := { q.tf with eip := elf.entry, esp := img.sp } }
          freevm L oldpgdir
          return 0

end OperatingSystems.CowFork.Processes
