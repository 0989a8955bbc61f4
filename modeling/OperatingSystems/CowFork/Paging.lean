import OperatingSystems.CowFork.Memory

/-! # The page allocator and the paging code

The functions of `kalloc.c` and `vm.c`, in the monad `Kernel`. A loop over addresses is a recursion over
pages, on the number of rounds that are left; the round for page `a` works at address `a * PGSIZE`.
Pointers are page numbers, 0 being null, and a pointer to an entry is a table page with an index.

`lcr3` and the lock of `kmem` are left out: the model has no TLB, and each function runs alone. -/

namespace OperatingSystems.CowFork

/-- Where the linker put the kernel: `data`, the first page of its data, and `end`, the address behind it.
`data` starts a page. -/
structure Layout where
  data : ℕ
  kend : ℕ
  text_lt_data : 0x100000 < data * 4096
  data_le_end : data * 4096 ≤ kend
  end_lt_phystop : kend < 0x1000000

def usertop : ℕ := 0xA0000
def phystop : ℕ := 0x1000000

/-- `PGROUNDUP(a) / PGSIZE`. -/
def pgup (a : ℕ) : ℕ := (a + 4095) / 4096

def pdx (va : ℕ) : ℕ := va / 2 ^ 22 % 1024
def ptx (va : ℕ) : ℕ := va / 2 ^ 12 % 1024

variable (L : Layout)

/-! ### kalloc.c -/

def kfreeInit (v : ℕ) : Kernel Unit := do
  if v * 4096 < L.kend ∨ phystop ≤ v * 4096 then throw .kfree
  else
    modify fun m => { m.fill v 1 with
      refCnt := Function.update m.refCnt v 0
      freePages := m.freePages + 1
      freelist := v :: m.freelist }

def kinitLoop : ℕ → ℕ → Kernel Unit
  | 0, _ => pure ()
  | n + 1, p => do
    kfreeInit L p
    kinitLoop n (p + 1)

def kinit : Kernel Unit := do
  modify fun m => { m with freePages := 0 }
  kinitLoop L (phystop / 4096 - pgup L.kend) (pgup L.kend)

def kfree (v : ℕ) : Kernel Unit := do
  if v * 4096 < L.kend ∨ phystop ≤ v * 4096 then throw .kfree
  else
    let m ← get
    if 1 < m.refCnt v then
      set { m with refCnt := Function.update m.refCnt v (m.refCnt v - 1) }
    else if m.refCnt v = 1 then
      set { m.fill v 1 with
        refCnt := Function.update m.refCnt v (m.refCnt v - 1)
        freePages := m.freePages + 1
        freelist := v :: m.freelist }
    else throw .kfreeCount

def kalloc : Kernel ℕ := do
  let m ← get
  match m.freelist with
  | [] =>
    set { m with fails := m.fails + 1 }
    return 0
  | r :: next =>
    set { m with
      freelist := next
      refCnt := Function.update m.refCnt r 1
      freePages := m.freePages - 1 }
    return r

def incRefCnt (r : ℕ) : Kernel Unit :=
  modify fun m => { m with refCnt := Function.update m.refCnt r (m.refCnt r + 1) }

def decRefCnt (r : ℕ) : Kernel Unit :=
  modify fun m => { m with refCnt := Function.update m.refCnt r (m.refCnt r - 1) }

def getRefCnt (r : ℕ) : Kernel ℕ := do
  return (← get).refCnt r

/-! ### Page tables -/

def readPte (pte : ℕ × ℕ) : Kernel Word := do
  return (← get).word pte.1 pte.2

def writePte (pte : ℕ × ℕ) (w : Word) : Kernel Unit :=
  modify fun m => m.setWord pte.1 pte.2 w

def memset (f : ℕ) (b : BitVec 8) : Kernel Unit :=
  modify fun m => m.fill f b

def walkpgdir (pgdir va : ℕ) (create : Bool) : Kernel (Option (ℕ × ℕ)) := do
  let pde ← readPte (pgdir, pdx va)
  if present pde then return some (pageOf pde, ptx va)
  else if create = false then return none
  else
    let pgtab ← kalloc
    if pgtab = 0 then return none
    else
      memset pgtab 0
      writePte (pgdir, pdx va) (addr pgtab ||| (pteP ||| pteW ||| pteU))
      return some (pgtab, ptx va)

/-- The page behind a kernel pointer. Null is page 0 of the running process; without one the kernel's access
faults, again and again. -/
def target (pgdir f : ℕ) : Kernel ℕ := do
  if f ≠ 0 then return f
  else
    match ← walkpgdir pgdir 0 false with
    | none => throw .fault
    | some pte =>
      let w ← readPte pte
      if present w then return pageOf w else throw .fault

/-- `memmove` of a page, in the address space of `pgdir`. -/
def memmove (pgdir f g : ℕ) : Kernel Unit := do
  let dst ← target pgdir f
  let src ← target pgdir g
  modify fun m => m.copy dst src

/-- One round of `mappages`; `false` is its return value -1. -/
def mapPage (pgdir a pa : ℕ) (perm : Word) : Kernel Bool := do
  match ← walkpgdir pgdir (a * 4096) true with
  | none => return false
  | some pte =>
    let w ← readPte pte
    if present w then throw .remap
    else
      writePte pte (mkPte pa perm)
      return true

/-- The rounds of `mappages` up to and including the last page. -/
def mappagesLoop (pgdir : ℕ) (perm : Word) : ℕ → ℕ → ℕ → Kernel Bool
  | 0, a, pa => mapPage pgdir a pa perm
  | n + 1, a, pa => do
    if ← mapPage pgdir a pa perm then mappagesLoop pgdir perm n (a + 1) (pa + 1)
    else return false

def mappages (pgdir la size pa : ℕ) (perm : Word) : Kernel Bool :=
  let a := la / 4096
  let last := (la + size + (2 ^ 32 - 1)) % 2 ^ 32 / 4096
  mappagesLoop pgdir perm ((last + (2 ^ 20 - a)) % 2 ^ 20) a pa

/-- The table `kmap`: first address, address behind the last, permissions. -/
def kmap : List (ℕ × ℕ × Word) :=
  [(usertop, 0x100000, pteW),
   (0x100000, L.data * 4096, 0#32),
   (L.data * 4096, phystop, pteW),
   (0xFE000000, 0, pteW)]

def mapKernel (pgdir : ℕ) : List (ℕ × ℕ × Word) → Kernel Bool
  | [] => return true
  | (p, e, perm) :: ks => do
    if ← mappages pgdir p ((e + (2 ^ 32 - p)) % 2 ^ 32) (p / 4096) perm then mapKernel pgdir ks
    else return false

def setupkvm : Kernel ℕ := do
  let pgdir ← kalloc
  if pgdir = 0 then return 0
  else
    memset pgdir 0
    if ← mapKernel pgdir (kmap L) then return pgdir
    else return 0

/-! ### User memory -/

def writeBytes (f : ℕ) (bs : List (BitVec 8)) : Kernel Unit :=
  modify fun m => bs.zipIdx.foldl (fun m b => m.setByte f b.2 b.1) m

def inituvm (pgdir : ℕ) (init : List (BitVec 8)) : Kernel Unit := do
  if 4096 ≤ init.length then throw .inituvm
  else
    let mem ← kalloc
    memset mem 0
    let _ ← mappages pgdir 0 4096 mem (pteW ||| pteU)
    writeBytes mem init

def deallocuvmLoop (pgdir : ℕ) : ℕ → ℕ → Kernel Unit
  | 0, _ => pure ()
  | n + 1, a => do
    match ← walkpgdir pgdir (a * 4096) false with
    | none => deallocuvmLoop pgdir n (a + 1)
    | some pte =>
      let w ← readPte pte
      if present w then
        if pageOf w = 0 then throw .deallocuvm
        else
          kfree L (pageOf w)
          writePte pte 0#32
          deallocuvmLoop pgdir n (a + 1)
      else deallocuvmLoop pgdir n (a + 1)

def deallocuvm (pgdir oldsz newsz : ℕ) : Kernel ℕ := do
  if newsz ≥ oldsz then return oldsz
  else
    deallocuvmLoop L pgdir (pgup oldsz - pgup newsz) (pgup newsz)
    return newsz

def allocuvmLoop (pgdir oldsz newsz : ℕ) : ℕ → ℕ → Kernel ℕ
  | 0, _ => return newsz
  | n + 1, a => do
    let mem ← kalloc
    if mem = 0 then
      let _ ← deallocuvm L pgdir newsz oldsz
      return 0
    else
      memset mem 0
      let _ ← mappages pgdir (a * 4096) 4096 mem (pteW ||| pteU)
      allocuvmLoop pgdir oldsz newsz n (a + 1)

def allocuvm (pgdir oldsz newsz : ℕ) : Kernel ℕ := do
  if newsz > usertop then return 0
  else if newsz < oldsz then return oldsz
  else allocuvmLoop L pgdir oldsz newsz (pgup newsz - pgup oldsz) (pgup oldsz)

def freeTables (pgdir : ℕ) : ℕ → ℕ → Kernel Unit
  | 0, _ => pure ()
  | n + 1, i => do
    let pde ← readPte (pgdir, i)
    if present pde then
      kfree L (pageOf pde)
      freeTables pgdir n (i + 1)
    else freeTables pgdir n (i + 1)

def freevm (pgdir : ℕ) : Kernel Unit := do
  if pgdir = 0 then throw .freevm
  else
    let _ ← deallocuvm L pgdir usertop 0
    freeTables L pgdir 1024 0
    kfree L pgdir

def copyuvmLoop (pgdir d : ℕ) : ℕ → ℕ → Kernel ℕ
  | 0, _ => return d
  | n + 1, i => do
    match ← walkpgdir pgdir (i * 4096) false with
    | none => throw .copyuvmPte
    | some pte =>
      let w ← readPte pte
      if present w then
        let mem ← kalloc
        if mem = 0 then
          freevm L d
          return 0
        else
          memmove pgdir mem (pageOf w)
          if ← mappages d (i * 4096) 4096 mem (pteFlags w) then copyuvmLoop pgdir d n (i + 1)
          else
            freevm L d
            return 0
      else throw .copyuvmPage

def copyuvm (pgdir sz : ℕ) : Kernel ℕ := do
  let d ← setupkvm L
  if d = 0 then return 0
  else copyuvmLoop L pgdir d (pgup sz) 0

def cowuvmLoop (pgdir d : ℕ) : ℕ → ℕ → Kernel ℕ
  | 0, _ => return d
  | n + 1, i => do
    match ← walkpgdir pgdir (i * 4096) false with
    | none => throw .cowuvmPte
    | some pte =>
      let w ← readPte pte
      if present w then
        writePte pte (readOnly w)
        if ← mappages d (i * 4096) 4096 (pageOf (readOnly w)) (pteFlags (readOnly w)) then
          incRefCnt (pageOf (readOnly w))
          cowuvmLoop pgdir d n (i + 1)
        else
          freevm L d
          return 0
      else throw .cowuvmPage

def cowuvm (pgdir sz : ℕ) : Kernel ℕ := do
  let d ← setupkvm L
  if d = 0 then return 0
  else cowuvmLoop L pgdir d (pgup sz) 0

/-- The write-fault handler, at the faulting address. Where there is no page table the process is marked
killed and the kernel panics. -/
def pgfltintr (pgdir va : ℕ) : Kernel Unit := do
  match ← walkpgdir pgdir va false with
  | none => throw .pgfltintr
  | some pte =>
    let w ← readPte pte
    if ¬ writable (pteFlags w) ∧ present (pteFlags w) then
      if 1 < (← getRefCnt (pageOf w)) then
        let mem ← kalloc
        memmove pgdir mem (pageOf w)
        decRefCnt (pageOf w)
        writePte pte (addr mem ||| (pteFlags w ||| pteW))
      else writePte pte (w ||| pteW)
    else pure ()

end OperatingSystems.CowFork
