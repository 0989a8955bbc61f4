import OperatingSystems.Files.Inodes

/-! # The contents of files

`readi` and `writei`, with the console behind them, the pipes, and `fileread` and `filewrite` over both. The
memory of the process is `user`; a pointer into it is a number. A call holds the lock of the pipe or of the
console until it sleeps, and the next of `wakes` says what it finds after that. -/

namespace OperatingSystems.Files

open OperatingSystems.Lib.Words OperatingSystems.Pipes

/-! ### The memory of the process -/

/-- `memmove` to the process. -/
def toUser (dst m : ℕ) (bytes : ℕ → Byte) : Code Unit :=
  modify fun s => { s with
    user := fun a => if dst ≤ a ∧ a < dst + m then bytes (a - dst) else s.user a
    touched := s.touched ++ List.range' dst m }

/-- `memmove` from the process. -/
def fromUser (src m : ℕ) : Code (ℕ → Byte) := do
  let s ← get
  set { s with touched := s.touched ++ List.range' src m }
  return fun i => s.user (src + i)

/-- `sleep`: the process goes on with the next of `wakes`. -/
def sleep : Code Unit := do
  let s ← get
  match s.wakes with
  | [] => throw .asleep
  | w :: ws => set { s with killed := w.killed, input := w.input, pipe := w.pipe, wakes := ws }

/-! ### The console -/

/-- `INPUT_BUF`. -/
def inputBuf : ℕ := 128

/-- `C('D')` and `'\n'`. -/
def ctrlD : Byte := 4#8
def newline : Byte := 10#8

/-- The inner loop of `consoleread`: whether the process was killed. Each turn takes one of `wakes`. -/
def consoleWait : ℕ → Code Bool
  | 0 => throw .asleep
  | k + 1 => do
    let s ← get
    if s.input.r = s.input.w then
      if s.killed then return true
      else do
        sleep
        consoleWait k
    else return false

/-- The loop of `consoleread` with `n` bytes to go: what is left of them, or nothing if the process was
killed. -/
def consoleLoop (target : ℕ) : ℕ → ℕ → Code (Option ℕ)
  | _, 0 => return some 0
  | dst, n + 1 => do
    let s ← get
    let killed ← consoleWait (s.wakes.length + 1)
    if killed then return none
    else do
      let s ← get
      let c := s.input.buf (s.input.r.toNat % inputBuf)
      if c = ctrlD then do
        -- ^D is kept for the next time if there is something to return now
        if target ≤ n + 1 then set { s with input := { s.input with r := s.input.r + 1#32 } }
        return some (n + 1)
      else do
        set { s with input := { s.input with r := s.input.r + 1#32 } }
        toUser dst 1 fun _ => c
        if c = newline then return some n
        else consoleLoop target (dst + 1) n

def consoleread (dst : ℕ) (n : ℤ) : Code ℤ := do
  let left ← consoleLoop n.toNat dst n.toNat
  match left with
  | none => return -1
  | some k => return (n.toNat - k : ℕ)

def consolewrite (buf : ℕ) (n : ℤ) : Code ℤ := do
  let _ ← fromUser buf n.toNat
  return n

/-! ### Inodes -/

/-- `CONSOLE`, the one device that can be read and written. -/
def console : Short := 1#16

/-- The loop of `readi`, with at most `fuel` turns. -/
def readLoop (x : Fin ninode) (n : ℕ) : ℕ → ℕ → ℕ → ℕ → Code Unit
  | 0, _, _, _ => pure ()
  | fuel + 1, tot, off, dst =>
    if tot < n then do
      let b ← bmap x (off / bsize)
      let s ← get
      let m := min (n - tot) (bsize - off % bsize)
      toUser dst m fun i => s.block b.toNat (off % bsize + i)
      readLoop x n fuel (tot + m) (off + m) (dst + m)
    else pure ()

def readi (x : Fin ninode) (dst : ℕ) (off n : Word) : Code ℤ := do
  let s ← get
  let ip := s.inode x
  if ip.type = tDev then
    if ip.major = console then consoleread dst n.toInt else return -1
  else if ip.size < off ∨ off + n < off then return -1
  else do
    let n := if ip.size < off + n then ip.size - off else n
    readLoop x n.toNat n.toNat 0 off.toNat dst
    return n.toInt

/-- The loop of `writei`; it ends with the offset. -/
def writeLoop (x : Fin ninode) (n : ℕ) : ℕ → ℕ → ℕ → ℕ → Code ℕ
  | 0, _, off, _ => return off
  | fuel + 1, tot, off, src =>
    if tot < n then do
      let b ← bmap x (off / bsize)
      let m := min (n - tot) (bsize - off % bsize)
      let bytes ← fromUser src m
      let s ← get
      let o := off % bsize
      bwrite b.toNat fun i => if o ≤ i ∧ i < o + m then bytes (i - o) else s.block b.toNat i
      writeLoop x n fuel (tot + m) (off + m) (src + m)
    else return off

def writei (x : Fin ninode) (src : ℕ) (off n : Word) : Code ℤ := do
  let s ← get
  let ip := s.inode x
  if ip.type = tDev then
    if ip.major = console then consolewrite src n.toInt else return -1
  else if ip.size < off ∨ off + n < off then return -1
  else do
    let last := BitVec.ofNat 32 (maxfile * bsize)
    let n := if last < off + n then last - off else n
    let off ← writeLoop x n.toNat n.toNat 0 off.toNat src
    let s ← get
    if 0 < n.toNat ∧ (s.inode x).size.toNat < off then do
      modifyInode x fun ip => { ip with size := BitVec.ofNat 32 off }
      iupdate x
    return n.toInt

/-! ### Pipes -/

/-- The wait of `piperead`: whether the process was killed. Each turn takes one of `wakes`. -/
def pipereadWait (p : ℕ) : ℕ → Code Bool
  | 0 => throw .asleep
  | k + 1 => do
    let s ← get
    if (s.pipe p).nread = (s.pipe p).nwrite ∧ (s.pipe p).writeopen then
      if s.killed then return true
      else do
        sleep
        pipereadWait p k
    else return false

/-- The loop of `piperead` from `i` on, with so many bytes to go. -/
def pipereadLoop (p addr : ℕ) : ℕ → ℕ → Code ℕ
  | i, 0 => return i
  | i, n + 1 => do
    let s ← get
    let pi := s.pipe p
    if pi.nread = pi.nwrite then return i
    else do
      set { s with pipe := Function.update s.pipe p { pi with nread := pi.nread + 1#32 } }
      toUser (addr + i) 1 fun _ => pi.data (pi.nread.toNat % pipesize)
      pipereadLoop p addr (i + 1) n

def piperead (p addr : ℕ) (n : ℤ) : Code ℤ := do
  let s ← get
  let killed ← pipereadWait p (s.wakes.length + 1)
  if killed then return -1
  else do
    let i ← pipereadLoop p addr 0 n.toNat
    return i

/-- The wait of `pipewrite` for room: whether the write has failed. Each turn takes one of `wakes`. -/
def pipewriteWait (p : ℕ) : ℕ → Code Bool
  | 0 => throw .asleep
  | k + 1 => do
    let s ← get
    if (s.pipe p).nwrite = (s.pipe p).nread + BitVec.ofNat 32 pipesize then
      if (s.pipe p).readopen = false ∨ s.killed then return true
      else do
        sleep
        pipewriteWait p k
    else return false

/-- The loop of `pipewrite` from `i` on, with so many bytes to go: whether all were written. -/
def pipewriteLoop (p addr : ℕ) : ℕ → ℕ → Code Bool
  | _, 0 => return true
  | i, n + 1 => do
    let s ← get
    let failed ← pipewriteWait p (s.wakes.length + 1)
    if failed then return false
    else do
      let bytes ← fromUser (addr + i) 1
      let s ← get
      let pi := s.pipe p
      let data := Function.update pi.data (pi.nwrite.toNat % pipesize) (bytes 0)
      set { s with pipe := Function.update s.pipe p { pi with data := data, nwrite := pi.nwrite + 1#32 } }
      pipewriteLoop p addr (i + 1) n

def pipewrite (p addr : ℕ) (n : ℤ) : Code ℤ := do
  let written ← pipewriteLoop p addr 0 n.toNat
  if written then return n else return -1

end OperatingSystems.Files
