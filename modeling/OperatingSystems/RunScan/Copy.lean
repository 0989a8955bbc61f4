import Mathlib.Tactic

/-! # Runscan: the content written for a JPEG inode

`runscan` recovers a file by three loops that read ahead: each writes the block in `buffer` and
then reads the next one, over the direct pointers, over the entries of the indirect block, and over
the entries of every block that the double indirect block names. One loop hands `buffer` and
`bytes_copied` on to the next.

* `copyLoop` is the read-ahead loop, `outerLoop` the loop around its third copy, `copyBlocks` the
  three in the order of `main`, and `recover` adds the tests on the mode and on the magic bytes.
* `copyLoop_spec`: the loop writes the blocks of its pointer array in order, as far as the size goes.
* `recover_eq`: what is written for a JPEG inode is the first `i_size` bytes of its blocks.

A block number `p` is read as the `blockSize` bytes at offset `p * blockSize` of the image. -/

namespace OperatingSystems.RunScan.Copy

/-! ### The image and the inode -/

/-- The bytes of a disk image. -/
abbrev Disk := ℕ → UInt8

/-- `EXT2_NDIR_BLOCKS`. -/
def ext2NdirBlocks : ℕ := 12

/-- `EXT2_IND_BLOCK`. -/
def ext2IndBlock : ℕ := ext2NdirBlocks

/-- `EXT2_DIND_BLOCK`. -/
def ext2DindBlock : ℕ := ext2IndBlock + 1

/-- The fields of `struct ext2_inode` that the copy reads. -/
structure Inode where
  iMode : UInt16
  iSize : UInt32
  iBlock : ℕ → ℕ

/-- `lseek(fd, BLOCK_OFFSET(p), SEEK_SET); read(fd, buffer, block_size)`. -/
def readBlock (d : Disk) (blockSize : UInt32) (p : ℕ) : List UInt8 :=
  (List.range blockSize.toNat).map fun k => d (p * blockSize.toNat + k)

/-- Entry `k` of a block read as an array of 4-byte pointers, stored in intel byte order. -/
def entry (blk : List UInt8) (k : ℕ) : ℕ :=
  (blk.getD (4 * k) 0).toNat + 2 ^ 8 * (blk.getD (4 * k + 1) 0).toNat +
    2 ^ 16 * (blk.getD (4 * k + 2) 0).toNat + 2 ^ 24 * (blk.getD (4 * k + 3) 0).toNat

/-! ### The loops -/

/-- What the loops hand on: the count, the block read last, and the bytes written so far. -/
structure CopyState where
  bytesCopied : UInt32
  buffer : List UInt8
  written : List UInt8

/-- The length of the next write: what is left, or a whole block. -/
def writeLen (bytesCopied blockSize iSize : UInt32) : UInt32 :=
  if bytesCopied + blockSize > iSize then iSize - bytesCopied else blockSize

theorem writeLen_of_ne {b B n : UInt32} (h : writeLen b B n ≠ B) : writeLen b B n = n - b := by
  unfold writeLen at h ⊢
  split_ifs at h ⊢ with hgt
  · rfl
  · exact absurd rfl h

/-- After a short write nothing is left. -/
theorem add_writeLen_of_ne {b B n : UInt32} (h : writeLen b B n ≠ B) : b + writeLen b B n = n := by
  rw [writeLen_of_ne h, UInt32.add_comm, UInt32.sub_add_cancel]

/-- **The read-ahead loop.** `fetch k` is what reading the block of pointer `k` leaves in `buffer`;
`limit` is the length of the pointer array. -/
def copyLoop (fetch : ℕ → List UInt8) (blockSize iSize : UInt32) (limit blockIdx : ℕ)
    (c : CopyState) : CopyState :=
  if c.bytesCopied < iSize ∧ blockIdx < limit then
    let len := writeLen c.bytesCopied blockSize iSize
    let c' : CopyState := { c with
      bytesCopied := c.bytesCopied + len
      written := c.written ++ c.buffer.take len.toNat }
    if len = blockSize then
      copyLoop fetch blockSize iSize limit (blockIdx + 1) { c' with buffer := fetch (blockIdx + 1) }
    else copyLoop fetch blockSize iSize limit blockIdx c'
  else c
termination_by (limit - blockIdx, (iSize - c.bytesCopied).toNat)
decreasing_by
  · left; omega
  · -- a short write is the last one: the count reaches `i_size`
    next hguard hlen =>
    right
    have hlt := UInt32.lt_iff_toNat_lt.mp hguard.1
    have hsub := UInt32.toNat_sub_of_le _ _ (UInt32.le_of_lt hguard.1)
    have hend : c.bytesCopied + writeLen c.bytesCopied blockSize iSize = iSize := by
      rw [writeLen_of_ne hlen, UInt32.add_comm, UInt32.sub_add_cancel]
    show (iSize - (c.bytesCopied + writeLen c.bytesCopied blockSize iSize)).toNat < _
    rw [hend, UInt32.sub_self, UInt32.toNat_zero]
    omega

/-- Reading pointer `k` of a pointer block. Past the end of the array the pointer is whatever lies
behind it on the stack, and `stray k` is what `buffer` then holds. -/
def fetchEntry (d : Disk) (blockSize : UInt32) (stray : ℕ → List UInt8) (blk : List UInt8) (k : ℕ) :
    List UInt8 :=
  if k < blockSize.toNat / 4 then readBlock d blockSize (entry blk k) else stray k

/-- The copy from an indirect block: its first block is read before the loop starts. -/
def copyIndirect (d : Disk) (blockSize : UInt32) (stray : ℕ → List UInt8) (iSize : UInt32) (p : ℕ)
    (c : CopyState) : CopyState :=
  let indBlock := readBlock d blockSize p
  copyLoop (fetchEntry d blockSize stray indBlock) blockSize iSize (blockSize.toNat / 4) 0
    { c with buffer := readBlock d blockSize (entry indBlock 0) }

/-- The loop over the entries of the double indirect block. -/
def outerLoop (d : Disk) (blockSize : UInt32) (stray : ℕ → List UInt8) (iSize : UInt32)
    (outerIndBlock : List UInt8) (outerBlockIdx : ℕ) (c : CopyState) : CopyState :=
  if c.bytesCopied < iSize ∧ outerBlockIdx < blockSize.toNat / 4 then
    outerLoop d blockSize stray iSize outerIndBlock (outerBlockIdx + 1)
      (copyIndirect d blockSize stray iSize (entry outerIndBlock outerBlockIdx) c)
  else c
termination_by blockSize.toNat / 4 - outerBlockIdx

/-- **The three copies in the order of `main`**, from the block that was read for the magic test. -/
def copyBlocks (d : Disk) (blockSize : UInt32) (stray : ℕ → List UInt8) (inode : Inode)
    (buffer : List UInt8) : CopyState :=
  let c := copyLoop (fun k => readBlock d blockSize (inode.iBlock k)) blockSize inode.iSize
    ext2NdirBlocks 0 ⟨0, buffer, []⟩
  let c := if c.bytesCopied < inode.iSize then
      copyIndirect d blockSize stray inode.iSize (inode.iBlock ext2IndBlock) c
    else c
  if c.bytesCopied < inode.iSize then
    outerLoop d blockSize stray inode.iSize (readBlock d blockSize (inode.iBlock ext2DindBlock)) 0 c
  else c

/-- `S_ISREG`. -/
def sIsreg (mode : UInt16) : Bool := mode &&& 0xF000 == 0x8000

/-- The test on the first four bytes of the first data block. -/
def isJpg (buffer : List UInt8) : Bool :=
  buffer.getD 0 0 == 0xff && buffer.getD 1 0 == 0xd8 && buffer.getD 2 0 == 0xff &&
    (buffer.getD 3 0 == 0xe0 || buffer.getD 3 0 == 0xe1 || buffer.getD 3 0 == 0xe8)

/-- The bytes of `file-<inode>.jpg`, if one is created for the inode. -/
def recover (d : Disk) (blockSize : UInt32) (stray : ℕ → List UInt8) (inode : Inode) :
    Option (List UInt8) :=
  let buffer := readBlock d blockSize (inode.iBlock 0)
  if sIsreg inode.iMode && isJpg buffer then
    some (copyBlocks d blockSize stray inode buffer).written
  else none

/-! ### The content of an inode -/

/-- The block numbers a pointer block holds. -/
def entries (d : Disk) (blockSize : UInt32) (p : ℕ) : List ℕ :=
  (List.range (blockSize.toNat / 4)).map (entry (readBlock d blockSize p))

/-- **The data blocks of an inode in logical order**: direct, indirect, double indirect. -/
def dataBlocks (d : Disk) (blockSize : UInt32) (inode : Inode) : List ℕ :=
  (List.range ext2NdirBlocks).map inode.iBlock ++
    entries d blockSize (inode.iBlock ext2IndBlock) ++
    (entries d blockSize (inode.iBlock ext2DindBlock)).flatMap (entries d blockSize)

/-- The bytes of a list of blocks. -/
def content (d : Disk) (blockSize : UInt32) (ps : List ℕ) : List UInt8 :=
  ps.flatMap (readBlock d blockSize)

/-! ### Lengths -/

theorem length_readBlock (d : Disk) (B : UInt32) (p : ℕ) : (readBlock d B p).length = B.toNat := by
  simp [readBlock]

theorem length_entries (d : Disk) (B : UInt32) (p : ℕ) : (entries d B p).length = B.toNat / 4 := by
  simp [entries]

theorem length_content (d : Disk) (B : UInt32) (ps : List ℕ) :
    (content d B ps).length = ps.length * B.toNat := by
  induction ps with
  | nil => simp [content]
  | cons p ps ih =>
    have h : content d B (p :: ps) = readBlock d B p ++ content d B ps := rfl
    rw [h, List.length_append, ih, length_readBlock, List.length_cons]
    ring

theorem content_append (d : Disk) (B : UInt32) (ps qs : List ℕ) :
    content d B (ps ++ qs) = content d B ps ++ content d B qs := List.flatMap_append

theorem length_dataBlocks (d : Disk) (B : UInt32) (inode : Inode) :
    (dataBlocks d B inode).length = 12 + B.toNat / 4 + B.toNat / 4 * (B.toNat / 4) := by
  have hsum : ∀ ps : List ℕ, (ps.flatMap (entries d B)).length = ps.length * (B.toNat / 4) := by
    intro ps
    induction ps with
    | nil => simp
    | cons p ps ih =>
      rw [List.flatMap_cons, List.length_append, ih, length_entries, List.length_cons]
      ring
  simp only [dataBlocks, List.length_append, List.length_map, List.length_range, length_entries,
    hsum, ext2NdirBlocks]

/-! ### Copying a list of bytes -/

/-- **`c'` is `c` after the bytes `xs`**, of which the size `n` lets only the first be written. -/
structure Copied (n : UInt32) (xs : List UInt8) (c c' : CopyState) : Prop where
  written : c'.written = c.written ++ xs.take (n.toNat - c.bytesCopied.toNat)
  count : c'.bytesCopied.toNat = min n.toNat (c.bytesCopied.toNat + xs.length)

section Copied
variable {n : UInt32} {xs ys : List UInt8} {c c' c'' : CopyState}

theorem Copied.le (h : Copied n xs c c') : c'.bytesCopied ≤ n := by
  rw [UInt32.le_iff_toNat_le, h.count]; exact min_le_left _ _

theorem Copied.trans (hc : c.bytesCopied ≤ n) (h : Copied n xs c c') (h' : Copied n ys c' c'') :
    Copied n (xs ++ ys) c c'' := by
  have hle := UInt32.le_iff_toNat_le.mp hc
  have hcount := h.count
  refine ⟨?_, ?_⟩
  · rw [h'.written, h.written, List.append_assoc, List.take_append]
    congr 3
    omega
  · rw [h'.count, hcount, List.length_append]
    omega

/-- Nothing is left to copy. -/
theorem Copied.done (hc : ¬ c.bytesCopied < n) (hle : c.bytesCopied ≤ n) : Copied n xs c c := by
  rw [UInt32.lt_iff_toNat_lt] at hc
  rw [UInt32.le_iff_toNat_le] at hle
  refine ⟨?_, by omega⟩
  rw [show n.toNat - c.bytesCopied.toNat = 0 by omega, List.take_zero, List.append_nil]

/-- No bytes to copy. -/
theorem Copied.nil (hle : c.bytesCopied ≤ n) : Copied n [] c c := by
  rw [UInt32.le_iff_toNat_le] at hle
  exact ⟨by simp, by simp; omega⟩

/-- A branch that is taken only if something is left copies its bytes either way. -/
theorem Copied.ite (hle : c.bytesCopied ≤ n) (h : c.bytesCopied < n → Copied n xs c c') :
    Copied n xs c (if c.bytesCopied < n then c' else c) := by
  split_ifs with hlt
  · exact h hlt
  · exact Copied.done hlt hle

end Copied

/-! ### The loops copy their blocks -/

theorem flatMap_fetchEntry (d : Disk) (B : UInt32) (stray : ℕ → List UInt8) (p : ℕ) :
    (List.range' 0 (B.toNat / 4)).flatMap (fetchEntry d B stray (readBlock d B p)) =
      content d B (entries d B p) := by
  rw [content, entries, List.flatMap_map, ← List.range_eq_range']
  refine List.flatMap_congr fun k hk => ?_
  rw [fetchEntry, if_pos (List.mem_range.mp hk)]

section Loops
variable {B n : UInt32} (hov : n.toNat + B.toNat < 2 ^ 32)
include hov

/-- Without overflow a write is as long as the block and the size allow. -/
theorem toNat_writeLen {b : UInt32} (hb : b ≤ n) :
    (writeLen b B n).toNat = min B.toNat (n.toNat - b.toNat) := by
  have hb' := UInt32.le_iff_toNat_le.mp hb
  have hadd : (b + B).toNat = b.toNat + B.toNat := by
    rw [UInt32.toNat_add, Nat.mod_eq_of_lt (by omega)]
  unfold writeLen
  split_ifs with hgt
  · rw [gt_iff_lt, UInt32.lt_iff_toNat_lt, hadd] at hgt
    rw [UInt32.toNat_sub_of_le _ _ hb]
    omega
  · rw [gt_iff_lt, UInt32.lt_iff_toNat_lt, hadd] at hgt
    omega

/-- **One pass of the loop** copies the block in `buffer`. -/
theorem copied_write {c : CopyState} (hlen : c.buffer.length = B.toNat) (hle : c.bytesCopied ≤ n)
    (buf : List UInt8) :
    Copied n c.buffer c
      ⟨c.bytesCopied + writeLen c.bytesCopied B n, buf,
        c.written ++ c.buffer.take (writeLen c.bytesCopied B n).toNat⟩ := by
  have hle' := UInt32.le_iff_toNat_le.mp hle
  have hw := toNat_writeLen hov hle
  refine ⟨?_, ?_⟩
  · show c.written ++ c.buffer.take _ = _
    rw [hw, ← List.take_take, List.take_of_length_le (l := c.buffer.take _) (by simp [hlen])]
  · show (c.bytesCopied + _).toNat = _
    rw [UInt32.toNat_add, hw, hlen, Nat.mod_eq_of_lt (by omega)]
    omega

/-- **The read-ahead loop copies the blocks `idx, …, limit - 1`**, by induction on their number. -/
theorem copyLoop_spec (fetch : ℕ → List UInt8) {limit : ℕ}
    (hlen : ∀ k < limit, (fetch k).length = B.toNat) :
    ∀ (m idx : ℕ) (c : CopyState), idx + m = limit → (0 < m → c.buffer = fetch idx) →
      c.bytesCopied ≤ n →
      Copied n ((List.range' idx m).flatMap fetch) c (copyLoop fetch B n limit idx c) := by
  intro m
  induction m with
  | zero =>
    intro idx c hm _ hle
    rw [copyLoop, if_neg (by omega)]
    exact Copied.nil hle
  | succ m ih =>
    intro idx c hm hbuf hle
    rw [copyLoop]
    by_cases hlt : c.bytesCopied < n
    · rw [if_pos ⟨hlt, by omega⟩]
      have hbl : c.buffer.length = B.toNat := by rw [hbuf (by omega)]; exact hlen idx (by omega)
      rw [List.range'_succ, List.flatMap_cons, ← hbuf (by omega)]
      dsimp only
      split_ifs with hw
      · have h1 := copied_write hov hbl hle (fetch (idx + 1))
        exact h1.trans hle (ih (idx + 1) _ (by omega) (fun _ => rfl) h1.le)
      · -- a short write: the loop ends with the count at the size
        have h1 := copied_write hov hbl hle c.buffer
        have hstop : ¬ c.bytesCopied + writeLen c.bytesCopied B n < n := by
          rw [add_writeLen_of_ne hw]
          exact UInt32.lt_irrefl n
        rw [copyLoop, if_neg (fun h => hstop h.1)]
        exact h1.trans hle (Copied.done hstop h1.le)
    · rw [if_neg (fun h => hlt h.1)]
      exact Copied.done hlt hle

theorem copyIndirect_spec (d : Disk) (stray : ℕ → List UInt8) (p : ℕ)
    {c : CopyState} (hle : c.bytesCopied ≤ n) :
    Copied n (content d B (entries d B p)) c (copyIndirect d B stray n p c) := by
  rw [← flatMap_fetchEntry d B stray p]
  have h := copyLoop_spec hov (fetchEntry d B stray (readBlock d B p))
    (fun k (hk : k < B.toNat / 4) => by rw [fetchEntry, if_pos hk, length_readBlock])
    (B.toNat / 4) 0 { c with buffer := readBlock d B (entry (readBlock d B p) 0) } (by omega)
    (fun h => by rw [fetchEntry, if_pos h]) hle
  exact ⟨h.written, h.count⟩

/-- **The loop over the double indirect block**, by induction on the entries left. -/
theorem outerLoop_spec (d : Disk) (stray : ℕ → List UInt8) (blk : List UInt8) :
    ∀ (m idx : ℕ) (c : CopyState), idx + m = B.toNat / 4 → c.bytesCopied ≤ n →
      Copied n (content d B ((List.range' idx m).flatMap fun k => entries d B (entry blk k))) c
        (outerLoop d B stray n blk idx c) := by
  intro m
  induction m with
  | zero =>
    intro idx c hm hle
    rw [outerLoop, if_neg (by omega)]
    exact Copied.nil hle
  | succ m ih =>
    intro idx c hm hle
    rw [outerLoop]
    by_cases hlt : c.bytesCopied < n
    · rw [if_pos ⟨hlt, by omega⟩, List.range'_succ, List.flatMap_cons, content_append]
      have h1 := copyIndirect_spec hov d stray (entry blk idx) hle
      exact h1.trans hle (ih (idx + 1) _ (by omega) h1.le)
    · rw [if_neg (fun h => hlt h.1)]
      exact Copied.done hlt hle

/-- **All three copies** together copy the data blocks in logical order. -/
theorem copyBlocks_spec (d : Disk) (stray : ℕ → List UInt8) {inode : Inode}
    (hn : inode.iSize = n) :
    Copied n (content d B (dataBlocks d B inode)) ⟨0, readBlock d B (inode.iBlock 0), []⟩
      (copyBlocks d B stray inode (readBlock d B (inode.iBlock 0))) := by
  subst hn
  have h0 : (0 : UInt32) ≤ inode.iSize := UInt32.zero_le
  have hdirect := copyLoop_spec hov (fun k => readBlock d B (inode.iBlock k))
    (fun k (_ : k < ext2NdirBlocks) => length_readBlock d B _) ext2NdirBlocks 0
    ⟨0, readBlock d B (inode.iBlock 0), []⟩ (by simp) (fun _ => rfl) h0
  rw [← List.range_eq_range', ← List.flatMap_map] at hdirect
  have hind := Copied.ite hdirect.le fun _ =>
    copyIndirect_spec hov d stray (inode.iBlock ext2IndBlock) hdirect.le
  have hdind := Copied.ite hind.le fun _ =>
    outerLoop_spec hov d stray (readBlock d B (inode.iBlock ext2DindBlock)) (B.toNat / 4) 0 _
      (by omega) hind.le
  rw [← List.range_eq_range'] at hdind
  have hdbl : ((List.range (B.toNat / 4)).flatMap fun k =>
      entries d B (entry (readBlock d B (inode.iBlock ext2DindBlock)) k)) =
      (entries d B (inode.iBlock ext2DindBlock)).flatMap (entries d B) := by
    rw [entries, List.flatMap_map]
  rw [hdbl] at hdind
  have h := (hdirect.trans h0 hind).trans h0 hdind
  rw [dataBlocks, content_append, content_append]
  exact h

end Loops

/-- **The recovered file.** What is written for a JPEG inode is exactly the first `i_size` bytes of
its data blocks in logical order, for every size that the direct, indirect and double indirect
pointers can hold. -/
theorem recover_eq (d : Disk) (stray : ℕ → List UInt8) (inode : Inode) (B : UInt32)
    (hcap : inode.iSize.toNat ≤
      (12 + B.toNat / 4 + B.toNat / 4 * (B.toNat / 4)) * B.toNat)
    (hov : inode.iSize.toNat + B.toNat < 2 ^ 32)
    (hjpg : sIsreg inode.iMode ∧ isJpg (readBlock d B (inode.iBlock 0))) :
    ∃ bytes, recover d B stray inode = some bytes ∧
      bytes = (content d B (dataBlocks d B inode)).take inode.iSize.toNat ∧
      bytes.length = inode.iSize.toNat := by
  have h := (copyBlocks_spec hov d stray rfl).written
  simp only [UInt32.toNat_zero, Nat.sub_zero, List.nil_append] at h
  refine ⟨_, ?_, h, ?_⟩
  · rw [recover, if_pos (by simpa using hjpg)]
  · rw [h, List.length_take, length_content, length_dataBlocks]
    exact min_eq_left hcap

/-- An image in which every block of 1024 bytes starts with the magic bytes. -/
def jpgDisk : Disk := fun k => ([0xff, 0xd8, 0xff, 0xe0] : List UInt8).getD (k % 1024) 0

/-- A regular file of 13000 bytes, which the first indirect block ends. -/
def jpgInode : Inode := ⟨0x81A4, 13000, fun k => k + 20⟩

theorem recover_eq_jpgInode : ∃ bytes, recover jpgDisk 1024 (fun _ => []) jpgInode = some bytes ∧
    bytes = (content jpgDisk 1024 (dataBlocks jpgDisk 1024 jpgInode)).take 13000 ∧
    bytes.length = 13000 :=
  recover_eq jpgDisk (fun _ => []) jpgInode 1024 (by decide) (by decide)
    ⟨by decide, by decide +kernel⟩

end OperatingSystems.RunScan.Copy
