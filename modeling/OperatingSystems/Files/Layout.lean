import OperatingSystems.Files.Bitmap

/-! # The bytes of the disk

The kernel of the inode layer keeps the super block, the inodes and the bitmap as what they say. Here are the bytes
of the whole disk, for code that may also write to a block outside the data area: `Kernel.bytes` lays them out, and
`Kernel.mount` reads them back (`Kernel.mount_bytes`). `Kernel.write` writes a block, whichever it is. -/

namespace OperatingSystems.Files

open OperatingSystems.Lib.Words OperatingSystems.Pipes

/-! ### Bytes -/

/-- The byte `i` of a word of `n` bits. -/
def byteOf {n : ℕ} (w : BitVec n) (i : ℕ) : Byte := w.extractLsb' (8 * i) 8

/-- The half-word at `i`. -/
def half (data : ℕ → Byte) (i : ℕ) : Short := data (i + 1) ++ data i

/-- `sizeof(struct dinode)`. -/
def sizeofDinode : ℕ := 64

def Dinode.bytes (dip : Dinode) (i : ℕ) : Byte :=
  if i < 2 then byteOf dip.type i
  else if i < 4 then byteOf dip.major (i - 2)
  else if i < 6 then byteOf dip.minor (i - 4)
  else if i < 8 then byteOf dip.nlink (i - 6)
  else if i < 12 then byteOf dip.size (i - 8)
  else byteOf (dip.addrs ((i - 12) / 4)) ((i - 12) % 4)

/-- The disk inode at `o`. -/
def dinodeAt (data : ℕ → Byte) (o : ℕ) : Dinode where
  type := half data o
  major := half data (o + 2)
  minor := half data (o + 4)
  nlink := half data (o + 6)
  size := word data (o + 8)
  addrs j := word data (o + 12 + 4 * j)

/-- `IBLOCK`. -/
def iblock (i : ℕ) : ℕ := i / ipb + 2

/-- The bytes of a block. -/
def Kernel.bytes (s : Kernel) (b i : ℕ) : Byte :=
  let bitmap := Bitmap.bblock 0 s.sb.ninodes
  if b = 1 then
    if i < 4 then byteOf s.sb.size i
    else if 8 ≤ i ∧ i < 12 then byteOf s.sb.ninodes (i - 8)
    else s.block b i
  else if 2 ≤ b ∧ b < bitmap then (s.dinode (ipb * (b - 2) + i / sizeofDinode)).bytes (i % sizeofDinode)
  else if bitmap ≤ b ∧ b < s.sb.start then
    BitVec.ofNat 8 (Nat.ofBits fun j : Fin 8 => s.bitmap (bpb * (b - bitmap) + 8 * i + j))
  else s.block b i

/-- What a disk with these bytes says. -/
def Kernel.mount (s : Kernel) (disk : ℕ → ℕ → Byte) : Kernel :=
  let sb := Bitmap.readsb disk
  { s with
    sb := sb
    bitmap := fun b => (disk (Bitmap.bblock b sb.ninodes) (b % bpb / 8)).getLsbD (b % 8)
    dinode := fun i => dinodeAt (disk (iblock i)) (sizeofDinode * (i % ipb))
    block := disk }

/-! ### What is read back -/

variable {s : Kernel} {data : ℕ → Byte} {dip : Dinode} {o i k b : ℕ}

theorem word_of_bytes {w : Word} (h : ∀ i < 4, data (o + i) = byteOf w i) :
    word data o = w := by
  unfold word
  rw [h 3 (by decide), h 2 (by decide), h 1 (by decide), ← Nat.add_zero o, h 0 (by decide)]
  exact append_bytes w

theorem half_of_bytes {w : Short} (h : ∀ i < 2, data (o + i) = byteOf w i) :
    half data o = w := by
  unfold half
  rw [h 1 (by decide), ← Nat.add_zero o, h 0 (by decide)]
  ext k hk
  simp only [byteOf, BitVec.getElem_append, BitVec.getElem_extractLsb']
  split_ifs <;> (rw [← BitVec.getLsbD_eq_getElem hk]; congr 1; omega)

/-- The same disk inode; `addrs` has the indices up to `NDIRECT`. -/
structure Dinode.Same (dip dip' : Dinode) : Prop where
  type : dip.type = dip'.type
  major : dip.major = dip'.major
  minor : dip.minor = dip'.minor
  nlink : dip.nlink = dip'.nlink
  size : dip.size = dip'.size
  addrs : ∀ j ≤ ndirect, dip.addrs j = dip'.addrs j

theorem Dinode.bytes_type (hi : i < 2) : dip.bytes i = byteOf dip.type i := if_pos hi

theorem Dinode.bytes_major (hi : i < 2) : dip.bytes (2 + i) = byteOf dip.major i := by
  simp (disch := omega) [Dinode.bytes, if_neg, if_pos]

theorem Dinode.bytes_minor (hi : i < 2) : dip.bytes (4 + i) = byteOf dip.minor i := by
  simp (disch := omega) [Dinode.bytes, if_neg, if_pos]

theorem Dinode.bytes_nlink (hi : i < 2) : dip.bytes (6 + i) = byteOf dip.nlink i := by
  simp (disch := omega) [Dinode.bytes, if_neg, if_pos]

theorem Dinode.bytes_size (hi : i < 4) : dip.bytes (8 + i) = byteOf dip.size i := by
  simp (disch := omega) [Dinode.bytes, if_neg, if_pos]

theorem Dinode.bytes_addrs (j : ℕ) (hi : i < 4) : dip.bytes (12 + 4 * j + i) = byteOf (dip.addrs j) i := by
  have hdiv : (12 + 4 * j + i - 12) / 4 = j := by omega
  have hmod : (12 + 4 * j + i - 12) % 4 = i := by omega
  simp (disch := omega) [Dinode.bytes, if_neg, hdiv, hmod]

theorem dinodeAt_of_bytes (h : ∀ i < sizeofDinode, data (o + i) = dip.bytes i) : (dinodeAt data o).Same dip := by
  have hat : ∀ k i, k + i < 64 → data (o + k + i) = dip.bytes (k + i) := fun k i hk => by
    rw [Nat.add_assoc, h _ hk]
  refine ⟨half_of_bytes fun i hi => ?_, half_of_bytes fun i hi => ?_, half_of_bytes fun i hi => ?_,
    half_of_bytes fun i hi => ?_, word_of_bytes fun i hi => ?_, fun j hj => word_of_bytes fun i hi => ?_⟩
  · rw [h i (by unfold sizeofDinode; omega), Dinode.bytes_type hi]
  · rw [hat _ _ (by omega), Dinode.bytes_major hi]
  · rw [hat _ _ (by omega), Dinode.bytes_minor hi]
  · rw [hat _ _ (by omega), Dinode.bytes_nlink hi]
  · rw [hat _ _ (by omega), Dinode.bytes_size hi]
  · unfold ndirect at hj
    rw [Nat.add_assoc o, hat _ _ (by omega), Dinode.bytes_addrs j hi]

theorem bblock_eq (b : ℕ) (ninodes : Word) : Bitmap.bblock b ninodes = b / 4096 + ninodes.toNat / 8 + 3 := rfl

theorem start_eq (sb : Superblock) : sb.start = sb.ninodes.toNat / 8 + 3 + (sb.size.toNat / 4096 + 1) := rfl

theorem readsb_bytes (s : Kernel) : Bitmap.readsb s.bytes = s.sb := by
  have hsize : word (s.bytes 1) 0 = s.sb.size := word_of_bytes fun i hi => by
    rw [Nat.zero_add, Kernel.bytes, if_pos rfl, if_pos hi]
  have hninodes : word (s.bytes 1) 8 = s.sb.ninodes := word_of_bytes fun i hi => by
    rw [Kernel.bytes, if_pos rfl, if_neg (by omega), if_pos (by omega), Nat.add_sub_cancel_left]
  rw [Bitmap.readsb, hsize, hninodes]

/-- The bytes of an inode. -/
theorem bytes_of_dinode (hi : iblock i < Bitmap.bblock 0 s.sb.ninodes) (hk : k < sizeofDinode) :
    s.bytes (iblock i) (sizeofDinode * (i % ipb) + k) = (s.dinode i).bytes k := by
  have hdiv : (sizeofDinode * (i % ipb) + k) / sizeofDinode = i % ipb := by
    rw [Nat.mul_add_div (by decide), Nat.div_eq_of_lt hk, Nat.add_zero]
  have hmod : (sizeofDinode * (i % ipb) + k) % sizeofDinode = k := by
    rw [Nat.mul_add_mod, Nat.mod_eq_of_lt hk]
  have hfirst : 2 ≤ iblock i := Nat.le_add_left _ _
  rw [Kernel.bytes, if_neg (by omega), if_pos ⟨hfirst, hi⟩, hdiv, hmod, iblock, Nat.add_sub_cancel, Nat.div_add_mod]

/-- The bit of a block. -/
theorem bit_of_bitmap (hb : Bitmap.bblock b s.sb.ninodes < s.sb.start) :
    (s.bytes (Bitmap.bblock b s.sb.ninodes) (b % bpb / 8)).getLsbD (b % 8) = s.bitmap b := by
  have hlt : b % 8 < 8 := Nat.mod_lt _ (by decide)
  have hfirst : Bitmap.bblock 0 s.sb.ninodes ≤ Bitmap.bblock b s.sb.ninodes := by
    simp only [bblock_eq]
    omega
  have hbit : bpb * (Bitmap.bblock b s.sb.ninodes - Bitmap.bblock 0 s.sb.ninodes) + 8 * (b % bpb / 8) + b % 8 = b := by
    rw [bblock_eq, bblock_eq, Bitmap.bpb_eq]
    omega
  have hmeta : 3 ≤ Bitmap.bblock 0 s.sb.ninodes := Nat.le_add_left _ _
  rw [Kernel.bytes, if_neg (by omega), if_neg (by omega), if_pos ⟨hfirst, hb⟩, BitVec.getLsbD_ofNat,
    decide_eq_true hlt, Bool.true_and, Nat.testBit_ofBits_lt _ _ hlt]
  exact congrArg s.bitmap hbit

/-- **The bytes of the disk say what the kernel keeps**: the super block, the inodes, the bitmap and the data. -/
theorem Kernel.mount_bytes (s : Kernel) : (s.mount s.bytes).sb = s.sb ∧
    (∀ i, iblock i < Bitmap.bblock 0 s.sb.ninodes → ((s.mount s.bytes).dinode i).Same (s.dinode i)) ∧
    (∀ b, Bitmap.bblock b s.sb.ninodes < s.sb.start → (s.mount s.bytes).bitmap b = s.bitmap b) ∧
    ∀ b, s.sb.IsData b → (s.mount s.bytes).block b = s.block b := by
  refine ⟨readsb_bytes s, fun i hi => dinodeAt_of_bytes fun k hk => bytes_of_dinode hi hk, fun b hb => ?_,
    fun b hb => ?_⟩
  · show (s.bytes (Bitmap.bblock b (Bitmap.readsb s.bytes).ninodes) (b % bpb / 8)).getLsbD (b % 8) = s.bitmap b
    rw [readsb_bytes]
    exact bit_of_bitmap hb
  · have hstart := hb.1
    rw [start_eq] at hstart
    funext i
    show s.bytes b i = s.block b i
    rw [Kernel.bytes, if_neg (by omega), if_neg (by rw [bblock_eq]; omega),
      if_neg (not_and.mpr fun _ => not_lt.mpr hb.1)]

/-! ### Writes -/

/-- A block is written. -/
def Kernel.write (s : Kernel) (b : ℕ) (data : ℕ → Byte) : Kernel :=
  if s.sb.IsData b then { s with block := Function.update s.block b data }
  else s.mount (Function.update s.bytes b data)

@[simp] theorem Kernel.touched_write (s : Kernel) (b : ℕ) (data : ℕ → Byte) :
    (s.write b data).touched = s.touched := by
  unfold Kernel.write
  split_ifs <;> rfl

end OperatingSystems.Files
