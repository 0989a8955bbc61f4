import Mathlib.Tactic
import OperatingSystems.RunScan.Copy

/-! # Runscan: where the inodes are read

`ext2_read_init` takes the geometry from the super block, `read_group_descs` reads the descriptor
table behind it, and the two loops of `main` read every inode of every group.

* `scan` is the offset of the descriptor table and the list of the inodes read, each with its number
  and its offset in the image.
* `InPlace` says that this is the true table and that every inode is read once at its true place.
* `inPlace_iff`: so it is exactly for blocks of 1 KiB, if the group count of `ext2_read_init` is the
  right one and every inode table lies below 4 GiB. The macro `BLOCK_OFFSET` has no parentheses round
  its argument: `BLOCK_OFFSET( BASE_OFFSET + 1 )` is one block behind byte 1024. -/

namespace OperatingSystems.RunScan.Geometry

open OperatingSystems.RunScan.Copy (Disk)

/-! ### The super block -/

/-- A 16-bit number of the image, stored in intel byte order. -/
def u16 (d : Disk) (off : ℕ) : UInt16 := UInt16.ofNat ((d off).toNat + 2 ^ 8 * (d (off + 1)).toNat)

/-- A 32-bit number of the image, stored in intel byte order. -/
def u32 (d : Disk) (off : ℕ) : UInt32 :=
  UInt32.ofNat ((d off).toNat + 2 ^ 8 * (d (off + 1)).toNat + 2 ^ 16 * (d (off + 2)).toNat +
    2 ^ 24 * (d (off + 3)).toNat)

/-- The fields of `struct ext2_super_block` that the scan reads. -/
structure SuperBlock where
  sInodesCount : UInt32
  sBlocksCount : UInt32
  sFirstDataBlock : UInt32
  sLogBlockSize : UInt32
  sBlocksPerGroup : UInt32
  sInodesPerGroup : UInt32
  sMagic : UInt16
  sInodeSize : UInt16
deriving DecidableEq

/-- `BASE_OFFSET`. -/
def baseOffset : UInt32 := 1024

/-- `EXT2_SUPER_MAGIC`. -/
def ext2SuperMagic : UInt16 := 0xEF53

/-- `lseek(fd, BASE_OFFSET, SEEK_SET); read(fd, super, sizeof(struct ext2_super_block))`. -/
def readSuperBlock (d : Disk) : SuperBlock where
  sInodesCount := u32 d (baseOffset.toNat + 0)
  sBlocksCount := u32 d (baseOffset.toNat + 4)
  sFirstDataBlock := u32 d (baseOffset.toNat + 20)
  sLogBlockSize := u32 d (baseOffset.toNat + 24)
  sBlocksPerGroup := u32 d (baseOffset.toNat + 32)
  sInodesPerGroup := u32 d (baseOffset.toNat + 40)
  sMagic := u16 d (baseOffset.toNat + 56)
  sInodeSize := u16 d (baseOffset.toNat + 88)

/-- The variables that `ext2_read_init` sets and the scan reads. -/
structure Globals where
  blockSize : UInt32
  inodesPerBlock : UInt32
  itableBlocks : UInt32
  blocksPerGroup : UInt32
  numGroups : UInt32
  inodesPerGroup : UInt32

/-- What `ext2_read_init` computes from the super block. -/
def geometry (super : SuperBlock) : Globals :=
  let blockSize := 1024 <<< super.sLogBlockSize
  let inodesPerBlock := blockSize / super.sInodeSize.toUInt32
  let blocksPerGroup := super.sBlocksPerGroup
  { blockSize := blockSize
    inodesPerBlock := inodesPerBlock
    itableBlocks := super.sInodesPerGroup / inodesPerBlock
    blocksPerGroup := blocksPerGroup
    numGroups := (super.sBlocksCount + blocksPerGroup - 1) / blocksPerGroup
    inodesPerGroup := super.sInodesPerGroup }

/-- `ext2_read_init`, unless the magic number is wrong (`exit(1)`) or a divisor is zero. -/
def ext2ReadInit (super : SuperBlock) : Option Globals :=
  if super.sMagic ≠ ext2SuperMagic then none
  else if super.sInodeSize = 0 ∨ (geometry super).inodesPerBlock = 0 ∨ super.sBlocksPerGroup = 0 then
    none
  else some (geometry super)

/-! ### The descriptors and the inodes -/

/-- `BLOCK_OFFSET(block)` of a single operand: the 32-bit product. -/
def blockOffset (g : Globals) (block : UInt32) : UInt32 := block * g.blockSize

/-- `BLOCK_OFFSET( BASE_OFFSET + 1 )`, which expands to `(BASE_OFFSET + 1*block_size)`. -/
def groupDescsOffset (g : Globals) : UInt32 := baseOffset + 1 * g.blockSize

/-- `bg_inode_table` of a descriptor in a table of `struct ext2_group_desc` at `table`. -/
def bgInodeTable (d : Disk) (table ngroup : ℕ) : UInt32 := u32 d (table + 32 * ngroup + 8)

/-- The table that `read_group_descs` reads; `locate_inode_table` goes by it. -/
def locateInodeTable (d : Disk) (g : Globals) (ngroup : ℕ) : UInt32 :=
  blockOffset g (bgInodeTable d (groupDescsOffset g).toNat ngroup)

/-- The offset that `read_inode` seeks to: `offset + (inode_no-1)*s_inode_size`, whose product is an
`int`. -/
def inodeOffset (table : UInt32) (inodeNo : ℤ) (sInodeSize : UInt16) : ℤ :=
  table.toNat + Int.bmod ((inodeNo - 1) * sInodeSize.toNat) (2 ^ 32)

/-- An inode read by the scan: `ngroup * inodes_per_group + i` and its offset. -/
structure InodeRead where
  number : UInt32
  offset : ℤ

/-- The body of the two loops. -/
def visitInode (d : Disk) (super : SuperBlock) (g : Globals) (ngroup i : ℕ) : InodeRead where
  number := UInt32.ofNat ngroup * g.inodesPerGroup + UInt32.ofNat i
  offset := inodeOffset (locateInodeTable d g ngroup) i super.sInodeSize

/-- `for (; i <= inodes_per_group; i++)`. -/
def inodeLoop (d : Disk) (super : SuperBlock) (g : Globals) (ngroup i : ℕ) : List InodeRead :=
  if i ≤ g.inodesPerGroup.toNat then
    visitInode d super g ngroup i :: inodeLoop d super g ngroup (i + 1)
  else []
termination_by g.inodesPerGroup.toNat + 1 - i

/-- `for (; ngroup < num_groups; ngroup++)`. -/
def groupLoop (d : Disk) (super : SuperBlock) (g : Globals) (ngroup : ℕ) : List InodeRead :=
  if ngroup < g.numGroups.toNat then
    inodeLoop d super g ngroup 1 ++ groupLoop d super g (ngroup + 1)
  else []
termination_by g.numGroups.toNat - ngroup

/-- Where the descriptor table is read, and the inodes in the order of the scan. -/
structure Scan where
  descs : UInt32
  reads : List InodeRead

/-- **The scan of `main`.** -/
def scan (d : Disk) : Option Scan :=
  (ext2ReadInit (readSuperBlock d)).map fun g =>
    ⟨groupDescsOffset g, groupLoop d (readSuperBlock d) g 0⟩

/-! ### The true places -/

/-- `EXT2_MIN_BLOCK_SIZE << s_log_block_size`, as a number. -/
def blockBytes (super : SuperBlock) : ℕ := 1024 * 2 ^ super.sLogBlockSize.toNat

/-- The number of groups: the blocks from the first data block on, in groups of
`s_blocks_per_group`. -/
def groupsCount (super : SuperBlock) : ℕ :=
  (super.sBlocksCount.toNat - super.sFirstDataBlock.toNat + super.sBlocksPerGroup.toNat - 1) /
    super.sBlocksPerGroup.toNat

/-- The descriptor table: the block behind the one with the super block. -/
def descsAt (super : SuperBlock) : ℕ := (super.sFirstDataBlock.toNat + 1) * blockBytes super

/-- The place of inode `k`. -/
def inodeAt (d : Disk) (super : SuperBlock) (k : ℕ) : ℕ :=
  (bgInodeTable d (descsAt super) ((k - 1) / super.sInodesPerGroup.toNat)).toNat * blockBytes super +
    (k - 1) % super.sInodesPerGroup.toNat * super.sInodeSize.toNat

/-- **A valid super block**: the first data block goes by the block size, the bitmaps of a group fit a
block each, inodes fit a block, and every group has all its inodes. -/
structure Valid (super : SuperBlock) : Prop where
  magic : super.sMagic = ext2SuperMagic
  log : super.sLogBlockSize.toNat < 22
  first : super.sFirstDataBlock = if super.sLogBlockSize = 0 then 1 else 0
  blocks : super.sFirstDataBlock < super.sBlocksCount
  perGroup : 0 < super.sBlocksPerGroup.toNat ∧
    super.sBlocksPerGroup.toNat ≤ 8 * blockBytes super
  inodesPer : 0 < super.sInodesPerGroup.toNat ∧
    super.sInodesPerGroup.toNat ≤ 8 * blockBytes super
  inodeSize : 128 ≤ super.sInodeSize.toNat ∧ super.sInodeSize.toNat ≤ blockBytes super
  inodes : super.sInodesCount.toNat = groupsCount super * super.sInodesPerGroup.toNat

/-- **Every inode is scanned at its true place**: the descriptors are the true ones, the numbers
`1, …, s_inodes_count` come up once each, and each inode is read where it is. -/
def InPlace (d : Disk) : Prop :=
  ∃ r, scan d = some r ∧
    r.descs.toNat = descsAt (readSuperBlock d) ∧
    (r.reads.map fun v => v.number.toNat).Perm
      (List.range' 1 (readSuperBlock d).sInodesCount.toNat) ∧
    ∀ v ∈ r.reads, v.offset = inodeAt d (readSuperBlock d) v.number.toNat

/-! ### The loops -/

theorem inodeLoop_eq (d : Disk) (super : SuperBlock) (g : Globals) (ngroup : ℕ) :
    ∀ (m i : ℕ), i + m = g.inodesPerGroup.toNat + 1 →
      inodeLoop d super g ngroup i = (List.range' i m).map (visitInode d super g ngroup) := by
  intro m
  induction m with
  | zero =>
    intro i hm
    rw [inodeLoop, if_neg (by omega)]
    rfl
  | succ m ih =>
    intro i hm
    rw [inodeLoop, if_pos (by omega), ih (i + 1) (by omega)]
    rfl

theorem groupLoop_eq (d : Disk) (super : SuperBlock) (g : Globals) :
    ∀ (m ngroup : ℕ), ngroup + m = g.numGroups.toNat →
      groupLoop d super g ngroup = (List.range' ngroup m).flatMap fun n =>
        (List.range' 1 g.inodesPerGroup.toNat).map (visitInode d super g n) := by
  intro m
  induction m with
  | zero =>
    intro ngroup hm
    rw [groupLoop, if_neg (by omega)]
    rfl
  | succ m ih =>
    intro ngroup hm
    rw [groupLoop, if_pos (by omega), ih (ngroup + 1) (by omega),
      inodeLoop_eq d super g ngroup g.inodesPerGroup.toNat 1 (by omega)]
    rfl

theorem toNat_number {n i : ℕ} {p : UInt32} (h : n * p.toNat + i < 2 ^ 32) :
    (UInt32.ofNat n * p + UInt32.ofNat i).toNat = n * p.toNat + i := by
  rw [UInt32.toNat_add, UInt32.toNat_mul, UInt32.toNat_ofNat', UInt32.toNat_ofNat', Nat.mod_mul_mod,
    Nat.add_mod_mod, Nat.mod_add_mod, Nat.mod_eq_of_lt h]

/-- What the scan reads: inode `i` of group `n`, for all `n` and `i`. -/
theorem mem_groupLoop {d : Disk} {super : SuperBlock} {g : Globals} {v : InodeRead} :
    v ∈ groupLoop d super g 0 ↔ ∃ n < g.numGroups.toNat, ∃ i, 1 ≤ i ∧ i ≤ g.inodesPerGroup.toNat ∧
      visitInode d super g n i = v := by
  rw [groupLoop_eq d super g g.numGroups.toNat 0 (by omega)]
  simp only [List.mem_flatMap, List.mem_range'_1, List.mem_map]
  constructor
  · rintro ⟨n, hn, i, hi, rfl⟩
    exact ⟨n, by omega, i, by omega, by omega, rfl⟩
  · rintro ⟨n, hn, i, h1, hi, rfl⟩
    exact ⟨n, by omega, i, by omega, rfl⟩

theorem length_groupLoop (d : Disk) (super : SuperBlock) (g : Globals) :
    (groupLoop d super g 0).length = g.numGroups.toNat * g.inodesPerGroup.toNat := by
  rw [groupLoop_eq d super g g.numGroups.toNat 0 (by omega), List.length_flatMap]
  simp

/-- The numbers `n * p + i` of the groups, one after the other. -/
theorem flatMap_numbers (p : ℕ) : ∀ m : ℕ,
    ((List.range m).flatMap fun n => (List.range' 1 p).map (n * p + ·)) = List.range' 1 (m * p) := by
  intro m
  induction m with
  | zero => simp
  | succ m ih =>
    rw [List.range_succ, List.flatMap_append, ih, List.flatMap_singleton, List.map_add_range',
      show (m + 1) * p = m * p + p by ring, ← List.range'_append_1]
    congr 2
    omega

/-- **The numbers come up in order**, each once, where they fit the 32 bits of `inode_num`. -/
theorem numbers_groupLoop (d : Disk) (super : SuperBlock) (g : Globals)
    (hfit : g.numGroups.toNat * g.inodesPerGroup.toNat < 2 ^ 32) :
    ((groupLoop d super g 0).map fun v => v.number.toNat) =
      List.range' 1 (g.numGroups.toNat * g.inodesPerGroup.toNat) := by
  rw [groupLoop_eq d super g g.numGroups.toNat 0 (by omega), ← List.range_eq_range',
    List.map_flatMap, ← flatMap_numbers]
  refine List.flatMap_congr fun n hn => ?_
  rw [List.map_map]
  refine List.map_congr_left fun i hi => ?_
  have hn' := List.mem_range.mp hn
  have hi' := List.mem_range'_1.mp hi
  have hle : n * g.inodesPerGroup.toNat + i ≤ g.numGroups.toNat * g.inodesPerGroup.toNat := by
    calc n * g.inodesPerGroup.toNat + i ≤ (n + 1) * g.inodesPerGroup.toNat := by
          rw [Nat.succ_mul]; omega
      _ ≤ _ := Nat.mul_le_mul_right _ hn'
  exact toNat_number (by omega)

/-- The block size of any super block is one of 32 shifts. -/
theorem blockSize_of_shifts {P : ℕ → Prop} (super : SuperBlock) (h : ∀ r < 32, P (1024 <<< r % 2 ^ 32)) :
    P (geometry super).blockSize.toNat := by
  show P (1024 <<< super.sLogBlockSize).toNat
  rw [UInt32.toNat_shiftLeft]
  exact h _ (Nat.mod_lt _ (by decide))

/-! ### The geometry of a valid super block -/

section Valid
variable {super : SuperBlock} (h : Valid super)
include h

theorem toNat_blockSize : (geometry super).blockSize.toNat = blockBytes super := by
  have hlog := h.log
  have hle : 2 ^ super.sLogBlockSize.toNat ≤ 2 ^ 21 := Nat.pow_le_pow_right (by omega) (by omega)
  show (1024 <<< super.sLogBlockSize).toNat = 1024 * 2 ^ super.sLogBlockSize.toNat
  rw [UInt32.toNat_shiftLeft, Nat.mod_eq_of_lt (show super.sLogBlockSize.toNat < 32 by omega),
    Nat.shiftLeft_eq, show (1024 : UInt32).toNat = 1024 from rfl]
  exact Nat.mod_eq_of_lt (by omega)

theorem blockBytes_le : blockBytes super ≤ 2 ^ 31 := by
  have hle : 2 ^ super.sLogBlockSize.toNat ≤ 2 ^ 21 :=
    Nat.pow_le_pow_right (by omega) (by have := h.log; omega)
  unfold blockBytes
  omega

/-- A valid super block passes the initialisation. -/
theorem ext2ReadInit_eq : ext2ReadInit super = some (geometry super) := by
  have hsize := h.inodeSize
  have hper : (geometry super).inodesPerBlock ≠ 0 := by
    intro h0
    have hdiv : ((geometry super).blockSize / super.sInodeSize.toUInt32).toNat = 0 := by
      rw [show (geometry super).blockSize / super.sInodeSize.toUInt32 = 0 from h0]
      rfl
    rw [UInt32.toNat_div, toNat_blockSize h, UInt16.toNat_toUInt32,
      Nat.div_eq_zero_iff] at hdiv
    omega
  rw [ext2ReadInit, if_neg (by simpa using h.magic), if_neg]
  rintro (h0 | h0 | h0)
  · rw [h0] at hsize
    exact absurd hsize.1 (by decide)
  · exact hper h0
  · have := h.perGroup.1
    rw [h0] at this
    exact absurd this (by decide)

/-- The scan of an image with a valid super block. -/
theorem scan_eq {d : Disk} (hd : readSuperBlock d = super) :
    scan d = some ⟨groupDescsOffset (geometry super), groupLoop d super (geometry super) 0⟩ := by
  rw [scan, hd, ext2ReadInit_eq h]
  rfl

theorem toNat_groupDescsOffset :
    (groupDescsOffset (geometry super)).toNat = 1024 + blockBytes super := by
  have hle := blockBytes_le h
  rw [groupDescsOffset, UInt32.one_mul, UInt32.toNat_add, toNat_blockSize h]
  exact Nat.mod_eq_of_lt (by show 1024 + _ < _; omega)

/-- **The macro hits the descriptor table** of blocks of 1 KiB only. -/
theorem groupDescsOffset_eq_iff :
    (groupDescsOffset (geometry super)).toNat = descsAt super ↔ super.sLogBlockSize = 0 := by
  rw [toNat_groupDescsOffset h, descsAt, h.first]
  constructor
  · intro heq
    by_contra hne
    rw [if_neg hne, UInt32.toNat_zero, Nat.zero_add, Nat.one_mul] at heq
    omega
  · intro h0
    simp [blockBytes, h0]

end Valid

/-- Counting one more block than there is, in 32 bits, gives the right number of groups. -/
theorem ceil_wrap_iff {n b : ℕ} (hn : 1 < n) (hlt : n < 2 ^ 32) (hb : 0 < b)
    (hltb : b < 2 ^ 32) :
    (n + b - 1) % 2 ^ 32 / b = (n - 1 + b - 1) / b ↔
      n + b - 1 < 2 ^ 32 ∧ (n - 1) % b ≠ 0 := by
  by_cases hwrap : n + b - 1 < 2 ^ 32
  · have hsucc : (n - 1 + b - 1 + 1) / b =
        (n - 1 + b - 1) / b + if b ∣ n - 1 + b - 1 + 1 then 1 else 0 := Nat.succ_div
    rw [show n - 1 + b - 1 + 1 = n - 1 + b by omega] at hsucc
    have hdvd : b ∣ n - 1 + b ↔ (n - 1) % b = 0 :=
      (Nat.dvd_add_left (Nat.dvd_refl b)).trans Nat.dvd_iff_mod_eq_zero
    rw [Nat.mod_eq_of_lt hwrap, show n + b - 1 = n - 1 + b by omega, hsucc]
    split_ifs with hd
    · simp [hdvd.mp hd]
    · simp only [Nat.add_zero, true_iff]
      exact ⟨by omega, fun hmod => hd (hdvd.mpr hmod)⟩
  · -- the sum wraps to less than a group
    have hzero : (n + b - 1) % 2 ^ 32 / b = 0 := Nat.div_eq_of_lt (by omega)
    have hpos : 0 < (n - 1 + b - 1) / b := Nat.div_pos (by omega) hb
    rw [hzero]
    exact ⟨fun heq => absurd heq hpos.ne, fun hc => absurd hc.1 hwrap⟩

/-- With a first data block of 1 the formula of `ext2_read_init` counts one group too many where the
blocks divide evenly, and none where its sum wraps. -/
theorem numGroups_eq_iff {super : SuperBlock} (h : Valid super) (h0 : super.sLogBlockSize = 0) :
    (geometry super).numGroups.toNat = groupsCount super ↔
      super.sBlocksCount.toNat + super.sBlocksPerGroup.toNat - 1 < 2 ^ 32 ∧
        (super.sBlocksCount.toNat - 1) % super.sBlocksPerGroup.toNat ≠ 0 := by
  have hfirst : super.sFirstDataBlock = 1 := by rw [h.first, if_pos h0]
  have hblocks : 1 < super.sBlocksCount.toNat := by
    have := UInt32.lt_iff_toNat_lt.mp h.blocks
    rwa [hfirst] at this
  have hb := h.perGroup.1
  have hcode : (geometry super).numGroups.toNat =
      (super.sBlocksCount.toNat + super.sBlocksPerGroup.toNat - 1) % 2 ^ 32 /
        super.sBlocksPerGroup.toNat := by
    show ((super.sBlocksCount + super.sBlocksPerGroup - 1) / super.sBlocksPerGroup).toNat = _
    rw [UInt32.toNat_div, UInt32.toNat_sub, UInt32.toNat_add, show (1 : UInt32).toNat = 1 from rfl]
    congr 1
    omega
  rw [hcode, groupsCount, hfirst, show (1 : UInt32).toNat = 1 from rfl]
  exact ceil_wrap_iff hblocks super.sBlocksCount.toNat_lt hb super.sBlocksPerGroup.toNat_lt

/-! ### Where the inodes are read -/

section Place
variable {d : Disk} {super : SuperBlock}

/-- The first inode of a group is read at the 32-bit product of its table. -/
theorem offset_first (g : Globals) (n : ℕ) :
    (visitInode d super g n 1).offset =
      ((bgInodeTable d (groupDescsOffset g).toNat n).toNat * g.blockSize.toNat % 2 ^ 32 : ℕ) := by
  show inodeOffset _ _ _ = _
  rw [inodeOffset, locateInodeTable, blockOffset, UInt32.toNat_mul]
  simp

/-- With blocks of 1 KiB no `int` product of the scan overflows. -/
theorem offset_eq (h : Valid super) (h0 : super.sLogBlockSize = 0) {n i : ℕ} (h1 : 1 ≤ i)
    (hi : i ≤ super.sInodesPerGroup.toNat)
    (hfit : (bgInodeTable d (descsAt super) n).toNat * 1024 < 2 ^ 32) :
    (visitInode d super (geometry super) n i).offset =
      ((bgInodeTable d (descsAt super) n).toNat * blockBytes super +
        (i - 1) * super.sInodeSize.toNat : ℕ) := by
  have hB : blockBytes super = 1024 := by simp [blockBytes, h0]
  have hper := h.inodesPer.2
  have hsize := h.inodeSize.2
  have hprod : (i - 1) * super.sInodeSize.toNat ≤ 8192 * 1024 :=
    Nat.mul_le_mul (by omega) (by omega)
  have hcast : ((i : ℤ) - 1) * (super.sInodeSize.toNat : ℤ) =
      ((i - 1) * super.sInodeSize.toNat : ℕ) := by
    rw [Nat.cast_mul, Nat.cast_sub h1, Nat.cast_one]
  show inodeOffset _ _ _ = _
  rw [inodeOffset, locateInodeTable, blockOffset, UInt32.toNat_mul, toNat_blockSize h,
    (groupDescsOffset_eq_iff h).mpr h0, hB, Nat.mod_eq_of_lt hfit, hcast,
    Int.bmod_eq_of_le (by omega) (by omega), Nat.cast_add]

/-- Inode `n * p + i` of groups of `p` inodes is inode `i` of group `n`. -/
theorem inodeAt_number {n i : ℕ} (h1 : 1 ≤ i) (hi : i ≤ super.sInodesPerGroup.toNat) :
    inodeAt d super (n * super.sInodesPerGroup.toNat + i) =
      (bgInodeTable d (descsAt super) n).toNat * blockBytes super +
        (i - 1) * super.sInodeSize.toNat := by
  have hp : 0 < super.sInodesPerGroup.toNat := by omega
  have hk : n * super.sInodesPerGroup.toNat + i - 1 = (i - 1) + super.sInodesPerGroup.toNat * n := by
    rw [Nat.mul_comm]
    omega
  rw [inodeAt, hk, Nat.add_mul_div_left _ _ hp, Nat.add_mul_mod_self_left,
    Nat.div_eq_of_lt (by omega), Nat.mod_eq_of_lt (by omega), Nat.zero_add]

/-- The numbers of a valid super block fit 32 bits. -/
theorem number_le (h : Valid super) {n i : ℕ} (hn : n < groupsCount super)
    (hi : i ≤ super.sInodesPerGroup.toNat) :
    n * super.sInodesPerGroup.toNat + i ≤ super.sInodesCount.toNat := by
  calc n * super.sInodesPerGroup.toNat + i ≤ (n + 1) * super.sInodesPerGroup.toNat := by
        rw [Nat.succ_mul]; omega
    _ ≤ groupsCount super * super.sInodesPerGroup.toNat := Nat.mul_le_mul_right _ hn
    _ = super.sInodesCount.toNat := h.inodes.symm

theorem number_visitInode (h : Valid super) {n i : ℕ} (hn : n < groupsCount super)
    (hi : i ≤ super.sInodesPerGroup.toNat) :
    (visitInode d super (geometry super) n i).number.toNat =
      n * super.sInodesPerGroup.toNat + i :=
  toNat_number (Nat.lt_of_le_of_lt (number_le h hn hi) super.sInodesCount.toNat_lt)

/-- A scan in place has the right number of groups. -/
theorem numGroups_of_perm (h : Valid super)
    (hperm : ((groupLoop d super (geometry super) 0).map fun v => v.number.toNat).Perm
      (List.range' 1 super.sInodesCount.toNat)) :
    (geometry super).numGroups.toNat = groupsCount super := by
  have hlen := hperm.length_eq
  rw [List.length_map, length_groupLoop, List.length_range', h.inodes] at hlen
  exact Nat.eq_of_mul_eq_mul_right h.inodesPer.1 hlen

/-- If the first inode of a group is read at its place, the table lies below 4 GiB. -/
theorem table_lt_of_place (h : Valid super) (h0 : super.sLogBlockSize = 0) {n : ℕ}
    (hn : n < groupsCount super)
    (hplace : (visitInode d super (geometry super) n 1).offset =
      inodeAt d super (visitInode d super (geometry super) n 1).number.toNat) :
    (bgInodeTable d (descsAt super) n).toNat * 1024 < 2 ^ 32 := by
  have hB : blockBytes super = 1024 := by simp [blockBytes, h0]
  rw [number_visitInode h hn h.inodesPer.1, inodeAt_number le_rfl h.inodesPer.1, offset_first,
    toNat_blockSize h, (groupDescsOffset_eq_iff h).mpr h0, hB, Nat.sub_self, Nat.zero_mul,
    Nat.add_zero] at hplace
  have hmod := Int.ofNat_inj.mp hplace
  have hpos : 0 < 2 ^ 32 := by decide
  exact hmod ▸ Nat.mod_lt _ hpos

end Place

/-- **When every inode is scanned at its true place.** For an image with a valid super block: exactly if
its blocks have 1 KiB, its blocks behind the first do not divide evenly into groups and their count
does not wrap, and the inode tables of all groups start below 4 GiB. -/
theorem inPlace_iff (d : Disk) (super : SuperBlock) (hd : readSuperBlock d = super)
    (h : Valid super) :
    InPlace d ↔
      super.sLogBlockSize = 0 ∧
      (super.sBlocksCount.toNat + super.sBlocksPerGroup.toNat - 1 < 2 ^ 32 ∧
        (super.sBlocksCount.toNat - 1) % super.sBlocksPerGroup.toNat ≠ 0) ∧
      ∀ n < groupsCount super, (bgInodeTable d (descsAt super) n).toNat * 1024 < 2 ^ 32 := by
  rw [InPlace, hd, scan_eq h hd]
  constructor
  · rintro ⟨r, hr, hdescs, hperm, hplace⟩
    obtain rfl := Option.some.inj hr
    have h0 := (groupDescsOffset_eq_iff h).mp hdescs
    have hgroups := numGroups_of_perm h hperm
    refine ⟨h0, (numGroups_eq_iff h h0).mp hgroups, fun n hn => ?_⟩
    refine table_lt_of_place h h0 hn (hplace _ (mem_groupLoop.mpr ⟨n, ?_, 1, le_rfl, ?_, rfl⟩))
    · rwa [hgroups]
    · exact h.inodesPer.1
  · rintro ⟨h0, hcount, htables⟩
    have hgroups := (numGroups_eq_iff h h0).mpr hcount
    have hfit : (geometry super).numGroups.toNat * (geometry super).inodesPerGroup.toNat =
        super.sInodesCount.toNat := by
      rw [hgroups, h.inodes]
      rfl
    refine ⟨_, rfl, (groupDescsOffset_eq_iff h).mpr h0, ?_, ?_⟩
    · rw [numbers_groupLoop d super _ (hfit ▸ super.sInodesCount.toNat_lt), hfit]
    · intro v hv
      obtain ⟨n, hn, i, h1, hi, rfl⟩ := mem_groupLoop.mp hv
      rw [hgroups] at hn
      rw [number_visitInode h hn hi, inodeAt_number h1 hi, offset_eq h h0 h1 hi (htables n hn)]

/-- An image of 1024 blocks of 1 KiB, 8192 to a group: 128 inodes of 128 bytes, whose table starts at
block 5; the descriptor is in block 2. -/
def oneKib : Disk := fun k =>
  if k = 1024 then 128 else if k = 1029 then 4 else if k = 1044 then 1 else if k = 1057 then 32
  else if k = 1064 then 128 else if k = 1080 then 0x53 else if k = 1081 then 0xEF
  else if k = 1112 then 128 else if k = 2056 then 5 else 0

theorem valid_oneKib : Valid (readSuperBlock oneKib) where
  magic := by decide
  log := by decide
  first := by decide
  blocks := by decide
  perGroup := by decide
  inodesPer := by decide
  inodeSize := by decide
  inodes := by decide

theorem inPlace_oneKib : InPlace oneKib :=
  (inPlace_iff oneKib (readSuperBlock oneKib) rfl valid_oneKib).mpr
    ⟨by decide, by decide, by decide⟩

/-- An image of 512 blocks of 4 KiB, 8192 to a group: 128 inodes of 128 bytes, whose table starts at
block 4; the descriptor is in block 1. -/
def fourKib : Disk := fun k =>
  if k = 1024 then 128 else if k = 1029 then 2 else if k = 1048 then 2 else if k = 1057 then 32
  else if k = 1064 then 128 else if k = 1080 then 0x53 else if k = 1081 then 0xEF
  else if k = 1112 then 128 else if k = 4104 then 4 else 0

theorem valid_fourKib : Valid (readSuperBlock fourKib) where
  magic := by decide
  log := by decide
  first := by decide
  blocks := by decide
  perGroup := by decide
  inodesPer := by decide
  inodeSize := by decide
  inodes := by decide

/-- The descriptor of this image is read at byte 5120, where there is none. -/
theorem not_inPlace_fourKib : Valid (readSuperBlock fourKib) ∧ ¬ InPlace fourKib := by
  refine ⟨valid_fourKib, ?_⟩
  rintro ⟨r, hr, hdescs, -⟩
  rw [scan_eq valid_fourKib rfl] at hr
  obtain rfl := Option.some.inj hr
  exact absurd ((groupDescsOffset_eq_iff valid_fourKib).mp hdescs) (by decide)

end OperatingSystems.RunScan.Geometry
