import OperatingSystems.Files.Inodes

/-! # The bitmap on the disk

`balloc` of `fs.c` on the bytes of the disk. The outer loop goes over the blocks below `sb.size` in steps of `BPB`,
the inner one over all the bits of a block of the bitmap, also when it is the last one and only some of its bits are
of blocks below `sb.size`.

* `loop_spec`: how the loops end; they take the first bit that is clear.
* `balloc_refines`: the `balloc` of the inode layer, on the bits, does the same.
* `balloc_image`: an image of `mkfs` with all its blocks in use: the clear bit behind them is taken.
* `balloc_meets_iff`: the disks on which `balloc` does return a free block, or panics as it should. -/

namespace OperatingSystems.Files.Bitmap

open OperatingSystems.Lib.WeakestPre OperatingSystems.Lib.Words OperatingSystems.Pipes

/-- The bytes of the blocks of a disk. -/
abbrev Disk := ℕ → ℕ → Byte

/-- `readsb`: the fields of block 1 that the kernel looks at. -/
def readsb (d : Disk) : Superblock := ⟨word (d 1) 0, word (d 1) 8⟩

/-- `BBLOCK(b, ninodes)`. -/
def bblock (b : ℕ) (ninodes : Word) : ℕ := b / bpb + ninodes.toNat / ipb + 3

/-- `m = 1 << (bi % 8)`. -/
def mask (bi : ℕ) : Byte := 1#8 <<< (bi % 8)

/-- How a call of `balloc` ends. -/
inductive Outcome where
  /-- `return b + bi`, and the disk then -/
  | block (b : ℕ) (d : Disk)
  /-- "balloc: out of blocks" -/
  | outOfBlocks
  /-- `b += BPB` does not fit into an `int`, and the code has no meaning -/
  | overflow

/-- The loop over the bits of a block, from `bi` on: the first one that is clear. -/
def scan (data : ℕ → Byte) (bi : ℕ) : Option ℕ :=
  if bi < bpb then
    if data (bi / 8) &&& mask bi = 0#8 then some bi else scan data (bi + 1)
  else none
termination_by bpb - bi

/-- `bp->data[bi/8] |= m` and `bwrite(bp)`. -/
def setBit (d : Disk) (n bi : ℕ) : Disk :=
  Function.update d n (Function.update (d n) (bi / 8) (d n (bi / 8) ||| mask bi))

/-- The numbers below `2^31` are those of an `int`. -/
@[irreducible] def intEnd : ℕ := 2 ^ 31

/-- The loop over the blocks of the bitmap, from `b` on. -/
def ballocLoop (sb : Superblock) (d : Disk) (b : ℕ) : Outcome :=
  if b < sb.size.toNat then
    match scan (d (bblock b sb.ninodes)) 0 with
    | some bi => .block (b + bi) (setBit d (bblock b sb.ninodes) bi)
    | none => if b + bpb < intEnd then ballocLoop sb d (b + bpb) else .overflow
  else .outOfBlocks
termination_by sb.size.toNat - b
decreasing_by
  have : 0 < bpb := by decide
  omega

def balloc (d : Disk) : Outcome := ballocLoop (readsb d) d 0

/-- The bit of block `b` is set, as `bfree` finds it. -/
def Marked (d : Disk) (b : ℕ) : Prop :=
  d (bblock b (readsb d).ninodes) (b % bpb / 8) &&& mask (b % bpb) ≠ 0#8

instance (d : Disk) (b : ℕ) : Decidable (Marked d b) := inferInstanceAs (Decidable (_ ≠ _))

/-- The loop of `balloc` of `mkfs.c`, after `used` rounds. -/
def mkfsBalloc : ℕ → ℕ → Byte
  | 0 => fun _ => 0#8
  | i + 1 => Function.update (mkfsBalloc i) (i / 8) (mkfsBalloc i (i / 8) ||| mask i)

/-- An image of `mkfs`: the super block, and the block of the bitmap, which is only one. -/
def image (d : Disk) (size nblocks ninodes : Word) (used : ℕ) : Disk :=
  Function.update (Function.update d 1 (setWord (setWord (setWord (fun _ => 0#8) 0 size) 4 nblocks) 8 ninodes))
    (ninodes.toNat / ipb + 3) (mkfsBalloc used)

/-- **A block that is free is returned**, with its bit set and no other one changed; and `balloc` panics if there
is none. -/
structure Meets (d : Disk) : Prop where
  below : ∀ {b d'}, balloc d = .block b d' → b < (readsb d).size.toNat
  free : ∀ {b d'}, balloc d = .block b d' → ¬ Marked d b
  set : ∀ {b d'}, balloc d = .block b d' → ∀ n o i, (d' n o).getLsbD i =
    (decide (n = bblock b (readsb d).ninodes ∧ o = b % bpb / 8 ∧ i = b % 8) || (d n o).getLsbD i)
  panics : balloc d = .outOfBlocks ↔ ∀ b < (readsb d).size.toNat, Marked d b
  defined : balloc d ≠ .overflow

/-! ### Bits -/

variable {d d' : Disk} {sb : Superblock} {data : ℕ → Byte} {b k bi j n : ℕ}

theorem bpb_eq : bpb = 4096 := rfl

theorem getLsbD_mask (bi i : ℕ) : (mask bi).getLsbD i = decide (i = bi % 8) := by
  have hlt : bi % 8 < 8 := Nat.mod_lt _ (by decide)
  rw [mask, BitVec.getLsbD_shiftLeft, BitVec.getLsbD_one]
  rcases lt_trichotomy i (bi % 8) with h | h | h
  · simp [h, h.ne]
  · simp [h, hlt]
  · have hne : i - bi % 8 ≠ 0 := by omega
    simp [hne, h.ne']

/-- The test of a bit. -/
theorem and_mask_eq_zero (x : Byte) : x &&& mask bi = 0#8 ↔ x.getLsbD (bi % 8) = false := by
  have hlt : bi % 8 < 8 := Nat.mod_lt _ (by decide)
  constructor
  · intro h
    have hbit : (x &&& mask bi).getLsbD (bi % 8) = false := by rw [h, BitVec.getLsbD_zero]
    rw [BitVec.getLsbD_and, getLsbD_mask] at hbit
    simpa using hbit
  · intro h
    refine BitVec.eq_of_getLsbD_eq fun i _ => ?_
    rw [BitVec.getLsbD_and, getLsbD_mask, BitVec.getLsbD_zero]
    by_cases hi : i = bi % 8
    · rw [hi, h, Bool.false_and]
    · rw [decide_eq_false hi, Bool.and_false]

theorem marked_iff : Marked d b ↔
    (d (bblock b (readsb d).ninodes) (b % bpb / 8)).getLsbD (b % 8) = true := by
  have hmod : b % bpb % 8 = b % 8 := by rw [bpb_eq]; omega
  rw [Marked, Ne, and_mask_eq_zero, hmod, Bool.not_eq_false]

/-- One bit is set, and the others are as they were. -/
theorem getLsbD_setBit (o i : ℕ) : (setBit d k bi n o).getLsbD i =
    (decide (n = k ∧ o = bi / 8 ∧ i = bi % 8) || (d n o).getLsbD i) := by
  unfold setBit
  rcases eq_or_ne n k with rfl | hn
  · rw [Function.update_self]
    rcases eq_or_ne o (bi / 8) with rfl | ho
    · rw [Function.update_self, BitVec.getLsbD_or, getLsbD_mask, Bool.or_comm]
      simp
    · simp [ho]
  · simp [hn]

/-! ### The loops -/

/-- **The inner loop** finds the first clear bit, if there is one. -/
theorem scan_spec (data : ℕ → Byte) (bi : ℕ) :
    match scan data bi with
    | some j => bi ≤ j ∧ j < bpb ∧ data (j / 8) &&& mask j = 0#8 ∧
        ∀ i, bi ≤ i → i < j → data (i / 8) &&& mask i ≠ 0#8
    | none => ∀ i, bi ≤ i → i < bpb → data (i / 8) &&& mask i ≠ 0#8 := by
  induction hn : bpb - bi generalizing bi with
  | zero =>
    rw [scan, if_neg (by omega)]
    intro i h1 h2
    omega
  | succ n ih =>
    rw [scan, if_pos (by omega)]
    split_ifs with hclear
    · exact ⟨le_rfl, by omega, hclear, fun i h1 h2 => by omega⟩
    · -- the bit at `bi` is set; what the rest of the loop finds
      have hrest := ih (bi + 1) (by omega)
      have hset : ∀ {i}, bi ≤ i → (bi + 1 ≤ i → data (i / 8) &&& mask i ≠ 0#8) →
          data (i / 8) &&& mask i ≠ 0#8 := by
        intro i hi hlater
        rcases Nat.eq_or_lt_of_le hi with rfl | hlt
        · exact hclear
        · exact hlater hlt
      cases hscan : scan data (bi + 1) with
      | some j =>
        rw [hscan] at hrest
        obtain ⟨hle, hlt, hj, hfirst⟩ := hrest
        exact ⟨by omega, hlt, hj, fun i h1 h2 => hset h1 fun h => hfirst i h h2⟩
      | none =>
        rw [hscan] at hrest
        exact fun i h1 h2 => hset h1 fun h => hrest i h h2

/-- How the outer loop may end that has come to `b`: at the first clear bit from there on, or with none. -/
def Ends (d : Disk) (b : ℕ) : Outcome → Prop
  | .block k d' => (b ≤ k ∧ k < (readsb d).bits ∧ k < intEnd) ∧ ¬ Marked d k ∧
      (∀ j, b ≤ j → j < k → Marked d j) ∧ d' = setBit d (bblock k (readsb d).ninodes) (k % bpb)
  | .outOfBlocks => (readsb d).size.toNat + bpb ≤ intEnd ∧ ∀ j, b ≤ j → j < (readsb d).bits → Marked d j
  | .overflow => intEnd < (readsb d).size.toNat + bpb ∧ ∀ j, b ≤ j → j < intEnd → Marked d j

theorem bblock_add (hb : bpb ∣ b) (hi : bi < bpb) (m : Word) : bblock (b + bi) m = bblock b m := by
  obtain ⟨q, rfl⟩ := hb
  have hdiv : (bpb * q + bi) / bpb = q := by
    rw [Nat.mul_add_div (by decide), Nat.div_eq_of_lt hi, Nat.add_zero]
  rw [bblock, bblock, hdiv, Nat.mul_div_cancel_left q (by decide)]

theorem add_mod_bpb (hb : bpb ∣ b) (hi : bi < bpb) : (b + bi) % bpb = bi := by
  obtain ⟨q, rfl⟩ := hb
  rw [Nat.mul_add_mod, Nat.mod_eq_of_lt hi]

/-- A bit of the block of the bitmap that starts with the bit of `b`. -/
theorem marked_add (hb : bpb ∣ b) (hi : bi < bpb) :
    Marked d (b + bi) ↔ d (bblock b (readsb d).ninodes) (bi / 8) &&& mask bi ≠ 0#8 := by
  rw [Marked, bblock_add hb hi, add_mod_bpb hb hi]

/-- The bits of the block of the bitmap that is at `b`, of which there is one if `b` is below `size`. -/
theorem le_bits (hb : bpb ∣ b) (hlt : b < sb.size.toNat) : b + bpb ≤ sb.bits := by
  obtain ⟨q, rfl⟩ := hb
  rw [Superblock.bits, bpb_eq]
  rw [bpb_eq] at hlt
  omega

theorem bits_le (hb : bpb ∣ b) (hle : sb.size.toNat ≤ b) : sb.bits ≤ b := by
  obtain ⟨q, rfl⟩ := hb
  rw [Superblock.bits, bpb_eq]
  rw [bpb_eq] at hle
  omega

theorem bits_le_add (sb : Superblock) : sb.bits ≤ sb.size.toNat + bpb := by
  rw [Superblock.bits, bpb_eq]
  omega

theorem size_le_bits (sb : Superblock) : sb.size.toNat ≤ sb.bits := by
  rw [Superblock.bits, bpb_eq]
  omega

/-- What the loop does behind bits that are set. -/
theorem Ends.of_later {c : ℕ} {out : Outcome} (h : Ends d c out) (hle : b ≤ c)
    (hset : ∀ j, b ≤ j → j < c → Marked d j) : Ends d b out := by
  have hjoin : ∀ {j e}, (c ≤ j → j < e → Marked d j) → b ≤ j → j < e → Marked d j := by
    intro j e hlater h1 h2
    rcases Nat.lt_or_ge j c with hj | hj
    · exact hset j h1 hj
    · exact hlater hj h2
  cases out with
  | block k d' =>
    obtain ⟨⟨hck, hbits, hk⟩, hfree, hfirst, hd⟩ := h
    exact ⟨⟨hle.trans hck, hbits, hk⟩, hfree, fun j => hjoin (hfirst j), hd⟩
  | outOfBlocks => exact ⟨h.1, fun j => hjoin (h.2 j)⟩
  | overflow => exact ⟨h.1, fun j => hjoin (h.2 j)⟩

/-- **The outer loop**, by induction on the blocks that are left. -/
theorem loop_spec (hb : bpb ∣ b) (hlt : b < intEnd) : Ends d b (ballocLoop (readsb d) d b) := by
  induction hn : (readsb d).size.toNat - b using Nat.strong_induction_on generalizing b with
  | _ n ih =>
    have hend : b + bpb ≤ intEnd := by
      obtain ⟨q, rfl⟩ := hb
      rw [bpb_eq, intEnd] at *
      omega
    rw [ballocLoop]
    by_cases hsize : b < (readsb d).size.toNat
    swap
    · rw [if_neg hsize]
      refine ⟨by omega, fun j h1 h2 => ?_⟩
      have := bits_le hb (not_lt.mp hsize)
      omega
    rw [if_pos hsize]
    have hbits := le_bits hb hsize
    have hscan := scan_spec (d (bblock b (readsb d).ninodes)) 0
    cases hfound : scan (d (bblock b (readsb d).ninodes)) 0 with
    | some bi =>
      rw [hfound] at hscan
      obtain ⟨-, hbi, hclear, hfirst⟩ := hscan
      refine ⟨⟨by omega, by omega, by omega⟩, fun hmarked => (marked_add hb hbi).mp hmarked hclear,
        fun j h1 h2 => ?_, ?_⟩
      · obtain ⟨i, rfl⟩ := Nat.exists_eq_add_of_le h1
        exact (marked_add hb (by omega)).mpr (hfirst i (Nat.zero_le i) (by omega))
      · rw [bblock_add hb hbi, add_mod_bpb hb hbi]
    | none =>
      rw [hfound] at hscan
      -- every bit of this block of the bitmap is set
      have hset : ∀ j, b ≤ j → j < b + bpb → Marked d j := by
        intro j h1 h2
        obtain ⟨i, rfl⟩ := Nat.exists_eq_add_of_le h1
        exact (marked_add hb (by omega)).mpr (hscan i (Nat.zero_le i) (by omega))
      dsimp only
      split_ifs with hint
      · have hpos : 0 < bpb := by decide
        exact (ih _ (by omega) (Nat.dvd_add hb dvd_rfl) hint rfl).of_later (Nat.le_add_right b bpb) hset
      · exact ⟨by omega, fun j h1 h2 => hset j h1 (by omega)⟩

theorem balloc_spec (d : Disk) : Ends d 0 (balloc d) := by
  have hpos : 0 < intEnd := by
    rw [intEnd]
    exact Nat.two_pow_pos 31
  rw [balloc]
  exact loop_spec (dvd_zero bpb) hpos

/-- **The first clear bit** is the one that `balloc` takes. -/
theorem balloc_of_first (hbits : k < (readsb d).bits) (hint : k < intEnd) (hfree : ¬ Marked d k)
    (hfirst : ∀ j < k, Marked d j) :
    balloc d = .block k (setBit d (bblock k (readsb d).ninodes) (k % bpb)) := by
  have hspec := balloc_spec d
  cases hout : balloc d with
  | block b d' =>
    rw [hout] at hspec
    obtain ⟨-, hb, hbefore, rfl⟩ := hspec
    rcases lt_trichotomy b k with hlt | rfl | hgt
    · exact absurd (hfirst b hlt) hb
    · rfl
    · exact absurd (hbefore k (Nat.zero_le k) hgt) hfree
  | outOfBlocks =>
    rw [hout] at hspec
    exact absurd (hspec.2 k (Nat.zero_le k) hbits) hfree
  | overflow =>
    rw [hout] at hspec
    exact absurd (hspec.2 k (Nat.zero_le k) hint) hfree

/-- `balloc` panics when all the bits that it looks at are set. -/
theorem balloc_of_forall (hsize : (readsb d).size.toNat + bpb ≤ intEnd) (hall : ∀ j < (readsb d).bits, Marked d j) :
    balloc d = .outOfBlocks := by
  have hspec := balloc_spec d
  cases hout : balloc d with
  | block b d' =>
    rw [hout] at hspec
    obtain ⟨⟨-, hbits, -⟩, hfree, -⟩ := hspec
    exact absurd (hall b hbits) hfree
  | outOfBlocks => rfl
  | overflow =>
    rw [hout] at hspec
    have := hspec.1
    omega

/-! ### The bits of the inode layer -/

/-- The state of the inode layer has the super block and the bitmap of the disk. -/
structure Holds (s : Kernel) (d : Disk) : Prop where
  sb : s.sb = readsb d
  bits : ∀ b < s.sb.bits, s.bitmap b = true ↔ Marked d b

theorem readsb_setBit (k bi : ℕ) (m : Word) : readsb (setBit d (bblock k m) bi) = readsb d := by
  have hle : 3 ≤ bblock k m := Nat.le_add_left 3 _
  have hne : 1 ≠ bblock k m := by omega
  rw [readsb, readsb, setBit, Function.update_of_ne hne]

/-- Each block has a bit of its own. -/
theorem marked_setBit (j : ℕ) :
    Marked (setBit d (bblock k (readsb d).ninodes) (k % bpb)) j ↔ j = k ∨ Marked d j := by
  have hbit : (bblock j (readsb d).ninodes = bblock k (readsb d).ninodes ∧ j % bpb / 8 = k % bpb / 8 ∧
      j % 8 = k % bpb % 8) ↔ j = k := by
    rw [bblock, bblock, bpb_eq]
    omega
  rw [marked_iff, marked_iff, readsb_setBit, getLsbD_setBit, Bool.or_eq_true, decide_eq_true_iff, hbit]

/-- **The `balloc` of the inode layer** takes the same bit, or finds none either. -/
theorem balloc_refines {s : Kernel} (h : Holds s d) (hint : (readsb d).size.toNat + bpb ≤ intEnd) :
    Wp Files.balloc (fun a t => ∃ k d', balloc d = .block k d' ∧ a = BitVec.ofNat 32 k ∧ Holds t d')
      (fun e t => balloc d = .outOfBlocks ∧ e = .balloc ∧ Holds t d) s := by
  have hbits : ∀ j < (readsb d).bits, (!s.bitmap j) = false ↔ Marked d j := fun j hj => by
    rw [← h.bits j (h.sb ▸ hj), Bool.not_eq_false']
  have hsb : s.sb.bits = (readsb d).bits := congrArg Superblock.bits h.sb
  unfold Files.balloc
  simp only [wp_bind, wp_get]
  split
  · next hnone =>
    simp only [wp_bind, wp_set, wp_throw]
    rw [List.find?_range_eq_none] at hnone
    refine ⟨balloc_of_forall hint fun j hj => (hbits j hj).mp ?_, trivial, h.sb, h.bits⟩
    have hset := hnone j (by rwa [hsb])
    rwa [Bool.not_not, ← Bool.not_eq_false'] at hset
  · next b hsome =>
    simp only [wp_bind, wp_set, wp_pure]
    obtain ⟨hclear, hb, hbefore⟩ := List.find?_range_eq_some.mp hsome
    have hlt : b < (readsb d).bits := hsb ▸ List.mem_range.mp hb
    have hle := bits_le_add (readsb d)
    have hout := balloc_of_first hlt (by omega) (fun hmarked => ?_) fun j hj => (hbits j (hj.trans hlt)).mp ?_
    · refine ⟨b, _, hout, rfl, ?_, fun j hj => ?_⟩
      · rw [readsb_setBit]
        exact h.sb
      · rw [marked_setBit, ← h.bits j hj]
        by_cases hjb : j = b
        · simp [hjb]
        · simp [hjb]
    · rw [(hbits b hlt).mpr hmarked] at hclear
      cases hclear
    · simpa using hbefore j hj

/-! ### When a free block is returned -/

/-- The block that is returned, with the number that is to be below `size`. -/
theorem meets_of_block (hout : balloc d = .block k (setBit d (bblock k (readsb d).ninodes) (k % bpb)))
    (hk : k < (readsb d).size.toNat) (hfree : ¬ Marked d k) : Meets d := by
  have hmod : k % bpb % 8 = k % 8 := by rw [bpb_eq]; omega
  refine ⟨fun hb => ?_, fun hb => ?_, fun hb n o i => ?_, ⟨fun hb => ?_, fun hall => absurd (hall k hk) hfree⟩,
    fun hb => ?_⟩
  · cases hout.symm.trans hb
    exact hk
  · cases hout.symm.trans hb
    exact hfree
  · cases hout.symm.trans hb
    rw [getLsbD_setBit, hmod]
  · cases hout.symm.trans hb
  · cases hout.symm.trans hb

/-- There is a clear bit for the code to find. -/
theorem meets_of_free (hk : k < (readsb d).size.toNat) (hint : k < intEnd) (hfree : ¬ Marked d k) : Meets d := by
  have hex : ∃ j, ¬ Marked d j := ⟨k, hfree⟩
  have hle : Nat.find hex ≤ k := Nat.find_min' hex hfree
  have hbits := size_le_bits (readsb d)
  refine meets_of_block (balloc_of_first (by omega) (by omega) (Nat.find_spec hex) fun j hj => ?_) (by omega)
    (Nat.find_spec hex)
  exact not_not.mp (Nat.find_min hex hj)

/-- Every bit that the code looks at is set. -/
theorem meets_of_marked (hsize : (readsb d).size.toNat + bpb ≤ intEnd) (hall : ∀ j < (readsb d).bits, Marked d j) :
    Meets d := by
  have hout := balloc_of_forall hsize hall
  refine ⟨fun hb => ?_, fun hb => ?_, fun hb => ?_, ⟨fun _ b hb => ?_, fun _ => hout⟩, fun hb => ?_⟩
  · cases hout.symm.trans hb
  · cases hout.symm.trans hb
  · cases hout.symm.trans hb
  · exact hall b (hb.trans_le (size_le_bits _))
  · cases hout.symm.trans hb

/-- A disk whose last block of the bitmap has no bits behind `size`. -/
theorem meets_of_dvd (hdvd : bpb ∣ (readsb d).size.toNat) (hsize : (readsb d).size.toNat + bpb ≤ intEnd) :
    Meets d := by
  by_cases hall : ∀ j < (readsb d).size.toNat, Marked d j
  · exact meets_of_marked hsize fun j hj => hall j (hj.trans_le (bits_le hdvd le_rfl))
  · push Not at hall
    obtain ⟨k, hk, hfree⟩ := hall
    exact meets_of_free hk (by omega) hfree

/-! ### A full disk -/

theorem getLsbD_mkfsBalloc (used o : ℕ) {i : ℕ} (hi : i < 8) :
    (mkfsBalloc used o).getLsbD i = decide (8 * o + i < used) := by
  induction used with
  | zero => simp [mkfsBalloc]
  | succ u ih =>
    rw [mkfsBalloc]
    rcases eq_or_ne o (u / 8) with rfl | ho
    · rw [Function.update_self, BitVec.getLsbD_or, ih, getLsbD_mask, ← Bool.decide_or]
      exact decide_eq_decide.mpr (by omega)
    · rw [Function.update_of_ne ho, ih]
      exact decide_eq_decide.mpr (by omega)

section Image
variable {size nblocks ninodes : Word} {used : ℕ}

theorem readsb_image : readsb (image d size nblocks ninodes used) = ⟨size, ninodes⟩ := by
  have hle : 3 ≤ ninodes.toNat / ipb + 3 := Nat.le_add_left 3 _
  have hne : 1 ≠ ninodes.toNat / ipb + 3 := (Nat.lt_of_lt_of_le (by decide) hle).ne
  rw [readsb, image, Function.update_of_ne hne, Function.update_self, word_setWord_of_disjoint (by omega),
    word_setWord_of_disjoint (by omega), word_setWord_self, word_setWord_self]

/-- The blocks that `mkfs` has marked. -/
theorem marked_image (hb : b < bpb) : Marked (image d size nblocks ninodes used) b ↔ b < used := by
  have hblock : bblock b ninodes = ninodes.toNat / ipb + 3 := by
    rw [bblock, Nat.div_eq_of_lt hb, Nat.zero_add]
  rw [marked_iff, readsb_image, hblock, image, Function.update_self, Nat.mod_eq_of_lt hb,
    getLsbD_mkfsBalloc _ _ (Nat.mod_lt b (by decide)), decide_eq_true_iff]
  omega

/-- **An image that is full**: the block behind its end is handed out. -/
theorem balloc_image (hpos : 0 < size.toNat) (hsize : size.toNat < bpb) (hused : used = size.toNat) :
    ∃ d', balloc (image d size nblocks ninodes used) = .block size.toNat d' := by
  have hint : size.toNat + bpb ≤ intEnd := by
    rw [bpb_eq, intEnd] at *
    omega
  have hmarked : ∀ j < bpb, Marked (image d size nblocks ninodes used) j ↔ j < size.toNat := fun j hj => by
    rw [marked_image hj, hused]
  have hbits : size.toNat < (readsb (image d size nblocks ninodes used)).bits := by
    have hle : 0 + bpb ≤ (readsb (image d size nblocks ninodes used)).bits :=
      le_bits (dvd_zero bpb) (by rwa [readsb_image])
    omega
  refine ⟨_, balloc_of_first hbits (by omega) ?_ fun j hj => ?_⟩
  · rw [hmarked _ hsize]
    exact lt_irrefl _
  · exact (hmarked j (hj.trans hsize)).mpr hj

end Image

/-- **`balloc` returns a free block, or panics as it should**, if and only if some block below `size` and `2^31` is
free, or every bit of the blocks of the bitmap is set, those behind `size` too, and `b` stays an `int`. -/
theorem balloc_meets_iff (d : Disk) : Meets d ↔
    (∃ k < (readsb d).size.toNat, k < intEnd ∧ ¬ Marked d k) ∨
      ((readsb d).size.toNat + bpb ≤ intEnd ∧ ∀ j < (readsb d).bits, Marked d j) := by
  constructor
  · intro h
    have hspec := balloc_spec d
    cases hout : balloc d with
    | block b d' =>
      rw [hout] at hspec
      obtain ⟨⟨-, -, hint⟩, hfree, -⟩ := hspec
      exact Or.inl ⟨b, h.below hout, hint, hfree⟩
    | outOfBlocks =>
      rw [hout] at hspec
      exact Or.inr ⟨hspec.1, fun j hj => hspec.2 j (Nat.zero_le j) hj⟩
    | overflow => exact absurd hout h.defined
  · rintro (⟨k, hk, hint, hfree⟩ | ⟨hsize, hall⟩)
    · exact meets_of_free hk hint hfree
    · exact meets_of_marked hsize hall

/-- The image that `mkfs` makes, of 1024 blocks, when the files fill it. -/
theorem balloc_full_image : (∃ d', balloc (image (fun _ _ => 0#8) 1024#32 995#32 200#32 1024) = .block 1024 d') ∧
    ¬ Meets (image (fun _ _ => 0#8) 1024#32 995#32 200#32 1024) := by
  have hfull : ∃ d', balloc (image (fun _ _ => 0#8) 1024#32 995#32 200#32 1024) = .block 1024 d' :=
    balloc_image (by decide) (by decide) (by decide)
  refine ⟨hfull, fun h => ?_⟩
  obtain ⟨d', hd'⟩ := hfull
  have hlt := h.below hd'
  rw [readsb_image] at hlt
  exact absurd hlt (by decide)

end OperatingSystems.Files.Bitmap
