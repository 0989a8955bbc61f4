import Mathlib.Tactic
import OperatingSystems.RunScan.Copy
import OperatingSystems.RunScan.Geometry

/-! # Runscan: the indices of the copy

The loops of `Copy` once more, now with a list of what they do besides copying: the indices into `i_block` and
into the two arrays of pointers on the stack, and the additions to `bytes_copied`. None of it depends on what the
blocks hold.

* `copyUses`: this list for a file of `i_size` bytes; `bytesCopied_copyTrace` ties it to `copyBlocks`.
* `all_ok_iff`: every index and every addition is in range exactly for an empty file and for one that ends before
  the last byte that the indirect block can name, at least a block before `2 ^ 32`. The loop over a pointer block
  reads ahead before it tests the index again, so a full block behind the last pointer leads to the next one. -/

namespace OperatingSystems.RunScan.Pointers

open OperatingSystems.RunScan.Copy OperatingSystems.RunScan.Geometry

/-- `EXT2_N_BLOCKS`. -/
def ext2NBlocks : ℕ := 15

/-- An index into one of the arrays, or `bytes_copied += write_len`. -/
inductive Use
  | iBlock (k : ℕ)
  | indBlock (k : ℕ)
  | outerIndBlock (k : ℕ)
  | add (bytesCopied writeLen : UInt32)
  deriving DecidableEq

/-- The index is in its array, and the sum below `2 ^ 32`. -/
def Use.Ok (blockSize : UInt32) : Use → Prop
  | .iBlock k => k < ext2NBlocks
  | .indBlock k => k < blockSize.toNat / 4
  | .outerIndBlock k => k < blockSize.toNat / 4
  | .add b len => b.toNat + len.toNat < 2 ^ 32

/-- The count, and what was used so far. -/
structure Trace where
  bytesCopied : UInt32
  uses : List Use

/-- One more use. -/
def Trace.use (t : Trace) (u : Use) : Trace := { t with uses := t.uses ++ [u] }

/-- A whole block, and the index that is read ahead. -/
def Trace.full (t : Trace) (blockSize : UInt32) (u : Use) : Trace :=
  ⟨t.bytesCopied + blockSize, t.uses ++ [.add t.bytesCopied blockSize] ++ [u]⟩

/-- **The read-ahead loop** over the pointers of an array. -/
def traceLoop (array : ℕ → Use) (blockSize iSize : UInt32) (limit blockIdx : ℕ) (t : Trace) : Trace :=
  if t.bytesCopied < iSize ∧ blockIdx < limit then
    let len := writeLen t.bytesCopied blockSize iSize
    let t' : Trace := ⟨t.bytesCopied + len, t.uses ++ [.add t.bytesCopied len]⟩
    if len = blockSize then
      traceLoop array blockSize iSize limit (blockIdx + 1) (t'.use (array (blockIdx + 1)))
    else traceLoop array blockSize iSize limit blockIdx t'
  else t
termination_by (limit - blockIdx, (iSize - t.bytesCopied).toNat)
decreasing_by
  · left; omega
  · -- as for `copyLoop`, a short write is the last one
    next hguard hlen =>
    right
    have hlt := UInt32.lt_iff_toNat_lt.mp hguard.1
    have hsub := UInt32.toNat_sub_of_le _ _ (UInt32.le_of_lt hguard.1)
    have hend : t.bytesCopied + writeLen t.bytesCopied blockSize iSize = iSize := by
      rw [writeLen_of_ne hlen, UInt32.add_comm, UInt32.sub_add_cancel]
    show (iSize - (t.bytesCopied + writeLen t.bytesCopied blockSize iSize)).toNat < _
    rw [hend, UInt32.sub_self, UInt32.toNat_zero]
    omega

/-- The copy from an indirect block. -/
def traceIndirect (blockSize iSize : UInt32) (t : Trace) : Trace :=
  traceLoop .indBlock blockSize iSize (blockSize.toNat / 4) 0 (t.use (.indBlock 0))

/-- The loop over the entries of the double indirect block. -/
def traceOuter (blockSize iSize : UInt32) (outerBlockIdx : ℕ) (t : Trace) : Trace :=
  if t.bytesCopied < iSize ∧ outerBlockIdx < blockSize.toNat / 4 then
    traceOuter blockSize iSize (outerBlockIdx + 1)
      (traceIndirect blockSize iSize (t.use (.outerIndBlock outerBlockIdx)))
  else t
termination_by blockSize.toNat / 4 - outerBlockIdx

/-- The direct copy, behind the block that was read for the magic test. -/
def traceDirect (blockSize iSize : UInt32) : Trace :=
  traceLoop .iBlock blockSize iSize ext2NdirBlocks 0 ⟨0, [.iBlock 0]⟩

/-- **The three copies in the order of `main`.** -/
def copyTrace (blockSize iSize : UInt32) : Trace :=
  let t := traceDirect blockSize iSize
  let t := if t.bytesCopied < iSize then traceIndirect blockSize iSize (t.use (.iBlock ext2IndBlock)) else t
  if t.bytesCopied < iSize then traceOuter blockSize iSize 0 (t.use (.iBlock ext2DindBlock)) else t

/-- What the copy of a file uses. -/
def copyUses (blockSize iSize : UInt32) : List Use := (copyTrace blockSize iSize).uses

/-! ### One pass of the loop -/

section Loop
variable {B n : UInt32} {array : ℕ → Use} {fetch : ℕ → List UInt8} {limit idx : ℕ} {t : Trace} {c : CopyState}

theorem traceLoop_done (h : ¬ (t.bytesCopied < n ∧ idx < limit)) : traceLoop array B n limit idx t = t := by
  rw [traceLoop, if_neg h]

theorem traceLoop_full (hlt : t.bytesCopied < n) (hidx : idx < limit) (hlen : writeLen t.bytesCopied B n = B) :
    traceLoop array B n limit idx t = traceLoop array B n limit (idx + 1) (t.full B (array (idx + 1))) := by
  rw [traceLoop, if_pos ⟨hlt, hidx⟩]
  simp only [hlen, if_true]
  rfl

theorem traceLoop_short (hlt : t.bytesCopied < n) (hidx : idx < limit) (hlen : writeLen t.bytesCopied B n ≠ B) :
    traceLoop array B n limit idx t =
      ⟨n, t.uses ++ [.add t.bytesCopied (writeLen t.bytesCopied B n)]⟩ := by
  rw [traceLoop, if_pos ⟨hlt, hidx⟩]
  simp only [if_neg hlen, add_writeLen_of_ne hlen]
  exact traceLoop_done fun h => UInt32.lt_irrefl n h.1

theorem copyLoop_done (h : ¬ (c.bytesCopied < n ∧ idx < limit)) : copyLoop fetch B n limit idx c = c := by
  rw [copyLoop, if_neg h]

theorem bytesCopied_copyLoop_full (fetch : ℕ → List UInt8) {limit idx : ℕ} (hlt : c.bytesCopied < n) (hidx : idx < limit)
    (hlen : writeLen c.bytesCopied B n = B) : ∃ c' : CopyState, c'.bytesCopied = c.bytesCopied + B ∧
      copyLoop fetch B n limit idx c = copyLoop fetch B n limit (idx + 1) c' := by
  rw [copyLoop, if_pos ⟨hlt, hidx⟩]
  simp only [hlen, if_true]
  exact ⟨_, rfl, rfl⟩

theorem bytesCopied_copyLoop_short (hlt : c.bytesCopied < n) (hidx : idx < limit)
    (hlen : writeLen c.bytesCopied B n ≠ B) : (copyLoop fetch B n limit idx c).bytesCopied = n := by
  rw [copyLoop, if_pos ⟨hlt, hidx⟩]
  simp only [if_neg hlen, add_writeLen_of_ne hlen]
  rw [copyLoop_done fun h => UInt32.lt_irrefl n h.1]

/-- What was used stays. -/
theorem mem_traceLoop_of_mem : ∀ (m idx : ℕ) (t : Trace), idx + m = limit → ∀ u ∈ t.uses,
    u ∈ (traceLoop array B n limit idx t).uses := by
  intro m
  induction m with
  | zero =>
    intro idx t hm u hu
    rwa [traceLoop_done (by omega)]
  | succ m ih =>
    intro idx t hm u hu
    by_cases hlt : t.bytesCopied < n
    · by_cases hlen : writeLen t.bytesCopied B n = B
      · rw [traceLoop_full hlt (by omega) hlen]
        exact ih (idx + 1) _ (by omega) u (by simp [Trace.full, hu])
      · rw [traceLoop_short hlt (by omega) hlen]
        exact List.mem_append_left _ hu
    · rwa [traceLoop_done fun hg => hlt hg.1]

/-- **The loop counts as that of `Copy`**, by induction on the passes left. -/
theorem bytesCopied_traceLoop : ∀ (m idx : ℕ) (t : Trace) (c : CopyState), idx + m = limit →
    t.bytesCopied = c.bytesCopied →
    (traceLoop array B n limit idx t).bytesCopied = (copyLoop fetch B n limit idx c).bytesCopied := by
  intro m
  induction m with
  | zero =>
    intro idx t c hm h
    rwa [traceLoop_done (by omega), copyLoop_done (by omega)]
  | succ m ih =>
    intro idx t c hm h
    by_cases hlt : t.bytesCopied < n
    · by_cases hlen : writeLen t.bytesCopied B n = B
      · obtain ⟨c', hc', heq⟩ := bytesCopied_copyLoop_full fetch (h ▸ hlt)
          (show idx < limit by omega) (h ▸ hlen)
        rw [traceLoop_full hlt (by omega) hlen, heq]
        exact ih (idx + 1) _ c' (by omega) (by rw [hc', ← h]; rfl)
      · rw [traceLoop_short hlt (by omega) hlen, bytesCopied_copyLoop_short (h ▸ hlt) (by omega) (h ▸ hlen)]
    · rwa [traceLoop_done fun hg => hlt hg.1, copyLoop_done fun hg => hlt (h ▸ hg.1)]

theorem bytesCopied_traceIndirect (d : Disk) (stray : ℕ → List UInt8) (p : ℕ) (h : t.bytesCopied = c.bytesCopied) :
    (traceIndirect B n t).bytesCopied = (copyIndirect d B stray n p c).bytesCopied :=
  bytesCopied_traceLoop (B.toNat / 4) 0 _ _ (by omega) h

theorem bytesCopied_traceOuter (d : Disk) (stray : ℕ → List UInt8) (blk : List UInt8) :
    ∀ (m idx : ℕ) (t : Trace) (c : CopyState), idx + m = B.toNat / 4 → t.bytesCopied = c.bytesCopied →
      (traceOuter B n idx t).bytesCopied = (outerLoop d B stray n blk idx c).bytesCopied := by
  intro m
  induction m with
  | zero =>
    intro idx t c hm h
    rw [traceOuter, outerLoop, if_neg (by omega), if_neg (by omega)]
    exact h
  | succ m ih =>
    intro idx t c hm h
    rw [traceOuter, outerLoop, ← h]
    split_ifs
    · exact ih (idx + 1) _ _ (by omega) (bytesCopied_traceIndirect d stray _ h)
    · exact h

/-- **The same count in the end.** -/
theorem bytesCopied_copyTrace (d : Disk) (B : UInt32) (stray : ℕ → List UInt8) (inode : Inode)
    (buffer : List UInt8) : (copyTrace B inode.iSize).bytesCopied =
      (copyBlocks d B stray inode buffer).bytesCopied := by
  have hdirect : (traceDirect B inode.iSize).bytesCopied =
      (copyLoop (fun k => readBlock d B (inode.iBlock k)) B inode.iSize ext2NdirBlocks 0 ⟨0, buffer, []⟩).bytesCopied :=
    bytesCopied_traceLoop ext2NdirBlocks 0 _ _ (Nat.zero_add _) rfl
  have hite : ∀ {t t' : Trace} {c c' : CopyState}, t.bytesCopied = c.bytesCopied →
      t'.bytesCopied = c'.bytesCopied → (if t.bytesCopied < inode.iSize then t' else t).bytesCopied =
        (if c.bytesCopied < inode.iSize then c' else c).bytesCopied := by
    intro t t' c c' h h'
    rw [← h]
    split_ifs
    · exact h'
    · exact h
  have hind := hite hdirect (bytesCopied_traceIndirect (B := B) (n := inode.iSize)
    (t := (traceDirect B inode.iSize).use (.iBlock ext2IndBlock)) d stray (inode.iBlock ext2IndBlock) hdirect)
  exact hite hind (bytesCopied_traceOuter d stray _ (B.toNat / 4) 0 _ _ (by omega) hind)

end Loop

/-! ### What is used -/

section Uses
variable {B n : UInt32} {array : ℕ → Use} {limit : ℕ}

/-- As long as the sum with a whole block is below `2 ^ 32`, a write takes what is left or a block. -/
theorem toNat_writeLen_of_lt {b : UInt32} (hlt : b < n) (hov : b.toNat + B.toNat < 2 ^ 32) :
    (writeLen b B n).toNat = min B.toNat (n.toNat - b.toNat) := by
  have hlt' := UInt32.lt_iff_toNat_lt.mp hlt
  have hadd : (b + B).toNat = b.toNat + B.toNat := by
    rw [UInt32.toNat_add, Nat.mod_eq_of_lt hov]
  unfold writeLen
  split_ifs with hgt
  · rw [gt_iff_lt, UInt32.lt_iff_toNat_lt, hadd] at hgt
    rw [UInt32.toNat_sub_of_le _ _ (UInt32.le_of_lt hlt)]
    omega
  · rw [gt_iff_lt, UInt32.lt_iff_toNat_lt, hadd] at hgt
    omega

/-- Beyond that a whole block is written, and the count wraps. -/
theorem writeLen_of_wrap {b : UInt32} (hlt : b < n) (hov : 2 ^ 32 ≤ b.toNat + B.toNat) : writeLen b B n = B := by
  have hlt' := UInt32.lt_iff_toNat_lt.mp hlt
  have hB := B.toNat_lt
  have hb := b.toNat_lt
  unfold writeLen
  rw [if_neg]
  rw [gt_iff_lt, UInt32.lt_iff_toNat_lt, UInt32.toNat_add]
  omega

/-- No sum of the loop leaves the 32 bits, from the count `b` on for `m` passes. -/
def NoWrap (B n : UInt32) (b m : ℕ) : Prop :=
  ∀ j < m, b + j * B.toNat < n.toNat → b + j * B.toNat + B.toNat < 2 ^ 32

/-- **What a loop uses** while nothing wraps: sums below `2 ^ 32`, and the index behind each block that is written
as a whole. -/
structure Uses (B n : UInt32) (array : ℕ → Use) (idx m : ℕ) (t t' : Trace) : Prop where
  count : t'.bytesCopied.toNat = min n.toNat (t.bytesCopied.toNat + m * B.toNat)
  mono : ∀ u ∈ t.uses, u ∈ t'.uses
  cases : ∀ u ∈ t'.uses, u ∈ t.uses ∨ (∃ b len, u = .add b len ∧ b.toNat + len.toNat < 2 ^ 32) ∨
    ∃ j < m, t.bytesCopied.toNat + (j + 1) * B.toNat ≤ n.toNat ∧ u = array (idx + j + 1)
  last : 0 < m → t.bytesCopied < n → t.bytesCopied.toNat + m * B.toNat ≤ n.toNat → array (idx + m) ∈ t'.uses

section Pass
variable {t t' : Trace} {m idx : ℕ}

theorem toNat_full {u : Use} (hov : t.bytesCopied.toNat + B.toNat < 2 ^ 32) :
    (t.full B u).bytesCopied.toNat = t.bytesCopied.toNat + B.toNat := by
  show (t.bytesCopied + B).toNat = _
  rw [UInt32.toNat_add, Nat.mod_eq_of_lt hov]

theorem Uses.done (hle : t.bytesCopied ≤ n) (hm : m = 0 ∨ ¬ t.bytesCopied < n) : Uses B n array idx m t t := by
  rw [UInt32.le_iff_toNat_le] at hle
  refine ⟨?_, fun u hu => hu, fun u hu => .inl hu, fun hpos hlt => absurd hlt (hm.resolve_left hpos.ne')⟩
  rcases hm with rfl | hm
  · omega
  · rw [UInt32.lt_iff_toNat_lt] at hm
    omega

/-- One more pass with a whole block. -/
theorem Uses.full (hov : t.bytesCopied.toNat + B.toNat < 2 ^ 32) (hfull : t.bytesCopied.toNat + B.toNat ≤ n.toNat)
    (h : Uses B n array (idx + 1) m (t.full B (array (idx + 1))) t') : Uses B n array idx (m + 1) t t' := by
  have hadd := toNat_full (u := array (idx + 1)) hov
  have hmul : ∀ k, (k + 1) * B.toNat = k * B.toNat + B.toNat := fun k => Nat.succ_mul k _
  have hcount := h.count
  rw [hadd] at hcount
  refine ⟨?_, fun u hu => h.mono u (by simp [Trace.full, hu]), fun u hu => ?_, fun _ hlt hall => ?_⟩
  · rw [hcount, hmul]
    omega
  · rcases h.cases u hu with hu | hu | ⟨j, hj, hjn, rfl⟩
    · simp only [Trace.full, List.mem_append, List.mem_singleton] at hu
      rcases hu with (hu | rfl) | rfl
      · exact .inl hu
      · exact .inr (.inl ⟨_, _, rfl, hov⟩)
      · exact .inr (.inr ⟨0, by omega, by omega, rfl⟩)
    · exact .inr (.inl hu)
    · rw [hadd] at hjn
      refine .inr (.inr ⟨j + 1, by omega, ?_, by rw [Nat.add_right_comm idx 1 j, Nat.add_assoc idx j 1]⟩)
      rw [hmul]
      omega
  · rw [hmul] at hall
    rcases Nat.eq_zero_or_pos m with rfl | hpos
    · exact h.mono _ (by simp [Trace.full])
    · have hle := Nat.le_mul_of_pos_left B.toNat hpos
      have hlt2 : (t.full B (array (idx + 1))).bytesCopied < n := by
        rw [UInt32.lt_iff_toNat_lt] at hlt ⊢
        omega
      have hl := h.last hpos hlt2 (by omega)
      rwa [Nat.add_assoc, Nat.add_comm 1 m] at hl

/-- The last pass, with less than a block. -/
theorem Uses.short {len : UInt32} (hshort : n.toNat < t.bytesCopied.toNat + B.toNat)
    (hlen : t.bytesCopied.toNat + len.toNat < 2 ^ 32) :
    Uses B n array idx (m + 1) t ⟨n, t.uses ++ [.add t.bytesCopied len]⟩ := by
  have hmul : (m + 1) * B.toNat = m * B.toNat + B.toNat := Nat.succ_mul m _
  refine ⟨?_, fun u hu => List.mem_append_left _ hu, fun u hu => ?_, fun _ _ hall => by omega⟩
  · show n.toNat = _
    omega
  · rcases List.mem_append.mp hu with hu | hu
    · exact .inl hu
    · exact .inr (.inl ⟨_, _, List.mem_singleton.mp hu, hlen⟩)

end Pass

/-- **The uses of a loop**, by induction on the passes left. -/
theorem uses_traceLoop : ∀ (m idx : ℕ) (t : Trace), idx + m = limit → t.bytesCopied ≤ n →
    NoWrap B n t.bytesCopied.toNat m → Uses B n array idx m t (traceLoop array B n limit idx t) := by
  intro m
  induction m with
  | zero =>
    intro idx t hm hle _
    rw [traceLoop_done (by omega)]
    exact .done hle (.inl rfl)
  | succ m ih =>
    intro idx t hm hle hno
    by_cases hlt : t.bytesCopied < n
    · have hlt' := UInt32.lt_iff_toNat_lt.mp hlt
      have hov : t.bytesCopied.toNat + B.toNat < 2 ^ 32 := by simpa using hno 0 (Nat.succ_pos m) (by omega)
      have hlen := toNat_writeLen_of_lt hlt hov
      by_cases hw : writeLen t.bytesCopied B n = B
      · have hfull : t.bytesCopied.toNat + B.toNat ≤ n.toNat := by
          rw [hw] at hlen
          omega
        have hadd := toNat_full (u := array (idx + 1)) hov
        rw [traceLoop_full hlt (by omega) hw]
        refine .full hov hfull (ih (idx + 1) _ (by omega) ?_ fun j hj hjn => ?_)
        · rw [UInt32.le_iff_toNat_le, hadd]
          exact hfull
        · have hj' := hno (j + 1) (by omega)
          rw [Nat.succ_mul] at hj'
          rw [hadd] at hjn ⊢
          omega
      · have hshort : n.toNat < t.bytesCopied.toNat + B.toNat := by
          by_contra hge
          refine hw (UInt32.toNat_inj.mp ?_)
          omega
        rw [traceLoop_short hlt (by omega) hw]
        exact .short hshort (by omega)
    · rw [traceLoop_done fun h => hlt h.1]
      exact .done hle (.inr hlt)

/-- **A loop whose sums are in range** does not wrap, by the same induction. -/
theorem noWrap_of_ok (array : ℕ → Use) : ∀ (m idx : ℕ) (t : Trace), idx + m = limit →
    (∀ u ∈ (traceLoop array B n limit idx t).uses, u.Ok B) → NoWrap B n t.bytesCopied.toNat m := by
  intro m
  induction m with
  | zero => exact fun idx t _ _ j hj => absurd hj (Nat.not_lt_zero j)
  | succ m ih =>
    intro idx t hm hok j hj hjn
    have hlt : t.bytesCopied < n := by
      rw [UInt32.lt_iff_toNat_lt]
      omega
    by_cases hw : writeLen t.bytesCopied B n = B
    · rw [traceLoop_full hlt (by omega) hw] at hok
      have hov : t.bytesCopied.toNat + B.toNat < 2 ^ 32 :=
        hok _ (mem_traceLoop_of_mem m (idx + 1) _ (by omega) (.add t.bytesCopied B) (by simp [Trace.full]))
      have hrec := ih (idx + 1) _ (by omega) hok
      cases j with
      | zero => simpa using hov
      | succ j =>
        have hj' := hrec j (by omega)
        rw [Nat.succ_mul] at hjn ⊢
        rw [toNat_full hov] at hj'
        omega
    · have hov : ¬ 2 ^ 32 ≤ t.bytesCopied.toNat + B.toNat := fun h => hw (writeLen_of_wrap hlt h)
      have hlen := toNat_writeLen_of_lt hlt (not_le.mp hov)
      cases j with
      | zero =>
        rw [Nat.zero_mul]
        omega
      | succ j =>
        rw [Nat.succ_mul] at hjn
        refine absurd (UInt32.toNat_inj.mp ?_) hw
        omega

end Uses

/-! ### The three copies -/

section Copy
variable {B n : UInt32}

theorem mem_use {t : Trace} {u v : Use} (h : u ∈ t.uses) : u ∈ (t.use v).uses := List.mem_append_left _ h

theorem mem_use_self (t : Trace) (u : Use) : u ∈ (t.use u).uses := List.mem_append_right _ (List.mem_singleton_self u)

theorem mem_traceIndirect {t : Trace} {u : Use} (h : u ∈ t.uses) : u ∈ (traceIndirect B n t).uses :=
  mem_traceLoop_of_mem (B.toNat / 4) 0 _ (Nat.zero_add _) u (mem_use h)

theorem mem_traceOuter {u : Use} : ∀ (m idx : ℕ) (t : Trace), idx + m = B.toNat / 4 → u ∈ t.uses →
    u ∈ (traceOuter B n idx t).uses := by
  intro m
  induction m with
  | zero =>
    intro idx t hm h
    rwa [traceOuter, if_neg (by omega)]
  | succ m ih =>
    intro idx t hm h
    rw [traceOuter]
    split_ifs
    · exact ih (idx + 1) _ (by omega) (mem_traceIndirect (mem_use h))
    · exact h

/-- The trace when the indirect block has been copied. -/
def indirectTrace (B n : UInt32) : Trace := traceIndirect B n ((traceDirect B n).use (.iBlock ext2IndBlock))

theorem mem_copyUses_direct {u : Use} (h : u ∈ (traceDirect B n).uses) : u ∈ copyUses B n := by
  unfold copyUses copyTrace
  dsimp only
  split_ifs
  · exact mem_traceOuter (B.toNat / 4) 0 _ (Nat.zero_add _) (mem_use (mem_traceIndirect (mem_use h)))
  · exact mem_traceIndirect (mem_use h)
  · exact h

theorem mem_copyUses_indirect {u : Use} (hlt : (traceDirect B n).bytesCopied < n)
    (h : u ∈ (indirectTrace B n).uses) : u ∈ copyUses B n := by
  unfold copyUses copyTrace
  dsimp only
  rw [if_pos hlt]
  split_ifs
  · exact mem_traceOuter (B.toNat / 4) 0 _ (Nat.zero_add _) (mem_use h)
  · exact h

theorem noWrap_of_le {b m : ℕ} (h : n.toNat + B.toNat ≤ 2 ^ 32) : NoWrap B n b m := fun j _ hj => by omega

/-- Sums below `2 ^ 32` keep the size a block away from it, as the count goes up in whole blocks. -/
theorem le_of_noWrap {k : ℕ} (hno : NoWrap B n 0 k) (hdvd : B.toNat ∣ 2 ^ 32) (hn : 0 < n.toNat)
    (hk : n.toNat ≤ k * B.toNat) : n.toNat + B.toNat ≤ 2 ^ 32 := by
  have hB : 0 < B.toNat := Nat.pos_of_ne_zero fun h0 => by
    rw [h0, Nat.mul_zero] at hk
    omega
  obtain ⟨c, hc⟩ := hdvd
  -- the block that holds the last byte
  have hdiv : (n.toNat - 1) / B.toNat * B.toNat + (n.toNat - 1) % B.toNat = n.toNat - 1 := Nat.div_add_mod' _ _
  have hmod : (n.toNat - 1) % B.toNat < B.toNat := Nat.mod_lt _ hB
  have hj : (n.toNat - 1) / B.toNat < k := by
    rw [Nat.div_lt_iff_lt_mul hB]
    omega
  have hlast := hno _ hj (by omega)
  have hnext : (n.toNat - 1) / B.toNat + 1 < c := by
    refine Nat.lt_of_mul_lt_mul_left (a := B.toNat) ?_
    rw [← hc, Nat.mul_comm, Nat.succ_mul]
    omega
  have hle : ((n.toNat - 1) / B.toNat + 2) * B.toNat ≤ c * B.toNat := Nat.mul_le_mul_right _ hnext
  rw [Nat.mul_comm c, ← hc, Nat.add_mul] at hle
  omega

theorem uses_direct (hno : NoWrap B n 0 ext2NdirBlocks) :
    Uses B n .iBlock 0 ext2NdirBlocks ⟨0, [.iBlock 0]⟩ (traceDirect B n) :=
  uses_traceLoop ext2NdirBlocks 0 _ (Nat.zero_add _) UInt32.zero_le hno

theorem uses_indirect (hle : (traceDirect B n).bytesCopied ≤ n)
    (hno : NoWrap B n (traceDirect B n).bytesCopied.toNat (B.toNat / 4)) :
    Uses B n .indBlock 0 (B.toNat / 4)
      (((traceDirect B n).use (.iBlock ext2IndBlock)).use (.indBlock 0)) (indirectTrace B n) :=
  uses_traceLoop (B.toNat / 4) 0 _ (Nat.zero_add _) hle hno

/-- The direct copy is always in range, unless a sum is not. -/
theorem ok_direct (hno : NoWrap B n 0 ext2NdirBlocks) : ∀ u ∈ (traceDirect B n).uses, u.Ok B := by
  intro u hu
  rcases (uses_direct hno).cases u hu with hu | ⟨b, len, rfl, hsum⟩ | ⟨j, hj, -, rfl⟩
  · obtain rfl := List.mem_singleton.mp hu
    exact (by decide : 0 < ext2NBlocks)
  · exact hsum
  · show 0 + j + 1 < ext2NBlocks
    unfold ext2NdirBlocks at hj
    unfold ext2NBlocks
    omega

/-- **A file that ends before the indirect block does** is copied in range. -/
theorem ok_of_lt (hlt : n.toNat < (ext2NdirBlocks + B.toNat / 4) * B.toNat) (hle : n.toNat + B.toNat ≤ 2 ^ 32) :
    ∀ u ∈ copyUses B n, u.Ok B := by
  have hdirect := ok_direct (B := B) (n := n) (noWrap_of_le hle)
  have hcount := (uses_direct (B := B) (n := n) (noWrap_of_le hle)).count
  rw [Nat.add_mul] at hlt
  change _ = min n.toNat (0 + ext2NdirBlocks * B.toNat) at hcount
  unfold copyUses copyTrace
  dsimp only
  by_cases hmore : (traceDirect B n).bytesCopied < n
  · rw [if_pos hmore]
    have hmore' := UInt32.lt_iff_toNat_lt.mp hmore
    have huses := uses_indirect (UInt32.le_of_lt hmore) (noWrap_of_le hle)
    have hcount2 := huses.count
    change _ = min n.toNat ((traceDirect B n).bytesCopied.toNat + _) at hcount2
    have hend : ¬ (indirectTrace B n).bytesCopied < n := by
      rw [UInt32.lt_iff_toNat_lt]
      omega
    change ∀ u ∈ (if (indirectTrace B n).bytesCopied < n then _ else indirectTrace B n).uses, _
    rw [if_neg hend]
    intro u hu
    rcases huses.cases u hu with hu | ⟨b, len, rfl, hsum⟩ | ⟨j, hj, hjn, rfl⟩
    · simp only [Trace.use, List.mem_append, List.mem_singleton] at hu
      rcases hu with (hu | rfl) | rfl
      · exact hdirect u hu
      · exact (by decide : ext2IndBlock < ext2NBlocks)
      · -- there is something in the indirect block
        show 0 < B.toNat / 4
        by_contra h0
        rw [Nat.eq_zero_of_not_pos h0, Nat.zero_mul] at hlt
        omega
    · exact hsum
    · show 0 + j + 1 < B.toNat / 4
      change (traceDirect B n).bytesCopied.toNat + _ ≤ _ at hjn
      by_contra hge
      have hmul : B.toNat / 4 * B.toNat ≤ (j + 1) * B.toNat := Nat.mul_le_mul_right _ (by omega)
      omega
  · rw [if_neg hmore, if_neg hmore]
    exact hdirect

/-- **A file that is copied in range** is empty, or ends before the indirect block does. -/
theorem lt_of_ok (hB : B.toNat = 0 ∨ 4 ≤ B.toNat ∧ B.toNat ∣ 2 ^ 32) (hn : 0 < n.toNat)
    (hok : ∀ u ∈ copyUses B n, u.Ok B) :
    n.toNat < (ext2NdirBlocks + B.toNat / 4) * B.toNat ∧ n.toNat + B.toNat ≤ 2 ^ 32 := by
  have hdvd : B.toNat ≠ 0 → B.toNat ∣ 2 ^ 32 := fun h => (hB.resolve_left h).2
  have hno : NoWrap B n 0 ext2NdirBlocks := noWrap_of_ok .iBlock ext2NdirBlocks 0 ⟨0, [.iBlock 0]⟩
    (Nat.zero_add _) fun u hu => hok u (mem_copyUses_direct hu)
  have hcount := (uses_direct hno).count
  change _ = min n.toNat (0 + ext2NdirBlocks * B.toNat) at hcount
  rw [Nat.add_mul]
  by_cases hmore : (traceDirect B n).bytesCopied < n
  · have hmore' := UInt32.lt_iff_toNat_lt.mp hmore
    have hno2 : NoWrap B n (traceDirect B n).bytesCopied.toNat (B.toNat / 4) :=
      noWrap_of_ok .indBlock (B.toNat / 4) 0
        (((traceDirect B n).use (.iBlock ext2IndBlock)).use (.indBlock 0)) (Nat.zero_add _)
        fun u hu => hok u (mem_copyUses_indirect hmore hu)
    have huses := uses_indirect (UInt32.le_of_lt hmore) hno2
    have hpos : 0 < B.toNat / 4 :=
      hok (.indBlock 0) (mem_copyUses_indirect hmore (huses.mono _ (mem_use_self _ _)))
    have hlt : n.toNat < ext2NdirBlocks * B.toNat + B.toNat / 4 * B.toNat := by
      by_contra hge
      have hlast := huses.last hpos hmore (by
        change (traceDirect B n).bytesCopied.toNat + _ ≤ _
        omega)
      have hbad : 0 + B.toNat / 4 < B.toNat / 4 := hok _ (mem_copyUses_indirect hmore hlast)
      omega
    refine ⟨hlt, le_of_noWrap (k := ext2NdirBlocks + B.toNat / 4) (fun j hj hjn => ?_) (hdvd (by omega)) hn
      (by rw [Nat.add_mul]; exact hlt.le)⟩
    by_cases hj12 : j < ext2NdirBlocks
    · exact hno j hj12 hjn
    · have hj2 := hno2 (j - ext2NdirBlocks) (by omega)
      have hsub : j * B.toNat = ext2NdirBlocks * B.toNat + (j - ext2NdirBlocks) * B.toNat := by
        rw [← Nat.add_mul, Nat.add_sub_cancel' (not_lt.mp hj12)]
      omega
  · rw [UInt32.lt_iff_toNat_lt] at hmore
    have hle : n.toNat ≤ ext2NdirBlocks * B.toNat := by omega
    have hB0 : B.toNat ≠ 0 := by
      intro h0
      rw [h0] at hle
      omega
    have h4 := (hB.resolve_left hB0).1
    have hone : B.toNat ≤ B.toNat / 4 * B.toNat := Nat.le_mul_of_pos_left _ (by omega)
    exact ⟨by omega, le_of_noWrap hno (hdvd hB0) hn hle⟩

/-- A block size is a power of two, or zero when `1024 << s_log_block_size` has left the 32 bits. -/
theorem blockSize_cases (super : SuperBlock) : (geometry super).blockSize.toNat = 0 ∨
    4 ≤ (geometry super).blockSize.toNat ∧ (geometry super).blockSize.toNat ∣ 2 ^ 32 :=
  blockSize_of_shifts super (P := fun b => b = 0 ∨ 4 ≤ b ∧ b ∣ 2 ^ 32) (by decide)

/-- **When the copy of a file stays in range.** -/
theorem all_ok_iff (super : SuperBlock) (iSize : UInt32) :
    (∀ u ∈ copyUses (geometry super).blockSize iSize, u.Ok (geometry super).blockSize) ↔ iSize.toNat = 0 ∨
      iSize.toNat < (12 + (geometry super).blockSize.toNat / 4) * (geometry super).blockSize.toNat ∧
        iSize.toNat + (geometry super).blockSize.toNat ≤ 2 ^ 32 := by
  constructor
  · intro hok
    rcases Nat.eq_zero_or_pos iSize.toNat with h0 | hpos
    · exact .inl h0
    · exact .inr (lt_of_ok (blockSize_cases super) hpos hok)
  · rintro (h0 | ⟨hlt, hle⟩)
    · -- no loop is entered
      have hno : ∀ b : UInt32, ¬ b < iSize := fun b => by
        rw [UInt32.lt_iff_toNat_lt]
        omega
      unfold copyUses copyTrace
      dsimp only
      rw [if_neg (hno _), if_neg (hno _)]
      exact ok_direct fun j _ hj => by omega
    · exact ok_of_lt hlt hle

/-- A file of 268 KiB in blocks of 1 KiB fills the indirect block exactly; the copy reads pointer 256 of 256. -/
theorem not_ok_full : ¬ ∀ u ∈ copyUses (geometry (readSuperBlock oneKib)).blockSize 274432,
    u.Ok (geometry (readSuperBlock oneKib)).blockSize := fun hok =>
  absurd (lt_of_ok (blockSize_cases _) (by decide) hok).1 (by decide)

end Copy

end OperatingSystems.RunScan.Pointers
