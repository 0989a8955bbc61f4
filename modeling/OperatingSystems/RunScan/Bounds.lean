import Mathlib.Data.List.GetD
import Mathlib.Tactic
import OperatingSystems.RunScan.Output

/-! # Runscan: what the walks over a directory block access

The three directory walks of `main` run alike, with an `unsigned` offset. At an entry they read the length of
its name, copy the name into `name`, and read its inode. The search for `top_secret` then copies the whole entry
when it has that name; the other two look up the inode in `inode_is_jpg`, unless the name is empty.

* `dirLoop`: the loop of a walk in 32 bits. It ends, at the offsets of `walk` (`dirLoop_eq`).
* `accesses`: the bytes of `buffer`, of `name` and of `inode_is_jpg` that an entry leads to.
* `safe_iff`: the walk is safe exactly when all its entries fit (`Fits`): the header and the name end in the
  block, the name leaves room for its last byte, the inode is not the one number that passes the test but is the
  length of `inode_is_jpg`, and an entry `top_secret` is followed by the rest of a `struct ext2_dir_entry`. -/

namespace OperatingSystems.RunScan.Bounds

open OperatingSystems.Lib.Walk OperatingSystems.RunScan.DirWalk
open OperatingSystems.RunScan.Geometry OperatingSystems.RunScan.Output

/-! ### The loop -/

/-- The step of the walk in 32 bits. -/
def nextOffset32 (buf : Buffer) (offset : UInt32) : UInt32 :=
  let offset := offset + 4 + 2 + 1 + 1 + UInt32.ofNat (dentryAt buf offset.toNat).nameLen
  if offset % 4 = 0 then offset else offset + 4 - offset % 4

/-- `while (offset < block_size)`, for at most so many tests: the offsets of the entries. -/
def dirLoop (buf : Buffer) (blockSize : UInt32) : ℕ → UInt32 → Option (List UInt32)
  | 0, _ => none
  | fuel + 1, offset =>
    if offset < blockSize then
      (dirLoop buf blockSize fuel (nextOffset32 buf offset)).map (offset :: ·)
    else some []

/-- `sizeof(struct ext2_dir_entry)`: eight bytes, the name, and one to fill up. -/
def dentrySize : ℕ := 264

/-- `EXT2_NAME_LEN`. -/
def ext2NameLen : ℕ := 255

/-! ### Accesses -/

/-- An access to one of the three arrays. -/
inductive Access
  | buffer (k : ℕ)
  | name (k : ℕ)
  | inodeIsJpg (k : ℕ)
  deriving DecidableEq

/-- The access is inside its array. -/
def Access.Inside (g : Globals) : Access → Prop
  | .buffer k => k < g.blockSize.toNat
  | .name k => k < ext2NameLen
  | .inodeIsJpg k => k < (flagCount g).toNat

/-- The bytes that `strncpy` reads: up to the first zero, and at most `n`. -/
def strncpyReads (buf : Buffer) : ℕ → ℕ → List Access
  | 0, _ => []
  | n + 1, k => .buffer k :: if buf k = 0 then [] else strncpyReads buf n (k + 1)

/-- What all walks do at an entry: `name_len`, `strncpy`, the byte behind the name, and the inode. -/
def entryAccesses (buf : Buffer) (off : ℕ) : List Access :=
  .buffer (off + 6) :: strncpyReads buf (dentryAt buf off).nameLen (off + 8) ++
    (List.range (dentryAt buf off).nameLen).map .name ++ [.name (dentryAt buf off).nameLen] ++
    (List.range 4).map fun k => .buffer (off + k)

/-- The three walks. -/
inductive Scan
  | search
  | topSecret
  | allJpg
  deriving DecidableEq

/-- `top_secret_dentry = *dentry`. -/
def searchAccesses (g : Globals) (buf : Buffer) (off : ℕ) : List Access :=
  if (dentryAt buf off).inode ≤ (flagCount g).toNat ∧ nameAt buf off = topSecretBytes then
    (List.range dentrySize).map fun k => .buffer (off + k)
  else []

/-- `name[0] != '\0' && inode_is_jpg[dentry->inode]`. -/
def flagAccesses (g : Globals) (buf : Buffer) (off : ℕ) : List Access :=
  if (dentryAt buf off).inode ≤ (flagCount g).toNat ∧ nameAt buf off ≠ [] then
    [.inodeIsJpg (dentryAt buf off).inode]
  else []

/-- The rest of the body of each walk. -/
def Scan.body : Scan → Globals → Buffer → ℕ → List Access
  | .search => searchAccesses
  | .topSecret => flagAccesses
  | .allJpg => flagAccesses

/-- All accesses of a walk at an entry. -/
def Scan.accesses (w : Scan) (g : Globals) (buf : Buffer) (off : ℕ) : List Access :=
  entryAccesses buf off ++ w.body g buf off

/-- **The walk is safe**: it ends, and every access is inside its array. -/
def Safe (w : Scan) (super : SuperBlock) (buf : Buffer) : Prop :=
  ∃ fuel offs, dirLoop buf (geometry super).blockSize fuel 24 = some offs ∧
    ∀ off ∈ offs, ∀ a ∈ w.accesses (geometry super) buf off.toNat, a.Inside (geometry super)

/-! ### Entries that fit -/

/-- The name is empty, or it ends in the block by its length or by a zero. -/
def NameEnds (blockSize : ℕ) (buf : Buffer) (off : ℕ) : Prop :=
  (dentryAt buf off).nameLen = 0 ∨ off + 8 + (dentryAt buf off).nameLen ≤ blockSize ∨
    ∃ k < (dentryAt buf off).nameLen, off + 8 + k < blockSize ∧ buf (off + 8 + k) = 0

/-- **The entry fits.** -/
structure Fits (w : Scan) (g : Globals) (buf : Buffer) (off : ℕ) : Prop where
  header : off + 6 < g.blockSize.toNat
  name : NameEnds g.blockSize.toNat buf off
  room : (dentryAt buf off).nameLen < ext2NameLen
  whole : w = .search → (dentryAt buf off).inode ≤ (flagCount g).toNat → nameAt buf off = topSecretBytes →
    off + dentrySize ≤ g.blockSize.toNat
  flag : w ≠ .search → nameAt buf off ≠ [] → (dentryAt buf off).inode ≠ (flagCount g).toNat

@[simp] theorem inside_buffer {g : Globals} {k : ℕ} : (Access.buffer k).Inside g ↔ k < g.blockSize.toNat := Iff.rfl

@[simp] theorem inside_name {g : Globals} {k : ℕ} : (Access.name k).Inside g ↔ k < ext2NameLen := Iff.rfl

@[simp] theorem inside_inodeIsJpg {g : Globals} {k : ℕ} :
    (Access.inodeIsJpg k).Inside g ↔ k < (flagCount g).toNat := Iff.rfl

variable {w : Scan} {super : SuperBlock} {g : Globals} {buf : Buffer} {off : ℕ}

/-! ### The end of the loop -/

/-- A block is never longer than 2 GiB. -/
theorem blockSize_le (super : SuperBlock) : (geometry super).blockSize.toNat ≤ 2 ^ 31 :=
  blockSize_of_shifts super (P := (· ≤ 2 ^ 31)) (by decide)

theorem nameLen_lt (buf : Buffer) (off : ℕ) : (dentryAt buf off).nameLen < 256 := (buf (off + 6)).toNat_lt

/-- Below 2 GiB the step does not wrap round. -/
theorem toNat_nextOffset32 (buf : Buffer) {offset : UInt32} (h : offset.toNat < 2 ^ 31) :
    (nextOffset32 buf offset).toNat = nextOffset buf offset.toNat := by
  have hn := nameLen_lt buf offset.toNat
  have hsum : (offset + 4 + 2 + 1 + 1 + UInt32.ofNat (dentryAt buf offset.toNat).nameLen).toNat =
      offset.toNat + 4 + 2 + 1 + 1 + (dentryAt buf offset.toNat).nameLen := by
    simp only [UInt32.toNat_add, UInt32.toNat_ofNat', UInt32.toNat_ofNat]
    omega
  have h4 : (4 : UInt32).toNat = 4 := rfl
  have hmod : ∀ x : UInt32, x % 4 = 0 ↔ x.toNat % 4 = 0 := fun x => by
    rw [← UInt32.toNat_inj, UInt32.toNat_mod, h4]
    rfl
  unfold nextOffset32 nextOffset align4
  simp only [hmod, hsum]
  split_ifs with hdvd
  · exact hsum
  · rw [UInt32.toNat_sub_of_le, UInt32.toNat_add, UInt32.toNat_mod, hsum, h4]
    · omega
    · rw [UInt32.le_iff_toNat_le, UInt32.toNat_add, UInt32.toNat_mod, hsum, h4]
      omega

/-- **The loop ends**, at the offsets of the walk. -/
theorem dirLoop_eq (buf : Buffer) {blockSize : UInt32} (hbs : blockSize.toNat ≤ 2 ^ 31) :
    ∀ (fuel : ℕ) (offset : UInt32), blockSize.toNat ≤ fuel + offset.toNat →
      ∃ offs, dirLoop buf blockSize (fuel + 1) offset = some offs ∧
        offs.map UInt32.toNat = walkFuel (nextOffset buf) blockSize.toNat fuel offset.toNat
  | 0, offset, h => by
    refine ⟨[], ?_, rfl⟩
    rw [dirLoop, if_neg]
    rw [UInt32.lt_iff_toNat_lt]
    omega
  | fuel + 1, offset, h => by
    by_cases hlt : offset.toNat < blockSize.toNat
    · have hnext := toNat_nextOffset32 buf (show offset.toNat < 2 ^ 31 by omega)
      have hpos := lt_nextOffset buf offset.toNat
      obtain ⟨offs, hoffs, hmap⟩ := dirLoop_eq buf hbs fuel (nextOffset32 buf offset) (by omega)
      refine ⟨offset :: offs, ?_, ?_⟩
      · rw [dirLoop, if_pos (UInt32.lt_iff_toNat_lt.mpr hlt), hoffs]
        rfl
      · rw [List.map_cons, hmap, hnext, walkFuel, if_pos hlt]
    · refine ⟨[], ?_, ?_⟩
      · rw [dirLoop, if_neg (fun h => hlt (UInt32.lt_iff_toNat_lt.mp h))]
      · rw [walkFuel, if_neg hlt]
        rfl

/-- With more tests the loop does not run further. -/
theorem dirLoop_unique {blockSize : UInt32} : ∀ {n m : ℕ} {offset : UInt32} {xs ys : List UInt32},
    dirLoop buf blockSize n offset = some xs → dirLoop buf blockSize m offset = some ys → xs = ys
  | 0, _, _, _, _, hx, _ => by cases hx
  | _ + 1, 0, _, _, _, _, hy => by cases hy
  | n + 1, m + 1, offset, xs, ys, hx, hy => by
    rw [dirLoop] at hx hy
    split_ifs at hx hy with hlt
    · obtain ⟨xs', hx', rfl⟩ := Option.map_eq_some_iff.mp hx
      obtain ⟨ys', hy', rfl⟩ := Option.map_eq_some_iff.mp hy
      rw [dirLoop_unique hx' hy']
    · rw [← Option.some.inj hx, ← Option.some.inj hy]

/-- The walk is safe when the accesses at every offset it comes to are. -/
theorem safe_iff_forall : Safe w super buf ↔ ∀ off < (geometry super).blockSize.toNat,
    Reach (nextOffset buf) 24 off → ∀ a ∈ w.accesses (geometry super) buf off, a.Inside (geometry super) := by
  have hbs := blockSize_le super
  have h24 : (24 : UInt32).toNat = 24 := rfl
  obtain ⟨offs, hoffs, hmap⟩ := dirLoop_eq buf hbs ((geometry super).blockSize.toNat - 24) 24
    (by omega)
  rw [h24] at hmap
  have hmem : ∀ off, off < (geometry super).blockSize.toNat ∧ Reach (nextOffset buf) 24 off ↔
      ∃ o ∈ offs, o.toNat = off := by
    intro off
    rw [← mem_walk (lt_nextOffset buf), walk, ← hmap, List.mem_map]
  constructor
  · rintro ⟨fuel, offs', hoffs', hall⟩ off hlt hreach
    obtain ⟨o, ho, rfl⟩ := (hmem off).mp ⟨hlt, hreach⟩
    rw [dirLoop_unique hoffs' hoffs] at hall
    exact hall o ho
  · intro hall
    refine ⟨_, offs, hoffs, fun o ho => ?_⟩
    obtain ⟨hlt, hreach⟩ := (hmem o.toNat).mpr ⟨o, ho, rfl⟩
    exact hall o.toNat hlt hreach

/-! ### The accesses at an entry -/

/-- The bytes read by `strncpy` are inside exactly when the name ends there. -/
theorem strncpyReads_inside : ∀ (n k : ℕ), (∀ a ∈ strncpyReads buf n k, a.Inside g) ↔
    n = 0 ∨ k + n ≤ g.blockSize.toNat ∨ ∃ j < n, k + j < g.blockSize.toNat ∧ buf (k + j) = 0
  | 0, k => by simp [strncpyReads]
  | n + 1, k => by
    rw [strncpyReads, List.forall_mem_cons]
    rw [inside_buffer]
    by_cases hz : buf k = 0
    · rw [if_pos hz]
      constructor
      · rintro ⟨hk, -⟩
        exact .inr (.inr ⟨0, Nat.succ_pos n, hk, hz⟩)
      · rintro (h | h | ⟨j, -, hj, -⟩)
        · cases h
        · exact ⟨by omega, fun a ha => by cases ha⟩
        · exact ⟨by omega, fun a ha => by cases ha⟩
    · rw [if_neg hz, strncpyReads_inside n (k + 1)]
      constructor
      · rintro ⟨hk, rfl | h | ⟨j, hj, hlt, h0⟩⟩
        · exact .inr (.inl (by omega))
        · exact .inr (.inl (by omega))
        · exact .inr (.inr ⟨j + 1, by omega, by omega, by rwa [← Nat.add_assoc, Nat.add_right_comm]⟩)
      · rintro (h | h | ⟨_ | j, hj, hlt, h0⟩)
        · cases h
        · exact ⟨by omega, .inr (.inl (by omega))⟩
        · exact absurd h0 hz
        · refine ⟨by omega, .inr (.inr ⟨j, by omega, by omega, ?_⟩)⟩
          rwa [Nat.add_right_comm, Nat.add_assoc]

/-- The accesses that all walks make. -/
theorem entryAccesses_inside : (∀ a ∈ entryAccesses buf off, a.Inside g) ↔ off + 6 < g.blockSize.toNat ∧
    NameEnds g.blockSize.toNat buf off ∧ (dentryAt buf off).nameLen < ext2NameLen := by
  unfold entryAccesses NameEnds
  simp only [List.cons_append, List.forall_mem_cons, List.forall_mem_append, strncpyReads_inside, List.forall_mem_map,
    List.mem_range, List.not_mem_nil, false_imp_iff, implies_true, and_true, inside_buffer, inside_name]
  constructor
  · rintro ⟨h6, ⟨⟨hname, -⟩, hroom⟩, -⟩
    exact ⟨h6, hname, hroom⟩
  · rintro ⟨h6, hname, hroom⟩
    exact ⟨h6, ⟨⟨hname, fun k hk => hk.trans hroom⟩, hroom⟩, fun k hk => by omega⟩

theorem searchAccesses_inside : (∀ a ∈ searchAccesses g buf off, a.Inside g) ↔
    ((dentryAt buf off).inode ≤ (flagCount g).toNat → nameAt buf off = topSecretBytes →
      off + dentrySize ≤ g.blockSize.toNat) := by
  unfold searchAccesses
  split_ifs with h
  · simp only [List.forall_mem_map, List.mem_range, inside_buffer, h.1, h.2, true_imp_iff]
    refine ⟨fun hall => ?_, fun hle k hk => by omega⟩
    have hlast := hall (dentrySize - 1) (by decide)
    have hpos : 0 < dentrySize := by decide
    omega
  · exact ⟨fun _ h1 h2 => absurd ⟨h1, h2⟩ h, fun _ a ha => by cases ha⟩

theorem flagAccesses_inside : (∀ a ∈ flagAccesses g buf off, a.Inside g) ↔
    (nameAt buf off ≠ [] → (dentryAt buf off).inode ≠ (flagCount g).toNat) := by
  unfold flagAccesses
  split_ifs with h
  · simp only [List.forall_mem_cons, List.not_mem_nil, false_imp_iff, implies_true, and_true, inside_inodeIsJpg]
    exact ⟨fun hlt _ => hlt.ne, fun hne => lt_of_le_of_ne h.1 (hne h.2)⟩
  · refine ⟨fun _ h2 heq => h ⟨heq.le, h2⟩, fun _ a ha => by cases ha⟩

/-- **The accesses at an entry are inside exactly when it fits.** -/
theorem accesses_inside : (∀ a ∈ w.accesses g buf off, a.Inside g) ↔ Fits w g buf off := by
  unfold Scan.accesses
  rw [List.forall_mem_append, entryAccesses_inside]
  cases w with
  | search =>
    show _ ∧ (∀ a ∈ searchAccesses g buf off, a.Inside g) ↔ _
    rw [searchAccesses_inside]
    exact ⟨fun h => ⟨h.1.1, h.1.2.1, h.1.2.2, fun _ => h.2, fun hne => absurd rfl hne⟩,
      fun h => ⟨⟨h.header, h.name, h.room⟩, h.whole rfl⟩⟩
  | topSecret =>
    show _ ∧ (∀ a ∈ flagAccesses g buf off, a.Inside g) ↔ _
    rw [flagAccesses_inside]
    exact ⟨fun h => ⟨h.1.1, h.1.2.1, h.1.2.2, fun he => absurd he (by decide), fun _ => h.2⟩,
      fun h => ⟨⟨h.header, h.name, h.room⟩, h.flag (by decide)⟩⟩
  | allJpg =>
    show _ ∧ (∀ a ∈ flagAccesses g buf off, a.Inside g) ↔ _
    rw [flagAccesses_inside]
    exact ⟨fun h => ⟨h.1.1, h.1.2.1, h.1.2.2, fun he => absurd he (by decide), fun _ => h.2⟩,
      fun h => ⟨⟨h.header, h.name, h.room⟩, h.flag (by decide)⟩⟩

/-- **When a walk over a directory block is safe**: all entries that it comes to fit. -/
theorem safe_iff (w : Scan) (super : SuperBlock) (buf : Buffer) : Safe w super buf ↔
    ∀ off < (geometry super).blockSize.toNat, Reach (nextOffset buf) 24 off → Fits w (geometry super) buf off := by
  rw [safe_iff_forall]
  exact forall₃_congr fun off _ _ => accesses_inside

/-! ### A directory with one file -/

/-- A block of 1024 bytes: `.`, `..`, and the file `a` (inode 11) in a record up to the end of the block. -/
def oneFileBlock : Buffer := fun k => ([
  2, 0, 0, 0,  12, 0, 1, 2,  46, 0, 0, 0,
  2, 0, 0, 0,  12, 0, 2, 2,  46, 46, 0, 0,
  11, 0, 0, 0,  232, 3, 1, 1,  97, 0, 0, 0] : List UInt8).getD k 0

theorem dirBlock_oneFileBlock : DirBlock oneFileBlock 1024 [24] where
  chain := .cons (by decide) (by decide) (.cons (by decide) (by decide) (.cons (by decide) (by decide) .nil))
  dot := ⟨by unfold visitAt; congr 1, by decide⟩
  dotdot := ⟨by unfold visitAt; congr 1, by decide⟩

theorem oneFileBlock_zero {k : ℕ} (hk : 36 ≤ k) : oneFileBlock k = 0 := List.getD_eq_default _ _ hk

/-- Behind the name the walk takes steps of 8 bytes. -/
theorem reach_oneFileBlock : ∀ n : ℕ, Reach (nextOffset oneFileBlock) 24 (36 + 8 * n)
  | 0 => reach_iff.mpr (.inr Relation.ReflTransGen.refl)
  | n + 1 => by
    refine Relation.ReflTransGen.tail (reach_oneFileBlock n) ?_
    have hzero : (dentryAt oneFileBlock (36 + 8 * n)).nameLen = 0 := by
      show (oneFileBlock (36 + 8 * n + 6)).toNat = 0
      rw [oneFileBlock_zero (by omega)]
      rfl
    unfold nextOffset align4
    rw [hzero]
    split_ifs <;> omega

/-- In this block the walk comes to byte 1020, four bytes before the end, and reads `name_len` behind it. -/
theorem not_safe_oneFileBlock : DirBlock oneFileBlock 1024 [24] ∧
    ∀ w, ¬ Safe w (readSuperBlock oneKib) oneFileBlock := by
  refine ⟨dirBlock_oneFileBlock, fun w h => ?_⟩
  have hfits := (safe_iff_forall.mp h) 1020 (by decide) (reach_oneFileBlock 123)
  exact absurd (accesses_inside.mp hfits).header (by decide)

end OperatingSystems.RunScan.Bounds
