import Mathlib.Tactic
import OperatingSystems.RunScan.TopSecret

/-! # Runscan: the inode of `top_secret`

The scan gives inode `i` of group `ngroup` the number `ngroup * inodes_per_group + i`, with `i` from 1
to `inodes_per_group`. The mode for `top_secret` takes a number apart again: it reads inode
`k % inodes_per_group` of group `k / inodes_per_group`.

* `scanPlace`, `lookup`: the group and the offset of both reads.
* `Agrees`: wherever the scan read an inode that it numbered `k`, the mode reads it too.
* `agrees_iff`: so it is unless `k` is the last number of a group, or a second inode gets the number
  `k` because the numbers reach `2 ^ 32`. -/

namespace OperatingSystems.RunScan.Lookup

open OperatingSystems.RunScan.Copy (Disk)
open OperatingSystems.RunScan.Geometry OperatingSystems.RunScan.Output
open OperatingSystems.RunScan.TopSecret (zeroEnv)

/-- The group of an inode and the offset in the image that it is read at. -/
structure Place where
  group : ℕ
  offset : ℤ
deriving DecidableEq

/-- Where the scan reads inode `i` of group `ngroup`. -/
def scanPlace (d : Disk) (g : Globals) (ngroup i : ℕ) : Place :=
  ⟨ngroup, (visitInode d (readSuperBlock d) g ngroup i).offset⟩

/-- The number that the scan gives this inode. -/
def scanNumber (d : Disk) (g : Globals) (ngroup i : ℕ) : UInt32 :=
  (visitInode d (readSuperBlock d) g ngroup i).number

/-- Where the mode for `top_secret` reads inode `k`. -/
def lookup (env : Env) (d : Disk) (g : Globals) (k : UInt32) : Place :=
  let ngroup := (k / g.inodesPerGroup).toNat
  ⟨ngroup, inodeOffset (tableOf env d g ngroup) (k % g.inodesPerGroup).toNat
    (readSuperBlock d).sInodeSize⟩

/-- **Both sides agree on `k`**: each inode that the scan numbered `k` is the one that the mode for
`top_secret` reads for `k`, in a group that there is. -/
def Agrees (env : Env) (d : Disk) (g : Globals) (k : UInt32) : Prop :=
  (lookup env d g k).group < g.numGroups.toNat ∧
    ∀ ngroup < g.numGroups.toNat, ∀ i, 1 ≤ i → i ≤ g.inodesPerGroup.toNat →
      scanNumber d g ngroup i = k → lookup env d g k = scanPlace d g ngroup i

variable {env : Env} {d : Disk} {g : Globals} {k : UInt32}

/-- The mode for `top_secret` reads its inode there. -/
theorem topSecretInode_eq (env : Env) (d : Disk) (g : Globals) (k : UInt32) :
    topSecretInode env d g k.toNat = readInode env d (lookup env d g k).offset := by
  unfold topSecretInode lookup
  rw [UInt32.toNat_div, UInt32.toNat_mod]

/-! ### Numbers from 1 -/

section Radix

variable {n i p : ℕ}

/-- Below the last number of a group, quotient and remainder give back the two parts. -/
theorem div_mod_of_lt (hi : i < p) : (n * p + i) / p = n ∧ (n * p + i) % p = i := by
  refine ⟨?_, ?_⟩
  · rw [Nat.mul_comm, Nat.mul_add_div (by omega), Nat.div_eq_of_lt hi, Nat.add_zero]
  · rw [Nat.mul_comm, Nat.mul_add_mod, Nat.mod_eq_of_lt hi]

/-- The last number of a group falls to the next one. -/
theorem div_last (hp : 1 ≤ p) : (n * p + p) / p = n + 1 := by
  rw [← Nat.succ_mul, Nat.mul_div_cancel _ hp]

/-- Every number from 1 on belongs to one inode of one group. -/
theorem exists_parts {k m : ℕ} (hp : 1 ≤ p) (h1 : 1 ≤ k) (hk : k ≤ m * p) :
    ∃ n < m, ∃ i, 1 ≤ i ∧ i ≤ p ∧ n * p + i = k := by
  have hdiv : (k - 1) / p * p + (k - 1) % p = k - 1 := Nat.div_add_mod' _ _
  have hlt : (k - 1) % p < p := Nat.mod_lt _ hp
  refine ⟨(k - 1) / p, ?_, (k - 1) % p + 1, by omega, by omega, by omega⟩
  rw [Nat.div_lt_iff_lt_mul hp]
  omega

/-- The last group of a number in range is in range. -/
theorem parts_le {m : ℕ} (hn : n < m) (hi : i ≤ p) : n * p + i ≤ m * p :=
  calc n * p + i ≤ n * p + p := by omega
    _ = (n + 1) * p := (Nat.succ_mul n p).symm
    _ ≤ m * p := Nat.mul_le_mul_right p hn

end Radix

/-! ### The two sides -/

/-- The number of an inode, in 32 bits. -/
theorem toNat_scanNumber (n i : ℕ) :
    (scanNumber d g n i).toNat = (n * g.inodesPerGroup.toNat + i) % 2 ^ 32 := by
  unfold scanNumber visitInode
  rw [UInt32.toNat_add, UInt32.toNat_mul, UInt32.toNat_ofNat', UInt32.toNat_ofNat', Nat.mod_mul_mod,
    Nat.add_mod_mod, Nat.mod_add_mod]

theorem lookup_group (env : Env) (d : Disk) (g : Globals) (k : UInt32) :
    (lookup env d g k).group = k.toNat / g.inodesPerGroup.toNat := UInt32.toNat_div k _

/-- In a group that there is, both sides seek from the same table. -/
theorem lookup_eq_scanPlace (hk : k.toNat / g.inodesPerGroup.toNat < g.numGroups.toNat) :
    lookup env d g k = scanPlace d g (k.toNat / g.inodesPerGroup.toNat)
      (k.toNat % g.inodesPerGroup.toNat) := by
  simp only [lookup, scanPlace, visitInode, tableOf, UInt32.toNat_div, UInt32.toNat_mod, if_pos hk]

/-- **A multiple of `inodes_per_group` is looked up one group too far.** -/
theorem not_agrees_of_last (hp : 1 ≤ g.inodesPerGroup.toNat) (h1 : 1 ≤ k.toNat)
    (hk : k.toNat ≤ g.numGroups.toNat * g.inodesPerGroup.toNat)
    (hlast : k.toNat % g.inodesPerGroup.toNat = 0) : ¬ Agrees env d g k := by
  rintro ⟨-, hagree⟩
  obtain ⟨n, hn, i, hi1, hip, heq⟩ := exists_parts hp h1 hk
  have hi : i = g.inodesPerGroup.toNat := by
    by_contra hne
    have hmod := (div_mod_of_lt (n := n) (show i < g.inodesPerGroup.toNat by omega)).2
    rw [heq] at hmod
    omega
  have hnum : scanNumber d g n i = k := by
    apply UInt32.toNat_inj.mp
    rw [toNat_scanNumber, heq, Nat.mod_eq_of_lt k.toNat_lt]
  have hgroup := congrArg Place.group (hagree n hn i hi1 hip hnum)
  rw [lookup_group, ← heq, hi, div_last hp] at hgroup
  exact absurd hgroup (Nat.succ_ne_self n)

/-- A number that comes up again after `2 ^ 32` inodes is another inode's as well. -/
theorem not_agrees_of_wrap (hp : 1 ≤ g.inodesPerGroup.toNat)
    (hwrap : k.toNat + 2 ^ 32 ≤ g.numGroups.toNat * g.inodesPerGroup.toNat) :
    ¬ Agrees env d g k := by
  rintro ⟨-, hagree⟩
  obtain ⟨n, hn, i, hi1, hip, heq⟩ := exists_parts hp (by omega) hwrap
  have hnum : scanNumber d g n i = k := by
    apply UInt32.toNat_inj.mp
    rw [toNat_scanNumber, heq, Nat.add_mod_right, Nat.mod_eq_of_lt k.toNat_lt]
  have hgroup : k.toNat / g.inodesPerGroup.toNat = n := by
    rw [← lookup_group env d]
    exact congrArg Place.group (hagree n hn i hi1 hip hnum)
  have hlt := g.inodesPerGroup.toNat_lt
  have hle : n * g.inodesPerGroup.toNat ≤ k.toNat := hgroup ▸ Nat.div_mul_le_self _ _
  omega

/-- Otherwise the one inode numbered `k` is found again. -/
theorem agrees_of_mod_ne (hk : k.toNat ≤ g.numGroups.toNat * g.inodesPerGroup.toNat)
    (hp : 1 ≤ g.inodesPerGroup.toNat) (hmod : k.toNat % g.inodesPerGroup.toNat ≠ 0)
    (hone : g.numGroups.toNat * g.inodesPerGroup.toNat < k.toNat + 2 ^ 32) : Agrees env d g k := by
  have hgroup : k.toNat / g.inodesPerGroup.toNat < g.numGroups.toNat := by
    rw [Nat.div_lt_iff_lt_mul hp]
    refine lt_of_le_of_ne hk fun heq => hmod ?_
    rw [heq, Nat.mul_mod_left]
  refine ⟨by rwa [lookup_group], fun n hn i hi1 hip hnum => ?_⟩
  have hlt := k.toNat_lt
  have hmem := parts_le hn hip
  have hkn : n * g.inodesPerGroup.toNat + i = k.toNat := by
    have hnat := toNat_scanNumber (d := d) (g := g) n i
    rw [hnum] at hnat
    omega
  have hi : i < g.inodesPerGroup.toNat := by
    refine lt_of_le_of_ne hip fun heq => hmod ?_
    rw [← hkn, heq, Nat.add_mod_right, Nat.mul_mod_left]
  rw [lookup_eq_scanPlace hgroup, ← hkn, (div_mod_of_lt hi).1, (div_mod_of_lt hi).2]

/-- **When the lookup agrees with the scan.** -/
theorem agrees_iff (env : Env) (d : Disk) (g : Globals) (k : UInt32)
    (hp : 1 ≤ g.inodesPerGroup.toNat) (h1 : 1 ≤ k.toNat)
    (hk : k.toNat ≤ g.numGroups.toNat * g.inodesPerGroup.toNat) :
    Agrees env d g k ↔ k.toNat % g.inodesPerGroup.toNat ≠ 0 ∧
      g.numGroups.toNat * g.inodesPerGroup.toNat < k.toNat + 2 ^ 32 := by
  constructor
  · intro h
    refine ⟨fun hlast => not_agrees_of_last hp h1 hk hlast h, ?_⟩
    by_contra hwrap
    exact not_agrees_of_wrap hp (not_lt.mp hwrap) h
  · rintro ⟨hmod, hone⟩
    exact agrees_of_mod_ne hk hp hmod hone

/-- In an image with one group of 128 inodes, inode 100 is found again. -/
theorem agrees_oneKib : Agrees zeroEnv oneKib (geometry (readSuperBlock oneKib)) 100 :=
  (agrees_iff zeroEnv oneKib (geometry (readSuperBlock oneKib)) 100 (by decide) (by decide)
    (by decide)).mpr ⟨by decide, by decide⟩

/-- Inode 128 of this image is its last; it is looked up in group 1, which is not there. -/
theorem not_agrees_oneKib : 1 ≤ (128 : UInt32).toNat ∧
    (128 : UInt32).toNat ≤ (geometry (readSuperBlock oneKib)).numGroups.toNat *
      (geometry (readSuperBlock oneKib)).inodesPerGroup.toNat ∧
    ¬ Agrees zeroEnv oneKib (geometry (readSuperBlock oneKib)) 128 :=
  ⟨by decide, by decide, not_agrees_of_last (by decide) (by decide) (by decide) (by decide)⟩

end OperatingSystems.RunScan.Lookup
